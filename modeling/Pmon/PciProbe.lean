import Mathlib.Combinatorics.Pigeonhole
import Mathlib.Data.List.Nodup
import Pmon.PciNumbers

/-!
# Probing the configuration space

`_pci_ppbfind` follows the bus numbers it finds in the bridges; `_pci_configure` then records the
functions.
-/

namespace Pmon.Pci

def pciFuncmax : ℕ := 7

structure Probe where
  conf : ℕ → ℕ → BitVec 32
  canscan : ℕ → Bool

namespace Probe
open List
variable (pr : Probe)

def present (bus device function : ℕ) : Bool :=
  let id := pr.conf (pciMakeTag bus device function) 0x00
  id≠0 ∧ id≠0xffffffff

def isBridge (bus device : ℕ) : Bool :=
  let cls := pr.conf (pciMakeTag bus device 0) 0x08
  (cls >>> 24) &&& 0xff = 0x06 ∧ (cls >>> 16) &&& 0xff = 0x04

def next (maxbus bus device : ℕ) : Option ℕ :=
  let tag := pciMakeTag bus device 0
  let sbus := ((pr.conf tag ppbBusReg >>> 8) &&& 0xff).toNat
  if device≤pciDevmax ∧ pr.canscan tag ∧ pr.present bus device 0 ∧ pr.isBridge bus device ∧
      sbus≠0 ∧ sbus < maxbus then some sbus
  else none

def ppbfindLoop (maxbus : ℕ) (find : ℕ → Option (List (List ℕ))) (bus : ℕ) :
    List ℕ → Option (List (List ℕ))
  | [] => some []
  | device::devices =>
    match pr.next maxbus bus device with
    | none => ppbfindLoop maxbus find bus devices
    | some sbus =>
      (find sbus).bind fun ways =>
        (ppbfindLoop maxbus find bus devices).map fun rest =>
          [device]::ways.map (device :: ·)++rest

def ppbfind (maxbus : ℕ) : ℕ → ℕ → Option (List (List ℕ))
  | 0, _ => none
  | depth+1, bus =>
    pr.ppbfindLoop maxbus (ppbfind maxbus depth) bus (List.range (pciDevmax+1))

def bridgeAt (maxbus : ℕ) : ℕ → List ℕ → Option (ℕ × ℕ)
  | _, [] => none
  | bus, [device] => (pr.next maxbus bus device).map fun _ => (bus,device)
  | bus, device::way => (pr.next maxbus bus device).bind (bridgeAt maxbus · way)

def UniqueWays (maxbus bus : ℕ) : Prop :=
  ∀ way way' bridge, pr.bridgeAt maxbus bus way=some bridge →
    pr.bridgeAt maxbus bus way'=some bridge → way=way'

variable {pr} {maxbus bus sbus device depth : ℕ} {devices way : List ℕ} {bridge : ℕ × ℕ}
  {ways : List (List ℕ)} {find : ℕ → Option (List (List ℕ))}

theorem bridgeAt_cons (hnext : pr.next maxbus bus device=some sbus) (way : List ℕ) :
    pr.bridgeAt maxbus bus (device::way) =
      if way=[] then some (bus,device) else pr.bridgeAt maxbus sbus way := by
  cases way with
  | nil => simp [bridgeAt,hnext]
  | cons d way => simp [bridgeAt,hnext]

theorem bridgeAt_cons_none (hnext : pr.next maxbus bus device=none) (way : List ℕ) :
    pr.bridgeAt maxbus bus (device::way)=none := by
  cases way with
  | nil => simp [bridgeAt,hnext]
  | cons d way => simp [bridgeAt,hnext]

structure Ways (pr : Probe) (maxbus bus : ℕ) (devices : List ℕ) (ways : List (List ℕ)) :
    Prop where
  mem : ∀ way, way∈ways ↔
    (pr.bridgeAt maxbus bus way).isSome ∧ ∀ device∈way.head?, device∈devices
  nodup : ways.Nodup

theorem ppbfindLoop_ways (hfind : ∀ {sbus ways}, find sbus=some ways → ways.Nodup ∧
      ∀ way, way∈ways ↔ (pr.bridgeAt maxbus sbus way).isSome)
    (hdevices : devices.Nodup) (h : pr.ppbfindLoop maxbus find bus devices=some ways) :
    Ways pr maxbus bus devices ways := by
  induction devices generalizing ways with
  | nil =>
    cases h
    refine ⟨fun way => ?_,nodup_nil⟩
    cases way <;> simp [bridgeAt]
  | cons d devices ih =>
    obtain ⟨hd,hrest⟩ := nodup_cons.mp hdevices
    rw [ppbfindLoop] at h
    cases hnext : pr.next maxbus bus d with
    | none =>
      rw [hnext] at h
      obtain ⟨hmem,hnodup⟩ := ih hrest h
      refine ⟨fun way => (hmem way).trans (and_congr_right fun hway => ?_),hnodup⟩
      cases way with
      | nil => simp
      | cons d' way =>
        have hne : d'≠d := by
          rintro rfl
          rw [bridgeAt_cons_none hnext] at hway
          cases hway
        simp [hne]
    | some sbus =>
      rw [hnext] at h
      obtain ⟨behind,hbehind,hmap⟩ := Option.bind_eq_some_iff.mp h
      obtain ⟨rest,hloop,rfl⟩ := Option.map_eq_some_iff.mp hmap
      obtain ⟨hnodup,hmem⟩ := hfind hbehind
      obtain ⟨hmemRest,hnodupRest⟩ := ih hrest hloop
      have hstart : ∀ way, d::way∉rest := fun way hway =>
        hd (((hmemRest _).mp hway).2 d rfl)
      constructor
      · intro way
        cases way with
        | nil => simp [hmemRest,bridgeAt]
        | cons d' way =>
          rcases eq_or_ne d' d with rfl | hne
          · rw [bridgeAt_cons hnext]
            by_cases hway : way=[] <;> simp [hway,hstart,hmem]
          · simp [hmemRest,hne,hne.symm]
      · have hnil : []∉behind := by simp [hmem,bridgeAt]
        rw [cons_append,nodup_cons,nodup_append]
        refine ⟨by simp [hnil,hstart],hnodup.map fun _ _ heq => (List.cons.inj heq).2,
          hnodupRest,?_⟩
        rintro _ hway _ hway' rfl
        obtain ⟨way,-,rfl⟩ := mem_map.mp hway
        exact hstart way hway'

theorem ppbfind_ways (h : pr.ppbfind maxbus depth bus=some ways) :
    ways.Nodup ∧ ∀ way, way∈ways ↔ (pr.bridgeAt maxbus bus way).isSome := by
  induction depth generalizing bus ways with
  | zero => cases h
  | succ depth ih =>
    obtain ⟨hmem,hnodup⟩ := ppbfindLoop_ways (fun hfind => ih hfind) nodup_range h
    refine ⟨hnodup,fun way => (hmem way).trans (and_iff_left_of_imp fun hway d hd => ?_)⟩
    obtain ⟨way,rfl⟩ : ∃ way', way=d::way' := head?_eq_some_iff.mp hd
    refine List.mem_range.mpr (Nat.lt_succ_of_le ?_)
    by_contra hmax
    rw [bridgeAt_cons_none (if_neg fun hok => hmax hok.1)] at hway
    cases hway

theorem exists_way_of_ppbfind (h : pr.ppbfind maxbus depth bus=none) :
    ∃ way : List ℕ, way.length=depth ∧
      ∀ k, 0<k → k≤depth → (pr.bridgeAt maxbus bus (way.take k)).isSome := by
  induction depth generalizing bus with
  | zero => exact ⟨[],rfl,fun k hpos hk => absurd hpos (not_lt.mpr hk)⟩
  | succ depth ih =>
    obtain ⟨d,sbus,hnext,hfind⟩ : ∃ d sbus, pr.next maxbus bus d=some sbus ∧
        pr.ppbfind maxbus depth sbus=none := by
      rw [ppbfind] at h
      generalize List.range (pciDevmax+1)=devices at h
      induction devices with
      | nil => cases h
      | cons d devices ihDevices =>
        rw [ppbfindLoop] at h
        cases hnext : pr.next maxbus bus d with
        | none =>
          rw [hnext] at h
          exact ihDevices h
        | some sbus =>
          rw [hnext] at h
          dsimp only at h
          cases hfind : pr.ppbfind maxbus depth sbus with
          | none => exact ⟨d,sbus,hnext,hfind⟩
          | some ways =>
            rw [hfind] at h
            exact ihDevices (Option.map_eq_none_iff.mp h)
    obtain ⟨way,hlen,hway⟩ := ih hfind
    refine ⟨d::way,by rw [length_cons,hlen],fun k hpos hk => ?_⟩
    obtain ⟨k,rfl⟩ := Nat.exists_eq_succ_of_ne_zero hpos.ne'
    rw [take_succ_cons,bridgeAt_cons hnext]
    split
    · rfl
    · rename_i hne
      refine hway k (Nat.pos_of_ne_zero ?_) (Nat.le_of_succ_le_succ hk)
      rintro rfl
      exact hne rfl

theorem bridgeAt_lt (hbus : bus ≤ maxbus) (h : pr.bridgeAt maxbus bus way=some bridge) :
    bridge∈Finset.range (maxbus+1) ×ˢ Finset.range (pciDevmax+1) := by
  induction way generalizing bus with
  | nil => cases h
  | cons d way ih =>
    cases hnext : pr.next maxbus bus d with
    | none =>
      rw [bridgeAt_cons_none hnext] at h
      cases h
    | some sbus =>
      rw [bridgeAt_cons hnext] at h
      rw [next] at hnext
      split at hnext
      · rename_i hok
        cases hnext
        split at h
        · cases h
          rw [Finset.mem_product,Finset.mem_range,Finset.mem_range]
          exact ⟨Nat.lt_succ_of_le hbus,Nat.lt_succ_of_le hok.1⟩
        · exact ih hok.2.2.2.2.2.le h
      · cases hnext

theorem UniqueWays.exists_ppbfind (h : pr.UniqueWays maxbus 0) :
    ∃ depth ways, pr.ppbfind maxbus depth 0=some ways := by
  by_contra hnone
  rw [not_exists] at hnone
  let bridges := Finset.range (maxbus+1) ×ˢ Finset.range (pciDevmax+1)
  obtain ⟨way,hlen,hway⟩ := exists_way_of_ppbfind
    (Option.eq_none_iff_forall_ne_some.mpr (not_exists.mp (hnone (bridges.card+1))))
  let at' := fun k => (pr.bridgeAt maxbus 0 (way.take (k+1))).getD (0,0)
  have hat : ∀ k, k<bridges.card+1 →
      pr.bridgeAt maxbus 0 (way.take (k+1))=some (at' k) := fun k hk =>
    (Option.some_get (hway (k+1) k.succ_pos hk)).symm.trans
      (congrArg some (Option.get_eq_getD _))
  obtain ⟨i,hi,j,hj,hne,heq⟩ := Finset.exists_ne_map_eq_of_card_lt_of_maps_to
    (s := Finset.range (bridges.card+1)) (t := bridges) (f := at') (by simp)
    fun k hk => bridgeAt_lt (Nat.zero_le _) (hat k (Finset.mem_range.mp hk))
  rw [Finset.mem_range] at hi hj
  have hsame := congrArg List.length
    (h _ _ _ (hat i hi) ((hat j hj).trans (congrArg some heq.symm)))
  rw [length_take,length_take,hlen] at hsame
  omega

/-- The probe ends exactly when no bridge can be reached in two ways. -/
theorem ppbfind_iff (pr : Probe) (maxbus : ℕ) :
    (∃ depth ways, pr.ppbfind maxbus depth 0=some ways ∧
        (ways.map (pr.bridgeAt maxbus 0)).Nodup) ↔ pr.UniqueWays maxbus 0 := by
  have hunique : ∀ {depth ways}, pr.ppbfind maxbus depth 0=some ways →
      ((ways.map (pr.bridgeAt maxbus 0)).Nodup ↔ pr.UniqueWays maxbus 0) := by
    intro depth ways h
    obtain ⟨hnodup,hmem⟩ := ppbfind_ways h
    rw [nodup_map_iff_inj_on hnodup]
    constructor
    · intro hinj way way' bridge hway hway'
      exact hinj way ((hmem way).mpr (by rw [hway]; rfl)) way' ((hmem way').mpr (by rw [hway']; rfl))
        (hway.trans hway'.symm)
    · intro h way hway way' _ heq
      obtain ⟨bridge,hbridge⟩ := Option.isSome_iff_exists.mp ((hmem way).mp hway)
      exact h way way' bridge hbridge (heq ▸ hbridge)
  constructor
  · rintro ⟨depth,ways,h,hnodup⟩
    exact (hunique h).mp hnodup
  · intro h
    obtain ⟨depth,ways,hways⟩ := h.exists_ppbfind
    exact ⟨depth,ways,hways,(hunique hways).mpr h⟩

def loopProbe : Probe where
  conf tag reg := if tag=pciMakeTag 0 0 0 ∨ tag=pciMakeTag 1 0 0 then
      if reg=0x00 then 1 else if reg=0x08 then 0x06040000 else if reg=ppbBusReg then 0x0100
      else 0
    else 0
  canscan _ := true

theorem loopProbe_endless : ¬∃ depth ways, loopProbe.ppbfind 3 depth 0=some ways := by
  have hstep : ∀ bus depth, loopProbe.next 3 bus 0=some 1 →
      loopProbe.ppbfind 3 depth 1=none → loopProbe.ppbfind 3 (depth+1) bus=none := by
    intro bus depth hnext hfind
    rw [ppbfind,range_succ_eq_map,ppbfindLoop,hnext]
    dsimp only
    rw [hfind]
    rfl
  have hloop : ∀ depth, loopProbe.ppbfind 3 depth 1=none := by
    intro depth
    induction depth with
    | zero => rfl
    | succ depth ih => exact hstep 1 depth (by decide) ih
  rintro ⟨depth,ways,h⟩
  cases depth with
  | zero => cases h
  | succ depth =>
    rw [hstep 0 depth (by decide) (hloop depth)] at h
    cases h

end Probe
end Pmon.Pci
