import Pmon.PciProbe

/-!
# The functions that are found

`_pci_query_dev` stops at the first missing function, and never looks at the last one.
-/

namespace Pmon.Pci.Probe
open List

def pcimaxDev : ℕ := 16

/-- A bus, a device on it and a function of the device. -/
abbrev Place := ℕ × ℕ × ℕ

def queryDevFunc (devs : List Place) (place : Place) : List Place :=
  if devs.length<pcimaxDev then devs++[place] else devs

variable (pr : Probe)

def multi (bus device : ℕ) : Bool := (pr.conf (pciMakeTag bus device 0) 0x0c >>> 16) &&& 0x80 ≠ 0

def queryFuncs (bus device : ℕ) : ℕ → ℕ → List Place → List Place
  | 0, _, devs => devs
  | n+1, function, devs =>
    if pr.present bus device function then
      queryFuncs bus device n (function+1) (queryDevFunc devs (bus,device,function))
    else devs

def queryDev (bus : ℕ) (devs : List Place) (device : ℕ) : List Place :=
  if pr.canscan (pciMakeTag bus device 0) ∧ pr.present bus device 0 then
    if pr.multi bus device then pr.queryFuncs bus device pciFuncmax 0 devs
    else queryDevFunc devs (bus,device,0)
  else devs

def scan (nbus : ℕ) : List Place := (List.range nbus).foldl
    (fun devs bus => (List.range (pciDevmax+1)).foldl (pr.queryDev bus) devs) []

def places (nbus : ℕ) : List Place :=
  (List.range nbus).flatMap fun bus => (List.range (pciDevmax+1)).flatMap fun device =>
    (List.range 8).map fun function => (bus,device,function)

structure Regular (nbus : ℕ) : Prop where
  few : ((places nbus).filter fun p => pr.present p.1 p.2.1 p.2.2).length≤pcimaxDev
  first : ∀ p∈places nbus, pr.present p.1 p.2.1 p.2.2 →
    pr.present p.1 p.2.1 0 ∧ (p.2.2≠0 → pr.multi p.1 p.2.1)

/-- Each function of a device that may be scanned is on record once, and no others are. -/
structure Complete (nbus : ℕ) (devs : List Place) : Prop where
  once : devs.Nodup
  mem : ∀ p, p∈devs ↔
    p∈places nbus ∧ pr.canscan (pciMakeTag p.1 p.2.1 0) ∧ pr.present p.1 p.2.1 p.2.2

def functions (bus device : ℕ) : List ℕ :=
  if pr.canscan (pciMakeTag bus device 0) ∧ pr.present bus device 0 then
    if pr.multi bus device then (List.range' 0 pciFuncmax).takeWhile (pr.present bus device)
    else [0]
  else []

def found (nbus : ℕ) : List Place :=
  (List.range nbus).flatMap fun bus => (List.range (pciDevmax+1)).flatMap fun device =>
    (pr.functions bus device).map fun function => (bus,device,function)

variable {pr} {bus device f nbus : ℕ}

theorem mem_places {p : Place} :
    p∈places nbus ↔ p.1<nbus ∧ p.2.1<pciDevmax+1 ∧ p.2.2<8 := by
  obtain ⟨b,d,f⟩ := p
  simp [places]

theorem mem_found {p : Place} : p∈pr.found nbus ↔
      p.1<nbus ∧ p.2.1<pciDevmax+1 ∧ p.2.2∈pr.functions p.1 p.2.1 := by
  obtain ⟨b,d,f⟩ := p
  simp [found]

theorem mem_takeWhile_range' (p : ℕ → Bool) (a n : ℕ) : f∈(range' a n).takeWhile p ↔
      a≤f ∧ f<a+n ∧ ∀ g, a≤g → g≤f → p g=true := by
  induction n generalizing a with
  | zero => exact ⟨fun h => absurd h not_mem_nil,fun ⟨_,_,_⟩ => by omega⟩
  | succ n ih =>
    rw [range'_succ,takeWhile_cons]
    split
    · rename_i ha
      rw [mem_cons,ih]
      constructor
      · rintro (rfl | ⟨hle,hlt,hall⟩)
        · exact ⟨le_rfl,by omega,fun g hg hg' => le_antisymm hg' hg ▸ ha⟩
        · refine ⟨by omega,by omega,fun g hg hg' => ?_⟩
          rcases eq_or_lt_of_le hg with rfl | hg
          · exact ha
          · exact hall g hg hg'
      · rintro ⟨hle,hlt,hall⟩
        rcases eq_or_lt_of_le hle with rfl | hle
        · exact .inl rfl
        · exact .inr ⟨hle,by omega,fun g hg => hall g (by omega)⟩
    · rename_i ha
      refine ⟨fun h => absurd h not_mem_nil,fun ⟨hle,_,hall⟩ => ?_⟩
      exact absurd (hall a le_rfl hle) ha

theorem mem_functions : f∈pr.functions bus device ↔
    (pr.canscan (pciMakeTag bus device 0) ∧ pr.present bus device 0) ∧
      (if pr.multi bus device then f<pciFuncmax ∧ ∀ g≤f, pr.present bus device g
        else f=0) := by
  rw [functions]
  split
  · rename_i hscan
    rw [and_iff_right hscan]
    split
    · rw [mem_takeWhile_range']
      simp
    · exact mem_singleton
  · rename_i hscan
    simp [hscan]

theorem foldl_queryDevFunc (l devs : List Place) (hdevs : devs.length≤pcimaxDev) :
    l.foldl queryDevFunc devs=(devs++l).take pcimaxDev := by
  induction l generalizing devs with
  | nil => rw [append_nil,take_of_length_le hdevs,foldl_nil]
  | cons p l ih =>
    rw [foldl_cons,queryDevFunc]
    split
    · rename_i hroom
      rw [ih _ (by rw [length_append]; exact hroom),append_assoc]
      rfl
    · rename_i hfull
      have hlen : pcimaxDev=devs.length := by omega
      rw [ih _ hdevs,hlen,take_left,take_left]

theorem queryFuncs_eq (n f : ℕ) (devs : List Place) : pr.queryFuncs bus device n f devs =
      (((range' f n).takeWhile (pr.present bus device)).map (bus,device,·)).foldl
        queryDevFunc devs := by
  induction n generalizing f devs with
  | zero => rfl
  | succ n ih =>
    rw [queryFuncs,range'_succ,takeWhile_cons]
    split
    · exact ih _ _
    · rfl

theorem queryDev_eq (devs : List Place) : pr.queryDev bus devs device =
      ((pr.functions bus device).map (bus,device,·)).foldl queryDevFunc devs := by
  rw [queryDev,functions]
  split
  · split
    · exact queryFuncs_eq _ _ devs
    · rfl
  · rfl

theorem scan_eq (nbus : ℕ) : pr.scan nbus=(pr.found nbus).take pcimaxDev := by
  have h := foldl_queryDevFunc (pr.found nbus) [] (Nat.zero_le _)
  rw [nil_append] at h
  rw [←h,found,foldl_flatMap,scan]
  simp only [foldl_flatMap,←queryDev_eq]

theorem nodup_found (nbus : ℕ) : (pr.found nbus).Nodup := by
  have hfunctions : ∀ b d, (pr.functions b d).Nodup := by
    intro b d
    rw [functions]
    split
    · split
      · exact (takeWhile_sublist _).nodup nodup_range'
      · exact nodup_singleton 0
    · exact nodup_nil
  rw [found,nodup_flatMap]
  refine ⟨fun b _ => nodup_flatMap.mpr ⟨fun d _ => ?_,?_⟩,?_⟩
  · exact (hfunctions b d).map fun _ _ h => (Prod.mk.inj (Prod.mk.inj h).2).2
  · refine nodup_range.imp fun {d d'} hne => ?_
    simpa [Function.onFun,List.Disjoint] using fun _ _ _ _ h => absurd h hne.symm
  · refine nodup_range.imp fun {b b'} hne => ?_
    simpa [Function.onFun,List.Disjoint] using
      fun a _ _ _ _ _ _ hb _ _ _ _ _ _ hb' => absurd (hb.trans hb'.symm) hne

theorem of_mem_found {p : Place} (h : p∈pr.found nbus) :
    p∈places nbus ∧ pr.canscan (pciMakeTag p.1 p.2.1 0) ∧ pr.present p.1 p.2.1 p.2.2 ∧
      p.2.2<pciFuncmax ∧ ∀ g≤p.2.2, pr.present p.1 p.2.1 g := by
  obtain ⟨hbus,hdevice,hfunction⟩ := mem_found.mp h
  obtain ⟨⟨hscan,hzero⟩,hf⟩ := mem_functions.mp hfunction
  rw [mem_places]
  split at hf
  · exact ⟨⟨hbus,hdevice,by have := hf.1; rw [pciFuncmax] at this; omega⟩,hscan,
      hf.2 _ le_rfl,hf⟩
  · rw [hf]
    exact ⟨⟨hbus,hdevice,by decide⟩,hscan,hzero,by decide,fun g hg => by
      rwa [Nat.le_zero.mp hg]⟩

theorem Regular.scan_eq_found (h : pr.Regular nbus) : pr.scan nbus=pr.found nbus := by
  have hsubset : pr.found nbus ⊆ (places nbus).filter fun p => pr.present p.1 p.2.1 p.2.2 := by
    intro p hp
    obtain ⟨hplace,_,hpresent,_⟩ := of_mem_found hp
    exact mem_filter.mpr ⟨hplace,hpresent⟩
  rw [scan_eq,take_of_length_le]
  exact ((nodup_found nbus).subperm hsubset).length_le.trans h.few

/-- The scan is complete exactly when the functions have no gap and there is no function 7. -/
theorem scan_complete_iff (h : pr.Regular nbus) : pr.Complete nbus (pr.scan nbus) ↔
      ∀ p∈places nbus, pr.canscan (pciMakeTag p.1 p.2.1 0) → pr.present p.1 p.2.1 p.2.2 →
        p.2.2<pciFuncmax ∧ ∀ g≤p.2.2, pr.present p.1 p.2.1 g := by
  rw [h.scan_eq_found]
  constructor
  · intro hcomplete p hp hscan hpresent
    exact (of_mem_found ((hcomplete.mem p).mpr ⟨hp,hscan,hpresent⟩)).2.2.2
  · refine fun hall => ⟨nodup_found nbus, fun p => ⟨fun hp => ?_,?_⟩⟩
    · obtain ⟨hplace,hscan,hpresent,_⟩ := of_mem_found hp
      exact ⟨hplace,hscan,hpresent⟩
    · rintro ⟨hplace,hscan,hpresent⟩
      obtain ⟨hzero,hmulti⟩ := h.first p hplace hpresent
      obtain ⟨hbus,hdevice,_⟩ := mem_places.mp hplace
      refine mem_found.mpr ⟨hbus,hdevice,mem_functions.mpr ⟨⟨hscan,hzero⟩,?_⟩⟩
      split
      · exact hall p hplace hscan hpresent
      · rename_i hsingle
        by_contra hne
        exact hsingle (hmulti hne)

def oneDevice (fs : List ℕ) : Probe where
  conf tag reg :=
    if fs.any fun f => tag=pciMakeTag 0 0 f then if reg=0x0c then 0x00800000 else 1 else 0
  canscan _ := true

theorem regular_oneDevice_pair : (oneDevice [0,1]).Regular 1 :=
  ⟨by decide +kernel,by decide +kernel⟩

theorem scan_complete_pair : (oneDevice [0,1]).Complete 1 ((oneDevice [0,1]).scan 1) :=
  (scan_complete_iff regular_oneDevice_pair).mpr (by decide +kernel)

theorem scan_misses_function : (oneDevice [0,2]).scan 1=[(0,0,0)] ∧
      (oneDevice (List.range 8)).scan 1=(List.range 7).map fun f => (0,0,f) := by
  decide +kernel

end Pmon.Pci.Probe
