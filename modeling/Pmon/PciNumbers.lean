import Pmon.PciBridge

/-!
# Numbers of PCI buses

`_pci_ppbinit` looks at `_pci_maxbus` when it enters a bus, and not when it finds a bridge.
-/

namespace Pmon.Pci
open List Function
variable {maxbus bus device b : ℕ} {slots : Slots} {s : State} {c r : Scan}

def InBounds (maxbus : ℕ) (s : State) : Option Scan → Prop
  | none => False
  | some r => r.nbus ≤ maxbus ∧ ∀ b, maxbus≤b → r.state.bus b=s.bus b

theorem ppbEnter_outside {scan : ℕ → Scan → Option Scan}
    (hscan : ∀ {bus c r}, scan bus c=some r → r.state.bus b=c.state.bus b)
    (hb : c.nbus-1≠b) (hr : ppbEnter maxbus scan c=some r) :
    r.state.bus b=c.state.bus b := by
  rw [ppbEnter] at hr
  split at hr
  · cases hr
    rfl
  · rw [hscan hr]
    exact update_of_ne hb.symm _ _

theorem ppbLoop_outside (hb : maxbus≤b) (hr : ppbLoop maxbus slots bus device c=some r) :
    r.state.bus b=c.state.bus b := by
  induction slots generalizing bus device c r with
  | done =>
    cases hr
    rfl
  | other rest ih => exact ih hr
  | bridge behind rest ihBehind ihRest =>
    rw [ppbLoop] at hr
    split at hr
    · cases hr
    · rename_i hroom
      obtain ⟨r₁,hr₁,hr₂⟩ := Option.bind_eq_some_iff.mp hr
      have hentry : c.nbus≠b := by omega
      rw [ihRest hr₂]
      exact (ppbEnter_outside (c := c.attach bus device) ihBehind hentry hr₁).trans
        (update_of_ne hentry.symm _ _)

/-- The walk stays in bounds exactly when there is room for its bridges. -/
theorem ppbinit_inBounds_iff (hpos : 0 < maxbus) (slots : Slots) (s : State) :
    InBounds maxbus s (ppbinit maxbus slots ⟨s,1⟩) ↔ maxbus=1 ∨ slots.Fits (maxbus-1) := by
  have hfinds := ppbinit_finds slots (c := ⟨s,1⟩) hpos
  have hone : maxbus=1 ↔ maxbus-1=0 := by omega
  rw [hone]
  cases hr : ppbinit maxbus slots ⟨s,1⟩ with
  | none =>
    rw [hr] at hfinds
    exact ⟨False.elim,hfinds⟩
  | some r =>
    rw [hr] at hfinds
    refine ⟨fun _ => hfinds.1, fun _ => ⟨by rw [hfinds.2]; exact min_le_left _ _, fun b hb => ?_⟩⟩
    exact ppbEnter_outside (fun hr => ppbLoop_outside hb hr) (c := ⟨s,1⟩) (by dsimp only; omega) hr

def pciMaxbus : ℕ := 3

theorem ppbinit_inBounds_nested : InBounds pciMaxbus (masterState fun _ => emptyBus)
      (ppbinit pciMaxbus (.bridge (.bridge .done .done) .done)
        ⟨masterState fun _ => emptyBus,1⟩) :=
  (ppbinit_inBounds_iff (by decide) _ _).mpr (.inr (by simp [Slots.Fits,pciMaxbus]))

theorem ppbinit_three_bridges :
    (ppbinit pciMaxbus (.bridge .done (.bridge .done (.bridge .done .done)))
      ⟨masterState fun _ => emptyBus,1⟩).isNone=true := by
  rfl

def pciDevmax : ℕ := 31

def Slots.Within : Slots → ℕ → Prop
  | .done, _ => True
  | .other rest, device => device≤pciDevmax ∧ rest.Within (device+1)
  | .bridge behind rest, device =>
    device≤pciDevmax ∧ behind.Within 0 ∧ rest.Within (device+1)

structure Bridge where
  number : ℕ
  bus : ℕ
  device : ℕ
  behind : Slots

def Bridge.tag (e : Bridge) : ℕ := pciMakeTag e.bus e.device 0

def Slots.numbered : Slots → ℕ → ℕ → ℕ → List Bridge
  | .done, _, _, _ => []
  | .other rest, bus, device, n => rest.numbered bus (device+1) n
  | .bridge behind rest, bus, device, n =>
    ⟨n,bus,device,behind⟩::(behind.numbered n 0 (n+1) ++
      rest.numbered bus (device+1) (n+1+behind.bridges))

def Bridge.subtree (e : Bridge) : List Bridge := e.behind.numbered e.number 0 (e.number+1)
def Bridge.last (e : Bridge) : ℕ := e.number+e.behind.bridges

def busNumbers (primary secondary subordinate : ℕ) : BitVec 32 :=
  BitVec.ofNat 32 (subordinate <<< 16 ||| secondary <<< 8 ||| primary)

variable {n : ℕ} {e e' : Bridge}

theorem map_number (slots : Slots) (bus device n : ℕ) :
    (slots.numbered bus device n).map Bridge.number=range' n slots.bridges := by
  induction slots generalizing bus device n with
  | done => rfl
  | other rest ih => exact ih bus (device+1) n
  | bridge behind rest ihBehind ihRest =>
    rw [Slots.numbered,Slots.bridges,map_cons,map_append,ihBehind,ihRest,
      range'_append_1,Nat.add_right_comm,range'_succ]

theorem subtree_subset (h : e∈slots.numbered bus device n) :
    e.subtree ⊆ slots.numbered bus device n := by
  induction slots generalizing bus device n with
  | done => exact absurd h not_mem_nil
  | other rest ih => exact ih h
  | bridge behind rest ihBehind ihRest =>
    rw [Slots.numbered,mem_cons,mem_append] at h
    rw [Slots.numbered]
    intro x hx
    rw [mem_cons,mem_append]
    rcases h with rfl | h | h
    · exact .inr (.inl hx)
    · exact .inr (.inl (ihBehind h hx))
    · exact .inr (.inr (ihRest h hx))

structure Placed (b d n k : ℕ) (e : Bridge) : Prop where
  number : n≤e.number
  last : e.last<n+k
  device : e.device≤pciDevmax
  bus : e.bus=b ∧ d≤e.device ∨ n≤e.bus ∧ e.bus<n+k

theorem numbered_placed (bus n : ℕ) (hdev : slots.Within device)
    (h : e∈slots.numbered bus device n) : Placed bus device n slots.bridges e := by
  induction slots generalizing bus device n with
  | done => exact absurd h not_mem_nil
  | other rest ih =>
    obtain ⟨hnumber,hlast,hdevice,hbus⟩ := ih bus n hdev.2 h
    exact ⟨hnumber,hlast,hdevice,hbus.imp_left fun hb => ⟨hb.1,by omega⟩⟩
  | bridge behind rest ihBehind ihRest =>
    rw [Slots.numbered,mem_cons,mem_append] at h
    rw [Slots.bridges]
    rcases h with rfl | h | h
    · exact ⟨le_rfl,by rw [Bridge.last]; dsimp only; omega,hdev.1,.inl ⟨rfl,le_rfl⟩⟩
    · obtain ⟨hnumber,hlast,hdevice,hbus⟩ := ihBehind n (n+1) hdev.2.1 h
      exact ⟨by omega,by omega,hdevice,.inr (by omega)⟩
    · obtain ⟨hnumber,hlast,hdevice,hbus⟩ := ihRest bus _ hdev.2.2 h
      exact ⟨by omega,by omega,hdevice,by omega⟩

def Bridge.Nests (e e' : Bridge) : Prop := e.last<e'.number ∨ e'.last<e.number ∨
    e.number≤e'.number ∧ e'.last≤e.last ∨ e'.number≤e.number ∧ e.last≤e'.last

theorem numbered_nests (hdev : slots.Within device) (h : e∈slots.numbered bus device n)
    (h' : e'∈slots.numbered bus device n) : e.Nests e' := by
  induction slots generalizing bus device n with
  | done => exact absurd h not_mem_nil
  | other rest ih => exact ih hdev.2 h h'
  | bridge behind rest ihBehind ihRest =>
    have hb := fun {e} => numbered_placed (e := e) n (n+1) hdev.2.1
    have hr := fun {e} => numbered_placed (e := e) bus (n+1+behind.bridges) hdev.2.2
    rw [Slots.numbered,mem_cons,mem_append] at h h'
    have hnumber : (Bridge.mk n bus device behind).number=n := rfl
    have hlast : (Bridge.mk n bus device behind).last=n+behind.bridges := rfl
    rw [Bridge.Nests]
    rcases h with rfl | h | h <;> rcases h' with rfl | h' | h'
    · omega
    · have := (hb h').number
      have := (hb h').last
      omega
    · have := (hr h').number
      omega
    · have := (hb h).number
      have := (hb h).last
      omega
    · exact ihBehind hdev.2.1 h h'
    · have := (hb h).last
      have := (hr h').number
      omega
    · have := (hr h).number
      omega
    · have := (hb h').last
      have := (hr h).number
      omega
    · exact ihRest hdev.2.2 h h'

theorem pciMakeTag_eq (bus : ℕ) {device : ℕ} (h : device≤pciDevmax) :
    pciMakeTag bus device 0=bus*2^16+device*2^11 := by
  rw [pciDevmax] at h
  have hor := Nat.shiftLeft_add_eq_or_of_lt (i := 16) (b := device <<< 11)
    (by rw [Nat.shiftLeft_eq]; omega) bus
  rw [pciMakeTag,Nat.zero_shiftLeft,Nat.or_zero,←hor,Nat.shiftLeft_eq,Nat.shiftLeft_eq]

theorem tag_ne (he : e.device≤pciDevmax) (he' : e'.device≤pciDevmax)
    (h : e.bus≠e'.bus ∨ e.device≠e'.device) : e.tag≠e'.tag := by
  rw [Bridge.tag,Bridge.tag,pciMakeTag_eq _ he,pciMakeTag_eq _ he']
  rw [pciDevmax] at he he'
  omega

theorem close_data {last : ℕ} (hbus : bus<256) (hn : n<256) (hlast : last<256) :
    (busData bus n &&& 0xff00ffff#32) ||| BitVec.ofNat 32 (last <<< 16) =
      busNumbers bus n last := by
  have hbit : ∀ {m k : ℕ}, m<256 → 8≤k → m.testBit k=false := fun hm hk =>
    Nat.testBit_lt_two_pow (hm.trans_le (Nat.pow_le_pow_right (n := 2) (by decide) hk))
  have hmask : ∀ i : Fin 32, (0xff00ffff#32).getLsbD i=decide (i.val<16 ∨ 24 ≤ i.val) ∧
      (pciBusmax <<< 16).testBit i = decide (16 ≤ i.val ∧ i.val < 24) := by decide
  apply BitVec.eq_of_getLsbD_eq
  intro i hi
  obtain ⟨hm,hmax⟩ := hmask ⟨i,hi⟩
  dsimp only at hm hmax
  rw [BitVec.getLsbD_or,BitVec.getLsbD_and,hm,busData,busNumbers,BitVec.getLsbD_ofNat,
    BitVec.getLsbD_ofNat,BitVec.getLsbD_ofNat,Nat.testBit_or,Nat.testBit_or,Nat.testBit_or,
    Nat.testBit_or,hmax,Nat.testBit_shiftLeft,Nat.testBit_shiftLeft]
  by_cases hlow : i<16
  · simp [hi,hlow,show ¬16 ≤ i by omega]
  · have hbus' := hbit hbus (show 8 ≤ i by omega)
    have hn' := hbit hn (show 8 ≤ i-8 by omega)
    by_cases hhigh : i<24
    · simp [hi,hlow,hbus',hn',show 16 ≤ i by omega,show ¬24 ≤ i by omega]
    · have hlast' := hbit hlast (show 8 ≤ i-16 by omega)
      simp [hi,hlow,hbus',hn',hlast',show 16 ≤ i by omega,show 24 ≤ i by omega]

structure Bridge.Set (e : Bridge) (r : Scan) : Prop where
  tag : (r.state.bus e.number).tag=e.tag
  primary : r.state.primary e.number=e.bus
  register : r.state.conf e.tag ppbBusReg=busNumbers e.bus e.number e.last

structure Sets (l : List Bridge) (c r : Scan) : Prop where
  nbus : r.nbus=c.nbus+l.length
  set : ∀ e∈l, e.Set r
  bus : ∀ b<c.nbus, (r.state.bus b).tag=(c.state.bus b).tag ∧
    r.state.primary b=c.state.primary b
  conf : ∀ tag, (∀ e∈l, tag≠e.tag) → r.state.conf tag=c.state.conf tag

theorem Bridge.Set.keep {l : List Bridge} (h : e.Set c) (hsets : Sets l c r)
    (hnumber : e.number<c.nbus) (htag : ∀ e'∈l, e.tag≠e'.tag) : e.Set r where
  tag := (hsets.bus _ hnumber).1.trans h.tag
  primary := (hsets.bus _ hnumber).2.trans h.primary
  register := (congrFun (hsets.conf _ htag) _).trans h.register

theorem length_numbered (slots : Slots) (bus device n : ℕ) :
    (slots.numbered bus device n).length=slots.bridges := by
  have h := congrArg List.length (map_number slots bus device n)
  rw [length_map,length_range'] at h
  exact h

theorem ppbEnter_sets (maxbus : ℕ) (scan : ℕ → Scan → Option Scan) {l : List Bridge}
    (hscan : ∀ c' : Scan, c'.nbus=c.nbus → ∃ r, scan (c.nbus-1) c'=some r ∧ Sets l c' r)
    (hfull : c.nbus=maxbus → l=[]) : ∃ r, ppbEnter maxbus scan c=some r ∧ Sets l c r := by
  rw [ppbEnter]
  split
  · rename_i hmax
    rw [hfull hmax]
    exact ⟨c,rfl,rfl,fun e he => absurd he not_mem_nil,fun _ _ => ⟨rfl,rfl⟩,fun _ _ => rfl⟩
  · obtain ⟨r,hr,hsets⟩ := hscan (c.reset (c.nbus-1)) rfl
    refine ⟨r,hr,hsets.nbus,hsets.set,fun b hb => ⟨(hsets.bus b hb).1.trans ?_,?_⟩,hsets.conf⟩
    · rcases eq_or_ne b (c.nbus-1) with rfl | hne
      · simp [Scan.reset]
      · simp [Scan.reset,hne]
    · rw [(hsets.bus b hb).2,reset_primary]

theorem ppbLoop_sets (hmax : maxbus≤256) (hdev : slots.Within device) (hbus : bus<c.nbus)
    (hroom : c.nbus+slots.bridges ≤ maxbus) : ∃ r, ppbLoop maxbus slots bus device c=some r ∧
      Sets (slots.numbered bus device c.nbus) c r := by
  induction slots generalizing bus device c with
  | done =>
    exact ⟨c,rfl,rfl,fun e he => absurd he not_mem_nil,fun _ _ => ⟨rfl,rfl⟩,fun _ _ => rfl⟩
  | other rest ih => exact ih hdev.2 hbus hroom
  | bridge behind rest ihBehind ihRest =>
    rw [Slots.bridges] at hroom
    obtain ⟨r₁,hr₁,h₁⟩ := ppbEnter_sets (c := c.attach bus device) maxbus
      (fun bus => ppbLoop maxbus behind bus 0) (l := behind.numbered c.nbus 0 (c.nbus+1))
      (fun c' hc' => by
        rw [attach_nbus] at hc'
        have h := ihBehind hdev.2.1 (show c.nbus<c'.nbus by omega) (by omega)
        rw [hc'] at h
        exact h)
      (fun hfull => length_eq_zero_iff.mp (by
        rw [attach_nbus] at hfull
        rw [length_numbered]
        omega))
    have hnbus := h₁.nbus
    rw [attach_nbus,length_numbered] at hnbus
    obtain ⟨r,hr,h₂⟩ := ihRest hdev.2.2
      (show bus<(r₁.close bus device c.nbus).nbus by rw [close_nbus]; omega)
      (by rw [close_nbus]; omega)
    rw [close_nbus,hnbus] at h₂
    refine ⟨r,?_,?_⟩
    · rw [ppbLoop,if_neg (by omega),hr₁]
      exact hr
    · let first : Bridge := ⟨c.nbus,bus,device,behind⟩
      have hfirst : first.Set (r₁.close bus device c.nbus) := by
        obtain ⟨htag,hprimary⟩ := h₁.bus c.nbus c.nbus.lt_succ_self
        refine ⟨htag.trans ?_,hprimary.trans ?_,?_⟩
        · simp [Scan.attach,State.confWrite,first,Bridge.tag]
        · rw [attach_primary,update_self]
        · have hdata := close_data (show bus<256 by omega) (show c.nbus<256 by omega)
            (show r₁.nbus-1<256 by omega)
          rw [Bridge.last,show first.number+first.behind.bridges=r₁.nbus-1 from
            by rw [hnbus]; dsimp only [first]; omega,←hdata]
          simp [Scan.close,State.confWrite,first,Bridge.tag]
      have hb := fun {e} => numbered_placed (e := e) c.nbus (c.nbus+1) hdev.2.1
      have hr' := fun {e} =>
        numbered_placed (e := e) bus (c.nbus+1+behind.bridges) hdev.2.2
      have hclose : ∀ tag, tag≠first.tag →
          (r₁.close bus device c.nbus).state.conf tag=r₁.state.conf tag :=
        fun tag hne => update_of_ne hne _ _
      have hkeep : ∀ e : Bridge, e.Set (r₁.close bus device c.nbus) → e.number<r₁.nbus →
          e.device≤pciDevmax → (e.bus=bus ∧ e.device≤device ∨
            c.nbus≤e.bus ∧ e.bus<r₁.nbus) → e.Set r := by
        intro e hset hnumber hdevice hplace
        refine hset.keep h₂ hnumber fun e' he' => ?_
        have hbus' := (hr' he').bus
        exact tag_ne hdevice (hr' he').device (by omega)
      rw [Slots.numbered]
      refine ⟨?_,forall_mem_cons.mpr ⟨?_,forall_mem_append.mpr ⟨fun e he => ?_,
        h₂.set⟩⟩,fun b hb => ?_,fun tag htag => ?_⟩
      · rw [h₂.nbus,close_nbus,hnbus,length_cons,length_append,length_numbered,
          length_numbered]
        omega
      · exact hkeep first hfirst (by dsimp only [first]; omega) hdev.1 (.inl ⟨rfl,le_rfl⟩)
      · have hset := h₁.set e he
        have hplace := hb he
        have hbus' := hplace.bus
        have hlast := hplace.last
        have hne : e.tag≠first.tag :=
          tag_ne hplace.device hdev.1 (.inl (by dsimp only [first]; omega))
        refine hkeep e ⟨hset.tag,hset.primary,?_⟩ (by rw [Bridge.last] at hlast; omega)
          hplace.device (.inr (by omega))
        rw [hclose e.tag hne,hset.register]
      · obtain ⟨htag,hprimary⟩ := h₂.bus b (by rw [close_nbus]; omega)
        obtain ⟨htag₁,hprimary₁⟩ := h₁.bus b (by rw [attach_nbus]; omega)
        refine ⟨htag.trans (htag₁.trans ?_),hprimary.trans (hprimary₁.trans ?_)⟩
        · simp [Scan.attach,State.confWrite,hb.ne]
        · exact Grows.attach.primary b hb
      · obtain ⟨hfirst',hrest⟩ := forall_mem_cons.mp htag
        obtain ⟨hbehind,hrest⟩ := forall_mem_append.mp hrest
        rw [h₂.conf tag hrest,hclose tag hfirst',h₁.conf tag hbehind]
        exact update_of_ne hfirst' _ _

theorem ppbinit_sets (hmax : maxbus≤256) (hdev : slots.Within 0)
    (hroom : slots.bridges+1 ≤ maxbus) (s : State) :
    ∃ r, ppbinit maxbus slots ⟨s,1⟩=some r ∧ Sets (slots.numbered 0 0 1) ⟨s,1⟩ r := by
  refine ppbEnter_sets maxbus _ (fun c' hc' => ?_) fun hfull => length_eq_zero_iff.mp ?_
  · have hc'' : c'.nbus=1 := hc'
    have h := ppbLoop_sets hmax hdev (show 0<c'.nbus by omega) (by omega)
    rw [hc''] at h
    exact h
  · have hfull' : 1=maxbus := hfull
    rw [length_numbered]
    omega

/-- With room for all buses each bridge holds its bus, the next bus and the last one behind it. -/
theorem ppbinit_numbers (hmax : maxbus≤256) (hdev : slots.Within 0)
    (hroom : slots.bridges+1 ≤ maxbus) (s : State) :
    ∃ r, ppbinit maxbus slots ⟨s,1⟩=some r ∧ r.nbus=slots.bridges+1 ∧
      (slots.numbered 0 0 1).map Bridge.number=range' 1 slots.bridges ∧
      (∀ e∈slots.numbered 0 0 1, e.Set r ∧ e.subtree ⊆ slots.numbered 0 0 1 ∧
        ∀ j, e.number≤j ∧ j≤e.last ↔ j=e.number ∨ j∈e.subtree.map Bridge.number) ∧
      ∀ e∈slots.numbered 0 0 1, ∀ e'∈slots.numbered 0 0 1, e.Nests e' := by
  obtain ⟨r,hr,hsets⟩ := ppbinit_sets hmax hdev hroom s
  refine ⟨r,hr,?_,map_number slots 0 0 1, fun e he => ⟨hsets.set e he,subtree_subset he,
    fun j => ?_⟩, fun e he e' he' => numbered_nests hdev he he'⟩
  · rw [hsets.nbus,length_numbered]
    exact Nat.add_comm 1 _
  · rw [Bridge.subtree,map_number,mem_range'_1,Bridge.last]
    omega

theorem ppbinit_numbers_nested :
    ∃ r, ppbinit pciMaxbus (.bridge (.other (.bridge .done .done)) .done)
        ⟨masterState fun _ => emptyBus,1⟩=some r ∧
      r.state.conf (pciMakeTag 0 0 0) ppbBusReg=busNumbers 0 1 2 ∧
      r.state.conf (pciMakeTag 1 1 0) ppbBusReg=busNumbers 1 2 2 := by
  obtain ⟨r,hr,_,_,hset,_⟩ := ppbinit_numbers
    (show pciMaxbus≤256 by decide)
    (show Slots.Within (.bridge (.other (.bridge .done .done)) .done) 0 by
      simp [Slots.Within,pciDevmax]) (by decide) (masterState fun _ => emptyBus)
  exact ⟨r,hr,(hset ⟨1,0,0,_⟩ mem_cons_self).1.register,
    (hset ⟨2,1,1,.done⟩ (by simp [Slots.numbered])).1.register⟩

end Pmon.Pci
