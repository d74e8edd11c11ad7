import Pmon.PciBridge

/-!
# The memory behind a bridge

The hull of a bus ends where windows of devices behind the bus end, and covers its own windows.
-/

namespace Pmon.Pci
open List Function
open PreorderTree (Below)

def State.busOf (s : State) (w : PciWin) : ℕ := (s.dev w.dev).bus
def PciWin.last (w : PciWin) : BitVec 32 := w.address+w.size-1
def Hull.Covers (h : Hull) (w : PciWin) : Prop := h.min≤w.address ∧ w.last≤h.max

structure Ends (init : ℕ → Hull) (owner : PciWin → ℕ) (ws : List PciWin) (buses : ℕ → Prop)
    (h : Hull) : Prop where
  min : ∃ b, buses b ∧ (h.min=(init b).min ∨ ∃ w∈ws, owner w=b ∧ h.min=w.address)
  max : ∃ b, buses b ∧ (h.max=(init b).max ∨ ∃ w∈ws, owner w=b ∧ h.max=w.last)

section
variable {init : ℕ → Hull} {owner : PciWin → ℕ} {ws : List PciWin} {buses : ℕ → Prop}
  {h : Hull} {v w : PciWin} {lo hi : BitVec 32}

theorem Hull.Covers.widen (hv : h.Covers v) (lo hi : BitVec 32) : (h.widen lo hi).Covers v := by
  obtain ⟨hmin,hmax⟩ := hv
  rw [Hull.widen,Hull.Covers]
  dsimp only
  constructor
  · split
    · rename_i hlo
      exact BitVec.le_trans (BitVec.le_of_lt hlo) hmin
    · exact hmin
  · split
    · rename_i hhi
      exact BitVec.le_trans hmax (BitVec.le_of_lt hhi)
    · exact hmax

theorem Hull.widen_covers (h : Hull) (w : PciWin) : (h.widen w.address w.last).Covers w := by
  rw [Hull.widen,Hull.Covers]
  dsimp only
  constructor
  · split
    · exact BitVec.le_refl _
    · rename_i hlo
      exact BitVec.not_lt.mp hlo
  · split
    · exact BitVec.le_refl _
    · rename_i hhi
      exact BitVec.not_lt.mp hhi

theorem Ends.widen (he : Ends init owner ws buses h) {h' : Hull}
    (he' : Ends init owner ws buses h') : Ends init owner ws buses (h.widen h'.min h'.max) where
  min := by
    rw [Hull.widen]
    dsimp only
    split
    · exact he'.min
    · exact he.min
  max := by
    rw [Hull.widen]
    dsimp only
    split
    · exact he'.max
    · exact he.max

theorem Ends.mono (he : Ends init owner ws buses h) {buses' : ℕ → Prop}
    (hbuses : ∀ b, buses b → buses' b) : Ends init owner ws buses' h where
  min := he.min.imp fun b hb => ⟨hbuses b hb.1,hb.2⟩
  max := he.max.imp fun b hb => ⟨hbuses b hb.1,hb.2⟩

theorem Ends.cons (he : Ends init owner ws buses h) (w : PciWin) :
    Ends init owner (w::ws) buses h where
  min := he.min.imp fun _ hb => ⟨hb.1,hb.2.imp_right fun ⟨v,hv,hmin⟩ =>
    ⟨v,mem_cons_of_mem w hv,hmin⟩⟩
  max := he.max.imp fun _ hb => ⟨hb.1,hb.2.imp_right fun ⟨v,hv,hmax⟩ =>
    ⟨v,mem_cons_of_mem w hv,hmax⟩⟩

theorem Ends.window (hw : w∈ws) (hbuses : buses (owner w)) :
    Ends init owner ws buses ⟨w.address,w.last⟩ where
  min := ⟨owner w,hbuses,.inr ⟨w,hw,rfl,rfl⟩⟩
  max := ⟨owner w,hbuses,.inr ⟨w,hw,rfl,rfl⟩⟩
end

def Behind (t : State) (nbus b c : ℕ) : Prop := Below t.primary b c ∧ c<nbus

/-- The hull of each bus has the ends of the windows behind it. -/
structure Recorded (t : State) (nbus : ℕ) (s : State) : Prop where
  primary : s.primary=t.primary
  busOf : s.busOf=t.busOf
  ends : ∀ b, b<nbus → Ends t.memHull t.busOf (s.placed .mem) (Behind t nbus b) (s.memHull b)
  covers : ∀ w∈s.placed .mem, (s.memHull (t.busOf w)).Covers w

@[simp] theorem give_primary (s : State) (kind : Kind) (w : PciWin) :
    (s.give kind w).primary=s.primary := by
  funext b
  rw [State.primary,State.primary,give_bus]
  rcases eq_or_ne b (s.dev w.dev).bus with rfl | hne
  · rw [update_self]
  · rw [update_of_ne hne]

@[simp] theorem give_busOf (s : State) (kind : Kind) (w : PciWin) :
    (s.give kind w).busOf=s.busOf := by
  funext v
  rw [State.busOf,State.busOf,give_dev]

theorem give_memHull (s : State) (w : PciWin) :
    (s.give .mem w).memHull=update s.memHull (s.busOf w)
      ((s.memHull (s.busOf w)).widen w.address w.last) := by
  funext b
  rw [State.memHull,give_bus,State.busOf]
  rcases eq_or_ne b (s.dev w.dev).bus with rfl | hne
  · rw [update_self,update_self]
    dsimp only
    rfl
  · rw [update_of_ne hne,update_of_ne hne]
    rfl

theorem give_io_memHull (s : State) (w : PciWin) : (s.give .io w).memHull=s.memHull := by
  funext b
  rw [State.memHull,give_bus]
  rcases eq_or_ne b (s.dev w.dev).bus with rfl | hne
  · rw [update_self]
    have hkind : Kind.mem≠Kind.io := by decide
    dsimp only
    rfl
  · rw [update_of_ne hne]
    rfl

variable {t s : State} {nbus : ℕ} {kind : Kind} {w : PciWin}

theorem Recorded.start (hplaced : t.placed = fun _ => []) : Recorded t nbus t where
  primary := rfl
  busOf := rfl
  ends b hb := ⟨⟨b,⟨.self,hb⟩,.inl rfl⟩,⟨b,⟨.self,hb⟩,.inl rfl⟩⟩
  covers w hw := by
    rw [hplaced] at hw
    exact absurd hw not_mem_nil

variable {r : PciWin × State} {s' : State}

theorem Recorded.congr (h : Recorded t nbus s) (hprimary : s'.primary=s.primary)
    (hbusOf : s'.busOf=s.busOf) (hplaced : s'.placed .mem=s.placed .mem)
    (hhull : s'.memHull=s.memHull) : Recorded t nbus s' where
  primary := hprimary.trans h.primary
  busOf := hbusOf.trans h.busOf
  ends := by
    rw [hplaced,hhull]
    exact h.ends
  covers := by
    rw [hplaced,hhull]
    exact h.covers

theorem Recorded.give (h : Recorded t nbus s) (w : PciWin) : Recorded t nbus (s.give .mem w) where
  primary := by rw [give_primary,h.primary]
  busOf := by rw [give_busOf,h.busOf]
  ends b hb := by
    rw [give_memHull,give_placed,update_self,h.busOf]
    rcases eq_or_ne b (t.busOf w) with rfl | hne
    · rw [update_self]
      have hwindow : Ends t.memHull t.busOf (w::s.placed .mem) (Behind t nbus (t.busOf w))
          ⟨w.address,w.last⟩ := .window mem_cons_self ⟨.self,hb⟩
      exact ((h.ends _ hb).cons w).widen hwindow
    · rw [update_of_ne hne]
      exact (h.ends b hb).cons w
  covers v hv := by
    rw [give_placed,update_self] at hv
    rw [give_memHull,h.busOf]
    rcases mem_cons.mp hv with rfl | hv
    · rw [update_self]
      exact Hull.widen_covers _ v
    · rcases eq_or_ne (t.busOf v) (t.busOf w) with heq | hne
      · rw [heq,update_self,←heq]
        exact (h.covers v hv).widen _ _
      · rw [update_of_ne hne]
        exact h.covers v hv

theorem Step.busOf_eq (hstep : Step kind w s r) : r.2.busOf=s.busOf := by
  cases hstep with
  | skips => rfl
  | fails =>
    funext v
    rcases eq_or_ne v.dev w.dev with heq | hne
    · simp [State.busOf,heq]
    · simp [State.busOf,hne]
  | places => exact give_busOf s kind _

theorem Step.io_placed (hstep : Step .io w s r) : r.2.placed .mem=s.placed .mem := by
  cases hstep with
  | skips => rfl
  | fails => rfl
  | places => rw [give_placed,update_of_ne (by decide)]

theorem Recorded.step (hstep : Step kind w s r) (h : Recorded t nbus s) : Recorded t nbus r.2 := by
  have hbusOf := hstep.busOf_eq
  cases kind with
  | mem =>
    cases hstep with
    | skips => exact h
    | fails => exact h.congr rfl hbusOf rfl rfl
    | places => exact h.give _
  | io =>
    have hplaced := hstep.io_placed
    cases hstep with
    | skips => exact h
    | fails => exact h.congr rfl hbusOf rfl rfl
    | places => exact h.congr (give_primary s .io _) hbusOf hplaced (give_io_memHull s _)

variable (i : ℕ) (p : Program)

@[simp] theorem foldBus_primary (s : State) : (foldBus i s).primary=s.primary := by
  funext b
  rcases eq_or_ne b (s.bus i).primary with rfl | hne
  · simp [foldBus,State.primary]
  · simp [foldBus,State.primary,hne]

theorem foldBus_memHull (s : State) :
    (foldBus i s).memHull=update s.memHull (s.primary i)
      ((s.memHull (s.primary i)).widen (s.memHull i).min (s.memHull i).max) := by
  funext b
  rcases eq_or_ne b (s.bus i).primary with rfl | hne
  · simp [foldBus,State.primary,State.memHull]
  · simp [foldBus,State.primary,State.memHull,hne]

theorem Recorded.foldBus (h : Recorded t nbus s) {i : ℕ} (hpos : 0 < i) (hi : i<nbus) :
    Recorded t nbus (foldBus i s) where
  primary := by rw [foldBus_primary,h.primary]
  busOf := h.busOf
  ends b hb := by
    rw [foldBus_memHull,h.primary]
    rcases eq_or_ne b (t.primary i) with rfl | hne
    · have hbehind : ∀ c, Behind t nbus i c → Behind t nbus (t.primary i) c := fun c hc =>
        ⟨Below.trans (.child hpos .self) hc.1,hc.2⟩
      rw [update_self]
      exact (h.ends _ hb).widen ((h.ends i hi).mono hbehind)
    · rw [update_of_ne hne]
      exact h.ends b hb
  covers w hw := by
    have hcovers := h.covers w hw
    rw [foldBus_memHull,h.primary]
    rcases eq_or_ne (t.busOf w) (t.primary i) with heq | hne
    · rw [heq] at hcovers
      rw [heq,update_self]
      exact hcovers.widen _ _
    · rw [update_of_ne hne]
      exact hcovers

theorem Recorded.foldBuses (h : Recorded t nbus s) {n : ℕ} (hn : n<nbus) :
    Recorded t nbus (foldBuses n s) := by
  induction n generalizing s with
  | zero => exact h
  | succ n ih => exact ih (h.foldBus n.succ_pos hn) (by omega)

@[simp] theorem foldBuses_placed (n : ℕ) (s : State) : (foldBuses n s).placed=s.placed := by
  induction n generalizing s with
  | zero => rfl
  | succ n ih => exact ih _

def State.ConfOnly (s s' : State) : Prop := ∃ conf, s'={s with conf := conf}

theorem State.ConfOnly.trans {s s'' : State} (h : s.ConfOnly s') (h' : s'.ConfOnly s'') :
    s.ConfOnly s'' := by
  obtain ⟨conf,rfl⟩ := h
  obtain ⟨conf',rfl⟩ := h'
  exact ⟨conf',rfl⟩

theorem confWrite_confOnly (s : State) (tag reg : ℕ) (value : BitVec 32) :
    s.ConfOnly (s.confWrite tag reg value) := ⟨_,rfl⟩

theorem State.ConfOnly.primary {s : State} (h : s.ConfOnly s') : s'.primary=s.primary := by
  obtain ⟨conf,rfl⟩ := h
  rfl

theorem State.ConfOnly.busOf {s : State} (h : s.ConfOnly s') : s'.busOf=s.busOf := by
  obtain ⟨conf,rfl⟩ := h
  rfl

theorem State.ConfOnly.placed {s : State} (h : s.ConfOnly s') : s'.placed=s.placed := by
  obtain ⟨conf,rfl⟩ := h
  rfl

theorem State.ConfOnly.memHull {s : State} (h : s.ConfOnly s') : s'.memHull=s.memHull := by
  obtain ⟨conf,rfl⟩ := h
  rfl

theorem programRange_confOnly (kind : Kind) (i : ℕ) (p : Program) :
    p.state.ConfOnly (programRange kind i p).state := by
  rw [programRange]
  dsimp only
  split
  · exact confWrite_confOnly _ _ _ _
  · exact ⟨_,rfl⟩

theorem programRange_io_written : (programRange .io i p).written .mem=p.written .mem := by
  rw [programRange]
  dsimp only
  split
  · have hkind : Kind.mem≠Kind.io := by decide
    dsimp only
    rw [update_of_ne hkind]
  · rfl

def Wrote (h : Hull) (i : ℕ) (l l' : List (ℕ × BitVec 32)) : Prop :=
  if h.min<h.max then ∃ old, l'=(i,ppbData .mem old h)::l else l'=l

theorem programRange_wrote :
    Wrote (p.state.memHull i) i (p.written .mem) ((programRange .mem i p).written .mem) := by
  rw [programRange,Wrote,State.memHull]
  split
  · refine ⟨p.state.conf (p.state.bus i).tag (ppbReg .mem),?_⟩
    dsimp only
    rw [update_self]
  · rfl

theorem programBridge_confOnly : p.state.ConfOnly (programBridge i p).state := by
  have hio := programRange_confOnly .io i
    {p with cmd := p.state.conf (p.state.bus i).tag pciCommandStatusReg}
  have hmem := programRange_confOnly .mem i
    (programRange .io i {p with cmd := p.state.conf (p.state.bus i).tag pciCommandStatusReg})
  exact (hio.trans hmem).trans (confWrite_confOnly _ _ _ _)

theorem programBridge_wrote :
    Wrote (p.state.memHull i) i (p.written .mem) ((programBridge i p).written .mem) := by
  have hwrote := programRange_wrote i
    (programRange .io i {p with cmd := p.state.conf (p.state.bus i).tag pciCommandStatusReg})
  rw [programRange_io_written,(programRange_confOnly .io i _).memHull] at hwrote
  exact hwrote

structure Ranges (hull : ℕ → Hull) (n : ℕ) (l : List (ℕ × BitVec 32)) : Prop where
  sound : ∀ e∈l, 0<e.1 ∧ e.1≤n ∧ (hull e.1).min<(hull e.1).max ∧
    ∃ old, e.2=ppbData .mem old (hull e.1)
  complete : ∀ b, 0<b → b≤n → (hull b).min<(hull b).max →
    ∃ old, (b,ppbData .mem old (hull b))∈l

theorem Ranges.step {hull : ℕ → Hull} {n : ℕ} {l l' : List (ℕ × BitVec 32)} (h : Ranges hull n l)
    (hwrote : Wrote (hull (n+1)) (n+1) l l') : Ranges hull (n+1) l' := by
  rw [Wrote] at hwrote
  split at hwrote
  · rename_i hlt
    obtain ⟨old,rfl⟩ := hwrote
    constructor
    · intro e he
      rcases mem_cons.mp he with rfl | he
      · exact ⟨n.succ_pos,le_rfl,hlt,old,rfl⟩
      · obtain ⟨hpos,hle,hrest⟩ := h.sound e he
        exact ⟨hpos,hle.trans n.le_succ,hrest⟩
    · intro b hpos hle hb
      rcases eq_or_lt_of_le hle with rfl | hlt
      · exact ⟨old,mem_cons_self⟩
      · obtain ⟨old',hold'⟩ := h.complete b hpos (Nat.le_of_lt_succ hlt) hb
        exact ⟨old',mem_cons_of_mem _ hold'⟩
  · rename_i hlt
    subst hwrote
    constructor
    · intro e he
      obtain ⟨hpos,hle,hrest⟩ := h.sound e he
      exact ⟨hpos,hle.trans n.le_succ,hrest⟩
    · intro b hpos hle hb
      rcases eq_or_lt_of_le hle with rfl | hle'
      · exact absurd hb hlt
      · exact h.complete b hpos (Nat.le_of_lt_succ hle') hb

theorem programBridges_confOnly (n : ℕ) (p : Program) :
    p.state.ConfOnly (programBridges n p).state := by
  induction n with
  | zero => exact ⟨_,rfl⟩
  | succ n ih => exact ih.trans (programBridge_confOnly (n+1) _)

theorem programBridges_ranges (n : ℕ) {p : Program} (hp : p.written .mem=[]) :
    Ranges p.state.memHull n ((programBridges n p).written .mem) := by
  induction n with
  | zero =>
    rw [programBridges,hp]
    exact ⟨fun e he => absurd he not_mem_nil,fun b hpos hle => absurd hpos (not_lt.mpr hle)⟩
  | succ n ih =>
    have hwrote := programBridge_wrote (n+1) (programBridges n p)
    rw [(programBridges_confOnly n p).memHull] at hwrote
    exact ih.step hwrote

end Pmon.Pci
