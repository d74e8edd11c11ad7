import Pmon.PciWindows
import Pmon.PreorderTree

/-!
# Buses behind PCI-PCI bridges

A walk over the slots numbers the bus behind each bridge. Each bus passes the hull of its windows
on, and each bridge is programmed with the hull of the bus behind it.
-/

namespace Pmon.Pci
open Function
open CompareSort (Sorter)
open PreorderTree (Below Numbered)

inductive Slots where
  | done
  | other (rest : Slots)
  | bridge (behind rest : Slots)

def Slots.bridges : Slots → ℕ
  | .done => 0
  | .other rest => rest.bridges
  | .bridge behind rest => behind.bridges+1+rest.bridges

def pciMakeTag (bus device function : ℕ) : ℕ := bus <<< 16 ||| device <<< 11 ||| function <<< 8
def pciBusmax : ℕ := 255
def ppbBusReg : ℕ := 0x18

structure Scan where
  state : State
  nbus : ℕ

def Scan.reset (c : Scan) (bus : ℕ) : Scan :=
  let ppri := {c.state.bus bus with hull := fun _ => ⟨0xffffffff,0⟩}
  {c with state := {c.state with bus := update c.state.bus bus ppri}}

def busData (bus nbus : ℕ) : BitVec 32 := BitVec.ofNat 32 (pciBusmax <<< 16 ||| nbus <<< 8 ||| bus)

def Scan.attach (c : Scan) (bus device : ℕ) : Scan :=
  let tag := pciMakeTag bus device 0
  let psec := {c.state.bus c.nbus with tag := tag, primary := bus}
  let s := {c.state with bus := update c.state.bus c.nbus psec}
  ⟨s.confWrite tag ppbBusReg (busData bus c.nbus),c.nbus+1⟩

def Scan.close (c : Scan) (bus device nbus : ℕ) : Scan :=
  let data := (busData bus nbus &&& 0xff00ffff#32) ||| BitVec.ofNat 32 ((c.nbus - 1) <<< 16)
  {c with state := c.state.confWrite (pciMakeTag bus device 0) ppbBusReg data}

def ppbEnter (maxbus : ℕ) (scan : ℕ → Scan → Option Scan) (c : Scan) : Option Scan :=
  if c.nbus=maxbus then some c
  else scan (c.nbus-1) (c.reset (c.nbus-1))

def ppbLoop (maxbus : ℕ) : Slots → ℕ → ℕ → Scan → Option Scan
  | .done, _, _, c => some c
  | .other rest, bus, device, c => ppbLoop maxbus rest bus (device+1) c
  | .bridge behind rest, bus, device, c =>
    if maxbus≤c.nbus then none
    else
      (ppbEnter maxbus (fun bus => ppbLoop maxbus behind bus 0) (c.attach bus device)).bind fun r =>
        ppbLoop maxbus rest bus (device+1) (r.close bus device c.nbus)

def ppbinit (maxbus : ℕ) (slots : Slots) (c : Scan) : Option Scan :=
  ppbEnter maxbus (fun bus => ppbLoop maxbus slots bus 0) c

def foldBus (i : ℕ) (s : State) : State :=
  let psec := s.bus i
  let ppri := s.bus psec.primary
  let hull := fun kind => (ppri.hull kind).widen (psec.hull kind).min (psec.hull kind).max
  {s with bus := update s.bus psec.primary {ppri with hull := hull}}

def foldBuses : ℕ → State → State
  | 0, s => s
  | i+1, s => foldBuses i (foldBus (i+1) s)

def ppbReg : Kind → ℕ
  | .io => 0x1c
  | .mem => 0x20

def ppbBaseMask : Kind → BitVec 32
  | .io => 0x000000ff
  | .mem => 0x0000ffff

def ppbLimitMask : Kind → BitVec 32
  | .io => 0x0000ff00
  | .mem => 0xffff0000

def ppbShift : Kind → ℕ
  | .io => 8
  | .mem => 16

def pciCommandStatusReg : ℕ := 0x04

def pciCommandEnable : Kind → BitVec 32
  | .io => 1
  | .mem => 2

def ppbData (kind : Kind) (old : BitVec 32) (h : Hull) : BitVec 32 :=
  (((old &&& ~~~ppbBaseMask kind) ||| (h.min >>> ppbShift kind)) &&& ~~~ppbLimitMask kind) |||
    (h.max &&& ppbLimitMask kind)

structure Program where
  state : State
  cmd : BitVec 32
  written : Kind → List (ℕ × BitVec 32)

def programRange (kind : Kind) (i : ℕ) (p : Program) : Program :=
  let pb := p.state.bus i
  let h := pb.hull kind
  if h.min<h.max then
    let data := ppbData kind (p.state.conf pb.tag (ppbReg kind)) h
    { state := p.state.confWrite pb.tag (ppbReg kind) data
      cmd := p.cmd ||| pciCommandEnable kind
      written := update p.written kind ((i,data)::p.written kind) }
  else p

def programBridge (i : ℕ) (p : Program) : Program :=
  let tag := (p.state.bus i).tag
  let p := {p with cmd := p.state.conf tag pciCommandStatusReg}
  let p := programRange .mem i (programRange .io i p)
  {p with state := p.state.confWrite tag pciCommandStatusReg p.cmd}

def programBridges : ℕ → Program → Program
  | 0, p => p
  | i+1, p => programBridge (i+1) (programBridges i p)

def pciSetupPpb (nbus : ℕ) (s : State) : Program :=
  programBridges (nbus-1) ⟨foldBuses (nbus-1) s,0, fun _ => []⟩

def scanBuses (found : ℕ → List PciWin) (nbus : ℕ) : List PciWin := (List.range nbus).flatMap found

def pciConfigure (qsort : Sorter PciWin) (maxbus : ℕ) (slots : Slots)
    (found : Kind → ℕ → List PciWin) (s : State) : Option Program :=
  (ppbinit maxbus slots ⟨s,1⟩).map fun c =>
    let s := (pciSetupIowins qsort (scanBuses (found .io) c.nbus) c.state).2
    let s := (pciSetupMemwins qsort (scanBuses (found .mem) c.nbus) s).2
    if 1<c.nbus then pciSetupPpb c.nbus s else ⟨s,0, fun _ => []⟩

def Slots.Fits : Slots → ℕ → Prop
  | .done, _ => True
  | .other rest, room => rest.Fits room
  | .bridge behind rest, room =>
    0<room ∧ (room-1=0 ∨ behind.Fits (room-1)) ∧ rest.Fits (room-1-behind.bridges)

def Finds (maxbus : ℕ) (fits : Prop) (bridges : ℕ) (c : Scan) : Option Scan → Prop
  | none => ¬fits
  | some r => fits ∧ r.nbus = min maxbus (c.nbus+bridges)

@[simp] theorem reset_nbus (c : Scan) (bus : ℕ) : (c.reset bus).nbus=c.nbus := rfl

@[simp] theorem attach_nbus (c : Scan) (bus device : ℕ) :
    (c.attach bus device).nbus=c.nbus+1 := rfl

@[simp] theorem close_nbus (c : Scan) (bus device nbus : ℕ) :
    (c.close bus device nbus).nbus=c.nbus := rfl

theorem ppbEnter_finds {maxbus : ℕ} {slots : Slots} {scan : ℕ → Scan → Option Scan}
    (hscan : ∀ bus c, c.nbus ≤ maxbus →
      Finds maxbus (slots.Fits (maxbus-c.nbus)) slots.bridges c (scan bus c))
    {c : Scan} (hle : c.nbus ≤ maxbus) :
    Finds maxbus (maxbus-c.nbus=0 ∨ slots.Fits (maxbus-c.nbus)) slots.bridges c
      (ppbEnter maxbus scan c) := by
  rw [ppbEnter]
  split
  · rename_i hfull
    exact ⟨.inl (by omega),by omega⟩
  · rename_i hroom
    have hfinds := hscan (c.nbus-1) (c.reset (c.nbus-1)) hle
    cases hr : scan (c.nbus-1) (c.reset (c.nbus-1)) with
    | none =>
      rw [hr] at hfinds
      exact fun hfits => hfinds (hfits.resolve_left (by omega))
    | some r =>
      rw [hr] at hfinds
      exact ⟨.inr hfinds.1,hfinds.2⟩

theorem ppbLoop_finds (maxbus : ℕ) (slots : Slots) (bus device : ℕ) (c : Scan)
    (hle : c.nbus ≤ maxbus) : Finds maxbus (slots.Fits (maxbus-c.nbus)) slots.bridges c
      (ppbLoop maxbus slots bus device c) := by
  induction slots generalizing bus device c with
  | done => exact ⟨trivial,by rw [Slots.bridges]; omega⟩
  | other rest ih => exact ih bus (device+1) c hle
  | bridge behind rest ihBehind ihRest =>
    rw [ppbLoop]
    split
    · exact fun hfits => absurd hfits.1 (by omega)
    · rename_i hroom
      have hfinds := ppbEnter_finds (fun bus c => ihBehind bus 0 c)
        (c := c.attach bus device) (by rw [attach_nbus]; omega)
      have hroom' : maxbus-(c.nbus+1)=maxbus-c.nbus-1 := by omega
      rw [attach_nbus,hroom'] at hfinds
      cases hr : ppbEnter maxbus (fun bus => ppbLoop maxbus behind bus 0)
          (c.attach bus device) with
      | none =>
        rw [hr] at hfinds
        exact fun hfits => hfinds hfits.2.1
      | some r =>
        rw [hr] at hfinds
        obtain ⟨hfits,hnbus⟩ := hfinds
        rw [attach_nbus] at hnbus
        have hrest := ihRest bus (device+1) (r.close bus device c.nbus)
          (by rw [close_nbus]; omega)
        have hleft : maxbus-r.nbus=maxbus-c.nbus-1-behind.bridges := by omega
        rw [close_nbus,hleft] at hrest
        rw [Option.bind_some]
        cases hr' : ppbLoop maxbus rest bus (device+1) (r.close bus device c.nbus) with
        | none =>
          rw [hr'] at hrest
          exact fun hfits' => hrest hfits'.2.2
        | some r' =>
          rw [hr'] at hrest
          refine ⟨⟨by omega,hfits,hrest.1⟩,?_⟩
          have hcount := hrest.2
          rw [close_nbus] at hcount
          rw [Slots.bridges]
          omega

theorem ppbinit_finds {maxbus : ℕ} (slots : Slots) {c : Scan} (hle : c.nbus ≤ maxbus) :
    Finds maxbus (maxbus-c.nbus=0 ∨ slots.Fits (maxbus-c.nbus)) slots.bridges c
      (ppbinit maxbus slots c) :=
  ppbEnter_finds (fun bus c => ppbLoop_finds maxbus slots bus 0 c) hle

def State.primary (s : State) (b : ℕ) : ℕ := (s.bus b).primary
def State.memHull (s : State) (b : ℕ) : Hull := (s.bus b).hull .mem

structure State.Agree (s t : State) : Prop where
  pcimaster : s.pcimaster=t.pcimaster
  space : s.space=t.space
  dev : s.dev=t.dev
  placed : s.placed=t.placed

section
variable (c : Scan) (bus device nbus : ℕ)

@[simp] theorem reset_primary : (c.reset bus).state.primary=c.state.primary := by
  funext b
  rcases eq_or_ne b bus with rfl | hne
  · simp [Scan.reset,State.primary]
  · simp [Scan.reset,State.primary,hne]

@[simp] theorem reset_memHull :
    (c.reset bus).state.memHull=update c.state.memHull bus ⟨0xffffffff,0⟩ := by
  funext b
  rcases eq_or_ne b bus with rfl | hne
  · simp [Scan.reset,State.memHull]
  · simp [Scan.reset,State.memHull,hne]

@[simp] theorem attach_primary :
    (c.attach bus device).state.primary=update c.state.primary c.nbus bus := by
  funext b
  rcases eq_or_ne b c.nbus with rfl | hne
  · simp [Scan.attach,State.confWrite,State.primary]
  · simp [Scan.attach,State.confWrite,State.primary,hne]

@[simp] theorem attach_memHull : (c.attach bus device).state.memHull=c.state.memHull := by
  funext b
  rcases eq_or_ne b c.nbus with rfl | hne
  · simp [Scan.attach,State.confWrite,State.memHull]
  · simp [Scan.attach,State.confWrite,State.memHull,hne]

@[simp] theorem close_primary : (c.close bus device nbus).state.primary=c.state.primary := rfl
end

def Left (maxbus b : ℕ) (h : Hull) : Prop := h=⟨0xffffffff,0⟩ ∨ b+1=maxbus ∧ h=⟨0,0⟩

structure Walked (s : State) (maxbus k : ℕ) (c : Scan) : Prop where
  pos : 0<c.nbus
  numbered : Numbered c.state.primary c.nbus
  agree : c.state.Agree s
  left : ∀ b, b<k → Left maxbus b (c.state.memHull b)
  fresh : ∀ b, k≤b → c.state.memHull b=⟨0,0⟩

structure Grows (c r : Scan) : Prop where
  le : c.nbus≤r.nbus
  primary : ∀ b, b<c.nbus → r.state.primary b=c.state.primary b

structure Walks (s : State) (maxbus bus : ℕ) (c r : Scan) : Prop where
  walked : Walked s maxbus r.nbus r
  below : Below r.state.primary bus (r.nbus-1)
  grows : Grows c r

variable {s : State} {maxbus bus device : ℕ} {slots : Slots} {c r : Scan}

theorem Walked.attach (h : Walked s maxbus c.nbus c) (hbus : bus<c.nbus)
    (hbelow : Below c.state.primary bus (c.nbus-1)) :
    Walked s maxbus c.nbus (c.attach bus device) where
  pos := c.nbus.succ_pos
  numbered := by
    rw [attach_primary,attach_nbus]
    exact h.numbered.push hbelow hbus
  agree := ⟨h.agree.pcimaster,h.agree.space,h.agree.dev,h.agree.placed⟩
  left := by
    rw [attach_memHull]
    exact h.left
  fresh := by
    rw [attach_memHull]
    exact h.fresh

theorem Grows.attach : Grows c (c.attach bus device) where
  le := c.nbus.le_succ
  primary b hb := by rw [attach_primary,update_of_ne hb.ne]

theorem Walked.close (h : Walked s maxbus r.nbus r) (nbus : ℕ) :
    Walked s maxbus r.nbus (r.close bus device nbus) :=
  ⟨h.pos,h.numbered,⟨h.agree.pcimaster,h.agree.space,h.agree.dev,h.agree.placed⟩,h.left,
    h.fresh⟩

theorem Walked.reset (h : Walked s maxbus (c.nbus-1) c) :
    Walked s maxbus c.nbus (c.reset (c.nbus-1)) where
  pos := h.pos
  numbered := by
    rw [reset_primary]
    exact h.numbered
  agree := ⟨h.agree.pcimaster,h.agree.space,h.agree.dev,h.agree.placed⟩
  left b hb := by
    rw [reset_memHull]
    rcases eq_or_ne b (c.nbus-1) with rfl | hne
    · rw [update_self]
      exact .inl rfl
    · rw [update_of_ne hne]
      exact h.left b (by omega)
  fresh b hb := by
    have hpos := h.pos
    rw [reset_memHull,update_of_ne (by omega)]
    exact h.fresh b (by omega)

theorem Walked.full (h : Walked s maxbus (c.nbus-1) c) (hfull : c.nbus=maxbus) :
    Walked s maxbus c.nbus c where
  pos := h.pos
  numbered := h.numbered
  agree := h.agree
  left b hb := by
    rcases eq_or_ne b (c.nbus-1) with rfl | hne
    · have hpos := h.pos
      exact .inr ⟨by omega,h.fresh _ le_rfl⟩
    · exact h.left b (by omega)
  fresh b hb := h.fresh b (by omega)

theorem ppbEnter_walks {scan : ℕ → Scan → Option Scan}
    (hscan : ∀ {bus c r}, Walked s maxbus c.nbus c → bus<c.nbus →
      Below c.state.primary bus (c.nbus-1) → scan bus c=some r → Walks s maxbus bus c r)
    (h : Walked s maxbus (c.nbus-1) c) (hr : ppbEnter maxbus scan c=some r) :
    Walks s maxbus (c.nbus-1) c r := by
  have hpos := h.pos
  rw [ppbEnter] at hr
  split at hr
  · rename_i hfull
    cases hr
    exact ⟨h.full hfull,.self,⟨le_rfl,fun b _ => rfl⟩⟩
  · have hlast : c.nbus-1<(c.reset (c.nbus-1)).nbus := by
      rw [reset_nbus]
      omega
    have hwalks := hscan h.reset hlast .self hr
    refine ⟨hwalks.walked,hwalks.below,hwalks.grows.le,fun b hb => ?_⟩
    rw [hwalks.grows.primary b hb,reset_primary]

theorem ppbLoop_walks (h : Walked s maxbus c.nbus c) (hbus : bus<c.nbus)
    (hbelow : Below c.state.primary bus (c.nbus-1))
    (hr : ppbLoop maxbus slots bus device c=some r) : Walks s maxbus bus c r := by
  induction slots generalizing bus device c r with
  | done =>
    cases hr
    exact ⟨h,hbelow,⟨le_rfl,fun b _ => rfl⟩⟩
  | other rest ih => exact ih h hbus hbelow hr
  | bridge behind rest ihBehind ihRest =>
    rw [ppbLoop] at hr
    split at hr
    · cases hr
    · obtain ⟨r₁,hr₁,hr₂⟩ := Option.bind_eq_some_iff.mp hr
      have hbehind := ppbEnter_walks (c := c.attach bus device)
          (fun h hbus hbelow hr => ihBehind h hbus hbelow hr) (h.attach hbus hbelow) hr₁
      have hle := hbehind.grows.le
      rw [attach_nbus] at hle
      -- the new bus stays behind `bus`, and with it all that was found behind the bridge
      have hprimary : r₁.state.primary c.nbus=bus := by
        rw [hbehind.grows.primary c.nbus (by rw [attach_nbus]; omega),attach_primary,update_self]
      have hnew : Below r₁.state.primary bus c.nbus :=
        .child (by omega) (by rw [hprimary]; exact .self)
      have hrest : Walks s maxbus bus (r₁.close bus device c.nbus) r :=
        ihRest (hbehind.walked.close c.nbus) (by rw [close_nbus]; omega)
          (hnew.trans hbehind.below) hr₂
      have hle' := hrest.grows.le
      rw [close_nbus] at hle'
      refine ⟨hrest.walked,hrest.below,by omega,fun b hb => ?_⟩
      rw [hrest.grows.primary b (by rw [close_nbus]; omega),close_primary,
        hbehind.grows.primary b (by rw [attach_nbus]; omega),
        Grows.attach.primary b hb]

structure Fresh (s : State) : Prop where
  memHull : ∀ b, s.memHull b=⟨0,0⟩
  placed : s.placed = fun _ => []

theorem ppbinit_walked (h : Fresh s) (hr : ppbinit maxbus slots ⟨s,1⟩=some r) :
    Walked s maxbus r.nbus r := by
  have hstart : Walked s maxbus 0 ⟨s,1⟩ :=
    ⟨Nat.one_pos,⟨fun j hpos hj => absurd hj (by dsimp only; omega),
      fun j hpos hj => absurd hj (by dsimp only; omega)⟩,⟨rfl,rfl,rfl,rfl⟩,
      fun b hb => absurd hb (Nat.not_lt_zero b),fun b _ => h.memHull b⟩
  exact (ppbEnter_walks (fun h hbus hbelow hr => ppbLoop_walks h hbus hbelow hr) hstart hr).walked

end Pmon.Pci
