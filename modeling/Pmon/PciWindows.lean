import Pmon.CompareSort
import Pmon.DownwardAlloc

/-!
# Windows of PCI devices

Windows are sorted by bus and size and placed from the top downwards. When one finds no room, its
device gets no further windows.
-/

namespace Pmon.Pci
open CompareSort (Sorter IsOrderOn)
open DownwardAlloc (place Stacked)

inductive Kind where
  | io
  | mem
  deriving DecidableEq

structure Space where
  min : BitVec 32
  next : BitVec 32

def pciMemSpacePciBase : BitVec 32 := 0
def pciMemSpaceSize : BitVec 32 := 0x0c000000
def pciIoSpacePciBase : BitVec 32 := 0
def pciIoSpaceSize : BitVec 32 := 0x00100000

def pciHwinit : Kind → Space
  | .mem =>
    ⟨if pciMemSpacePciBase<0x1000000 then 0x1000000 else pciMemSpacePciBase,
      pciMemSpacePciBase+pciMemSpaceSize⟩
  | .io =>
    ⟨if pciIoSpacePciBase<0x10000 then 0x10000 else pciIoSpacePciBase,
      pciIoSpacePciBase+pciIoSpaceSize⟩

def failed : BitVec 32 := -1

def allocate (pcimaster : Bool) (sp : Space) (size : BitVec 32) : BitVec 32 × Space :=
  if !pcimaster then (failed,sp) else
  let address := (sp.next - size) &&& ~~~(size - 1#32)
  if sp.next<address ∨ address < sp.min then (failed,sp)
  else (address,{sp with next := address})

structure PciDev where
  bus : ℕ
  tag : ℕ
  /-- `nmemwin` and `niowin`, negative without further windows. -/
  nwin : Kind → ℤ

structure PciWin where
  dev : ℕ
  reg : ℕ
  size : BitVec 32
  address : BitVec 32
  deriving DecidableEq

structure Hull where
  min : BitVec 32
  max : BitVec 32

structure PciBus where
  primary : ℕ
  tag : ℕ
  hull : Kind → Hull

/-- The bridge, the two address spaces, the tables of devices and buses, and what was written to
configuration space. -/
structure State where
  pcimaster : Bool
  space : Kind → Space
  dev : ℕ → PciDev
  bus : ℕ → PciBus
  conf : ℕ → ℕ → BitVec 32
  placed : Kind → List PciWin

def State.confWrite (s : State) (tag reg : ℕ) (value : BitVec 32) : State :=
  {s with conf := Function.update s.conf tag (Function.update (s.conf tag) reg value)}

def pciMapRegRom : ℕ := 0x30
def pciMapRom : BitVec 32 := 1

def addressMask : Kind → BitVec 32
  | .io => 0xfffffffc
  | .mem => 0xfffffff0

def Hull.widen (h : Hull) (lo hi : BitVec 32) : Hull :=
  ⟨if lo < h.min then lo else h.min, if h.max<hi then hi else h.max⟩

def wincompare (s : State) (a b : PciWin) : ℤ :=
  if (s.dev a.dev).bus≠(s.dev b.dev).bus then (s.dev a.dev).bus-(s.dev b.dev).bus
  else (b.size-a.size).toInt

def State.put (s : State) (kind : Kind) (w : PciWin) : State :=
  let d := s.dev w.dev
  let b := s.bus d.bus
  let s := { s with
    bus := Function.update s.bus d.bus { b with
      hull := Function.update b.hull kind
        ((b.hull kind).widen w.address (w.address+w.size-1)) }
    placed := Function.update s.placed kind (w::s.placed kind) }
  -- the base register of an expansion ROM is written later
  if kind = .mem ∧ w.reg=pciMapRegRom then s
  else s.confWrite d.tag w.reg ((s.conf d.tag w.reg &&& ~~~addressMask kind) ||| w.address)

def setupWin (kind : Kind) (w : PciWin) (s : State) : PciWin × State :=
  let d := s.dev w.dev
  if d.nwin kind<0 ∨ w.size=0 then (w,s)
  else
    let (address,sp) := allocate s.pcimaster (s.space kind) w.size
    let w := {w with address := address}
    let s := {s with space := Function.update s.space kind sp}
    if address=failed then
      (w,{s with dev := Function.update s.dev w.dev {d with nwin := fun _ => -1}})
    else (w,s.put kind w)

def setupWins (kind : Kind) : List PciWin → State → List PciWin × State
  | [], s => ([],s)
  | w::ws, s =>
    let (w,s) := setupWin kind w s
    let (ws,s) := setupWins kind ws s
    (w::ws,s)

def pciSetupIowins (qsort : Sorter PciWin) (wins : List PciWin) (s : State) : List PciWin × State :=
  setupWins .io (qsort.sort (wincompare s) wins) s

def setupRoms : List PciWin → State → State
  | [], s => s
  | w::ws, s =>
    if w.reg=pciMapRegRom ∧ w.address≠failed then
      setupRoms ws (s.confWrite (s.dev w.dev).tag w.reg (w.address ||| pciMapRom))
    else setupRoms ws s

def pciSetupMemwins (qsort : Sorter PciWin) (wins : List PciWin) (s : State) :
    List PciWin × State :=
  let (wins,s) := setupWins .mem (qsort.sort (wincompare s) wins) s
  (wins,setupRoms wins s)

def IsSize (size : BitVec 32) : Prop := size.toNat.isPowerOfTwo

inductive Allocated (sp : Space) (size : BitVec 32) : BitVec 32 × Space → Prop
  | fails : Allocated sp size (failed,sp)
  | takes {address : BitVec 32} (hle : size.toNat ≤ sp.next.toNat)
    (haddress : address.toNat=place sp.next.toNat size.toNat)
    (hmin : sp.min.toNat ≤ address.toNat) :
    Allocated sp size (address,{sp with next := address})

theorem toNat_address {next size : BitVec 32} (hsize : IsSize size)
    (hle : size.toNat ≤ next.toNat) :
    ((next - size) &&& ~~~(size - 1#32)).toNat = place next.toNat size.toNat := by
  have hpos := Nat.pos_of_isPowerOfTwo hsize
  rw [DownwardAlloc.toNat_and_not_pred hsize,BitVec.toNat_sub_of_le hle,place,
    Nat.div_eq_sub_div hpos hle,Nat.add_sub_cancel]

theorem next_lt_address {next size : BitVec 32} (hsize : IsSize size)
    (hlt : next.toNat < size.toNat) : next < (next - size) &&& ~~~(size - 1#32) := by
  have hpos := Nat.pos_of_isPowerOfTwo hsize
  have hhalf : size.toNat≤2^31 := by
    obtain ⟨k,hk⟩ := hsize
    have hk32 := (Nat.pow_lt_pow_iff_right (by decide)).mp (hk ▸ size.isLt)
    rw [hk]
    exact Nat.pow_le_pow_right (by decide) (by omega)
  have hwrap : (next-size).toNat=2^32 - size.toNat + next.toNat := by
    rw [BitVec.toNat_sub]
    exact Nat.mod_eq_of_lt (by omega)
  rw [BitVec.lt_def,DownwardAlloc.toNat_and_not_pred hsize,hwrap]
  have := Nat.lt_div_mul_add hpos (a := 2^32 - size.toNat + next.toNat)
  omega

theorem allocate_allocated (pcimaster : Bool) (sp : Space) {size : BitVec 32}
    (hsize : IsSize size) : Allocated sp size (allocate pcimaster sp size) := by
  rw [allocate]
  split
  · exact .fails
  dsimp only
  split
  · exact .fails
  · rename_i hok
    obtain ⟨hnext,hmin⟩ := not_or.mp hok
    have hle : size.toNat ≤ sp.next.toNat := by
      by_contra hlt
      exact hnext (next_lt_address hsize (not_le.mp hlt))
    exact .takes hle (toNat_address hsize hle) (BitVec.not_lt.mp hmin)

theorem Allocated.ne_failed {sp : Space} {size address : BitVec 32} (hsize : IsSize size)
    (hle : size.toNat ≤ sp.next.toNat)
    (haddress : address.toNat=place sp.next.toNat size.toNat) : address≠failed := by
  rintro rfl
  have hpos := Nat.pos_of_isPowerOfTwo hsize
  have hend := DownwardAlloc.place_add_size_le hpos hle
  have hlast : (failed).toNat=2^32-1 := rfl
  have := sp.next.isLt
  omega

def State.give (s : State) (kind : Kind) (w : PciWin) : State :=
  { s with
    space := Function.update s.space kind {s.space kind with next := w.address} }.put kind w

section
variable (s : State) (kind : Kind) (w : PciWin)

@[simp] theorem give_space :
    (s.give kind w).space =
      Function.update s.space kind {s.space kind with next := w.address} := by
  rw [State.give,State.put]
  split <;> rfl

@[simp] theorem give_dev : (s.give kind w).dev=s.dev := by
  rw [State.give,State.put]
  split <;> rfl

@[simp] theorem give_placed :
    (s.give kind w).placed=Function.update s.placed kind (w::s.placed kind) := by
  rw [State.give,State.put]
  split <;> rfl

@[simp] theorem give_bus :
    (s.give kind w).bus=Function.update s.bus (s.dev w.dev).bus
      { s.bus (s.dev w.dev).bus with
        hull := Function.update (s.bus (s.dev w.dev).bus).hull kind
          (((s.bus (s.dev w.dev).bus).hull kind).widen w.address (w.address+w.size-1)) } := by
  rw [State.give,State.put]
  split <;> rfl
end

def PciWin.Ok (w : PciWin) : Prop := w.size=0 ∨ IsSize w.size

inductive Step (kind : Kind) (w : PciWin) (s : State) : PciWin × State → Prop
  | skips : Step kind w s (w,s)
  | fails : Step kind w s ({w with address := failed},
      {s with dev := Function.update s.dev w.dev {s.dev w.dev with nwin := fun _ => -1}})
  | places {address : BitVec 32} (hsize : IsSize w.size)
    (hle : w.size.toNat≤(s.space kind).next.toNat)
    (haddress : address.toNat=place (s.space kind).next.toNat w.size.toNat)
    (hmin : (s.space kind).min.toNat ≤ address.toNat) :
    Step kind w s ({w with address := address},s.give kind {w with address := address})

theorem setupWin_step (kind : Kind) {w : PciWin} (hw : w.Ok) (s : State) :
    Step kind w s (setupWin kind w s) := by
  rw [setupWin]
  split
  · exact .skips
  · rename_i hasks
    have hsize := hw.resolve_left (not_or.mp hasks).2
    generalize hr : allocate s.pcimaster (s.space kind) w.size=r
    have hallocated := hr ▸ allocate_allocated s.pcimaster (s.space kind) hsize
    cases hallocated with
    | fails =>
      dsimp only
      rw [if_pos rfl,Function.update_eq_self]
      exact .fails
    | takes hle haddress hmin =>
      dsimp only
      rw [if_neg (Allocated.ne_failed hsize hle haddress)]
      exact .places hsize hle haddress hmin

theorem setupWins_preserves {kind : Kind} {Inv : State → Prop}
    (hstep : ∀ {w : PciWin} {s : State} {r : PciWin × State}, Step kind w s r → Inv s → Inv r.2)
    {ws : List PciWin} (hws : ∀ w∈ws, w.Ok) {s : State} (h : Inv s) :
    Inv (setupWins kind ws s).2 := by
  induction ws generalizing s with
  | nil => exact h
  | cons w ws ih =>
    have hw := setupWin_step kind (hws w List.mem_cons_self) s
    exact ih (fun v hv => hws v (List.mem_cons_of_mem w hv)) (hstep hw h)

theorem setupRoms_eq (ws : List PciWin) (s : State) :
    ∃ conf, setupRoms ws s={s with conf := conf} := by
  induction ws generalizing s with
  | nil => exact ⟨s.conf,rfl⟩
  | cons w ws ih =>
    rw [setupRoms]
    split
    · obtain ⟨conf,hconf⟩ := ih (s.confWrite (s.dev w.dev).tag w.reg (w.address ||| pciMapRom))
      exact ⟨conf,hconf⟩
    · exact ih s

def PciWin.extent (w : PciWin) : ℕ × ℕ := (w.address.toNat, w.size.toNat)

/-- The windows placed so far lie below each other from the top of the space on. -/
structure Laid (sp : Space) (kind : Kind) (s : State) : Prop where
  min_eq : (s.space kind).min = sp.min
  stacked : Stacked sp.next.toNat (s.space kind).next.toNat
    ((s.placed kind).map PciWin.extent)
  aligned : ∀ w∈s.placed kind, w.size.toNat ∣ w.address.toNat
  above : ∀ w∈s.placed kind, sp.min.toNat ≤ w.address.toNat

variable {sp : Space} {kind kind' : Kind} {s : State} {w : PciWin}

theorem Laid.congr (h : Laid sp kind s) {s' : State} (hspace : s'.space kind=s.space kind)
    (hplaced : s'.placed kind=s.placed kind) : Laid sp kind s' :=
  ⟨hspace ▸ h.min_eq,by rw [hspace,hplaced]; exact h.stacked,hplaced ▸ h.aligned,
    hplaced ▸ h.above⟩

theorem Laid.step {r : PciWin × State} (hstep : Step kind w s r) (h : Laid sp kind' s) :
    Laid sp kind' r.2 := by
  cases hstep with
  | skips => exact h
  | fails => exact h.congr rfl rfl
  | @places address hsize hle haddress hmin =>
    by_cases hkind : kind'=kind
    · subst hkind
      have hpos := Nat.pos_of_isPowerOfTwo hsize
      have hend : address.toNat + w.size.toNat≤(s.space kind').next.toNat := by
        rw [haddress]
        exact DownwardAlloc.place_add_size_le hpos hle
      constructor
      · rw [give_space,Function.update_self]
        exact h.min_eq
      · rw [give_space,give_placed,Function.update_self,Function.update_self]
        exact h.stacked.push hend
      · rw [give_placed,Function.update_self,List.forall_mem_cons]
        exact ⟨by rw [haddress]; exact DownwardAlloc.dvd_place _ _,h.aligned⟩
      · rw [give_placed,Function.update_self,List.forall_mem_cons,←h.min_eq]
        exact ⟨hmin,by rw [h.min_eq]; exact h.above⟩
    · refine h.congr ?_ ?_
      · rw [give_space,Function.update_of_ne hkind]
      · rw [give_placed,Function.update_of_ne hkind]

def PciWin.range (w : PciWin) : Set ℕ :=
  Set.Ico w.address.toNat (w.address.toNat + w.size.toNat)

/-- Windows are aligned, apart and inside the space. -/
structure LaidOut (sp : Space) (ws : List PciWin) : Prop where
  aligned : ∀ w∈ws, w.size.toNat ∣ w.address.toNat
  disjoint : ws.Pairwise fun v w => Disjoint v.range w.range
  within : ∀ w∈ws, sp.min.toNat ≤ w.address.toNat ∧
    w.address.toNat + w.size.toNat ≤ sp.next.toNat

theorem Laid.laidOut (h : Laid sp kind s) : LaidOut sp (s.placed kind) where
  aligned := h.aligned
  disjoint := by
    have hpairs := List.pairwise_map.mp h.stacked.pairwise
    refine hpairs.imp fun {v w} hbelow => ?_
    exact Set.disjoint_left.mpr fun x hv hw => absurd (hv.2.trans_le hbelow) (not_lt.mpr hw.1)
  within w hw :=
    ⟨h.above w hw,(h.stacked.bounds w.extent (List.mem_map_of_mem hw)).2⟩

/-- In both spaces, the windows that got an address share the space well. -/
theorem pciSetupWins_laidOut (qsort : Sorter PciWin) {iowins memwins : List PciWin} {s : State}
    (hspace : s.space=pciHwinit) (hplaced : s.placed = fun _ => [])
    (hio : ∀ w∈iowins, w.Ok) (hmem : ∀ w∈memwins, w.Ok) (kind : Kind) :
    LaidOut (pciHwinit kind)
      ((pciSetupMemwins qsort memwins (pciSetupIowins qsort iowins s).2).2.placed kind) := by
  have hinit : Laid (pciHwinit kind) kind s := by
    constructor
    · rw [hspace]
    · rw [hspace,hplaced]
      exact .empty
    · rw [hplaced]
      exact fun w hw => absurd hw List.not_mem_nil
    · rw [hplaced]
      exact fun w hw => absurd hw List.not_mem_nil
  have hsorted : ∀ {ws : List PciWin}, (∀ w∈ws, w.Ok) → ∀ cmp, ∀ w∈qsort.sort cmp ws, w.Ok :=
    fun hws cmp w hw => hws w ((qsort.perm cmp _).mem_iff.mp hw)
  have hiowins : Laid (pciHwinit kind) kind (pciSetupIowins qsort iowins s).2 :=
    setupWins_preserves Laid.step (hsorted hio _) hinit
  rw [pciSetupMemwins]
  dsimp only
  obtain ⟨conf,hconf⟩ := setupRoms_eq _ (setupWins .mem _ _).2
  rw [hconf]
  exact (setupWins_preserves Laid.step (hsorted hmem _) hiowins).laidOut

def masterState (bus : ℕ → PciBus) : State where
  pcimaster := true
  space := pciHwinit
  dev d := ⟨d,d, fun _ => 0⟩
  bus := bus
  conf _ _ := 0
  placed _ := []

def emptyBus : PciBus := ⟨0,0, fun _ => ⟨0xffffffff,0⟩⟩

theorem pciSetupWins_laidOut_one :
    LaidOut (pciHwinit .mem)
      ((pciSetupMemwins CompareSort.insertion [⟨0,0x10,0x1000,0⟩]
        (pciSetupIowins CompareSort.insertion [] (masterState fun _ => emptyBus)).2).2.placed
          .mem) ∧
      ((pciSetupMemwins CompareSort.insertion [⟨0,0x10,0x1000,0⟩]
        (pciSetupIowins CompareSort.insertion [] (masterState fun _ => emptyBus)).2).2.placed
          .mem)=[⟨0,0x10,0x1000,0x0bfff000⟩] :=
  ⟨pciSetupWins_laidOut CompareSort.insertion rfl rfl (fun w hw => absurd hw List.not_mem_nil)
    (fun w hw => by rw [List.mem_singleton.mp hw]; exact .inr ⟨12,rfl⟩) .mem, by decide⟩

end Pmon.Pci
