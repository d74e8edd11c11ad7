import Pmon.PciHull

/-!
# What bridges forward

A bridge forwards whole megabytes, but nothing starts a new megabyte for the windows behind it.
-/

namespace Pmon.Pci
open List Function
open CompareSort (Sorter IsOrderOn)
open DownwardAlloc (place Stacked)
open PreorderTree (Below Numbered)

def ppbBlock : ℕ := 2^20

def forwarded (value : BitVec 32) : Set ℕ :=
  Set.Icc (value.toNat%2^16*2^16/ppbBlock*ppbBlock)
    (value.toNat/2^16*2^16/ppbBlock*ppbBlock+(ppbBlock-1))

def Isolated (p : Program) : Prop := ∀ e∈p.written .mem, ∀ w∈p.state.placed .mem,
    ¬Below p.state.primary e.1 (p.state.busOf w) → Disjoint w.range (forwarded e.2)

def State.Takes (s : State) (w : PciWin) : Prop := ¬((s.dev w.dev).nwin .mem<0 ∨ w.size=0) ∧
    (allocate s.pcimaster (s.space .mem) w.size).1≠failed

def Clear (s : State) (w : PciWin) : Prop :=
  s.Takes w → ∀ v∈(s.placed .mem).head?, s.busOf w≠s.busOf v →
    (s.space .mem).next.toNat%ppbBlock < w.size.toNat

def ClearRun : List PciWin → State → Prop
  | [], _ => True
  | w::ws, s => Clear s w ∧ ClearRun ws (setupWin .mem w s).2

def BlocksApart (qsort : Sorter PciWin) (nbus : ℕ) (found : Kind → ℕ → List PciWin)
    (s : State) : Prop :=
  let s := (pciSetupIowins qsort (scanBuses (found .io) nbus) s).2
  ClearRun (qsort.sort (wincompare s) (scanBuses (found .mem) nbus)) s

structure Asked (s : State) (found : Kind → ℕ → List PciWin) : Prop where
  busOf : ∀ b, ∀ w∈found .mem b, s.busOf w=b
  io : ∀ b, ∀ w∈found .io b, w.Ok
  mem : ∀ b, ∀ w∈found .mem b, w.size=0 ∨ IsSize w.size ∧ 16 ≤ w.size.toNat
  comparable : (∀ b, ∀ w∈found .mem b, w.size≠0) ∨
    ∀ b, ∀ w∈found .mem b, w.size.toNat<2^31

theorem ppbData_mem (old : BitVec 32) (h : Hull) :
    ppbData .mem old h = (h.max &&& ~~~(0x10000#32 - 1#32)) ||| (h.min >>> 16) := by
  have hmin : (h.min >>> 16) &&& 0xffff#32 = h.min >>> 16 := by
    apply BitVec.eq_of_toNat_eq
    have := h.min.isLt
    rw [BitVec.toNat_and,BitVec.toNat_ushiftRight,Nat.shiftRight_eq_div_pow]
    exact (Nat.and_two_pow_sub_one_eq_mod _ 16).trans (Nat.mod_eq_of_lt (by omega))
  have hold : old &&& ~~~0xffff#32 &&& 0xffff#32 = 0#32 := by
    rw [BitVec.and_assoc]
    exact BitVec.and_zero
  have hdistrib : ((old &&& ~~~0xffff#32) ||| (h.min >>> 16)) &&& 0xffff#32 =
      (old &&& ~~~0xffff#32 &&& 0xffff#32) ||| ((h.min >>> 16) &&& 0xffff#32) := by
    ext i
    simp only [BitVec.getElem_and,BitVec.getElem_or,Bool.and_or_distrib_right]
  have hmask : ~~~0xffff0000#32=0xffff#32 := by decide
  have hmask' : ~~~(0x10000#32-1#32)=0xffff0000#32 := by decide
  rw [hmask',BitVec.or_comm]
  change ((old &&& ~~~0xffff#32) ||| (h.min >>> 16)) &&& ~~~0xffff0000#32 ||| _ = _
  rw [hmask,hdistrib,hold,hmin,BitVec.zero_or]
  rfl

theorem toNat_ppbData (old : BitVec 32) (h : Hull) :
    (ppbData .mem old h).toNat = h.max.toNat/2^16*2^16 + h.min.toNat/2^16 := by
  have hlt : h.min.toNat/2^16<2^16 := by
    have := h.min.isLt
    omega
  rw [ppbData_mem,BitVec.toNat_or,DownwardAlloc.toNat_and_not_pred ⟨16,rfl⟩,
    BitVec.toNat_ushiftRight,Nat.shiftRight_eq_div_pow]
  have hor := Nat.shiftLeft_add_eq_or_of_lt hlt (h.max.toNat/2^16)
  rw [Nat.shiftLeft_eq] at hor
  exact hor.symm

theorem mem_forwarded {old : BitVec 32} {h : Hull} {x : ℕ} : x∈forwarded (ppbData .mem old h) ↔
      h.min.toNat/ppbBlock≤x/ppbBlock ∧ x/ppbBlock ≤ h.max.toNat/ppbBlock := by
  have hmin := h.min.isLt
  rw [forwarded,toNat_ppbData,Set.mem_Icc,ppbBlock]
  omega

variable {t s : State} {nbus : ℕ} {w : PciWin} {ws : List PciWin} {sp : Space}

structure Ordered (t : State) (nbus : ℕ) (ws : List PciWin) (s : State) : Prop where
  pairwise : (s.placed .mem).Pairwise fun v w => t.busOf w≤t.busOf v
  before : ∀ v∈s.placed .mem, ∀ w∈ws, t.busOf v≤t.busOf w
  sized : ∀ v∈s.placed .mem, 16 ≤ v.size.toNat ∧ t.busOf v<nbus

def PciWin.Asks (w : PciWin) (t : State) (nbus : ℕ) : Prop :=
  (w.size=0 ∨ IsSize w.size ∧ 16 ≤ w.size.toNat) ∧ t.busOf w<nbus

theorem PciWin.Asks.ok (h : w.Asks t nbus) : w.Ok := h.1.imp_right And.left

theorem Ordered.step {r : PciWin × State} (hstep : Step .mem w s r) (h : Ordered t nbus (w::ws) s)
    (hw : w.Asks t nbus) (hws : ∀ v∈ws, t.busOf w≤t.busOf v) : Ordered t nbus ws r.2 := by
  have hbefore : ∀ v∈s.placed .mem, ∀ u∈ws, t.busOf v≤t.busOf u :=
    fun v hv u hu => h.before v hv u (mem_cons_of_mem w hu)
  cases hstep with
  | skips => exact ⟨h.pairwise,hbefore,h.sized⟩
  | fails => exact ⟨h.pairwise,hbefore,h.sized⟩
  | @places address hsize _ _ _ =>
    have hsixteen : 16 ≤ w.size.toNat := by
      rcases hw.1 with hzero | hask
      · have hpos := Nat.pos_of_isPowerOfTwo hsize
        rw [hzero] at hpos
        exact absurd hpos (by decide)
      · exact hask.2
    constructor
    · rw [give_placed,update_self,pairwise_cons]
      exact ⟨fun v hv => h.before v hv w mem_cons_self,h.pairwise⟩
    · rw [give_placed,update_self,forall_mem_cons]
      exact ⟨hws,hbefore⟩
    · rw [give_placed,update_self,forall_mem_cons]
      exact ⟨⟨hsixteen,hw.2⟩,h.sized⟩

theorem setupWins_ordered (hws : ∀ w∈ws, w.Asks t nbus)
    (hsorted : ws.Pairwise fun v w => t.busOf v≤t.busOf w) (h : Ordered t nbus ws s) :
    Ordered t nbus [] (setupWins .mem ws s).2 := by
  induction ws generalizing s with
  | nil => exact h
  | cons w ws ih =>
    obtain ⟨hfirst,hrest⟩ := pairwise_cons.mp hsorted
    have hw := hws w mem_cons_self
    exact ih (fun v hv => hws v (mem_cons_of_mem w hv)) hrest
      (h.step (setupWin_step .mem hw.ok s) hw hfirst)

def Separate (t : State) (v w : PciWin) : Prop :=
  t.busOf v≠t.busOf w → v.last.toNat/ppbBlock ≠ w.address.toNat/ppbBlock

theorem toNat_last (hpos : 0 < w.size.toNat) (hlt : w.address.toNat + w.size.toNat<2^32) :
    w.last.toNat = w.address.toNat + w.size.toNat-1 := by
  have hone : (1 : BitVec 32).toNat=1 := rfl
  have hadd := BitVec.toNat_add_of_lt hlt
  rw [PciWin.last,BitVec.toNat_sub_of_le (by rw [BitVec.le_def,hone,hadd]; omega),hadd,hone]

theorem Laid.address_head (h : Laid sp .mem s) {v : PciWin} (hv : v∈(s.placed .mem).head?) :
    v.address.toNat=(s.space .mem).next.toNat := by
  have hstacked := h.stacked
  cases hplaced : s.placed .mem with
  | nil =>
    rw [hplaced] at hv
    exact absurd hv (by simp)
  | cons u us =>
    rw [hplaced] at hv hstacked
    obtain rfl : u=v := by simpa using hv
    exact hstacked.head_eq

theorem size_dvd_block {size : ℕ} (h : size.isPowerOfTwo) : size ∣ ppbBlock ∨ ppbBlock ∣ size := by
  obtain ⟨k,rfl⟩ := h
  exact (le_total k 20).imp (Nat.pow_dvd_pow 2) (Nat.pow_dvd_pow 2)

theorem setupWin_takes (hsize : IsSize w.size) (h : s.Takes w) :
    ∃ address : BitVec 32, w.size.toNat≤(s.space .mem).next.toNat ∧
      address.toNat=place (s.space .mem).next.toNat w.size.toNat ∧
      (setupWin .mem w s).2=s.give .mem {w with address := address} := by
  obtain ⟨hasks,hne⟩ := h
  rw [setupWin]
  rw [if_neg hasks]
  generalize hr : allocate s.pcimaster (s.space .mem) w.size=r at hne
  have hallocated := hr ▸ allocate_allocated s.pcimaster (s.space .mem) hsize
  cases hallocated with
  | fails => exact absurd rfl hne
  | @takes address hle haddress _ =>
    dsimp only
    rw [if_neg hne]
    exact ⟨address,hle,haddress,rfl⟩

theorem setupWin_not_takes (h : ¬s.Takes w) : (setupWin .mem w s).2.placed=s.placed := by
  rw [State.Takes,not_and,not_not] at h
  rw [setupWin]
  dsimp only
  split
  · rfl
  · rename_i hasks
    rw [if_pos (h hasks)]

theorem clear_iff (hlaid : Laid sp .mem s) (hbusOf : s.busOf=t.busOf) (hw : w.Ok) :
    ((setupWin .mem w s).2.placed .mem).IsChain (Separate t) ↔
      (s.placed .mem).IsChain (Separate t) ∧ Clear s w := by
  by_cases htakes : s.Takes w
  · have hsize := hw.resolve_left fun hzero => htakes.1 (.inr hzero)
    have hpos := Nat.pos_of_isPowerOfTwo hsize
    obtain ⟨address,hle,haddress,hr⟩ := setupWin_takes hsize htakes
    have hend : address.toNat + w.size.toNat≤(s.space .mem).next.toNat := by
      rw [haddress]
      exact DownwardAlloc.place_add_size_le hpos hle
    have hlast := toNat_last (w := {w with address := address}) hpos
      (hend.trans_lt (s.space .mem).next.isLt)
    have hblock := DownwardAlloc.div_block_eq_iff hpos (show 0<ppbBlock by decide) hle
      (size_dvd_block hsize)
    rw [←haddress] at hblock
    rw [hr,give_placed,update_self,isChain_cons,and_comm]
    refine and_congr_right fun _ => ?_
    have hneighbour : ∀ v∈(s.placed .mem).head?, Separate t {w with address := address} v ↔
        (s.busOf w≠s.busOf v → (s.space .mem).next.toNat%ppbBlock < w.size.toNat) := by
      intro v hv
      rw [Separate,hlaid.address_head hv,hlast,hbusOf,←not_le,←hblock]
      rfl
    rw [Clear]
    constructor
    · exact fun h _ v hv => (hneighbour v hv).mp (h v hv)
    · exact fun h v hv => (hneighbour v hv).mpr (h htakes v hv)
  · rw [setupWin_not_takes htakes]
    exact ⟨fun h => ⟨h,fun htakes' => absurd htakes' htakes⟩,And.left⟩

theorem clearRun_iff (hws : ∀ w∈ws, w.Ok) (hlaid : Laid sp .mem s) (hbusOf : s.busOf=t.busOf) :
    ((setupWins .mem ws s).2.placed .mem).IsChain (Separate t) ↔
      (s.placed .mem).IsChain (Separate t) ∧ ClearRun ws s := by
  induction ws generalizing s with
  | nil => exact (and_iff_left trivial).symm
  | cons w ws ih =>
    have hw := hws w mem_cons_self
    have hstep := setupWin_step .mem hw s
    have hrest := ih (fun v hv => hws v (mem_cons_of_mem w hv)) (hlaid.step hstep)
      (hstep.busOf_eq.trans hbusOf)
    rw [clear_iff hlaid hbusOf hw,and_assoc] at hrest
    exact hrest

structure Settled (t : State) (maxbus nbus : ℕ) (s : State) : Prop where
  numbered : Numbered t.primary nbus
  le_maxbus : nbus ≤ maxbus
  left : ∀ b, b<nbus → Left maxbus b (t.memHull b)
  recorded : Recorded t nbus s
  ordered : Ordered t nbus [] s
  laid : ∃ sp, Laid sp .mem s

section
variable {maxbus : ℕ} {h : Hull} {b : ℕ} {v : PciWin}
section
variable (hs : Settled t maxbus nbus s)
include hs

theorem Settled.toNat_last (hv : v∈s.placed .mem) :
    0 < v.size.toNat ∧ v.last.toNat = v.address.toNat + v.size.toNat-1 := by
  obtain ⟨sp,hlaid⟩ := hs.laid
  have hpos : 0 < v.size.toNat := by
    have := (hs.ordered.sized v hv).1
    omega
  exact ⟨hpos,Pci.toNat_last hpos ((hlaid.laidOut.within v hv).2.trans_lt sp.next.isLt)⟩

theorem Settled.mem_range (hv : v∈s.placed .mem) {x : ℕ} :
    x∈v.range ↔ v.address.toNat≤x ∧ x ≤ v.last.toNat := by
  obtain ⟨hpos,hlast⟩ := hs.toNat_last hv
  rw [PciWin.range,Set.mem_Ico,hlast]
  omega

theorem Settled.div_lt (hchain : (s.placed .mem).IsChain (Separate t)) (hv : v∈s.placed .mem)
    (hw : w∈s.placed .mem) (hlt : t.busOf w<t.busOf v) :
    v.last.toNat/ppbBlock < w.address.toNat/ppbBlock := by
  obtain ⟨sp,hlaid⟩ := hs.laid
  have hstack : (s.placed .mem).Pairwise fun v w => v.last.toNat < w.address.toNat := by
    refine (pairwise_map.mp hlaid.stacked.pairwise).imp_of_mem fun {v w} hv _ hbelow => ?_
    obtain ⟨hpos,hlast⟩ := hs.toNat_last hv
    have hend : v.address.toNat + v.size.toNat ≤ w.address.toNat := hbelow
    omega
  have hle : ∀ v∈s.placed .mem, v.address.toNat ≤ v.last.toNat := by
    intro v hv
    obtain ⟨hpos,hlast⟩ := hs.toNat_last hv
    omega
  exact @DownwardAlloc.div_lt_of_owner_lt PciWin t.busOf (fun v => v.address.toNat)
    (fun v => v.last.toNat) ppbBlock _ hle hstack hs.ordered.pairwise hchain v w hv hw hlt

theorem Settled.max_attained (he : Ends t.memHull t.busOf (s.placed .mem) (Behind t nbus b) h)
    (hlt : h.min<h.max) :
    ∃ w∈s.placed .mem, Behind t nbus b (t.busOf w) ∧ h.max=w.last := by
  obtain ⟨c,hc,hinit | ⟨w,hw,rfl,hmax⟩⟩ := he.max
  · have hzero : (t.memHull c).max=0 := by
      rcases hs.left c hc.2 with hreset | ⟨_,hzero⟩
      · rw [hreset]
      · rw [hzero]
    rw [hinit,hzero] at hlt
    exact absurd hlt (BitVec.not_lt_zero)
  · exact ⟨w,hw,hc,hmax⟩

theorem Settled.min_attained (he : Ends t.memHull t.busOf (s.placed .mem) (Behind t nbus b) h)
    (hlt : h.min<h.max) :
    (∃ w∈s.placed .mem, Behind t nbus b (t.busOf w) ∧ h.min=w.address) ∨
      Behind t nbus b (maxbus-1) := by
  obtain ⟨c,hc,hinit | ⟨w,hw,rfl,hmin⟩⟩ := he.min
  · rcases hs.left c hc.2 with hreset | ⟨hlast,_⟩
    · have hmax := h.max.isLt
      have htop : (0xffffffff : BitVec 32).toNat=2^32-1 := rfl
      rw [hinit,hreset, BitVec.lt_def,htop] at hlt
      omega
    · obtain rfl : maxbus-1=c := by omega
      exact .inr hc
  · exact .inl ⟨w,hw,hc,hmin⟩

theorem Settled.disjoint (hchain : (s.placed .mem).IsChain (Separate t))
    (he : Ends t.memHull t.busOf (s.placed .mem) (Behind t nbus b) h) (hlt : h.min<h.max)
    (hv : v∈s.placed .mem) (hout : ¬Below t.primary b (t.busOf v)) (old : BitVec 32) :
    Disjoint v.range (forwarded (ppbData .mem old h)) := by
  refine Set.disjoint_left.mpr fun x hx hforwarded => ?_
  obtain ⟨hlow,hhigh⟩ := (hs.mem_range hv).mp hx
  obtain ⟨hbase,hlimit⟩ := mem_forwarded.mp hforwarded
  have hvbus := (hs.ordered.sized v hv).2
  rcases Nat.lt_or_ge (t.busOf v) b with hbefore | hafter
  · -- the window lies above all that is behind the bridge
    obtain ⟨w,hw,hbehind,hmax⟩ := hs.max_attained he hlt
    have hle := hs.numbered.le_of_below hbehind.1 hbehind.2
    have hblock := hs.div_lt hchain hw hv (hbefore.trans_le hle)
    have hlow' := Nat.div_le_div_right hlow (c := ppbBlock)
    rw [hmax] at hlimit
    omega
  · -- it lies below: the buses behind the bridge are numbered without a gap
    have hgap : ∀ c, Behind t nbus b c → c<t.busOf v := fun c hc => by
      by_contra hle
      exact hout (hs.numbered.below_of_le hc.1 hc.2 hafter (not_lt.mp hle))
    rcases hs.min_attained he hlt with ⟨w,hw,hbehind,hmin⟩ | hlast
    · have hblock := hs.div_lt hchain hv hw (hgap _ hbehind)
      have hhigh' := Nat.div_le_div_right hhigh (c := ppbBlock)
      rw [hmin] at hbase
      omega
    · have hlt' := hgap _ hlast
      have := hs.le_maxbus
      omega

theorem Settled.separate (hv : v∈s.placed .mem) (hw : w∈s.placed .mem)
    (hle : t.busOf v≤t.busOf w) (hcovers : h.Covers w)
    (hdisjoint : ∀ old, h.min<h.max → t.busOf v<t.busOf w →
      Disjoint v.range (forwarded (ppbData .mem old h))) : Separate t w v := by
  intro hne hshare
  obtain ⟨hvpos,hvlast⟩ := hs.toNat_last hv
  obtain ⟨hwpos,hwlast⟩ := hs.toNat_last hw
  have hsixteen := (hs.ordered.sized w hw).1
  have hmin : h.min.toNat ≤ w.address.toNat := hcovers.1
  have hmax : w.last.toNat ≤ h.max.toNat := hcovers.2
  have hlt : h.min<h.max := by
    rw [BitVec.lt_def]
    omega
  have hmem : v.address.toNat∈forwarded (ppbData .mem 0 h) := by
    rw [mem_forwarded,←hshare]
    exact ⟨Nat.div_le_div_right (by omega),Nat.div_le_div_right hmax⟩
  have hrange := (hs.mem_range hv).mpr ⟨le_rfl,by omega⟩
  exact Set.disjoint_left.mp (hdisjoint 0 hlt (lt_of_le_of_ne hle hne.symm)) hrange hmem
end
end

theorem Settled.isolated_iff {maxbus : ℕ} (hs : Settled t maxbus nbus s) (hpos : 0<nbus) :
    Isolated (pciSetupPpb nbus s) ↔ (s.placed .mem).IsChain (Separate t) := by
  have hfolded : Recorded t nbus (foldBuses (nbus-1) s) := hs.recorded.foldBuses (by omega)
  have hplaced : (foldBuses (nbus-1) s).placed=s.placed := foldBuses_placed _ _
  have hconf := programBridges_confOnly (nbus-1) ⟨foldBuses (nbus-1) s,0,fun _ => []⟩
  have hranges :=
    programBridges_ranges (nbus-1) (p := ⟨foldBuses (nbus-1) s,0,fun _ => []⟩) rfl
  rw [Isolated,pciSetupPpb,hconf.primary,hconf.busOf,hconf.placed,hfolded.primary,
    hfolded.busOf,hplaced]
  have hends := hfolded.ends
  have hcovers := hfolded.covers
  rw [hplaced] at hends hcovers
  constructor
  · intro h
    refine (hs.ordered.pairwise.imp_of_mem fun {w v} hw hv hle => ?_).isChain
    refine hs.separate hv hw hle (hcovers w hw) fun old hlt hbus => ?_
    have hwbus := (hs.ordered.sized w hw).2
    obtain ⟨old',hmem⟩ := hranges.complete (t.busOf w) (by omega) (by omega) hlt
    have hout : ¬Below t.primary (t.busOf w) (t.busOf v) := fun hbelow =>
      absurd (hs.numbered.le_of_below hbelow (by omega)) (not_le.mpr hbus)
    rw [ppbData_mem,←ppbData_mem old']
    exact h _ hmem v hv hout
  · intro hchain e he v hv hout
    obtain ⟨_,hle,hlt,old,hvalue⟩ := hranges.sound e he
    rw [hvalue]
    exact hs.disjoint hchain (hends e.1 (by omega)) hlt hv hout old

theorem wincompare_le_iff {a b : PciWin} (hab : a.size.toNat < b.size.toNat+2^31)
    (hba : b.size.toNat < a.size.toNat+2^31) : wincompare s a b≤0 ↔ s.busOf a<s.busOf b ∨
      s.busOf a=s.busOf b ∧ b.size.toNat ≤ a.size.toNat := by
  rw [wincompare,State.busOf,State.busOf]
  split
  · omega
  · have hsizes : (b.size-a.size).toInt = b.size.toNat - a.size.toNat := by
      rw [BitVec.toInt_eq_toNat_cond,BitVec.toNat_sub]
      split <;> omega
    rw [hsizes]
    omega

theorem IsSize.le {size : BitVec 32} (h : IsSize size) : size.toNat≤2^31 := by
  obtain ⟨k,hk⟩ := h
  have hk32 := (Nat.pow_lt_pow_iff_right (by decide)).mp (hk ▸ size.isLt)
  rw [hk]
  exact Nat.pow_le_pow_right (by decide) (by omega)

def Comparable (ws : List PciWin) : Prop := ∀ a∈ws, ∀ b∈ws, a.size.toNat < b.size.toNat+2^31

theorem Comparable.isOrderOn (h : Comparable ws) : IsOrderOn (wincompare s) ws where
  total a ha b hb := by
    rw [wincompare_le_iff (h a ha b hb) (h b hb a ha),wincompare_le_iff (h b hb a ha) (h a ha b hb)]
    omega
  trans a ha b hb c hc hab hbc := by
    rw [wincompare_le_iff (h a ha b hb) (h b hb a ha)] at hab
    rw [wincompare_le_iff (h b hb c hc) (h c hc b hb)] at hbc
    rw [wincompare_le_iff (h a ha c hc) (h c hc a ha)]
    omega

theorem Comparable.sorted (h : Comparable ws) (qsort : Sorter PciWin) :
    (qsort.sort (wincompare s) ws).Pairwise fun v w => s.busOf v ≤ s.busOf w := by
  refine (qsort.sorted (wincompare s) ws h.isOrderOn).imp_of_mem fun {a b} ha hb hle => ?_
  have ha' := (qsort.perm (wincompare s) ws).mem_iff.mp ha
  have hb' := (qsort.perm (wincompare s) ws).mem_iff.mp hb
  rw [wincompare_le_iff (h a ha' b hb') (h b hb' a ha')] at hle
  omega

section
variable {s' : State} {kind : Kind}
section
variable (h : s.Agree s')
include h

theorem setupWin_agree (kind : Kind) (w : PciWin) :
    (setupWin kind w s).2.Agree (setupWin kind w s').2 := by
  obtain ⟨pcimaster,space,dev,bus,conf,placed⟩ := s
  obtain ⟨pcimaster',space',dev',bus',conf',placed'⟩ := s'
  obtain ⟨rfl,rfl,rfl,rfl⟩ := h
  rw [setupWin,setupWin]
  dsimp only
  split
  · exact ⟨rfl,rfl,rfl,rfl⟩
  · split
    · exact ⟨rfl,rfl,rfl,rfl⟩
    · rw [State.put,State.put]
      split
      · exact ⟨rfl,rfl,rfl,rfl⟩
      · exact ⟨rfl,rfl,rfl,rfl⟩

theorem setupWins_agree (kind : Kind) (ws : List PciWin) :
    (setupWins kind ws s).2.Agree (setupWins kind ws s').2 := by
  induction ws generalizing s s' with
  | nil => exact h
  | cons w ws ih => exact ih (setupWin_agree h kind w)

theorem State.Agree.wincompare : wincompare s=wincompare s' := by
  funext a b
  rw [Pci.wincompare,Pci.wincompare,h.dev]

theorem pciSetupIowins_agree (qsort : Sorter PciWin) (ws : List PciWin) :
    (pciSetupIowins qsort ws s).2.Agree (pciSetupIowins qsort ws s').2 := by
  rw [pciSetupIowins,pciSetupIowins,h.wincompare]
  exact setupWins_agree h .io _

theorem State.Agree.busOf : s.busOf=s'.busOf := by
  funext w
  rw [State.busOf,State.busOf,h.dev]

theorem Clear.congr : Clear s w ↔ Clear s' w := by
  rw [Clear,Clear,State.Takes,State.Takes,h.busOf,h.dev,h.pcimaster,h.space,h.placed]

theorem ClearRun.congr : ClearRun ws s ↔ ClearRun ws s' := by
  induction ws generalizing s s' with
  | nil => exact Iff.rfl
  | cons w ws ih => exact and_congr (Clear.congr h) (ih (setupWin_agree h .mem w))
end
end
section
variable {maxbus : ℕ} {slots : Slots} {found : Kind → ℕ → List PciWin} {c : Scan}

theorem mem_scanBuses {found : ℕ → List PciWin} {nbus : ℕ} {w : PciWin} :
    w∈scanBuses found nbus ↔ ∃ b, b<nbus ∧ w∈found b := by
  rw [scanBuses,mem_flatMap]
  simp only [List.mem_range]

theorem Asked.comparable_scanBuses (h : Asked s found) (nbus : ℕ) :
    Comparable (scanBuses (found .mem) nbus) := by
  intro a ha b hb
  obtain ⟨i,_,ha⟩ := mem_scanBuses.mp ha
  obtain ⟨j,_,hb⟩ := mem_scanBuses.mp hb
  rcases h.comparable with hnonzero | hsmall
  · have hle := ((h.mem i a ha).resolve_left (hnonzero i a ha)).1.le
    have hpos : 0 < b.size.toNat := by
      have := ((h.mem j b hb).resolve_left (hnonzero j b hb)).2
      omega
    omega
  · have := hsmall i a ha
    omega

theorem Asked.asks (h : Asked s found) (ht : t.busOf=s.busOf) (hw : w∈scanBuses (found .mem) nbus) :
    w.Asks t nbus := by
  obtain ⟨b,hb,hw⟩ := mem_scanBuses.mp hw
  refine ⟨h.mem b w hw,?_⟩
  rw [ht,h.busOf b w hw]
  exact hb

theorem settled_of_walked (qsort : Sorter PciWin) (hwalked : Walked s maxbus c.nbus c)
    (hle : c.nbus ≤ maxbus) (hplaced : s.placed = fun _ => []) (h : Asked s found) :
    let s₁ := (pciSetupIowins qsort (scanBuses (found .io) c.nbus) c.state).2
    let ws := qsort.sort (wincompare s₁) (scanBuses (found .mem) c.nbus)
    Settled c.state maxbus c.nbus (setupWins .mem ws s₁).2 ∧
      (((setupWins .mem ws s₁).2.placed .mem).IsChain (Separate c.state) ↔ ClearRun ws s₁) := by
  intro s₁ ws
  have hplaced₀ := hwalked.agree.placed.trans hplaced
  have hio : ∀ w∈qsort.sort (wincompare c.state) (scanBuses (found .io) c.nbus), w.Ok := by
    intro w hw
    obtain ⟨b,_,hw⟩ := mem_scanBuses.mp ((qsort.perm _ _).mem_iff.mp hw)
    exact h.io b w hw
  have hws : ∀ w∈ws, w.Asks c.state c.nbus := fun w hw =>
    h.asks hwalked.agree.busOf ((qsort.perm _ _).mem_iff.mp hw)
  have hok : ∀ w∈ws, w.Ok := fun w hw => (hws w hw).ok
  -- the I/O windows leave memory alone
  have hrecorded : Recorded c.state c.nbus s₁ :=
    setupWins_preserves Recorded.step hio (.start hplaced₀)
  have hstart : Laid (c.state.space .mem) .mem c.state := by
    constructor
    · rfl
    · rw [hplaced₀]
      exact .empty
    · rw [hplaced₀]
      exact fun w hw => absurd hw not_mem_nil
    · rw [hplaced₀]
      exact fun w hw => absurd hw not_mem_nil
  have hlaid : Laid (c.state.space .mem) .mem s₁ := setupWins_preserves Laid.step hio hstart
  have hempty : s₁.placed .mem=[] :=
    setupWins_preserves (fun hstep hs => hstep.io_placed.trans hs) hio (congrFun hplaced₀ .mem)
  have hordered : Ordered c.state c.nbus ws s₁ := by
    constructor <;> rw [hempty]
    · exact .nil
    · exact fun v hv => absurd hv not_mem_nil
    · exact fun v hv => absurd hv not_mem_nil
  have hsorted := (h.comparable_scanBuses c.nbus).sorted (s := s₁) qsort
  rw [hrecorded.busOf] at hsorted
  refine ⟨⟨hwalked.numbered,hle,hwalked.left,setupWins_preserves Recorded.step hok hrecorded,
    setupWins_ordered hws hsorted hordered,_,setupWins_preserves Laid.step hok hlaid⟩,?_⟩
  rw [clearRun_iff hok hlaid hrecorded.busOf,hempty]
  exact and_iff_right .nil

theorem Settled.congr_conf {s' : State} (hs : Settled t maxbus nbus s) (h : s.ConfOnly s') :
    Settled t maxbus nbus s' := by
  obtain ⟨conf,rfl⟩ := h
  obtain ⟨sp,hlaid⟩ := hs.laid
  exact ⟨hs.numbered,hs.le_maxbus,hs.left,hs.recorded.congr rfl rfl rfl rfl,
    ⟨hs.ordered.pairwise,hs.ordered.before,hs.ordered.sized⟩,sp,hlaid.congr rfl rfl⟩

theorem setupPpb_eq (hpos : 0<nbus) (s : State) :
    (if 1<nbus then pciSetupPpb nbus s else ⟨s,0, fun _ => []⟩)=pciSetupPpb nbus s := by
  split
  · rfl
  · obtain rfl : nbus=1 := by omega
    rfl

theorem isolated_iff_of_walked (qsort : Sorter PciWin) (hwalked : Walked s maxbus c.nbus c)
    (hle : c.nbus ≤ maxbus) (hplaced : s.placed = fun _ => []) (h : Asked s found) :
    Isolated (if 1<c.nbus then
        pciSetupPpb c.nbus (pciSetupMemwins qsort (scanBuses (found .mem) c.nbus)
          (pciSetupIowins qsort (scanBuses (found .io) c.nbus) c.state).2).2
      else ⟨(pciSetupMemwins qsort (scanBuses (found .mem) c.nbus)
        (pciSetupIowins qsort (scanBuses (found .io) c.nbus) c.state).2).2,0, fun _ => []⟩) ↔
      BlocksApart qsort c.nbus found s := by
  obtain ⟨hsettled,hchain⟩ := settled_of_walked qsort hwalked hle hplaced h
  have hagree := pciSetupIowins_agree hwalked.agree qsort (scanBuses (found .io) c.nbus)
  rw [setupPpb_eq hwalked.pos,BlocksApart,pciSetupMemwins]
  obtain hroms := setupRoms_eq _ (setupWins .mem _ _).2
  rw [(hsettled.congr_conf hroms).isolated_iff hwalked.pos,State.ConfOnly.placed hroms,hchain,
    ←hagree.wincompare,ClearRun.congr hagree]

/-- Bridges isolate memory exactly when their buses fit and no neighbouring windows of different
buses share a block. -/
theorem pciConfigure_isolated_iff (qsort : Sorter PciWin) {maxbus : ℕ} (hmaxbus : 0 < maxbus)
    (slots : Slots) {found : Kind → ℕ → List PciWin} {s : State} (hfresh : Fresh s)
    (hasked : Asked s found) :
    (∃ p, pciConfigure qsort maxbus slots found s=some p ∧ Isolated p) ↔
      (maxbus-1=0 ∨ slots.Fits (maxbus-1)) ∧
        BlocksApart qsort (min maxbus (1+slots.bridges)) found s := by
  have hfinds := ppbinit_finds slots (c := ⟨s,1⟩) hmaxbus
  rw [pciConfigure]
  cases hr : ppbinit maxbus slots ⟨s,1⟩ with
  | none =>
    rw [hr] at hfinds
    refine iff_of_false ?_ fun hright => hfinds hright.1
    rintro ⟨p,hp,_⟩
    cases hp
  | some c =>
    rw [hr] at hfinds
    obtain ⟨hfits,hnbus⟩ := hfinds
    rw [Option.map_some,←hnbus]
    have hiff := isolated_iff_of_walked qsort (ppbinit_walked hfresh hr) (by omega)
      hfresh.placed hasked
    constructor
    · rintro ⟨p,hp,hp'⟩
      cases hp
      exact ⟨hfits,hiff.mp hp'⟩
    · rintro ⟨_,hapart⟩
      exact ⟨_,rfl,hiff.mpr hapart⟩
end

def freshState : State := masterState fun _ => ⟨0,0, fun _ => ⟨0,0⟩⟩

def twoWindows (size : BitVec 32) : Kind → ℕ → List PciWin
  | .mem, 0 => [⟨0,0x10,size,0⟩]
  | .mem, 1 => [⟨1,0x10,size,0⟩]
  | _, _ => []

theorem freshState_fresh : Fresh freshState := ⟨fun _ => rfl,rfl⟩

theorem twoWindows_asked {size : BitVec 32} (hsize : IsSize size) (hle : 16 ≤ size.toNat) :
    Asked freshState (twoWindows size) := by
  have hmem : ∀ b, ∀ w∈twoWindows size .mem b, freshState.busOf w=b ∧ w.size=size := by
    intro b w hw
    match b with
    | 0 =>
      rw [mem_singleton.mp hw]
      exact ⟨rfl,rfl⟩
    | 1 =>
      rw [mem_singleton.mp hw]
      exact ⟨rfl,rfl⟩
    | b+2 => exact absurd hw not_mem_nil
  have hne : size≠0 := by
    rintro rfl
    exact absurd hle (by decide)
  refine ⟨fun b w hw => (hmem b w hw).1,fun b w hw => absurd hw not_mem_nil,?_,.inl ?_⟩
  · intro b w hw
    rw [(hmem b w hw).2]
    exact .inr ⟨hsize,hle⟩
  · intro b w hw
    rw [(hmem b w hw).2]
    exact hne

theorem pciConfigure_isolated_iff_megabyte :
    Fresh freshState ∧ Asked freshState (twoWindows 0x100000) ∧
      ((∃ p, pciConfigure CompareSort.insertion 3 (.bridge .done .done) (twoWindows 0x100000)
          freshState=some p ∧ Isolated p) ↔
        (3-1=0 ∨ (Slots.bridge .done .done).Fits (3-1)) ∧
          BlocksApart CompareSort.insertion (min 3 (1+(Slots.bridge .done .done).bridges))
            (twoWindows 0x100000) freshState) :=
  ⟨freshState_fresh,twoWindows_asked ⟨20,rfl⟩ (by decide),
    pciConfigure_isolated_iff CompareSort.insertion (by decide) _ freshState_fresh
      (twoWindows_asked ⟨20,rfl⟩ (by decide))⟩

theorem pciConfigure_not_isolated :
    ¬∃ p, pciConfigure CompareSort.insertion 3 (.bridge .done .done) (twoWindows 0x1000)
      freshState=some p ∧ Isolated p := by
  rintro ⟨p,hp,hisolated⟩
  have hwritten : (pciConfigure CompareSort.insertion 3 (.bridge .done .done) (twoWindows 0x1000)
      freshState).map (fun p => p.written .mem)=some [(1,0x0bff0bff)] := by decide +kernel
  have hplaced : (pciConfigure CompareSort.insertion 3 (.bridge .done .done) (twoWindows 0x1000)
      freshState).map (fun p => p.state.placed .mem) =
        some [⟨1,0x10,0x1000,0x0bffe000⟩,⟨0,0x10,0x1000,0x0bfff000⟩] := by decide +kernel
  have hbus : (pciConfigure CompareSort.insertion 3 (.bridge .done .done) (twoWindows 0x1000)
      freshState).map (fun p => p.state.busOf ⟨0,0x10,0x1000,0x0bfff000⟩)=some 0 := by
    decide +kernel
  rw [hp,Option.map_some] at hwritten hplaced hbus
  have hdisjoint := hisolated (1,0x0bff0bff)
    (by rw [Option.some.inj hwritten]; exact mem_singleton_self _)
    ⟨0,0x10,0x1000,0x0bfff000⟩
    (by rw [Option.some.inj hplaced]; exact mem_cons_of_mem _ (mem_singleton_self _))
    (by rw [Option.some.inj hbus]; rintro (_ | ⟨hpos,_⟩); exact absurd hpos (lt_irrefl 0))
  have hrange : 0x0bfff000∈(⟨0,0x10,0x1000,0x0bfff000⟩ : PciWin).range :=
    ⟨by decide, by decide⟩
  have hforwarded : 0x0bfff000∈forwarded 0x0bff0bff := ⟨by decide, by decide⟩
  exact Set.disjoint_left.mp hdisjoint hrange hforwarded

end Pmon.Pci
