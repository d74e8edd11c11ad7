import Pmon.ElfBoot
import Pmon.DownwardAlloc

/-!
# Temporary tables at the top of memory

`gettable` takes room from the top of memory downwards. A size beyond what is left wraps around.
-/

namespace Pmon.BootTables
open List
open LoadFn (u32 k0ToPhys K0BASE K0SIZE K2BASE)
open Tftp (int32)
open ElfBoot (NetOps Store seekExact)
variable {size tablebase : UInt32}

structure Tables (φ : Type) where
  tablebase : UInt32
  file : φ

structure Request where
  maxaddr : ℕ
  offs : UInt32
  size : UInt32

structure Result (φ : Type) where
  addr : Option UInt32
  stores : List Store
  state : Tables φ

def physTo (k0 : Bool) (pa : UInt32) : UInt32 := pa ||| if k0 then 0x80000000 else 0xa0000000
def tableStart (tablebase size : UInt32) : UInt32 := (tablebase - size) &&& ~~~7

section
variable {φ : Type} (ops : NetOps φ) (k0 : Bool)

def gettable (s : Tables φ) (q : Request) : Option (Result φ) :=
  let base := tableStart s.tablebase q.size
  if base.toNat<k0ToPhys q.maxaddr then some ⟨none,[],s⟩
  else
    match seekExact ops s.file q.offs with
    | (false,f) => some ⟨none,[],⟨base,f⟩⟩
    | (true,f) =>
      (ops.netread f (int32 q.size.toNat)).map fun r =>
        ⟨if r.value=int32 q.size.toNat then some (physTo k0 base) else none,
          r.copies.map (.ofCopy (physTo k0 base).toNat),⟨base,r.file⟩⟩

structure Taken (φ : Type) where
  request : Request
  before : Tables φ
  addr : Option UInt32

def gettables : Tables φ → List Request → List (Taken φ)
  | _, [] => []
  | s, q::qs =>
    match gettable ops k0 s q with
    | none => []
    | some r => ⟨q,s,r.addr⟩::gettables r.state qs

structure InRam (memorysize maxaddr : ℕ) (addr size : ℕ) : Prop where
  unmapped : K0BASE≤addr
  stop : addr+size≤K2BASE
  above : k0ToPhys maxaddr≤k0ToPhys addr
  below : k0ToPhys addr+size ≤ memorysize

def Taken.range (t : Taken φ) : Option (ℕ × ℕ) :=
  t.addr.map fun addr => (k0ToPhys addr.toNat, t.request.size.toNat)

structure Safe (memorysize : ℕ) (ts : List (Taken φ)) : Prop where
  inRam : ∀ t∈ts, ∀ addr, t.addr=some addr →
    InRam memorysize t.request.maxaddr addr.toNat t.request.size.toNat
  apart : (ts.filterMap Taken.range).Pairwise fun r r' => r.1+r.2≤r'.1 ∨ r'.1+r'.2≤r.1

def Taken.Fits (t : Taken φ) : Prop := t.request.size≤t.before.tablebase

instance (t : Taken φ) : Decidable t.Fits := inferInstanceAs (Decidable (_≤_))

theorem toNat_tableStart (h : size≤tablebase) :
    (tableStart tablebase size).toNat=(tablebase.toNat - size.toNat)/8*8 := by
  have hsub := UInt32.toNat_sub_of_le _ _ h
  have height : (8#32).toNat.isPowerOfTwo := ⟨3,rfl⟩
  have hround := DownwardAlloc.toNat_and_not_pred height (tablebase-size).toBitVec
  rw [←hsub]
  exact hround

theorem tableStart_add_size_le (h : size≤tablebase) :
    (tableStart tablebase size).toNat + size.toNat ≤ tablebase.toNat := by
  have hle := UInt32.le_iff_toNat_le.mp h
  rw [toNat_tableStart h]
  omega

theorem lt_tableStart_add_size (h : tablebase<size) :
    2^32-8<(tableStart tablebase size).toNat + size.toNat := by
  have hlt := UInt32.lt_iff_toNat_lt.mp h
  have hsize := size.toNat_lt
  have hsub : (tablebase-size).toNat=2^32 - size.toNat + tablebase.toNat := by
    rw [UInt32.toNat_sub]
    omega
  have height : (8#32).toNat.isPowerOfTwo := ⟨3,rfl⟩
  have hround : (tableStart tablebase size).toNat=(tablebase-size).toNat/8*8 :=
    DownwardAlloc.toNat_and_not_pred height (tablebase-size).toBitVec
  rw [hround,hsub]
  omega

theorem toNat_physTo (k0 : Bool) {pa : UInt32} (h : pa.toNat<K0SIZE) :
    (physTo k0 pa).toNat=(if k0 then 4 else 5)*K0SIZE + pa.toNat := by
  have hor : ∀ a, pa.toNat ||| 2 ^ 29 * a = 2 ^ 29 * a + pa.toNat := fun a => by
    rw [Nat.or_comm,←Nat.two_pow_add_eq_or_of_lt h]
  unfold physTo
  rw [UInt32.toNat_or]
  cases k0 with
  | false => exact hor 5
  | true => exact hor 4

theorem le_toNat_physTo (k0 : Bool) (pa : UInt32) : pa.toNat≤(physTo k0 pa).toNat := by
  unfold physTo
  rw [UInt32.toNat_or]
  exact Nat.left_le_or

theorem k0ToPhys_physTo (k0 : Bool) {pa : UInt32} (h : pa.toNat<K0SIZE) :
    k0ToPhys (physTo k0 pa).toNat = pa.toNat := by
  rw [toNat_physTo k0 h,k0ToPhys,Nat.mul_add_mod_self_right,Nat.mod_eq_of_lt h]

inductive Step (s : Tables φ) (q : Request) : Result φ → Prop where
  | refused : Step s q ⟨none,[],s⟩
  | reserved {r : Result φ} (hbase : r.state.tablebase=tableStart s.tablebase q.size)
      (habove : k0ToPhys q.maxaddr≤(tableStart s.tablebase q.size).toNat)
      (haddr : ∀ addr, r.addr=some addr → addr=physTo k0 (tableStart s.tablebase q.size)) :
      Step s q r

theorem gettable_step {s : Tables φ} {q : Request} {r : Result φ}
    (h : gettable ops k0 s q=some r) : Step k0 s q r := by
  unfold gettable at h
  dsimp only at h
  split at h
  · cases h
    exact .refused
  · next hlow =>
    have habove := not_lt.mp hlow
    split at h
    · cases h
      exact .reserved rfl habove nofun
    · obtain ⟨read,-,rfl⟩ := Option.map_eq_some_iff.mp h
      refine .reserved rfl habove fun addr haddr => ?_
      split at haddr
      · exact (Option.some.inj haddr).symm
      · cases haddr

theorem inRam_physTo_iff {memorysize maxaddr : ℕ} (hmem : memorysize<K0SIZE)
    (htop : tablebase.toNat ≤ memorysize)
    (habove : k0ToPhys maxaddr≤(tableStart tablebase size).toNat) :
    InRam memorysize maxaddr (physTo k0 (tableStart tablebase size)).toNat size.toNat ↔
      size≤tablebase := by
  constructor
  · intro h
    by_contra hlt
    have hwrap := lt_tableStart_add_size (UInt32.not_le.mp hlt)
    have hstart := le_toNat_physTo k0 (tableStart tablebase size)
    have hstop := h.stop
    unfold K2BASE at hstop
    omega
  · intro hle
    have hfit := tableStart_add_size_le hle
    have haddr := toNat_physTo k0 (lt_of_le_of_lt ((Nat.le_add_right _ _).trans hfit)
      (htop.trans_lt hmem))
    have hphys := k0ToPhys_physTo k0 (lt_of_le_of_lt ((Nat.le_add_right _ _).trans hfit)
      (htop.trans_lt hmem))
    unfold K0SIZE at haddr hmem
    refine ⟨?_,?_,?_,?_⟩
    · unfold K0BASE
      split at haddr <;> omega
    · unfold K2BASE
      split at haddr <;> omega
    · rw [hphys]
      exact habove
    · rw [hphys]
      omega

theorem InRam.mono {memorysize memorysize' maxaddr addr size : ℕ}
    (h : InRam memorysize maxaddr addr size) (hle : memorysize ≤ memorysize') :
    InRam memorysize' maxaddr addr size :=
  ⟨h.unmapped,h.stop,h.above,h.below.trans hle⟩

theorem gettables_cons {s : Tables φ} {q : Request} {r : Result φ}
    (h : gettable ops k0 s q=some r) (qs : List Request) :
    gettables ops k0 s (q::qs)=⟨q,s,r.addr⟩::gettables ops k0 r.state qs := by
  rw [gettables,h]

def AllInRam (top : ℕ) (ts : List (Taken φ)) : Prop := ∀ t∈ts, ∀ addr, t.addr=some addr →
    InRam top t.request.maxaddr addr.toNat t.request.size.toNat

def Downwards (ts : List (Taken φ)) : Prop :=
  (ts.filterMap Taken.range).Pairwise fun r r' => r'.1+r'.2≤r.1

theorem downwards_cons {t : Taken φ} {ts : List (Taken φ)} {top : ℕ} (hts : Downwards ts)
    (hbelow : AllInRam top ts) (ht : ∀ addr, t.addr=some addr → top≤k0ToPhys addr.toNat) :
    Downwards (t::ts) := by
  unfold Downwards
  cases haddr : t.addr with
  | none =>
    rw [filterMap_cons_none (by rw [Taken.range,haddr,Option.map_none])]
    exact hts
  | some addr =>
    rw [filterMap_cons_some (by rw [Taken.range,haddr,Option.map_some])]
    refine pairwise_cons.mpr ⟨fun r hr => ?_,hts⟩
    obtain ⟨t',ht',hrange⟩ := mem_filterMap.mp hr
    obtain ⟨addr',haddr',rfl⟩ := Option.map_eq_some_iff.mp hrange
    exact (hbelow t' ht' addr' haddr').below.trans (ht addr haddr)

theorem gettables_below {s : Tables φ} {qs : List Request} (hmem : s.tablebase.toNat<K0SIZE)
    (hfits : ∀ t∈gettables ops k0 s qs, t.Fits) :
    AllInRam s.tablebase.toNat (gettables ops k0 s qs) ∧ Downwards (gettables ops k0 s qs) := by
  induction qs generalizing s with
  | nil => exact ⟨fun t ht => (nomatch ht),List.Pairwise.nil⟩
  | cons q qs ih =>
    match hr : gettable ops k0 s q with
    | none =>
      rw [gettables,hr]
      exact ⟨fun t ht => (nomatch ht),List.Pairwise.nil⟩
    | some r =>
      rw [gettables_cons ops k0 hr] at hfits ⊢
      have htail : ∀ t∈gettables ops k0 r.state qs, t.Fits :=
        fun t ht => hfits t (mem_cons_of_mem _ ht)
      have hfit : q.size ≤ s.tablebase := hfits _ mem_cons_self
      cases gettable_step ops k0 hr with
      | refused =>
        obtain ⟨hin,hdown⟩ := ih hmem htail
        refine ⟨fun t ht addr haddr => ?_,downwards_cons hdown hin nofun⟩
        obtain rfl | ht := mem_cons.mp ht
        · cases haddr
        · exact hin t ht addr haddr
      | reserved hbase habove haddr =>
        have hend := tableStart_add_size_le hfit
        have hlow : (tableStart s.tablebase q.size).toNat<K0SIZE := by omega
        obtain ⟨hin,hdown⟩ := ih (by rw [hbase]; exact hlow) htail
        rw [hbase] at hin
        refine ⟨fun t ht addr h => ?_,downwards_cons hdown hin fun addr h => ?_⟩
        · obtain rfl | ht := mem_cons.mp ht
          · rw [haddr addr h]
            exact (inRam_physTo_iff k0 hmem le_rfl habove).mpr hfit
          · exact (hin t ht addr h).mono (by omega)
        · rw [haddr addr h,k0ToPhys_physTo k0 hlow]

/-- Calls whose sizes never exceed what is left return disjoint tables in memory. -/
theorem gettables_safe {memorysize : UInt32} (hmem : memorysize.toNat<K0SIZE) (f : φ)
    (qs : List Request) (hfits : ∀ t∈gettables ops k0 ⟨memorysize,f⟩ qs, t.Fits) :
    Safe memorysize.toNat (gettables ops k0 ⟨memorysize,f⟩ qs) := by
  obtain ⟨hin,hdown⟩ := @gettables_below φ ops k0 ⟨memorysize,f⟩ qs hmem hfits
  exact ⟨hin,hdown.imp fun h => Or.inr h⟩
end

def endless : NetOps Unit :=
  { netread := fun _ n => some ⟨n,(),[⟨0, n.toNat,List.replicate n.toNat 0⟩]⟩
    netlseek := fun _ offs => (offs,()) }

theorem gettables_safe_small : Safe (0x400000 : UInt32).toNat (gettables endless true ⟨0x400000,()⟩
      [⟨0x80020000,1000,100⟩,⟨0x80020000,2000,50⟩]) :=
  gettables_safe endless true (by decide) () _ (by decide)

theorem gettables_wrapped : ¬Safe (0x400000 : UInt32).toNat
      (gettables endless true ⟨0x400000,()⟩ [⟨0x80020000,1000,0x400008⟩]) := by
  intro h
  have hin := (h.inRam _ mem_cons_self 0xfffffff8 (by decide)).stop
  exact absurd hin (by decide)

end Pmon.BootTables
