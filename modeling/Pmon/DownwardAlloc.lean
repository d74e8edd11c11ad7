import Mathlib.Tactic

/-!
# Aligned allocation downwards

Ranges are taken from the top of a space, each at the highest multiple of its size.
-/

namespace Pmon.DownwardAlloc
open List

def place (next size : ℕ) : ℕ := (next/size-1)*size
theorem dvd_place (next size : ℕ) : size ∣ place next size := Dvd.intro_left _ rfl

theorem place_add_size {next size : ℕ} (hsize : 0<size) (h : size≤next) :
    place next size+size=next/size*size := by
  have hpos := Nat.div_pos h hsize
  rw [place,←Nat.succ_mul,Nat.succ_eq_add_one,Nat.sub_add_cancel hpos]

theorem place_add_size_le {next size : ℕ} (hsize : 0<size) (h : size≤next) :
    place next size+size≤next := by
  rw [place_add_size hsize h]
  exact Nat.div_mul_le_self next size

theorem pred_div_lt {next block m : ℕ} (hblock : 0<block) (hpos : 0 < m*block)
    (hle : m*block≤next) : (m*block-1)/block<next/block := by
  have hlt : (m*block-1)/block < m := (Nat.div_lt_iff_lt_mul hblock).mpr (by omega)
  exact hlt.trans_le ((Nat.le_div_iff_mul_le hblock).mpr hle)

theorem div_block_eq_iff {next size block : ℕ} (hsize : 0<size) (hblock : 0<block)
    (h : size≤next) (hdvd : size ∣ block ∨ block ∣ size) :
    (place next size+size-1)/block=next/block ↔ size≤next%block := by
  rw [place_add_size hsize h]
  have hsplit := Nat.div_add_mod next block
  have hmod := Nat.mod_lt next hblock
  rcases hdvd with ⟨m,rfl⟩ | ⟨m,rfl⟩
  · -- the blocks are multiples of the size
    set q := next/(size*m) with hq
    set r := next%(size*m) with hr
    have hend : next/size*size=q*(size*m)+r/size*size := by
      have hdiv : next/size=m*q+r/size := by
        rw [←hsplit,Nat.mul_assoc,Nat.mul_add_div hsize]
      rw [hdiv,Nat.add_mul]
      ring
    rw [hend]
    by_cases hle : size≤r
    · have hpos := Nat.mul_pos (Nat.div_pos hle hsize) hsize
      have hlt := Nat.div_mul_le_self r size
      refine iff_of_true ?_ hle
      rw [Nat.div_eq_iff hblock]
      omega
    · have hzero : r/size=0 := Nat.div_eq_of_lt (by omega)
      refine iff_of_false ?_ hle
      rw [hzero,Nat.zero_mul,Nat.add_zero]
      have hqpos : 0<q*(size*m) := by
        rw [Nat.mul_comm]
        omega
      exact (pred_div_lt hblock hqpos (by rw [Nat.mul_comm]; omega)).ne
  · -- the range is made of blocks
    have hpos := Nat.mul_pos (Nat.div_pos h hsize) hsize
    have hle := Nat.div_mul_le_self next (block*m)
    have hmul : next/(block*m)*(block*m)=next/(block*m)*m*block := by ring
    have hm := Nat.pos_of_mul_pos_left hsize
    refine iff_of_false ?_ ?_
    · rw [hmul] at hpos hle ⊢
      exact (pred_div_lt hblock hpos hle).ne
    · have := Nat.le_mul_of_pos_right block hm
      omega

theorem toNat_and_not_add {n : ℕ} (x mask : BitVec n) :
    (x &&& ~~~mask).toNat + (x &&& mask).toNat = x.toNat := by
  have hdisjoint : (x &&& ~~~mask) &&& (x &&& mask) = 0#n := by
    ext i
    simp only [BitVec.getElem_and,BitVec.getElem_not,BitVec.getElem_zero]
    cases x[i] <;> cases mask[i] <;> rfl
  have hjoin : (x &&& ~~~mask) ||| (x &&& mask) = x := by
    ext i
    simp only [BitVec.getElem_or,BitVec.getElem_and,BitVec.getElem_not]
    cases x[i] <;> cases mask[i] <;> rfl
  rw [←BitVec.toNat_add_of_and_eq_zero hdisjoint,BitVec.add_eq_or_of_and_eq_zero _ _ hdisjoint,
    hjoin]

theorem toNat_and_not_pred {n : ℕ} {size : BitVec n} (h : size.toNat.isPowerOfTwo)
    (x : BitVec n) : (x &&& ~~~(size - 1#n)).toNat = x.toNat / size.toNat * size.toNat := by
  have hpos := Nat.pos_of_isPowerOfTwo h
  have hone : (1#n).toNat=1 := by
    rw [BitVec.toNat_ofNat,Nat.mod_eq_of_lt (by have := size.isLt; omega)]
  have hmask : (size-1#n).toNat = size.toNat-1 := by
    rw [BitVec.toNat_sub_of_le (by rw [BitVec.le_def,hone]; exact hpos),hone]
  have hkept : (x &&& (size - 1#n)).toNat = x.toNat % size.toNat := by
    obtain ⟨k,hk⟩ := h
    rw [BitVec.toNat_and,hmask,hk,Nat.and_two_pow_sub_one_eq_mod]
  have hsplit := toNat_and_not_add x (size-1#n)
  have hdiv := Nat.div_add_mod' x.toNat size.toNat
  omega

inductive Stacked (top : ℕ) : ℕ → List (ℕ × ℕ) → Prop
  | empty : Stacked top top []
  | push {next address size : ℕ} {ranges : List (ℕ × ℕ)} (h : Stacked top next ranges)
    (hle : address+size≤next) : Stacked top address ((address,size)::ranges)

variable {top next : ℕ} {ranges : List (ℕ × ℕ)}

theorem Stacked.head_eq {r : ℕ × ℕ} (h : Stacked top next (r::ranges)) : r.1=next := by
  cases h
  rfl

theorem Stacked.next_le (h : Stacked top next ranges) : next≤top := by
  induction h with
  | empty => exact le_rfl
  | push h hle ih => omega

theorem Stacked.bounds (h : Stacked top next ranges) :
    ∀ r∈ranges, next≤r.1 ∧ r.1+r.2≤top := by
  induction h with
  | empty => exact fun r hr => absurd hr not_mem_nil
  | push h hle ih =>
    intro r hr
    have hnext := h.next_le
    rcases mem_cons.mp hr with rfl | hr
    · exact ⟨le_rfl,by omega⟩
    · have := ih r hr
      omega

theorem Stacked.pairwise (h : Stacked top next ranges) :
    ranges.Pairwise fun later earlier => later.1+later.2≤earlier.1 := by
  induction h with
  | empty => exact List.Pairwise.nil
  | push h hle ih =>
    refine pairwise_cons.mpr ⟨fun r hr => ?_,ih⟩
    exact hle.trans (h.bounds r hr).1

section
variable {α : Type*} {owner lo hi : α → ℕ} {block : ℕ} {l : List α}

theorem pairwise_div_lt (hle : ∀ v∈l, lo v≤hi v) (hstack : l.Pairwise fun v w => hi v<lo w)
    (howner : l.Pairwise fun v w => owner w≤owner v)
    (hchain : l.IsChain fun v w => owner v≠owner w → hi v/block≠lo w/block) :
    l.Pairwise fun v w => owner v≠owner w → hi v/block<lo w/block := by
  induction l with
  | nil => exact .nil
  | cons v l ih =>
    obtain ⟨hstackv,hstack⟩ := pairwise_cons.mp hstack
    obtain ⟨hownerv,howner⟩ := pairwise_cons.mp howner
    have hrest := ih (fun w hw => hle w (mem_cons_of_mem v hw)) hstack howner hchain.tail
    refine pairwise_cons.mpr ⟨fun u hu hne => ?_,hrest⟩
    cases l with
    | nil => exact absurd hu not_mem_nil
    | cons w l =>
      have hvw := hstackv w mem_cons_self
      have hnext : owner v≠owner w → hi v/block<lo w/block := fun hvw' =>
        lt_of_le_of_ne (Nat.div_le_div_right hvw.le) (hchain.rel hvw')
      rcases mem_cons.mp hu with rfl | hu'
      · exact hnext hne
      · -- the owner changes at `w` or between `w` and `u`
        have hw := hle w (mem_cons_of_mem v mem_cons_self)
        have hwu := (pairwise_cons.mp hstack).1 u hu'
        by_cases hsame : owner v=owner w
        · have hblock := (pairwise_cons.mp hrest).1 u hu' (hsame ▸ hne)
          exact (Nat.div_le_div_right (hvw.le.trans hw)).trans_lt hblock
        · exact (hnext hsame).trans_le (Nat.div_le_div_right (hw.trans hwu.le))

theorem div_lt_of_owner_lt (hle : ∀ v∈l, lo v≤hi v) (hstack : l.Pairwise fun v w => hi v<lo w)
    (howner : l.Pairwise fun v w => owner w≤owner v)
    (hchain : l.IsChain fun v w => owner v≠owner w → hi v/block≠lo w/block)
    {v w : α} (hv : v∈l) (hw : w∈l) (hlt : owner w<owner v) :
    hi v/block<lo w/block := by
  have hpairs := pairwise_div_lt hle hstack howner hchain
  refine List.Pairwise.forall_of_forall_of_flip
    (R := fun v w => owner w<owner v → hi v/block<lo w/block) ?_ ?_ ?_ hv hw hlt
  · exact fun v _ h => absurd h (lt_irrefl _)
  · exact hpairs.imp fun {v w} h hlt => h hlt.ne'
  · exact howner.imp fun {v w} h hlt => absurd h (not_le.mpr hlt)
end
end Pmon.DownwardAlloc
