import Mathlib.Data.Nat.Bitwise
import Mathlib.Data.Nat.Size
import Mathlib.Order.Bounds.Basic
import Pmon.BptTable

/-!
# The don't-care mask of a watched range

`_mips_watchpoint_calc_mask` counts shifts until the difference of the ends vanishes; for one byte
the count of 32 is a shift by 0.
-/

namespace Pmon.BptTable

def AgreeOutside (mask a b : ℕ) : Prop := ∀ i, mask.testBit i=false → a.testBit i=b.testBit i

def rangeMasks (addr len : ℕ) : Set ℕ :=
  {mask | (∃ k, mask=2^k-1) ∧ AgreeOutside mask addr (addr+len-1)}

theorem agreeOutside_iff {k a b : ℕ} : AgreeOutside (2 ^ k - 1) a b ↔ a ^^^ b < 2 ^ k := by
  have hbit : ∀ i, (2^k-1).testBit i=false ↔ k ≤ i := by simp [Nat.testBit_two_pow_sub_one]
  constructor
  · intro h
    refine Nat.lt_pow_two_of_testBit _ fun i hi => ?_
    rw [Nat.testBit_xor,h i ((hbit i).2 hi),Bool.xor_self]
  · intro h i hi
    have hx := Nat.testBit_lt_two_pow (h.trans_le (Nat.pow_le_pow_right two_pos ((hbit i).1 hi)))
    rw [Nat.testBit_xor] at hx
    simpa using hx

theorem isLeast_rangeMasks (addr len : ℕ) :
    IsLeast (rangeMasks addr len) (2 ^ (addr ^^^ (addr + len - 1)).size - 1) := by
  refine ⟨⟨⟨_,rfl⟩,agreeOutside_iff.2 (Nat.lt_size_self _)⟩,?_⟩
  rintro _ ⟨⟨k,rfl⟩,hagree⟩
  have hsize := Nat.size_le.2 (agreeOutside_iff.1 hagree)
  exact Nat.sub_le_sub_right (Nat.pow_le_pow_right two_pos hsize) 1

theorem shiftCount_eq {i m : ℕ} (h : m<2^i) : shiftCount i m=i-m.size := by
  induction i generalizing m with
  | zero => rw [shiftCount,Nat.zero_sub]
  | succ i ih =>
    rw [shiftCount]
    split
    case isTrue hm => rw [hm,Nat.size_zero,Nat.sub_zero]
    case isFalse hm =>
      have hsize : m.size=(m/2).size+1 := by
        conv_lhs => rw [←Nat.bit_bodd_div2 m,Nat.div2_val]
        exact Nat.size_bit (by rwa [←Nat.div2_val,Nat.bit_bodd_div2])
      rw [ih (by omega),hsize,Nat.add_sub_add_right]

theorem allOnes_shiftRight {n : ℕ} (h : n ≤ 32) : 0xffffffff >>> (32 - n) = 2 ^ n - 1 := by
  apply Nat.eq_of_testBit_eq
  intro i
  have hlow : 32-n+i<32 ↔ i<n := by omega
  rw [Nat.testBit_shiftRight,Nat.testBit_two_pow_sub_one,←decide_eq_decide.2 hlow]
  exact Nat.testBit_two_pow_sub_one 32 _

theorem mipsWatchpointCalcMask_eq {addr len : ℕ} (hlen : 1≤len) (hend : addr+len-1<2^32) :
    mipsWatchpointCalcMask addr len =
      if len = 1 then 2 ^ 32 - 1 else 2 ^ (addr ^^^ (addr + len - 1)).size - 1 := by
  have hsum : (addr+len+(2^32-1))%2^32=addr+len-1 := by omega
  have hlt : addr ^^^ (addr + len - 1) < 2 ^ 32 := Nat.xor_lt_two_pow (by omega) hend
  have hle := Nat.size_le.2 hlt
  rw [mipsWatchpointCalcMask,hsum,shiftCount_eq hlt]
  split
  case isTrue h => rw [h,Nat.add_sub_cancel,Nat.xor_self,Nat.size_zero]; rfl
  case isFalse h =>
    have hpos : 0 < (addr ^^^ (addr + len - 1)).size := by
      rw [Nat.size_pos,Nat.pos_iff_ne_zero,Ne,Nat.xor_eq_zero_iff]
      omega
    rw [Nat.mod_eq_of_lt (by omega),allOnes_shiftRight hle]

/-- The mask is the smallest one but for a single byte, for which the whole address is ignored. -/
theorem isLeast_mipsWatchpointCalcMask_iff {addr len : ℕ} (hlen : 1≤len)
    (hend : addr+len-1<2^32) :
    IsLeast (rangeMasks addr len) (mipsWatchpointCalcMask addr len) ↔ len≠1 := by
  rw [mipsWatchpointCalcMask_eq hlen hend]
  constructor
  · rintro h rfl
    have heq := h.unique (isLeast_rangeMasks addr 1)
    simp at heq
  · intro h
    rw [if_neg h]
    exact isLeast_rangeMasks addr len

theorem isLeast_mipsWatchpointCalcMask_word :
    IsLeast (rangeMasks 0x80001000 4) (mipsWatchpointCalcMask 0x80001000 4) :=
  (isLeast_mipsWatchpointCalcMask_iff (by decide) (by decide)).2 (by decide)

theorem mipsWatchpointCalcMask_byte :
    mipsWatchpointCalcMask 0x80001000 1=0xffffffff ∧ 0∈rangeMasks 0x80001000 1 ∧
      ¬ IsLeast (rangeMasks 0x80001000 1) (mipsWatchpointCalcMask 0x80001000 1) := by
  have hmask : mipsWatchpointCalcMask 0x80001000 1=0xffffffff := by decide
  have hzero : 0∈rangeMasks 0x80001000 1 := ⟨⟨0,rfl⟩, fun _ _ => rfl⟩
  exact ⟨hmask,hzero, fun h => absurd (hmask ▸ h.2 hzero) (by decide)⟩

end Pmon.BptTable
