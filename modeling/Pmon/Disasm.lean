import Pmon.Machine

/-!
# Destinations in the disassembly

`disasm` takes the region of a jump from its address, `branch_target_address` and the processor from
that of the delay slot.
-/

namespace Pmon.Machine
open MaskTable (fieldMask and_fieldMask)

def disasmDestination (addr bits : BitVec 32) : Option (BitVec 32) :=
  match (scanDistbl bits).type with
  | .off | .rsRtOff | .rsOff | .cpOff =>
    let v := bits &&& 0xffff
    let v := if v &&& (1 <<< 15) ≠ 0 then v ||| 0xffff0000 else v
    some (addr + 4 + (v <<< 2))
  | .target => some ((bits &&& 0x03ffffff) <<< 2 ||| (addr &&& 0xf0000000))
  | _ => none

def Optype.HasDestination (type : Optype) : Prop :=
  type = .off ∨ type = .rsRtOff ∨ type = .rsOff ∨ type = .cpOff ∨ type = .target

theorem toNat_and_region (x : BitVec 32) : (x &&& 0xf0000000).toNat = x.toNat / 2 ^ 28 * 2 ^ 28 := by
  have hmask : (0xf0000000 : BitVec 32)=fieldMask 28 4 := rfl
  have hlt := x.isLt
  rw [hmask,and_fieldMask]
  simp only [BitVec.toNat_shiftLeft,BitVec.toNat_setWidth,BitVec.extractLsb'_toNat,
    Nat.shiftLeft_eq,Nat.shiftRight_eq_div_pow]
  omega

theorem and_region_eq_iff (adr : BitVec 32) :
    adr &&& 0xf0000000 = (adr + 4) &&& 0xf0000000 ↔ adr.toNat % 2 ^ 28 < 2 ^ 28 - 4 := by
  have hlt := adr.isLt
  rw [←BitVec.toNat_inj,toNat_and_region,toNat_and_region,BitVec.toNat_add]
  change _=(adr.toNat+4)%2^32/2^28*2^28 ↔ _
  omega

theorem index_or_region_eq_iff (bits a b : BitVec 32) :
    (bits &&& 0x03ffffff) <<< 2 ||| (a &&& (0xf0000000 : BitVec 32)) =
        (b &&& (0xf0000000 : BitVec 32)) ||| ((bits &&& 0x03ffffff) <<< 2) ↔
      a &&& 0xf0000000 = b &&& 0xf0000000 := by
  have hindex : (bits &&& 0x03ffffff) <<< 2 &&& 0xf0000000 = 0#32 := by
    rw [BitVec.shiftLeft_and_distrib,BitVec.and_assoc]
    exact BitVec.and_zero
  constructor
  · intro h
    have hregion := congrArg (· &&& (0xf0000000 : BitVec 32)) h
    simpa only [BitVec.and_or_distrib_right,hindex,BitVec.and_assoc,BitVec.and_self,
      BitVec.or_zero,BitVec.zero_or] using hregion
  · intro h
    rw [h,BitVec.or_comm]

/-- Disassembler and stepper agree on a destination, but for a jump in the last word of 256 MB. -/
theorem disasmDestination_eq_iff (adr bits : BitVec 32) (gpr : Regs)
    (htype : (scanDistbl bits).type.HasDestination) :
    disasmDestination adr bits=some (branchTarget bits adr gpr) ↔
      (scanDistbl bits).type ≠ .target ∨ adr.toNat%2^28<2^28-4 := by
  unfold disasmDestination branchTarget
  rcases htype with h | h | h | h | h <;> rw [h] <;> dsimp only
  case inr.inr.inr.inr =>
    rw [Option.some.injEq]
    refine (index_or_region_eq_iff bits adr (adr+4)).trans ?_
    rw [and_region_eq_iff]
    simp
  all_goals exact iff_of_true rfl (.inl nofun)

theorem disasmDestination_branch : disasmDestination 0x8ffffffc 0x1000ffff =
      some (branchTarget 0x1000ffff 0x8ffffffc fun _ => 0) := by
  have htype : (scanDistbl 0x1000ffff).type.HasDestination := by unfold Optype.HasDestination; decide
  exact (disasmDestination_eq_iff 0x8ffffffc 0x1000ffff (fun _ => 0) htype).2 (.inl (by decide))

theorem disasmDestination_jump : (scanDistbl 0x08000000).type = .target ∧
      disasmDestination 0x8ffffffc 0x08000000=some 0x80000000 ∧
      branchTarget 0x08000000 0x8ffffffc (fun _ => 0)=0x90000000 := by
  decide

end Pmon.Machine
