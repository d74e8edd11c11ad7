import Pmon.SingleStep

/-!
# The bytes that a trapped instruction accesses

The left and right instructions access a part of an aligned block; where it starts at the beginning,
the address is rounded before the length is taken from its low bits.
-/

namespace Pmon.WatchAccess
open SingleStep (op rs imm)

def MIPS_WATCHPOINT_X : BitVec 32 := 4
def MIPS_WATCHPOINT_R : BitVec 32 := 2
def MIPS_WATCHPOINT_W : BitVec 32 := 1
def CR_BD : BitVec 32 := 0x80000000

def datalen (op : BitVec 6) : BitVec 32 :=
  [0,0,0,0,0,0,0,0,0,0,0,0,0,0,0,0,0,0,0,0,0,0,0,0,0,0,7,7,0,0,0,0,
    1,2,3,4,1,2,3,4,1,2,3,4,7,7,3,4,4,4,4,4,8,8,8,8,4,4,4,4,8,8,8,
    8].getD op.toNat 0

structure Trapped (w : ℕ) where
  epc : BitVec 32
  cause : BitVec 32
  gpr : BitVec 5 → BitVec w
  loadWord : BitVec 32 → BitVec 32

structure Reported where
  type : BitVec 32
  va : BitVec 32
  len : BitVec 32
  deriving DecidableEq

def isLeft (op : BitVec 6) : Bool := op=34 ∨ op=42 ∨ op=26 ∨ op=44

def leftRight (be : Bool) (op : BitVec 6) (va len : BitVec 32) : BitVec 32 × BitVec 32 :=
  if isLeft op = be then (va,len + 1 - (va &&& len))
  else
    -- the length is taken from the address that has just been rounded down
    let va := va &&& ~~~len
    (va,(va &&& len) + 1)

def mipsWatchpointAddress {w : ℕ} (be : Bool) (s : Trapped w) (type : BitVec 32) : Reported :=
  if s.epc &&& 3 = 0 then
    let pc := if s.cause &&& CR_BD ≠ 0 then s.epc + 4 else s.epc
    let r : Reported := if type &&& (MIPS_WATCHPOINT_R ||| MIPS_WATCHPOINT_W) ≠ 0 then
        let type := type &&& ~~~(MIPS_WATCHPOINT_R ||| MIPS_WATCHPOINT_W)
        let i := s.loadWord pc
        let len := datalen (op i)
        if len≠0 then
          let va := (s.gpr (rs i)).setWidth 32+(imm i).signExtend 32
          let a := if len=3 ∨ len=7 then leftRight be (op i) va len else (va,len)
          -- `ldl` and `ldr` are special cases
          let kind := if op i=26 ∨ op i=27 then MIPS_WATCHPOINT_R
            else if op i &&& 8 ≠ 0 then MIPS_WATCHPOINT_W else MIPS_WATCHPOINT_R
          ⟨type ||| kind,a.1,a.2⟩
        else ⟨type,0,0⟩
      else ⟨type,0,0⟩
    if r.type=MIPS_WATCHPOINT_X then ⟨r.type,pc,4⟩ else r
  else ⟨type,0,0⟩

inductive Part where
  | whole
  | left
  | right
  deriving DecidableEq

def accessOf : BitVec 6 → Option (Bool × Part × BitVec 32)
  | 26 => some (false,.left,8)
  | 27 => some (false,.right,8)
  | 32 | 36 => some (false,.whole,1)
  | 33 | 37 => some (false,.whole,2)
  | 34 => some (false,.left,4)
  | 35 | 39 | 48 | 49 | 50 | 51 => some (false,.whole,4)
  | 38 => some (false,.right,4)
  | 40 => some (true,.whole,1)
  | 41 => some (true,.whole,2)
  | 42 => some (true,.left,4)
  | 43 | 56 | 57 | 58 | 59 => some (true,.whole,4)
  | 44 => some (true,.left,8)
  | 45 => some (true,.right,8)
  | 46 => some (true,.right,4)
  | 52 | 53 | 54 | 55 => some (false,.whole,8)
  | 60 | 61 | 62 | 63 => some (true,.whole,8)
  | _ => none

def accessed (be : Bool) (part : Part) (n va : BitVec 32) : BitVec 32 × BitVec 32 := match part with
  | .whole => (va,n)
  | .left => if be then (va,n - (va &&& (n - 1))) else (va &&& ~~~(n - 1),(va &&& (n - 1)) + 1)
  | .right => if be then (va &&& ~~~(n - 1),(va &&& (n - 1)) + 1) else (va,n - (va &&& (n - 1)))

def FromBeginning (be : Bool) (part : Part) (n va : BitVec 32) : Prop :=
  part = (if be then .right else .left) ∧ va &&& (n - 1) ≠ 0

theorem accessOf_spec (op : BitVec 6) : ∀ a∈accessOf op,
    datalen op=(if a.2.1 = .whole then a.2.2 else a.2.2-1) ∧
      (datalen op≠3 ∧ datalen op≠7 ↔ a.2.1 = .whole) ∧
      (a.2.1 ≠ .whole → (a.2.1 = .left ↔ isLeft op=true)) ∧ datalen op≠0 ∧
      (if op=26 ∨ op=27 then MIPS_WATCHPOINT_R
        else if op &&& 8 ≠ 0 then MIPS_WATCHPOINT_W else MIPS_WATCHPOINT_R) =
        (if a.1 then MIPS_WATCHPOINT_W else MIPS_WATCHPOINT_R) := by
  revert op
  decide

section
variable {w : ℕ} {be : Bool} {part : Part} {n va : BitVec 32} {opc : BitVec 6}

theorem leftRight_eq_iff (hpart : part ≠ .whole) (hleft : part = .left ↔ isLeft opc=true) :
    leftRight be opc va (n-1)=accessed be part n va ↔ ¬ FromBeginning be part n va := by
  have hrounded : va &&& ~~~(n - 1) &&& (n - 1) = 0 := by
    rw [BitVec.and_assoc,BitVec.not_and_self]
    exact BitVec.and_zero
  have hone : (0 : BitVec 32) + 1 = (va &&& (n - 1)) + 1 ↔ va &&& (n - 1) = 0 := by
    constructor <;> intro h <;> bv_omega
  have hside : isLeft opc=be ↔ part ≠ if be then .right else .left := by
    cases part with
    | whole => exact absurd rfl hpart
    | left => cases be <;> simp [hleft.1 rfl]
    | right => cases be <;> simp [Bool.eq_false_iff.2 fun h => nomatch hleft.2 h]
  unfold leftRight FromBeginning
  by_cases h : isLeft opc=be
  · rw [if_pos h,BitVec.sub_add_cancel]
    refine iff_of_true ?_ fun hf => hside.1 h hf.1
    have hne := hside.1 h
    cases part <;> cases be <;> first | rfl | exact absurd rfl hpart | exact absurd rfl hne
  · rw [if_neg h]
    dsimp only
    have heq := not_not.1 (mt hside.2 h)
    have haccessed : accessed be part n va = (va &&& ~~~(n - 1),(va &&& (n - 1)) + 1) := by
      subst heq
      cases be <;> rfl
    rw [haccessed,hrounded,Prod.mk.injEq,hone]
    simp [heq]

theorem kind_ne_X (type : BitVec 32) (store : Bool) :
    type &&& ~~~(MIPS_WATCHPOINT_R ||| MIPS_WATCHPOINT_W) |||
      (if store then MIPS_WATCHPOINT_W else MIPS_WATCHPOINT_R)≠MIPS_WATCHPOINT_X := by
  intro h
  cases store with
  | false => simpa [MIPS_WATCHPOINT_R,MIPS_WATCHPOINT_X] using congrArg (BitVec.getLsbD · 1) h
  | true => simpa [MIPS_WATCHPOINT_W,MIPS_WATCHPOINT_X] using congrArg (BitVec.getLsbD · 0) h

/-- The report is right unless the access reaches from the beginning of a block to a later byte. -/
theorem mipsWatchpointAddress_iff (s : Trapped w) {type : BitVec 32} {store : Bool}
    (hepc : s.epc &&& 3 = 0) (hbd : s.cause &&& CR_BD = 0)
    (htype : type &&& (MIPS_WATCHPOINT_R ||| MIPS_WATCHPOINT_W) ≠ 0)
    (haccess : accessOf (op (s.loadWord s.epc))=some (store,part,n)) :
    let i := s.loadWord s.epc
    let va := (s.gpr (rs i)).setWidth 32+(imm i).signExtend 32
    mipsWatchpointAddress be s type = ⟨type &&& ~~~(MIPS_WATCHPOINT_R ||| MIPS_WATCHPOINT_W) |||
          (if store then MIPS_WATCHPOINT_W else MIPS_WATCHPOINT_R),
          (accessed be part n va).1,(accessed be part n va).2⟩ ↔
      ¬ FromBeginning be part n va := by
  intro i va
  obtain ⟨hlen,hwhole,hleft,hne,hkind⟩ := accessOf_spec _ _ haccess
  unfold mipsWatchpointAddress
  rw [if_pos hepc,if_neg (not_not.2 hbd)]
  dsimp only
  rw [if_pos htype,if_pos hne,hkind,if_neg (kind_ne_X type store),Reported.mk.injEq,
    and_iff_right rfl,←Prod.ext_iff (y := accessed be part n va)]
  by_cases hpart : part = .whole
  · have hno : ¬ FromBeginning be part n va := fun h => by
      rw [hpart] at h
      cases be <;> cases h.1
    have hall := hwhole.2 hpart
    rw [if_neg (not_or.2 hall),hlen,if_pos hpart,hpart]
    exact iff_of_true rfl (hpart ▸ hno)
  · rw [if_pos (by tauto),hlen,if_neg hpart]
    exact leftRight_eq_iff hpart (hleft hpart)

def trappedAt (word base : BitVec 32) : Trapped 32 := ⟨0x80002000,0, fun _ => base, fun _ => word⟩

theorem mipsWatchpointAddress_lw :
    mipsWatchpointAddress false (trappedAt 0x8c880004 0x80001000) MIPS_WATCHPOINT_R =
      ⟨MIPS_WATCHPOINT_R,0x80001004,4⟩ := by
  have htype : MIPS_WATCHPOINT_R &&& (MIPS_WATCHPOINT_R ||| MIPS_WATCHPOINT_W) ≠ 0 := by decide
  have haccess : accessOf (op 0x8c880004)=some (false,.whole,4) := by decide
  refine (mipsWatchpointAddress_iff (trappedAt 0x8c880004 0x80001000) (by decide) (by decide)
    htype haccess).2 ?_
  unfold FromBeginning
  decide

theorem mipsWatchpointAddress_lwl :
    mipsWatchpointAddress false (trappedAt 0x88880000 0x80001002) MIPS_WATCHPOINT_R =
        ⟨MIPS_WATCHPOINT_R,0x80001000,1⟩ ∧ accessOf (op 0x88880000)=some (false,.left,4) ∧
      accessed false .left 4 0x80001002=(0x80001000,3) := by
  decide
end
end Pmon.WatchAccess
