import Pmon.Rsa

/-!
# Numbers as text and back

`btoa` collects the digits in a buffer, the lowest first, and reverses it; `_atob` reads them. The
registers have `w` bits, 64 from MIPS III on.
-/

namespace Pmon.Btoa
open List Rsa

def digitChar (rem : ℕ) : Char :=
  if rem≤9 then Char.ofNat (rem + '0'.toNat) else Char.ofNat (rem-10 + 'a'.toNat)

/-- The loop that fills `buf`. -/
def btoaLoop (base : ℕ) : ℕ → ℕ → List Char
  | 0, _ => []
  | fuel+1, value =>
    if value=0 then [] else digitChar (value%base)::btoaLoop base fuel (value/base)

/-- What `btoa` and `llbtoa` leave in `buf`, without the terminator; base -10 is signed. -/
def btoaBuf {w : ℕ} (value : BitVec w) (base : ℤ) : List Char :=
  let neg := base = -10 ∧ value.msb
  let base := if base = -10 then 10 else base.toNat
  let value := if neg then ~~~value+1 else value
  btoaLoop base (value.toNat+1) value.toNat ++ if neg then ['-'] else []

/-- `btoa` for 32 bits, `llbtoa` for 64. -/
def btoa {w : ℕ} (value : BitVec w) (base : ℤ) : List Char :=
  if value=0 then ['0'] else (btoaBuf value base).reverse

def atob (w : ℕ) (p : List Char) (base : ℕ) : Option (BitVec 32) :=
  (ator w p base).map (BitVec.setWidth 32)

def llatob (p : List Char) (base : ℕ) : Option (BitVec 64) := ator 64 p base

/-- The bytes that `_atob` stores in its buffer `tmp`. -/
def atobTmp (p : List Char) (base : ℕ) : ℕ :=
  let (p,base) := skip0x p base
  if base=16 ∧ '.' ∈ p ∧ (p.takeWhile (· ≠ '.')).length≤19 then
    (p.takeWhile (· ≠ '.')).length+1
  else 0

theorem digitVal_digitChar {d : ℕ} (h : d<16) : digitVal (digitChar d)=some d := by
  interval_cases d <;> decide

theorem atobDigits_concat (w base : ℕ) (p : List Char) (a : BitVec w) {d : ℕ} (hd : d<base)
    (hbase : base≤16) : atobDigits w base (p++[digitChar d]) a =
      (atobDigits w base p a).map (· * BitVec.ofNat w base + BitVec.ofNat w d) := by
  induction p generalizing a with
  | nil => simp [atobDigits,digitVal_digitChar (hd.trans_le hbase),Nat.not_le.mpr hd]
  | cons c p ih =>
    rw [cons_append,atobDigits,atobDigits]
    cases digitVal c with
    | none => rfl
    | some e =>
      dsimp only
      split
      · rfl
      · exact ih _

section Base
variable {base : ℕ} (hlow : 2≤base) (hhigh : base≤16)
include hlow hhigh

theorem atobDigits_btoaLoop (w : ℕ) {fuel value : ℕ} (h : value<fuel) :
    atobDigits w base (btoaLoop base fuel value).reverse 0=some (BitVec.ofNat w value) := by
  induction fuel generalizing value with
  | zero => omega
  | succ fuel ih =>
    rw [btoaLoop]
    by_cases hzero : value=0
    · rw [if_pos hzero,hzero]
      rfl
    · have hless : value/base<value := Nat.div_lt_self (by omega) hlow
      rw [if_neg hzero,reverse_cons,atobDigits_concat w base _ _ (Nat.mod_lt _ (by omega)) hhigh,
        ih (by omega),Option.map_some,←BitVec.ofNat_mul,←BitVec.ofNat_add,
        Nat.div_add_mod']

theorem isSome_digitVal_btoaLoop {fuel value : ℕ} :
    ∀ c∈btoaLoop base fuel value, (digitVal c).isSome := by
  induction fuel generalizing value with
  | zero => exact fun c hc => absurd hc not_mem_nil
  | succ fuel ih =>
    rw [btoaLoop]
    split
    · exact fun c hc => absurd hc not_mem_nil
    · have hdigit := Nat.mod_lt value (show 0<base by omega)
      exact forall_mem_cons.mpr ⟨by rw [digitVal_digitChar (by omega)]; rfl,ih⟩

omit hhigh in
theorem length_btoaLoop_le {fuel value k : ℕ} (h : value<2^k) :
    (btoaLoop base fuel value).length≤k := by
  induction fuel generalizing value k with
  | zero => exact Nat.zero_le _
  | succ fuel ih =>
    rw [btoaLoop]
    split
    · exact Nat.zero_le _
    · cases k with
      | zero => omega
      | succ k =>
        have hhalf : value/base≤value/2 := Nat.div_le_div_left hlow (by decide)
        exact Nat.succ_le_succ (ih (by omega))

end Base

theorem skip0x_of_digits {p : List Char} (h : ∀ c∈p, (digitVal c).isSome) (base : ℕ) :
    skip0x p base=(p,base) := by
  unfold skip0x
  split
  · exact absurd (h 'x' (by simp)) (by decide)
  · exact absurd (h 'X' (by simp)) (by decide)
  · rfl

theorem ator_of_digits {w : ℕ} {p : List Char} (h : ∀ c∈p, (digitVal c).isSome) {base : ℕ}
    (hbase : base≠0) : ator w p base=atobDigits w base p 0 := by
  have hdot : '.' ∉ p := fun hmem => absurd (h _ hmem) (by decide)
  rw [ator,if_neg hbase]
  dsimp only [_atob]
  rw [skip0x_of_digits h]
  dsimp only
  rw [if_neg fun hc => hdot hc.2]

theorem ator_btoa {w v : ℕ} (value : BitVec v) {base : ℕ} (hlow : 2≤base) (hhigh : base≤16) :
    ator w (btoa value base) base=some (BitVec.ofNat w value.toNat) ∧
      (btoaBuf value base).length≤v := by
  have hbuf : btoaBuf value base=btoaLoop base (value.toNat+1) value.toNat := by
    have hbase : (base : ℤ) ≠ -10 := by omega
    simp [btoaBuf,hbase]
  rw [btoa,hbuf]
  refine ⟨?_,length_btoaLoop_le hlow value.isLt⟩
  have hbase : base≠0 := by omega
  by_cases hzero : value=0
  · rw [if_pos hzero,ator_of_digits (forall_mem_singleton.mpr rfl) hbase,hzero]
    simp [atobDigits,digitVal,Nat.not_le.mpr (show 0<base by omega)]
  · rw [if_neg hzero,ator_of_digits (fun c hc => isSome_digitVal_btoaLoop hlow hhigh c
      (mem_reverse.mp hc)) hbase,atobDigits_btoaLoop hlow hhigh w (Nat.lt_succ_self _)]

/-- Every value comes back in each base, and no buffer overflows. -/
theorem atob_btoa (base : ℕ) (hbase : base∈[2,8,10,16]) :
    (∀ (v : BitVec 32), (∀ w∈[32,64], atob w (btoa v base) base=some v) ∧
      (btoaBuf v base).length+1≤34) ∧
    (∀ v : BitVec 64, llatob (btoa v base) base=some v ∧ (btoaBuf v base).length+1≤66) ∧
    ∀ p, atobTmp p base≤20 := by
  have hrange : 2≤base ∧ base≤16 := by
    simp only [mem_cons,not_mem_nil,or_false] at hbase
    omega
  refine ⟨fun v => ⟨fun w hw => ?_,?_⟩, fun v => ⟨?_,?_⟩, fun p => ?_⟩
  · have hv := v.isLt
    rw [atob,(ator_btoa v hrange.1 hrange.2).1,Option.map_some,Option.some.injEq]
    simp only [mem_cons,not_mem_nil,or_false] at hw
    apply BitVec.eq_of_toNat_eq
    rcases hw with rfl | rfl
    · simp
    · simp only [BitVec.toNat_setWidth, BitVec.toNat_ofNat]
      omega
  · have := (ator_btoa (w := 32) v hrange.1 hrange.2).2
    omega
  · rw [llatob,(ator_btoa v hrange.1 hrange.2).1, BitVec.ofNat_toNat,BitVec.setWidth_eq]
  · have := (ator_btoa (w := 64) v hrange.1 hrange.2).2
    omega
  · unfold atobTmp
    dsimp only
    split <;> omega

theorem atob_btoa_hex : atob 32 (btoa (0xbeef : BitVec 32) 16) 16=some 0xbeef :=
  ((atob_btoa 16 (by decide)).1 0xbeef).1 32 (by decide)

end Pmon.Btoa
