import Pmon.Rsa

/-!
# `strtol`

`long` has 32 bits. In base 16 the test for `0X` compares the result of the test for `0x`, so only
`0x` is skipped.
-/

namespace Pmon.Strtol
open List
open Rsa (isdigit)

def isspace (c : Char) : Bool := c == ' ' || ('\t' ≤ c && c ≤ '\r')
def isupper (c : Char) : Bool := 'A' ≤ c && c ≤ 'Z'
def isalpha (c : Char) : Bool := isupper c || ('a' ≤ c && c ≤ 'z')
def LONG_MAX : ℕ := 2147483647

/-- The value of a character as a digit. -/
def digit (c : Char) : Option ℕ :=
  if isdigit c then some (c.toNat - '0'.toNat)
  else if isalpha c then some (c.toNat-(if isupper c then 'A' else 'a').toNat+10)
  else none

/-- What is left behind white space and a sign, and whether the sign is a minus. -/
def skipSign (nptr : List Char) : Bool × List Char := match nptr.dropWhile isspace with
  | '+' :: nptr => (false,nptr)
  | '-' :: nptr => (true,nptr)
  | nptr => (false,nptr)

/-- The base, and what is left behind the marks of it. -/
def skipBase (nptr : List Char) (base : ℕ) : List Char × ℕ :=
  if base=0 then
    match nptr with
    | '0' :: nptr =>
      if nptr.head?=some 'x' ∨ nptr.head?=some 'X' then (nptr.tail,16) else (nptr,8)
    | nptr => (nptr,10)
  else if base=16 then
    match nptr with
    | '0' :: nptr => if nptr.head?=some 'x' then (nptr.tail,16) else (nptr,16)
    | nptr => (nptr,16)
  else (nptr,base)

/-- The conversion: the result, whether it overflowed, and what follows. -/
def convert (base : ℕ) : List Char → ℕ → Bool → ℕ × Bool × List Char
  | [], result, overflow => (result,overflow,[])
  | c::nptr, result, overflow =>
    match digit c with
    | none => (result,overflow,c::nptr)
    | some d =>
      if d≥base then (result,overflow,c::nptr)
      else if overflow || result>LONG_MAX/base then convert base nptr result true
      else if d>LONG_MAX-base*result then convert base nptr (base*result) true
      else convert base nptr (base*result+d) false

/-- `strtol`: the result, and the string at `*endptr`. -/
def strtol (nptr : List Char) (base : ℕ) : ℤ × List Char :=
  let (negative,nptr) := skipSign nptr
  let (nptr,base) := skipBase nptr base
  let (result,overflow,nptr) := convert base nptr 0 false
  (if overflow then if negative then -LONG_MAX-1 else LONG_MAX
    else if negative then -result else result,nptr)

def isDigit (base : ℕ) (c : Char) : Bool := (digit c).any (· < base)

/-- The number that digits denote, behind the number `n`. -/
def number (base n : ℕ) (ds : List Char) : ℕ := ds.foldl (fun n c => base*n+(digit c).getD 0) n

/-- The base of a numeral and its digits: `0x` or `0X` before a hexadecimal digit for 16, a leading
0 for 8. -/
def numeral (p : List Char) (base : ℕ) : List Char × ℕ := match p with
  | '0' :: q =>
    if (base=0 ∨ base=16) ∧ (q.head?=some 'x' ∨ q.head?=some 'X') ∧
        q.tail.head?.any (isDigit 16) then (q.tail,16)
    else (p, if base=0 then 8 else base)
  | _ => (p, if base=0 then 10 else base)

/-- The longest numeral, its value held to the range of `long`. -/
def strtolSpec (p : List Char) (base : ℕ) : ℤ × List Char :=
  let (negative,p) := skipSign p
  let (p,base) := numeral p base
  let value : ℤ := number base 0 (p.takeWhile (isDigit base))
  (max (-2^31) (min (2^31-1) (if negative then -value else value)),
    p.dropWhile (isDigit base))

theorem le_number {base : ℕ} (hbase : 0<base) (n : ℕ) (ds : List Char) : n≤number base n ds := by
  induction ds generalizing n with
  | nil => exact le_rfl
  | cons c ds ih =>
    have hstep : n≤base*n := Nat.le_mul_of_pos_left n hbase
    exact (hstep.trans (Nat.le_add_right _ _)).trans (ih _)

/-- A result, one above the range for any that overflowed. -/
def clip (result : ℕ) (overflow : Bool) : ℕ := if overflow then LONG_MAX+1 else result

theorem min_number {base n : ℕ} (hbase : 0<base) (hn : LONG_MAX<n) (ds : List Char) :
    min (LONG_MAX+1) (number base n ds)=LONG_MAX+1 :=
  min_eq_left (hn.trans_le (le_number hbase n ds))

theorem clip_eq_min {result : ℕ} (overflow : Bool) (h : result≤LONG_MAX) :
    clip result overflow = min (LONG_MAX+1) (clip result overflow) := by
  cases overflow with
  | true => exact (min_self _).symm
  | false => exact (min_eq_right (Nat.le_succ_of_le h)).symm

/-- The conversion stopped behind the digits, with their value unless it overflowed. -/
structure Converted (base n : ℕ) (nptr : List Char) (r : ℕ × Bool × List Char) : Prop where
  rest : r.2.2=nptr.dropWhile (isDigit base)
  le : r.1≤LONG_MAX
  value : clip r.1 r.2.1 = min (LONG_MAX+1) (number base n (nptr.takeWhile (isDigit base)))

theorem convert_spec {base : ℕ} (hbase : 0<base) (nptr : List Char) {result : ℕ}
    (overflow : Bool) (hresult : result≤LONG_MAX) :
    Converted base (clip result overflow) nptr (convert base nptr result overflow) := by
  induction nptr generalizing result overflow with
  | nil => exact ⟨rfl,hresult,clip_eq_min overflow hresult⟩
  | cons c nptr ih =>
    have hstop : ¬ isDigit base c →
        Converted base (clip result overflow) (c::nptr) (result,overflow,c::nptr) := fun h => by
      refine ⟨by rw [dropWhile_cons_of_neg h],hresult,?_⟩
      rw [takeWhile_cons_of_neg h]
      exact clip_eq_min overflow hresult
    rw [convert]
    cases hd : digit c with
    | none => exact hstop (by simp [isDigit,hd])
    | some d =>
      dsimp only
      by_cases hlt : d<base
      · have hdigit : isDigit base c := by simp [isDigit,hd,hlt]
        have hmore : ∀ {r n}, Converted base (base*n+d) nptr r →
            Converted base n (c::nptr) r := fun {r n} h => by
          refine ⟨by rw [h.rest,dropWhile_cons_of_pos hdigit],h.le,?_⟩
          rw [h.value,takeWhile_cons_of_pos hdigit]
          simp [number,hd]
        have hover : ∀ {r n}, r≤LONG_MAX → LONG_MAX<base*n+d →
            Converted base (base*n+d) nptr (convert base nptr r true) := fun hr hn => by
          have hset := ih true hr
          refine ⟨hset.rest,hset.le,hset.value.trans ?_⟩
          rw [min_number hbase hn]
          exact min_number hbase (Nat.lt_succ_self _) _
        rw [if_neg (by omega)]
        refine hmore ?_
        split
        · rename_i hlimit
          refine hover hresult ?_
          cases overflow with
          | true =>
            have := Nat.le_mul_of_pos_left (LONG_MAX+1) hbase
            exact this.trans (Nat.le_add_right _ _)
          | false =>
            have hmul := (Nat.div_lt_iff_lt_mul hbase).mp (of_decide_eq_true hlimit)
            rw [mul_comm] at hmul
            exact hmul.trans_le (Nat.le_add_right _ _)
        · rename_i hlimit
          simp only [Bool.or_eq_true,decide_eq_true_eq,not_or,Bool.not_eq_true,
            Nat.not_lt] at hlimit
          obtain ⟨rfl,hlimit⟩ := hlimit
          have hfits := (Nat.le_div_iff_mul_le hbase).mp hlimit
          rw [mul_comm] at hfits
          have hclip : clip result false=result := rfl
          rw [hclip]
          split
          · exact hover hfits (by omega)
          · have hnext : base*result+d≤LONG_MAX := by omega
            exact ih false hnext
      · rw [if_pos (by omega)]
        exact hstop (by simp [isDigit,hd,hlt])

/-- A mark the code takes wrongly: `0X` before a digit in base 16, which it does not skip, and one
it skips although no hexadecimal digit follows. -/
def misread (base : ℕ) : List Char → Bool
  | '0' :: x::q =>
    bif q.head?.any (isDigit 16) then base=16 && x = 'X'
    else x = 'x' && (base=0 || base=16) || x = 'X' && base=0
  | _ => false

theorem skipBase_other {p : List Char} (h : ¬ ∃ q, p = '0' :: q) (base : ℕ) :
    skipBase p base=(p, if base=0 then 10 else base) := by
  unfold skipBase
  split
  · split
    · exact absurd ⟨_,rfl⟩ h
    · rfl
  · split
    · split
      · exact absurd ⟨_,rfl⟩ h
      · simp_all
    · rfl

theorem numeral_other {p : List Char} (h : ¬ ∃ q, p = '0' :: q) (base : ℕ) :
    numeral p base=(p, if base=0 then 10 else base) := by
  unfold numeral
  split
  · exact absurd ⟨_,rfl⟩ h
  · rfl

/-- Unless the mark is misread, at most a zero before the digits is left out. -/
theorem skipBase_numeral (p : List Char) {base : ℕ} (hbase : base∈[0,8,10,16])
    (hmark : misread base p=false) :
    (skipBase p base).2=(numeral p base).2 ∧ 0<(numeral p base).2 ∧
      ((numeral p base).1=(skipBase p base).1 ∨
        (numeral p base).1 = '0' :: (skipBase p base).1) := by
  simp only [mem_cons,not_mem_nil,or_false] at hbase
  by_cases hzero : ∃ q, p = '0' :: q
  · obtain ⟨q,rfl⟩ := hzero
    cases q with
    | nil => rcases hbase with rfl | rfl | rfl | rfl <;> simp [skipBase,numeral]
    | cons x q =>
      cases hd : q.head?.any (isDigit 16) <;> by_cases hx : x = 'x' <;> by_cases hX : x = 'X' <;>
        rcases hbase with rfl | rfl | rfl | rfl <;>
        simp_all [skipBase,numeral,misread]
  · rw [skipBase_other hzero,numeral_other hzero]
    refine ⟨rfl,?_,Or.inl rfl⟩
    dsimp only
    split <;> omega

/-- A misread mark moves the end: the code stops at the `X`, or behind the letter. -/
theorem rest_misread {p : List Char} {base : ℕ} (hmark : misread base p=true) :
    (skipBase p base).1.dropWhile (isDigit (skipBase p base).2)≠
      (numeral p base).1.dropWhile (isDigit (numeral p base).2) := by
  unfold misread at hmark
  split at hmark
  · rename_i x q
    cases hd : q.head?.any (isDigit 16) with
    | true =>
      obtain ⟨rfl,rfl⟩ : base=16 ∧ x = 'X' := by simpa [hd] using hmark
      have hcode : skipBase ('0' :: 'X' :: q) 16=('X' :: q,16) := rfl
      have hspec : numeral ('0' :: 'X' :: q) 16=(q,16) := by simp [numeral,hd]
      have hstop : ('X' :: q).dropWhile (isDigit 16) = 'X' :: q := dropWhile_cons_of_neg (by decide)
      rw [hcode,hspec,hstop]
      intro h
      have hlen := (dropWhile_suffix (isDigit 16) (l := q)).length_le
      rw [←h,length_cons] at hlen
      omega
    | false =>
      have hcode : skipBase ('0' :: x::q) base=(q,16) := by
        simp only [hd,cond_false,Bool.or_eq_true,Bool.and_eq_true,decide_eq_true_eq] at hmark
        rcases hmark with ⟨rfl,rfl | rfl⟩ | ⟨rfl,rfl⟩ <;> rfl
      have hspec : numeral ('0' :: x::q) base=('0' :: x::q, if base=0 then 8 else base) := by
        simp [numeral,hd]
      have hq : q.dropWhile (isDigit 16)=q := by
        cases q with
        | nil => rfl
        | cons d q => exact dropWhile_cons_of_neg (by simpa using hd)
      have hxq : ('0' :: x::q).dropWhile (isDigit (if base=0 then 8 else base))=x::q := by
        simp only [hd,cond_false,Bool.or_eq_true,Bool.and_eq_true,decide_eq_true_eq] at hmark
        rcases hmark with ⟨rfl,rfl | rfl⟩ | ⟨rfl,rfl⟩ <;> rfl
      rw [hcode,hspec,hq,hxq]
      intro h
      have hlen := congrArg length h
      rw [length_cons] at hlen
      omega
  · cases hmark

theorem number_zero (base : ℕ) (ds : List Char) : number base 0 ('0' :: ds)=number base 0 ds := rfl

theorem skipBase_pos (p : List Char) (base : ℕ) : 0<(skipBase p base).2 := by
  unfold skipBase
  repeat' split
  all_goals simp only
  all_goals omega

theorem strtol_rest (nptr : List Char) (base : ℕ) :
    (strtol nptr base).2=(skipBase (skipSign nptr).2 base).1.dropWhile
      (isDigit (skipBase (skipSign nptr).2 base).2) :=
  (convert_spec (skipBase_pos _ base) _ false (Nat.zero_le LONG_MAX)).rest

theorem strtol_eq_spec {nptr : List Char} {base : ℕ} (hbase : base∈[0,8,10,16])
    (hmark : misread base (skipSign nptr).2=false) : strtol nptr base=strtolSpec nptr base := by
  unfold strtol strtolSpec
  generalize skipSign nptr=sign at hmark ⊢
  obtain ⟨negative,p⟩ := sign
  dsimp only at hmark ⊢
  obtain ⟨hsame,hpos,hdigits⟩ := skipBase_numeral p hbase hmark
  generalize numeral p base=spec at hsame hpos hdigits ⊢
  generalize skipBase p base=code at hsame hdigits ⊢
  obtain ⟨q,b⟩ := code
  obtain ⟨q',b'⟩ := spec
  obtain rfl : b=b' := hsame
  obtain ⟨hrest,hle,hvalue⟩ := convert_spec hpos q false (Nat.zero_le LONG_MAX)
  dsimp only at hdigits hpos ⊢
  have hspec : q'.dropWhile (isDigit b)=q.dropWhile (isDigit b) ∧
      number b 0 (q'.takeWhile (isDigit b))=number b 0 (q.takeWhile (isDigit b)) := by
    rcases hdigits with rfl | rfl
    · exact ⟨rfl,rfl⟩
    · have hzero : isDigit b '0' := by simpa [isDigit,digit,isdigit] using hpos
      rw [dropWhile_cons_of_pos hzero,takeWhile_cons_of_pos hzero,number_zero]
      exact ⟨rfl,rfl⟩
  rw [hspec.1,hspec.2,hrest]
  generalize convert b q 0 false=r at hle hvalue ⊢
  obtain ⟨result,overflow,rest⟩ := r
  have hclip : clip 0 false=0 := rfl
  rw [hclip] at hvalue
  generalize number b 0 (q.takeWhile (isDigit b))=n at hvalue ⊢
  unfold clip LONG_MAX at *
  cases overflow <;> cases negative <;> simp_all <;> omega

/-- `strtol` reads the numeral exactly when the mark of its base is not misread. -/
theorem strtol_eq_iff (nptr : List Char) (base : ℕ) (hbase : base∈[0,8,10,16]) :
    strtol nptr base=strtolSpec nptr base ↔ misread base (skipSign nptr).2=false := by
  refine ⟨fun h => ?_,strtol_eq_spec hbase⟩
  by_contra hmark
  have hrest := congrArg Prod.snd h
  rw [strtol_rest] at hrest
  exact rest_misread (Bool.eq_true_of_not_eq_false hmark) hrest

theorem strtol_eq_iff_octal : (strtol " -017z".toList 0=strtolSpec " -017z".toList 0 ↔
      misread 0 (skipSign " -017z".toList).2=false) ∧
    strtol " -017z".toList 0=(-15, "z".toList) ∧
    (strtol "0xz".toList 16=strtolSpec "0xz".toList 16 ↔
      misread 16 (skipSign "0xz".toList).2=false) ∧
    strtolSpec "0xz".toList 16=(0, "xz".toList) :=
  ⟨strtol_eq_iff _ 0 (by decide),by decide,strtol_eq_iff _ 16 (by decide),by decide⟩

theorem strtol_upper : strtol "0X1F".toList 16=(0, "X1F".toList) ∧
    strtolSpec "0X1F".toList 16=(31,[]) := by
  decide

end Pmon.Strtol
