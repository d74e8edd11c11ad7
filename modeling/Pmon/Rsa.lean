import Mathlib.Tactic
import Mathlib.Data.List.Basic

/-!
# Command line expressions

`get_rsa_reg` strips parentheses, splits at the rightmost operator, sums before products, or reads
an operand. Some paths leave `*vp` as it was; what is uninitialised is a parameter.
-/

namespace Pmon.Rsa

def digitVal (c : Char) : Option ℕ :=
  if '0' ≤ c ∧ c ≤ '9' then some (c.toNat - '0'.toNat)
  else if 'a' ≤ c ∧ c ≤ 'f' then some (c.toNat - 'a'.toNat+10)
  else if 'A' ≤ c ∧ c ≤ 'F' then some (c.toNat - 'A'.toNat+10)
  else none

def atobDigits (w base : ℕ) : List Char → BitVec w → Option (BitVec w)
  | [], value => some value
  | c::p, value =>
    match digitVal c with
    | none => none
    | some digit =>
      if base≤digit then none
      else atobDigits w base p (value * BitVec.ofNat w base + BitVec.ofNat w digit)

def skip0x (p : List Char) (base : ℕ) : List Char × ℕ := match p with
  | '0' :: 'x' :: p => (p,16)
  | '0' :: 'X' :: p => (p,16)
  | p => (p,base)

def atobPlain (w : ℕ) (p : List Char) (base : ℕ) : Option (BitVec w) :=
  let (p,base) := skip0x p base
  atobDigits w base p 0

def _atob (w : ℕ) (p : List Char) (base : ℕ) : Option (BitVec w) :=
  let (p,base) := skip0x p base
  if base=16 ∧ '.' ∈ p then
    let upper := p.takeWhile (· ≠ '.')
    let lower := p.drop (upper.length+1)
    -- the upper part is copied to a buffer of 20 bytes
    if 19<upper.length ∨ '.' ∈ lower then none
    else
      match atobPlain w upper 16, atobPlain w lower 16 with
      | some v1, some v2 => some (v1 <<< 16 + v2)
      | _, _ => none
  else atobDigits w base p 0

def _getbase : List Char → List Char × ℕ
  | '0' :: 'x' :: p => (p,16)
  | '0' :: 't' :: p => (p,10)
  | '0' :: 'n' :: p => (p,10)
  | '0' :: 'o' :: p => (p,8)
  | p => (p,10)

def ator (w : ℕ) (p : List Char) (base : ℕ) : Option (BitVec w) :=
  let (p,base) := if base=0 then _getbase p else (p,base)
  _atob w p base

def closing : Char → Option Char
  | '(' => some ')'
  | '\x7b' => some '\x7d'
  | '[' => some ']'
  | '<' => some '>'
  | _ => none

def balScan (b e : Char) : List Char → ℕ → ℤ → Option ℕ
  | [], _, _ => none
  | c::p, i, n =>
    if c=b then balScan b e p (i+1) (n+1)
    else if c=e then if n-1=0 then some i else balScan b e p (i+1) (n-1)
    else balScan b e p (i+1) n

def strbalp : List Char → Option ℕ
  | [] => none
  | b::p =>
    match closing b with
    | none => none
    | some e => balScan b e (b::p) 0 0

/-- The loop of `strrpset` over the reversed string; the first character is never looked at. -/
def rscan (set : List Char) : List Char → ℤ → Option ℕ
  | [], _ => none
  | [_], _ => none
  | c::d::p, n =>
    if c = '(' then rscan set (d::p) (n+1)
    else if c = ')' then rscan set (d::p) (n-1)
    else if c∈set ∧ n=0 then some (d::p).length
    else rscan set (d::p) n

def strrpset (str set : List Char) : Option ℕ := rscan set str.reverse 0

def stripParens : ℕ → List Char → List Char
  | 0, p => p
  | fuel+1, p =>
    if p.head?=some '(' ∧ strbalp p=some (p.length-1) then stripParens fuel p.tail.dropLast
    else p

inductive Inbase where
  | ten
  | sixteen
  | eight
  | auto
  | bad

def Inbase.base : Inbase → Option ℕ
  | .ten => some 10
  | .sixteen => some 16
  | .eight => some 8
  | .auto => some 0
  | .bad => none

inductive Inalpha where
  | hex
  | symbol
  | bad
  deriving DecidableEq

structure Env (w : ℕ) where
  inbase : Inbase
  inalpha : Inalpha
  sym2adr : List Char → Option (BitVec 32)
  getreg : List Char → Option (BitVec w)
  loadWord : BitVec w → BitVec w
  uninit : List Char → BitVec w

variable {w : ℕ} (env : Env w)

def Env.symbol (p : List Char) : Option (BitVec w) := (env.sym2adr p).map (·.signExtend w)

def number (p : List Char) : Option (BitVec w) := match env.inbase.base with
  | none => none
  | some base => (ator w p base).or (ator w p 0)

def hexOrSymbol (vp : BitVec w) (p : List Char) : Option (BitVec w) := match env.inalpha with
  | .bad => none
  | .hex =>
    match ator w p 16 with
    | some v => some v
    | none => env.symbol p
  | .symbol =>
    match env.sym2adr p with
    -- `*vp` is not assigned
    | some _ => some vp
    | none =>
      match ator w p 16 with
      -- `*vp` is assigned `adr`, which `sym2adr` has set to 0
      | some _ => some 0
      | none => none

def isdigit (c : Char) : Bool := '0' ≤ c ∧ c ≤ '9'
def isxdigit (c : Char) : Bool := isdigit c ∨ ('a' ≤ c ∧ c ≤ 'f') ∨ ('A' ≤ c ∧ c ≤ 'F')

def operand (eval : BitVec w → List Char → Option (BitVec w)) (vp : BitVec w) :
    List Char → Option (BitVec w)
  | '^' :: p => (eval (env.uninit p) p).map env.loadWord
  | '@' :: p => env.getreg p
  | ['.'] => env.getreg ['e', 'p', 'c']
  | '&' :: p => env.symbol p
  | [] => env.symbol []
  | c::p =>
    if isdigit c then number env (c::p)
    else if isxdigit c then hexOrSymbol env vp (c::p)
    else env.symbol (c::p)

def applyOp (op : Char) (v1 v2 : BitVec w) : Option (BitVec w) :=
  if op = '+' then some (v1+v2)
  else if op = '-' then some (v1-v2)
  else if op = '*' then some (v1*v2)
  else if v2=0 then none
  else some (v1/v2)

def compound (eval : BitVec w → List Char → Option (BitVec w)) (p : List Char) (q : ℕ) :
    Option (BitVec w) :=
  match eval (env.uninit (p.take q)) (p.take q) with
  | none => none
  | some v1 =>
    match eval (env.uninit (p.drop (q+1))) (p.drop (q+1)) with
    | none => none
    | some v2 => applyOp (p.getD q '+') v1 v2

def evalRsa : ℕ → BitVec w → List Char → Option (BitVec w)
  | 0, _, _ => none
  | fuel+1, vp, p =>
    let p := stripParens p.length p
    match strrpset p ['+', '-'] with
    | some q => compound env (evalRsa fuel) p q
    | none =>
      match strrpset p ['*', '/'] with
      | some q => compound env (evalRsa fuel) p q
      | none => operand env (evalRsa fuel) vp p

def getRsaReg (vp : BitVec w) (p : List Char) : Option (BitVec w) := evalRsa env (p.length+1) vp p

theorem stripParens_of_head {fuel : ℕ} {p : List Char} (h : p.head?≠some '(') :
    stripParens fuel p=p := by
  cases fuel with
  | zero => rfl
  | succ fuel => exact if_neg fun hp => h hp.1

theorem operand_cons {c : Char} (h : c ≠ '^' ∧ c ≠ '@' ∧ c ≠ '.' ∧ c ≠ '&')
    (eval : BitVec w → List Char → Option (BitVec w)) (vp : BitVec w) (p : List Char) :
    operand env eval vp (c::p) = if isdigit c then number env (c::p)
      else if isxdigit c then hexOrSymbol env vp (c::p) else env.symbol (c::p) := by
  obtain ⟨hcaret,hat,hdot,hamp⟩ := h
  unfold operand
  split
  · rename_i heq
    exact absurd (List.cons.inj heq).1 hcaret
  · rename_i heq
    exact absurd (List.cons.inj heq).1 hat
  · rename_i heq
    exact absurd (List.cons.inj heq).1 hdot
  · rename_i heq
    exact absurd (List.cons.inj heq).1 hamp
  · rename_i heq
    cases heq
  · rename_i heq
    obtain ⟨rfl,rfl⟩ := List.cons.inj heq
    rfl

def hexLetter (c : Char) : Bool := ('a' ≤ c ∧ c ≤ 'f') ∨ ('A' ≤ c ∧ c ≤ 'F')

theorem hexLetter_spec {c : Char} (h : hexLetter c=true) :
    isdigit c=false ∧ isxdigit c=true ∧ c ≠ '(' ∧ c ≠ '^' ∧ c ≠ '@' ∧ c ≠ '.' ∧ c ≠ '&' := by
  have hx : isxdigit c=true := by
    simp only [hexLetter,isxdigit,decide_eq_true_eq] at h ⊢
    exact Or.inr h
  have hne : ∀ d : Char, hexLetter d=false → c≠d := by
    rintro d hd rfl
    rw [hd] at h
    cases h
  have hd : isdigit c=false := by
    rw [Bool.eq_false_iff]
    intro hdigit
    simp only [hexLetter,isdigit,decide_eq_true_eq, Char.le_def,UInt32.le_iff_toNat_le] at h hdigit
    have h9 : ('9' : Char).val.toNat=57 := rfl
    have ha : ('a' : Char).val.toNat=97 := rfl
    have hA : ('A' : Char).val.toNat=65 := rfl
    omega
  exact ⟨hd,hx,hne _ (by decide),hne _ (by decide),hne _ (by decide),hne _ (by decide),
    hne _ (by decide)⟩

def Env.resolve (p : List Char) : Option (BitVec w) :=
  if env.inalpha = .hex then (ator w p 16).or (env.symbol p)
  else (env.symbol p).or (ator w p 16)

structure Token (c : Char) (p : List Char) : Prop where
  letter : hexLetter c=true
  noSum : strrpset (c::p) ['+', '-']=none
  noProduct : strrpset (c::p) ['*', '/']=none

theorem Token.getRsaReg {c : Char} {p : List Char} (h : Token c p) (vp : BitVec w) :
    getRsaReg env vp (c::p)=hexOrSymbol env vp (c::p) := by
  obtain ⟨hdigit,hxdigit,hparen,hspecial⟩ := hexLetter_spec h.letter
  have hstrip : stripParens (c::p).length (c::p)=c::p :=
    stripParens_of_head fun heq => hparen (Option.some.inj heq)
  simp only [Rsa.getRsaReg,evalRsa,hstrip,h.noSum,h.noProduct]
  rw [operand_cons env hspecial,hdigit,hxdigit]
  rfl

/-- `get_rsa_reg` resolves a name rightly exactly if `$inalpha` is `hex`, or a defined symbol has
the old value, or a valid number is 0. -/
theorem getRsaReg_resolve_iff (vp : BitVec w) {c : Char} {p : List Char} (h : Token c p)
    (halpha : env.inalpha ≠ .bad) : getRsaReg env vp (c::p)=env.resolve (c::p) ↔
      env.inalpha = .hex ∨ (∀ v, env.symbol (c::p)=some v → v=vp) ∧
        (env.symbol (c::p)=none → ∀ v, ator w (c::p) 16=some v → v=0) := by
  rw [h.getRsaReg,Env.resolve,hexOrSymbol]
  cases hmode : env.inalpha with
  | bad => exact absurd hmode halpha
  | hex =>
    simp only [if_true,true_or,iff_true]
    cases ator w (c::p) 16 with
    | none => rfl
    | some v => rfl
  | symbol =>
    simp only [reduceCtorEq,if_false,false_or]
    unfold Env.symbol
    cases hsym : env.sym2adr (c::p) with
    | some a =>
      simp only [Option.map_some,Option.some_or,Option.some.injEq,forall_eq',
        reduceCtorEq,false_imp_iff,and_true]
      exact eq_comm
    | none =>
      cases hnum : ator w (c::p) 16 with
      | none => simp
      | some v =>
        simp only [Option.map_none,Option.none_or,Option.some.injEq,reduceCtorEq,
          false_imp_iff,implies_true,forall_eq',true_and,forall_const]
        exact eq_comm

def twoSymbols (inalpha : Inalpha) : Env 32 where
  inbase := .sixteen
  inalpha := inalpha
  sym2adr := fun p =>
    if p=['m', 'a', 'i', 'n'] then some 0x80020000
    else if p=['f', 'a', 'c', 'e'] then some 0x80020100 else none
  getreg := fun _ => none
  loadWord := id
  uninit := fun _ => 0

theorem getRsaReg_resolve_hex :
    getRsaReg (twoSymbols .hex) 0 ['f', 'a', 'c', 'e']=some 0xface := by
  have htoken : Token 'f' ['a', 'c', 'e'] := ⟨by decide, by decide, by decide⟩
  exact ((getRsaReg_resolve_iff (twoSymbols .hex) 0 htoken (by decide)).mpr (Or.inl rfl)).trans
    (by decide +kernel)

theorem getRsaReg_symbol_wrong : getRsaReg (twoSymbols .symbol) 7 ['f', 'f']=some 0 ∧
      (twoSymbols .symbol).resolve ['f', 'f']=some 0xff ∧
      getRsaReg (twoSymbols .symbol) 7 ['f', 'a', 'c', 'e']=some 7 ∧
      (twoSymbols .symbol).resolve ['f', 'a', 'c', 'e']=some 0x80020100 := by
  decide +kernel

end Pmon.Rsa
