import Mathlib
import Pmon.BalancedText
import Pmon.Rsa

/-!
# Expressions evaluate to their value

The rightmost sum or product that `strrpset` finds is the root of the tree.
-/

namespace Pmon.Rsa
open BalancedText List
variable {p s t : List Char}

theorem rscan_clean {top : Char → Prop} (h : Clean top t) {set : List Char} {n : ℤ} (hn : n≤0)
    (hset : n=0 → ∀ c, top c → c∉set) (rest : List Char) :
    rscan set (t.reverse++rest) n=rscan set rest n := by
  induction h generalizing n rest with
  | nil => rfl
  | @char _ c p hopen hclose htop hp ih =>
    rw [reverse_cons,append_assoc,singleton_append,ih hn hset]
    cases rest with
    | nil => rfl
    | cons d rest =>
      have hskip : ¬(c∈set ∧ n=0) := fun hc => hset hc.2 c htop hc.1
      rw [rscan,if_neg hopen,if_neg hclose,if_neg hskip]
  | @group _ p q hp hq ihp ihq =>
    have hrev : ('(' :: (p ++ ')' :: q)).reverse++rest
        = q.reverse++(')' :: (p.reverse ++ '(' :: rest)) := by simp
    rw [hrev,ihq hn hset]
    -- inside the parentheses the count is negative, so nothing is found
    have hclosing : rscan set (')' :: (p.reverse ++ '(' :: rest)) n
        = rscan set (p.reverse ++ '(' :: rest) (n-1) := by
      obtain ⟨d,x,hx⟩ : ∃ d x, p.reverse ++ '(' :: rest=d::x :=
        exists_cons_of_ne_nil (by simp)
      rw [hx,rscan,if_neg (by decide),if_pos rfl]
    rw [hclosing,ihp (by omega) (by omega)]
    cases rest with
    | nil => rfl
    | cons d rest =>
      rw [rscan,if_pos rfl]
      congr 1
      omega

theorem strrpset_clean {top : Char → Prop} {set : List Char} (h : Clean top t)
    (hset : ∀ c, top c → c∉set) : strrpset t set=none := by
  have hscan := rscan_clean h le_rfl (fun _ => hset) []
  rw [append_nil] at hscan
  exact hscan

theorem strrpset_split {top : Char → Prop} {set : List Char} {op : Char} (h : Clean top t)
    (hset : ∀ c, top c → c∉set) (hop : op∈set) (hparen : op ≠ '(' ∧ op ≠ ')') (hs : s≠[]) :
    strrpset (s++op::t) set=some s.length := by
  have hrev : (s++op::t).reverse=t.reverse++op::s.reverse := by simp
  obtain ⟨d,x,hx⟩ : ∃ d x, s.reverse=d::x :=
    exists_cons_of_ne_nil (by simpa using hs)
  rw [strrpset,hrev,rscan_clean h le_rfl (fun _ => hset),hx,rscan,if_neg hparen.1,
    if_neg hparen.2,if_pos ⟨hop,rfl⟩,←hx,length_reverse]

theorem balScan_clean {top : Char → Prop} (h : Clean top t) {n : ℤ} (hn : 1≤n) (i : ℕ)
    (rest : List Char) :
    balScan '(' ')' (t++rest) i n=balScan '(' ')' rest (i+t.length) n := by
  induction h generalizing n i rest with
  | nil => rfl
  | @char _ c p hopen hclose _ _ ih =>
    rw [cons_append,balScan,if_neg hopen,if_neg hclose,ih hn,length_cons]
    congr 1
    omega
  | @group _ p q _ _ ihp ihq =>
    have hlist : '(' :: (p ++ ')' :: q)++rest = '(' :: (p ++ ')' :: (q++rest)) := by simp
    rw [hlist,balScan,if_pos rfl,ihp (by omega),balScan,if_neg (by decide),if_pos rfl,
      if_neg (by omega),add_sub_cancel_right,ihq hn]
    congr 1
    simp only [length_cons,length_append]
    omega

theorem strbalp_clean {top : Char → Prop} (h : Clean top t) (rest : List Char) :
    strbalp ('(' :: (t ++ ')' :: rest))=some (t.length+1) := by
  have hscan : strbalp ('(' :: (t ++ ')' :: rest))
      = balScan '(' ')' ('(' :: (t ++ ')' :: rest)) 0 0 := rfl
  rw [hscan,balScan,if_pos rfl,balScan_clean h (by norm_num),balScan,if_neg (by decide),
    if_pos rfl,if_pos (by norm_num)]
  congr 1
  omega

theorem stripParens_fuel {k l : ℕ} (hk : p.length≤k) (hl : p.length≤l) :
    stripParens k p=stripParens l p := by
  induction k generalizing l p with
  | zero =>
    have hnil : p=[] := length_eq_zero_iff.mp (by omega)
    subst hnil
    rw [stripParens_of_head (by simp),stripParens_of_head (by simp)]
  | succ k ih =>
    cases l with
    | zero =>
      have hnil : p=[] := length_eq_zero_iff.mp (by omega)
      subst hnil
      rw [stripParens_of_head (by simp),stripParens_of_head (by simp)]
    | succ l =>
      unfold stripParens
      have hlen : p.tail.dropLast.length≤k ∧ p.tail.dropLast.length≤l := by
        rw [length_dropLast,length_tail]
        omega
      rw [ih hlen.1 hlen.2]

theorem stripParens_enclosed {top : Char → Prop} (h : Clean top s) :
    stripParens ('(' :: (s++[')'])).length ('(' :: (s++[')']))=stripParens s.length s := by
  have hlen : ('(' :: (s++[')'])).length=s.length+1+1 := by simp
  have hlast : strbalp ('(' :: (s++[')']))=some (('(' :: (s++[')'])).length-1) := by
    rw [strbalp_clean h,hlen]
    rfl
  have hinner : ('(' :: (s++[')'])).tail.dropLast=s := by simp
  rw [hlen,stripParens,if_pos ⟨rfl,hlast⟩,hinner]
  exact stripParens_fuel (by omega) le_rfl

theorem stripParens_parts {top : Char → Prop} (h : Clean top s) (hs : s≠[]) (ht : t≠[])
    (k : ℕ) : stripParens k (s++t)=s++t := by
  cases k with
  | zero => rfl
  | succ k =>
    refine if_neg ?_
    rintro ⟨hhead,hbal⟩
    obtain ⟨c,x,rfl⟩ := exists_cons_of_ne_nil hs
    have hc : c = '(' := by simpa using hhead
    subst hc
    obtain ⟨p,q,rfl,hp⟩ := h.open_group
    have hlist : '(' :: (p ++ ')' :: q)++t = '(' :: (p ++ ')' :: (q++t)) := by simp
    rw [hlist,strbalp_clean hp,Option.some.injEq] at hbal
    have hpos := length_pos_iff.mpr ht
    simp only [length_cons,length_append] at hbal
    omega

inductive Op where
  | add
  | sub
  | mul
  | div

def Op.char : Op → Char
  | .add => '+'
  | .sub => '-'
  | .mul => '*'
  | .div => '/'

def Op.isSum : Op → Bool
  | .add => true
  | .sub => true
  | .mul => false
  | .div => false

inductive Expr where
  | sym (name : List Char)
  | const (text : List Char)
  | node (op : Op) (a b : Expr)

def special : List Char := ['+', '-', '*', '/', '(', ')']

def constDigits : List Char → List Char
  | '0' :: 'x' :: ds => ds
  | '0' :: 'X' :: ds => ds
  | ds => ds

def hexValue (ds : List Char) : ℕ := ds.foldl (fun v c => v*16+(digitVal c).getD 0) 0

/-- A symbol name starts with a letter that is no hexadecimal digit and has no operators. -/
structure SymName (name : List Char) : Prop where
  letter : ∃ c rest, name=c::rest ∧ c.isAlpha=true ∧ hexLetter c=false
  plain : ∀ c∈name, c∉special

structure ConstText (text : List Char) : Prop where
  digit : ∃ c rest, text=c::rest ∧ isdigit c=true
  digits : ∀ c∈constDigits text, (digitVal c).isSome

def Expr.WellFormed : Expr → Prop
  | .sym name => SymName name
  | .const text => ConstText text
  | .node _ a b => a.WellFormed ∧ b.WellFormed

def Op.apply : Op → BitVec w → BitVec w → Option (BitVec w)
  | .add, x, y => some (x+y)
  | .sub, x, y => some (x-y)
  | .mul, x, y => some (x*y)
  | .div, x, y => if y=0 then none else some (x/y)

def Expr.eval (env : Env w) : Expr → Option (BitVec w)
  | .sym name => env.symbol name
  | .const text => some (BitVec.ofNat w (hexValue (constDigits text)))
  | .node op a b =>
    match a.eval env, b.eval env with
    | some x, some y => op.apply x y
    | _, _ => none

inductive Level where
  | atom
  | product
  | sum

inductive Renders : Level → Expr → List Char → Prop
  | sym {name : List Char} : Renders .atom (.sym name) name
  | const {text : List Char} : Renders .atom (.const text) text
  | paren {e : Expr} {s : List Char} (h : Renders .sum e s) : Renders .atom e ('(' :: (s++[')']))
  | factor {e : Expr} {s : List Char} (h : Renders .atom e s) : Renders .product e s
  | product {op : Op} {a b : Expr} {s t : List Char} (hop : op.isSum=false)
    (ha : Renders .product a s) (hb : Renders .atom b t) :
    Renders .product (.node op a b) (s++op.char::t)
  | term {e : Expr} {s : List Char} (h : Renders .product e s) : Renders .sum e s
  | sum {op : Op} {a b : Expr} {s t : List Char} (hop : op.isSum=true)
    (ha : Renders .sum a s) (hb : Renders .product b t) :
    Renders .sum (.node op a b) (s++op.char::t)

theorem digitVal_lt {c : Char} {d : ℕ} (h : digitVal c=some d) : d<16 := by
  unfold digitVal at h
  simp only [Char.le_def,UInt32.le_iff_toNat_le] at h
  have h0 : ('0' : Char).val.toNat=48 := rfl
  have h9 : ('9' : Char).val.toNat=57 := rfl
  have ha : ('a' : Char).val.toNat=97 := rfl
  have hf : ('f' : Char).val.toNat=102 := rfl
  have hA : ('A' : Char).val.toNat=65 := rfl
  have hF : ('F' : Char).val.toNat=70 := rfl
  have hval : ∀ e : Char, e.toNat = e.val.toNat := fun _ => rfl
  simp only [hval] at h
  split_ifs at h
  all_goals
    cases h
    omega

theorem atobDigits_hex {ds : List Char} (h : ∀ c∈ds, (digitVal c).isSome) (n : ℕ) :
    atobDigits w 16 ds (BitVec.ofNat w n)
      = some (BitVec.ofNat w (ds.foldl (fun v c => v*16+(digitVal c).getD 0) n)) := by
  induction ds generalizing n with
  | nil => rfl
  | cons c ds ih =>
    obtain ⟨d,hd⟩ := Option.isSome_iff_exists.mp (h c mem_cons_self)
    have hlt := digitVal_lt hd
    have hstep : BitVec.ofNat w n * BitVec.ofNat w 16 + BitVec.ofNat w d
        = BitVec.ofNat w (n*16+d) := by
      rw [BitVec.ofNat_add,BitVec.ofNat_mul]
    simp only [atobDigits,hd,if_neg (not_le.mpr hlt),hstep,foldl_cons,Option.getD_some]
    exact ih (fun e he => h e (mem_cons_of_mem _ he)) _

theorem skip0x_eq (text : List Char) : skip0x text 16=(constDigits text,16) := by
  unfold skip0x
  split
  · rfl
  · rfl
  · rename_i hlower hupper
    rw [constDigits.eq_3 _ hlower hupper]

theorem dot_notMem {ds : List Char} (h : ∀ c∈ds, (digitVal c).isSome) : '.' ∉ ds := by
  intro hmem
  exact absurd (h _ hmem) (by decide)

theorem ator_const {text : List Char} (h : ConstText text) :
    ator w text 16=some (BitVec.ofNat w (hexValue (constDigits text))) := by
  simp only [ator,_atob,skip0x_eq,if_neg (by norm_num : ¬(16=0))]
  rw [if_neg fun hdot => dot_notMem h.digits hdot.2]
  exact atobDigits_hex h.digits 0

theorem ConstText.plain {text : List Char} (h : ConstText text) : ∀ c∈text, c∉special := by
  have hdigit : ∀ c, (digitVal c).isSome → c∉special := by
    intro c hc hmem
    simp only [special,mem_cons,not_mem_nil,or_false] at hmem
    rcases hmem with rfl | rfl | rfl | rfl | rfl | rfl
    all_goals exact absurd hc (by decide)
  have hdigits := h.digits
  intro c hc
  unfold constDigits at hdigits
  split at hdigits
  · rcases mem_cons.mp hc with rfl | hc
    · decide
    rcases mem_cons.mp hc with rfl | hc
    · decide
    exact hdigit c (hdigits c hc)
  · rcases mem_cons.mp hc with rfl | hc
    · decide
    rcases mem_cons.mp hc with rfl | hc
    · decide
    exact hdigit c (hdigits c hc)
  · exact hdigit c (hdigits c hc)

theorem clean_plain (h : ∀ c∈p, c∉special) : Clean (· ∉ special) p := by
  refine clean_of_forall fun c hc => ⟨?_,?_,h c hc⟩
  · rintro rfl
    exact h _ hc (by decide)
  · rintro rfl
    exact h _ hc (by decide)

def Level.top : Level → Char → Prop
  | .atom, c => c∉['+', '-', '*', '/']
  | .product, c => c∉['+', '-']
  | .sum, _ => True

theorem clean_leaf (h : ∀ c∈p, c∉special) : Clean Level.atom.top p :=
  (clean_plain h).mono fun c hc hop => hc (by
    simp only [special,mem_cons,not_mem_nil,or_false] at hop ⊢
    tauto)

theorem Op.char_top {op : Op} (h : op.isSum=false) : Level.product.top op.char := by
  cases op with
  | add => cases h
  | sub => cases h
  | mul => exact (by decide : '*' ∉ ['+','-'])
  | div => exact (by decide : '/' ∉ ['+','-'])

theorem Op.char_paren (op : Op) : op.char ≠ '(' ∧ op.char ≠ ')' := by
  cases op with
  | add => decide
  | sub => decide
  | mul => decide
  | div => decide

theorem Renders.clean {l : Level} {e : Expr} (h : Renders l e s) (hwf : e.WellFormed) :
    s≠[] ∧ Clean l.top s := by
  induction h with
  | @sym name =>
    obtain ⟨c,rest,hname,-⟩ := hwf.letter
    exact ⟨by simp [hname],clean_leaf hwf.plain⟩
  | @const text =>
    obtain ⟨c,rest,htext,-⟩ := hwf.digit
    exact ⟨by simp [htext],clean_leaf hwf.plain⟩
  | paren _ ih => exact ⟨by simp,.group (ih hwf).2.any .nil⟩
  | factor _ ih =>
    refine ⟨(ih hwf).1,(ih hwf).2.mono fun c hc hop => hc ?_⟩
    simp only [mem_cons,not_mem_nil,or_false] at hop ⊢
    tauto
  | @product op a b s t hop _ _ iha ihb =>
    obtain ⟨-,hs⟩ := iha hwf.1
    obtain ⟨-,ht⟩ := ihb hwf.2
    refine ⟨by simp,hs.append (.char op.char_paren.1 op.char_paren.2 (op.char_top hop) ?_)⟩
    refine ht.mono fun c hc hin => hc ?_
    simp only [mem_cons,not_mem_nil,or_false] at hin ⊢
    tauto
  | term _ ih => exact ⟨(ih hwf).1,(ih hwf).2.any⟩
  | @sum op a b s t _ _ _ iha ihb =>
    exact ⟨by simp,(iha hwf.1).2.append
      (.char op.char_paren.1 op.char_paren.2 trivial (ihb hwf.2).2.any)⟩

theorem applyOp_char (op : Op) (x y : BitVec w) : applyOp op.char x y=op.apply x y := by
  cases op with
  | add => rfl
  | sub => rfl
  | mul => rfl
  | div => rfl

theorem compound_node (env : Env w) {eval : BitVec w → List Char → Option (BitVec w)} {op : Op}
    {a b : Expr} (ha : ∀ vp, eval vp s=a.eval env) (hb : ∀ vp, eval vp t=b.eval env) :
    compound env eval (s++op.char::t) s.length=(Expr.node op a b).eval env := by
  have hleft : (s++op.char::t).take s.length=s := take_left
  have hright : (s++op.char::t).drop (s.length+1)=t := by
    rw [←drop_drop,drop_left]
    rfl
  have hop : (s++op.char::t).getD s.length '+' = op.char := by simp
  unfold compound Expr.eval
  rw [hleft,hright,hop,ha,hb]
  cases a.eval env with
  | none => rfl
  | some x =>
    cases b.eval env with
    | none => rfl
    | some y => exact applyOp_char op x y

theorem evalRsa_leaf (env : Env w) {c : Char} {rest : List Char}
    (hplain : ∀ d∈c::rest, d∉special) (fuel : ℕ) (vp : BitVec w) :
    evalRsa env (fuel+1) vp (c::rest)=operand env (evalRsa env fuel) vp (c::rest) := by
  have hparen : (c::rest).head?≠some '(' := by
    intro heq
    exact hplain c mem_cons_self (by rw [Option.some.inj heq]; decide)
  have hclean := clean_leaf hplain
  have hsum : strrpset (c::rest) ['+','-']=none :=
    strrpset_clean hclean fun d hd hin => hd (by
      simp only [mem_cons,not_mem_nil,or_false] at hin ⊢
      tauto)
  have hproduct : strrpset (c::rest) ['*','/']=none :=
    strrpset_clean hclean fun d hd hin => hd (by
      simp only [mem_cons,not_mem_nil,or_false] at hin ⊢
      tauto)
  simp only [evalRsa,stripParens_of_head hparen,hsum,hproduct]

theorem evalRsa_enclosed (env : Env w) {top : Char → Prop} (h : Clean top s) (fuel : ℕ)
    (vp : BitVec w) :
    evalRsa env (fuel+1) vp ('(' :: (s++[')']))=evalRsa env (fuel+1) vp s := by
  simp only [evalRsa,stripParens_enclosed h]

theorem isAlpha_spec {c : Char} (halpha : c.isAlpha=true) (hhex : hexLetter c=false) :
    isdigit c=false ∧ isxdigit c=false ∧ c ≠ '^' ∧ c ≠ '@' ∧ c ≠ '.' ∧ c ≠ '&' := by
  have hne : ∀ d : Char, d.isAlpha=false → c≠d := by
    rintro d hd rfl
    rw [hd] at halpha
    cases halpha
  have hdigit : isdigit c=false := by
    rw [Bool.eq_false_iff]
    intro hdigit
    simp only [isdigit,decide_eq_true_eq, Char.le_def,UInt32.le_iff_toNat_le] at hdigit
    simp only [Char.isAlpha,Char.isUpper,Char.isLower,Bool.or_eq_true,Bool.and_eq_true,
      decide_eq_true_eq,ge_iff_le,UInt32.le_iff_toNat_le] at halpha
    have h9 : ('9' : Char).val.toNat=57 := rfl
    have ha : ('a' : Char).val.toNat=97 := rfl
    have hA : ('A' : Char).val.toNat=65 := rfl
    omega
  have hxdigit : isxdigit c=false := by
    rw [Bool.eq_false_iff]
    intro hx
    simp only [isxdigit,decide_eq_true_eq] at hx
    rcases hx with hx | hx
    · rw [hdigit] at hx
      cases hx
    · exact absurd (decide_eq_true hx) (Bool.eq_false_iff.mp hhex)
  exact ⟨hdigit,hxdigit,hne _ (by decide),hne _ (by decide),hne _ (by decide),
    hne _ (by decide)⟩

theorem isdigit_spec {c : Char} (h : isdigit c=true) : c ≠ '^' ∧ c ≠ '@' ∧ c ≠ '.' ∧ c ≠ '&' := by
  have hne : ∀ d : Char, isdigit d=false → c≠d := by
    rintro d hd rfl
    rw [hd] at h
    cases h
  exact ⟨hne _ (by decide),hne _ (by decide),hne _ (by decide),hne _ (by decide)⟩

theorem evalRsa_of_sum (env : Env w) {q : ℕ} (hstrip : stripParens p.length p=p)
    (hsum : strrpset p ['+', '-']=some q) (fuel : ℕ) (vp : BitVec w) :
    evalRsa env (fuel+1) vp p=compound env (evalRsa env fuel) p q := by
  rw [evalRsa,hstrip,hsum]

theorem evalRsa_of_product (env : Env w) {q : ℕ} (hstrip : stripParens p.length p=p)
    (hsum : strrpset p ['+', '-']=none) (hproduct : strrpset p ['*', '/']=some q) (fuel : ℕ)
    (vp : BitVec w) : evalRsa env (fuel+1) vp p=compound env (evalRsa env fuel) p q := by
  rw [evalRsa,hstrip,hsum,hproduct]

theorem Renders.evalRsa_eq (env : Env w) (hbase : env.inbase = .sixteen) {l : Level} {e : Expr}
    (h : Renders l e s) (hwf : e.WellFormed) {fuel : ℕ} (hfuel : s.length<fuel+1)
    (vp : BitVec w) : evalRsa env (fuel+1) vp s=e.eval env := by
  induction h generalizing fuel vp with
  | @sym name =>
    obtain ⟨c,rest,rfl,halpha,hhex⟩ := hwf.letter
    obtain ⟨hdigit,hxdigit,hspecial⟩ := isAlpha_spec halpha hhex
    rw [evalRsa_leaf env hwf.plain,operand_cons env hspecial,hdigit,hxdigit]
    rfl
  | @const text =>
    obtain ⟨c,rest,rfl,hdigit⟩ := hwf.digit
    rw [evalRsa_leaf env hwf.plain,operand_cons env (isdigit_spec hdigit),if_pos hdigit,number,
      hbase]
    dsimp only [Inbase.base]
    rw [ator_const hwf]
    rfl
  | paren hinner ih =>
    rw [evalRsa_enclosed env (hinner.clean hwf).2]
    refine ih hwf ?_ vp
    simp only [length_cons,length_append] at hfuel
    omega
  | factor _ ih => exact ih hwf hfuel vp
  | @product op a b s t hop ha hb iha ihb =>
    have hall := (Renders.product hop ha hb).clean hwf
    obtain ⟨hs,hclean⟩ := ha.clean hwf.1
    have hlen : s.length+(t.length+1)<fuel+1 := by simpa using hfuel
    have hpos := length_pos_iff.mpr hs
    have hsum := strrpset_clean hall.2 fun c hc => hc
    have hmul : op.char∈['*','/'] := by
      cases op with
      | add => cases hop
      | sub => cases hop
      | mul => decide
      | div => decide
    have hsplit :=
      strrpset_split (hb.clean hwf.2).2 (fun c hc hin => hc (by
        simp only [mem_cons,not_mem_nil,or_false] at hin ⊢
        tauto)) hmul op.char_paren hs
    obtain ⟨k,rfl⟩ : ∃ k, fuel=k+1 := ⟨fuel-1,by omega⟩
    rw [evalRsa_of_product env (stripParens_parts hclean hs (cons_ne_nil _ _) _) hsum hsplit]
    exact compound_node env (fun vp => iha hwf.1 (by omega) vp)
      fun vp => ihb hwf.2 (by omega) vp
  | term _ ih => exact ih hwf hfuel vp
  | @sum op a b s t hop ha hb iha ihb =>
    obtain ⟨hs,hclean⟩ := ha.clean hwf.1
    have hlen : s.length+(t.length+1)<fuel+1 := by simpa using hfuel
    have hpos := length_pos_iff.mpr hs
    have hadd : op.char∈['+','-'] := by
      cases op with
      | add => decide
      | sub => decide
      | mul => cases hop
      | div => cases hop
    have hsplit := strrpset_split (hb.clean hwf.2).2 (fun c hc => hc) hadd op.char_paren hs
    obtain ⟨k,rfl⟩ : ∃ k, fuel=k+1 := ⟨fuel-1,by omega⟩
    rw [evalRsa_of_sum env (stripParens_parts hclean hs (cons_ne_nil _ _) _) hsplit]
    exact compound_node env (fun vp => iha hwf.1 (by omega) vp)
      fun vp => ihb hwf.2 (by omega) vp

/-- `get_rsa_reg` returns the value of the tree, and 0 if a symbol is undefined or a divisor is 0.
-/
theorem getRsaReg_renders (env : Env w) (hbase : env.inbase = .sixteen) {e : Expr}
    {s : List Char} (h : Renders .sum e s) (hwf : e.WellFormed) (vp : BitVec w) :
    getRsaReg env vp s=e.eval env := h.evalRsa_eq env hbase hwf (Nat.lt_succ_self _) vp

theorem getRsaReg_renders_sample :
    getRsaReg (twoSymbols .hex) 0 "((main)+10)*2-1".toList=some 0x4001f := by
  have hplain : ['m', 'a', 'i', 'n'].all fun c => decide (c∉special) := by decide
  have hsym : SymName ['m', 'a', 'i', 'n'] :=
    ⟨⟨'m',['a', 'i', 'n'],rfl, by decide, by decide⟩,
      fun c hc => of_decide_eq_true (all_eq_true.mp hplain c hc)⟩
  have hconst : ∀ text∈[['1', '0'],['2'],['1']], ConstText text := by
    intro text htext
    simp only [mem_cons,not_mem_nil,or_false] at htext
    rcases htext with rfl | rfl | rfl
    · exact ⟨⟨'1',['0'],rfl, by decide⟩,all_eq_true.mp (by decide)⟩
    · exact ⟨⟨'2',[],rfl, by decide⟩,all_eq_true.mp (by decide)⟩
    · exact ⟨⟨'1',[],rfl, by decide⟩,all_eq_true.mp (by decide)⟩
  have hwritten : Renders .sum (.node .sub (.node .mul (.node .add (.sym ['m', 'a', 'i', 'n'])
      (.const ['1', '0'])) (.const ['2'])) (.const ['1'])) "((main)+10)*2-1".toList :=
    .sum (s := "((main)+10)*2".toList) rfl (.term (.product (s := "((main)+10)".toList) rfl
      (.factor (.paren (s := "(main)+10".toList) (.sum (s := "(main)".toList) rfl
        (.term (.factor (.paren (.term (.factor .sym))))) (.factor .const)))) .const))
      (.factor .const)
  exact (getRsaReg_renders (twoSymbols .hex) rfl hwritten ⟨⟨⟨hsym,hconst _ (by simp)⟩,
    hconst _ (by simp)⟩,hconst _ (by simp)⟩ 0).trans (by decide +kernel)

end Pmon.Rsa
