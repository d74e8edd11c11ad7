import Pmon.CompareSort
import Pmon.HashChains
import Pmon.KeyedList

/-!
# The symbol table

A hash table of chains, with lists sorted by name and by value built on demand. For two empty names
the test compares what memory holds after the terminators.
-/

namespace Pmon.SymTable
open List Function
open CompareSort (IsOrderOn Sorter)
open HashChains (items push Filed)
open KeyedList (Distinct)

structure Name where
  bytes : List UInt8
  nonnull : ∀ b∈bytes, b≠0
  deriving DecidableEq

def Name.first (name : Name) : UInt8 := name.bytes.headD 0

def Name.second (name : Name) (beyond : List UInt8) : List UInt8 :=
  if name.bytes=[] then beyond else name.bytes.tail

def strequ : List UInt8 → List UInt8 → Bool
  | [], [] => true
  | [], _::_ => false
  | _::_, [] => false
  | a::as, b::bs => if a≠b then false else strequ as bs

theorem strequ_iff (as bs : List UInt8) : strequ as bs=true ↔ as=bs := by
  induction as generalizing bs with
  | nil => cases bs <;> simp [strequ]
  | cons a as ih =>
    cases bs with
    | nil => simp [strequ]
    | cons b bs =>
      rw [strequ,List.cons.injEq]
      split
      · rename_i hne
        exact ⟨fun h => (nomatch h),fun h => absurd h.1 hne⟩
      · rename_i heq
        rw [ih]
        exact ⟨fun h => ⟨not_not.mp heq,h⟩,fun h => h.2⟩

def strcmp : List UInt8 → List UInt8 → ℤ
  | [], [] => 0
  | [], b::_ => -(b.toNat : ℤ)
  | a::_, [] => a.toNat
  | a::as, b::bs => if a=b then strcmp as bs else (a.toNat : ℤ) - b.toNat

def NHASH : ℕ := 127

def strhashLoop (h : BitVec 32) : List UInt8 → BitVec 32
  | [] => h
  | b::bs =>
    let h := (h <<< 4) + b.toBitVec.signExtend 32
    if 0x0fffffff < h then strhashLoop ((h ^^^ ((h >>> 24) &&& 0xf0)) &&& 0x0fffffff) bs
    else strhashLoop h bs

def strhash (name : Name) : BitVec 32 := strhashLoop 0 name.bytes
def chain (name : Name) : Fin NHASH := ⟨(strhash name).toNat%NHASH,Nat.mod_lt _ (by decide)⟩

structure Sym where
  value : BitVec 32
  name : Name

inductive Order where
  | alpha
  | numeric
  deriving DecidableEq

def Order.other : Order → Order
  | alpha => numeric
  | numeric => alpha

structure Symbols where
  symhash : Fin NHASH → List ℕ
  sym : ℕ → Sym
  symsort : Order → Option (List ℕ)
  maxsymlen : ℕ
  nsyms : ℕ
  blocks : ℕ

def Symbols.start : Symbols where
  symhash _ := []
  sym _ := ⟨0,⟨[], by simp⟩⟩
  symsort _ := none
  maxsymlen := 0
  nsyms := 0
  blocks := 0

def namecmp (s : Symbols) (p q : ℕ) : ℤ := strcmp (s.sym p).name.bytes (s.sym q).name.bytes

def valcmp (s : Symbols) (p q : ℕ) : ℤ :=
  if (s.sym p).value<(s.sym q).value then -1
  else if (s.sym q).value<(s.sym p).value then 1
  else 0

def compar (s : Symbols) : Order → ℕ → ℕ → ℤ
  | .alpha => namecmp s
  | .numeric => valcmp s

def flushsort (type : Order) (s : Symbols) : Symbols :=
  {s with symsort := update s.symsort type none}

def keepsort (qsort : Sorter ℕ) (type : Order) (syms : List ℕ) (s : Symbols) :
    Option (List ℕ) × Symbols :=
  let syms := qsort.sort (compar s type) (syms.take s.nsyms)++syms.drop s.nsyms
  (some syms,{s with symsort := update s.symsort type (some syms)})

def getsort (qsort : Sorter ℕ) (type : Order) (room : Bool) (s : Symbols) :
    Option (List ℕ) × Symbols :=
  if s.nsyms=0 then (none,s)
  else
    match s.symsort type with
    | some syms => (some syms,s)
    | none =>
      if room then keepsort qsort type (items s.symhash) s
      else
        match s.symsort type.other with
        | none => (none,s)
        | some syms => keepsort qsort type syms (flushsort type.other s)

structure Past where
  mine : List UInt8
  stored : ℕ → List UInt8

def sameName (past : Past) (name : Name) (s : Symbols) (p : ℕ) : Bool :=
  name.first=(s.sym p).name.first ∧
    strequ (name.second past.mine) ((s.sym p).name.second (past.stored p))

def search (past : Past) (name : Name) (s : Symbols) : Option ℕ :=
  (s.symhash (chain name)).find? (sameName past name s)

def getsymbyname (past : Past) (name : Name) (s : Symbols) : Option ℕ :=
  if s.nsyms=0 then none else search past name s

def bestLoop (s : Symbols) (addr : BitVec 32) : List ℕ → Option ℕ → Option ℕ
  | [], best => best
  | p::ps, best =>
    if (s.sym p).value=addr then some p
    else
      let better := best.all fun b => (s.sym b).value<(s.sym p).value
      bestLoop s addr ps (if (s.sym p).value<addr ∧ better then some p else best)

def bisect (value : ℕ → BitVec 32) (addr : BitVec 32) : ℕ → ℕ → ℕ → ℕ
  | 0, _, hi => hi
  | n+1, lo, hi =>
    if addr<value hi then
      let mid := (lo+hi)/2
      if lo=mid ∨ addr≤value mid then bisect value addr n lo mid
      else bisect value addr n mid hi
    else hi

def getsymbyvalue (qsort : Sorter ℕ) (addr : BitVec 32) (room : Bool) (s : Symbols) :
    Option ℕ × Symbols :=
  if s.nsyms=0 then (none,s)
  else
    match getsort qsort .numeric room s with
    | (none,s) => (bestLoop s addr (items s.symhash) none,s)
    | (some syms,s) =>
      let value i := (s.sym (syms.getD i 0)).value
      if addr<value 0 then (none,s)
      else (syms[bisect value addr s.nsyms 0 (s.nsyms-1)]?,s)

def newsym (past : Past) (room : Bool) (name : Name) (value : BitVec 32) (s : Symbols) :
    Bool × Symbols :=
  match search past name s with
  | some p =>
    if (s.sym p).value≠value then
      (true,flushsort .numeric
        {s with sym := update s.sym p {s.sym p with value := value}})
    else (true,s)
  | none =>
    let s := flushsort .numeric (flushsort .alpha s)
    if room then
      (true,{ s with
        sym := update s.sym s.blocks ⟨value,name⟩
        symhash := push s.symhash (chain name) s.blocks
        blocks := s.blocks+1
        maxsymlen := max s.maxsymlen name.bytes.length
        nsyms := s.nsyms+1 })
    else (false,s)

def clrsyms (s : Symbols) : Symbols :=
  let s := flushsort .numeric (flushsort .alpha {s with symhash := fun _ => []})
  {s with maxsymlen := 0, nsyms := 0}

def sym2adr (past : Past) (name : Name) (s : Symbols) : Bool × BitVec 32 :=
  match getsymbyname past name s with
  | some p => (true,(s.sym p).value)
  | none => (false,0)

inductive Call where
  | newsym (past : Past) (room : Bool) (name : Name) (value : BitVec 32)
  | clrsyms
  | sym2adr (past : Past) (name : Name)
  | getsymbyvalue (addr : BitVec 32) (room : Bool)
  /-- List the symbols; `firstsym` asks for a sorted list. -/
  | firstsym (sort : Order) (room : Bool)

inductive Event where
  | defined (name : Name) (value : BitVec 32)
  | cleared

def step (qsort : Sorter ℕ) (s : Symbols) : Call → Symbols × Option Event
  | .newsym past room name value =>
    let (ok,t) := newsym past room name value s
    (t, if ok then some (.defined name value) else none)
  | .clrsyms => (clrsyms s,some .cleared)
  | .sym2adr _ _ => (s,none)
  | .getsymbyvalue addr room => ((getsymbyvalue qsort addr room s).2,none)
  | .firstsym sort room => ((getsort qsort sort room s).2,none)

def run (qsort : Sorter ℕ) (cs : List Call) : Symbols × List Event :=
  cs.foldl (fun (s,es) c => ((step qsort s c).1,(step qsort s c).2.toList++es))
    (Symbols.start,[])

def latest : List Event → Name → Option (BitVec 32)
  | [], _ => none
  | .cleared::_, _ => none
  | .defined n v::es, name => if n=name then some v else latest es name

def Readable (past : Past) (name : Name) (s : Symbols) : Prop :=
  name.bytes=[] → ∀ p∈items s.symhash, (s.sym p).name.bytes=[] → past.mine=past.stored p

theorem Name.first_eq_zero_iff (name : Name) : name.first=0 ↔ name.bytes=[] := by
  unfold Name.first
  constructor
  · intro h
    cases hb : name.bytes with
    | nil => rfl
    | cons b bs =>
      rw [hb] at h
      exact absurd h (name.nonnull b (hb ▸ mem_cons_self))
  · intro h
    rw [h]
    rfl

theorem Name.ext_bytes {a b : Name} (h : a.bytes=b.bytes) : a=b := by
  cases a
  cases b
  congr

theorem sameName_iff {past : Past} {name : Name} {s : Symbols} {p : ℕ}
    (h : name.bytes=[] → (s.sym p).name.bytes=[] → past.mine=past.stored p) :
    sameName past name s p=true ↔ (s.sym p).name=name := by
  generalize hother : (s.sym p).name=other at h
  simp only [sameName,hother,strequ_iff,decide_eq_true_eq]
  constructor
  · rintro ⟨hfirst,hsecond⟩
    refine Name.ext_bytes ?_
    by_cases hname : name.bytes=[]
    · rw [hname,←other.first_eq_zero_iff,←hfirst,name.first_eq_zero_iff]
      exact hname
    · have hne : other.bytes≠[] := by
        rwa [ne_eq,←other.first_eq_zero_iff,←hfirst,name.first_eq_zero_iff]
      rw [Name.second,Name.second,if_neg hname,if_neg hne] at hsecond
      rw [←cons_head_tail hne,←cons_head_tail hname,hsecond]
      unfold Name.first at hfirst
      rw [headD_eq_head?_getD,headD_eq_head?_getD,head?_eq_some_head hname,
        head?_eq_some_head hne] at hfirst
      exact congrArg (· :: other.bytes.tail) hfirst.symm
  · rintro rfl
    refine ⟨rfl,?_⟩
    unfold Name.second
    split
    · rename_i hempty
      exact h hempty hempty
    · rfl

theorem strcmp_neg (as bs : List UInt8) : strcmp bs as = -strcmp as bs := by
  induction as generalizing bs with
  | nil => cases bs <;> simp [strcmp]
  | cons a as ih =>
    cases bs with
    | nil => simp [strcmp]
    | cons b bs =>
      rw [strcmp,strcmp]
      by_cases hab : a=b
      · rw [if_pos hab,if_pos hab.symm,ih]
      · rw [if_neg hab,if_neg (Ne.symm hab)]
        omega

theorem strcmp_trans {as bs cs : List UInt8} (has : ∀ b∈as, b≠0) (hbs : ∀ b∈bs, b≠0)
    (hab : strcmp as bs≤0) (hbc : strcmp bs cs≤0) : strcmp as cs≤0 := by
  have hpos {b : UInt8} (hb : b≠0) : 0 < b.toNat := by
    have : b.toNat≠0 := fun h => hb (UInt8.toNat_inj.mp h)
    omega
  induction as generalizing bs cs with
  | nil => cases cs <;> simp [strcmp]
  | cons a as ih =>
    cases bs with
    | nil =>
      have := hpos (has a mem_cons_self)
      rw [strcmp] at hab
      omega
    | cons b bs =>
      have hb := hpos (hbs b mem_cons_self)
      cases cs with
      | nil =>
        rw [strcmp] at hbc
        omega
      | cons c cs =>
        rw [strcmp] at hab hbc ⊢
        by_cases heq : a=b
        · subst heq
          rw [if_pos rfl] at hab
          by_cases hac : a=c
          · rw [if_pos hac] at hbc ⊢
            exact ih (fun x hx => has x (mem_cons_of_mem _ hx))
              (fun x hx => hbs x (mem_cons_of_mem _ hx)) hab hbc
          · rw [if_neg hac] at hbc ⊢
            exact hbc
        · have hne : a.toNat ≠ b.toNat := fun h => heq (UInt8.toNat_inj.mp h)
          rw [if_neg heq] at hab
          have hle : b.toNat ≤ c.toNat := by
            split at hbc
            · rename_i hbc'
              rw [hbc']
            · omega
          have hac : a≠c := by
            rintro rfl
            omega
          rw [if_neg hac]
          omega

theorem valcmp_le_zero_iff (s : Symbols) (p q : ℕ) :
    valcmp s p q≤0 ↔ (s.sym p).value≤(s.sym q).value := by
  unfold valcmp
  split_ifs with h1 h2
  · exact ⟨fun _ => BitVec.le_of_lt h1,fun _ => by decide⟩
  · exact ⟨fun h => absurd h (by decide),fun h => absurd h2 (BitVec.not_lt.mpr h)⟩
  · exact ⟨fun _ => BitVec.not_lt.mp h2,fun _ => le_rfl⟩

theorem isOrderOn_compar (s : Symbols) (type : Order) (l : List ℕ) :
    IsOrderOn (compar s type) l := by
  cases type with
  | alpha =>
    refine ⟨fun p _ q _ => ?_,fun p _ q _ r _ => ?_⟩
    · have := strcmp_neg (s.sym p).name.bytes (s.sym q).name.bytes
      change strcmp _ _≤0 ∨ strcmp _ _≤0
      omega
    · exact strcmp_trans (s.sym p).name.nonnull (s.sym q).name.nonnull
  | numeric =>
    have hle := valcmp_le_zero_iff s
    refine ⟨fun p _ q _ => ?_,fun p _ q _ r _ => ?_⟩
    · change valcmp s p q≤0 ∨ valcmp s q p≤0
      rw [hle,hle]
      exact BitVec.le_total _ _
    · change valcmp s p q≤0 → valcmp s q r≤0 → valcmp s p r≤0
      rw [hle,hle,hle]
      exact BitVec.le_trans

def Symbols.name (s : Symbols) (p : ℕ) : Name := (s.sym p).name

structure SortedList (s : Symbols) (type : Order) (l : List ℕ) : Prop where
  perm : l.Perm (items s.symhash)
  sorted : l.Pairwise fun p q => compar s type p q≤0

structure Listed (s : Symbols) : Prop where
  nsyms : s.nsyms=(items s.symhash).length
  sorted : ∀ type, ∀ l∈s.symsort type, SortedList s type l

/-- The hash chains and the sorted lists hold the same symbols. -/
structure Coherent (s : Symbols) : Prop where
  names : Distinct s.name (items s.symhash)
  nsyms : s.nsyms=(items s.symhash).length
  sorted : ∀ type, ∀ l∈s.symsort type, SortedList s type l

/-- The table holds the latest value of each name. -/
structure Inv (s : Symbols) (es : List Event) : Prop extends Coherent s where
  filed : Filed (fun p => chain (s.name p)) s.symhash
  fresh : ∀ p∈items s.symhash, p<s.blocks
  values : ∀ name v, latest es name=some v ↔
    ∃ p∈items s.symhash, s.name p=name ∧ (s.sym p).value=v

theorem inv_empty {s : Symbols} {es : List Event} (hempty : items s.symhash=[])
    (hnsyms : s.nsyms=0) (hsort : ∀ type, s.symsort type=none)
    (hlatest : ∀ name, latest es name=none) : Inv s es where
  names := by
    rw [hempty]
    exact nodup_nil
  nsyms := by rw [hempty,hnsyms,length_nil]
  sorted type l hl := by
    rw [hsort] at hl
    cases hl
  filed i p hp := by
    have hmem := HashChains.mem_items.mpr ⟨i,hp⟩
    rw [hempty] at hmem
    cases hmem
  fresh p hp := by
    rw [hempty] at hp
    cases hp
  values name v := by
    rw [hlatest,hempty]
    exact ⟨fun h => (nomatch h),fun ⟨_,hp,_⟩ => (nomatch hp)⟩

variable {s : Symbols} {es : List Event} {past : Past} {name : Name}

theorem search_some (hread : Readable past name s) {p : ℕ}
    (hp : search past name s=some p) : p∈items s.symhash ∧ s.name p=name := by
  have hmem := HashChains.mem_items.mpr ⟨_,mem_of_find?_eq_some hp⟩
  have hsame := find?_some hp
  exact ⟨hmem,(sameName_iff fun hname => hread hname p hmem).mp hsame⟩

theorem Inv.search_none (h : Inv s es) (hread : Readable past name s)
    (hnone : search past name s=none) : ∀ p∈items s.symhash, s.name p≠name := by
  intro p hp hname
  have hchain := hname ▸ h.filed.mem_chain_iff.mpr hp
  have hsame := find?_eq_none.mp hnone p hchain
  exact hsame ((sameName_iff fun hempty => hread hempty p hp).mpr hname)

theorem Coherent.listed (h : Coherent s) : Listed s := ⟨h.nsyms,h.sorted⟩

theorem Inv.of_listed (h : Inv s es) {symsort : Order → Option (List ℕ)}
    (hlisted : Listed {s with symsort := symsort}) : Inv {s with symsort := symsort} es :=
  {hlisted with names := h.names, filed := h.filed, fresh := h.fresh, values := h.values}

theorem Listed.flushsort (h : Listed s) (type : Order) : Listed (flushsort type s) := by
  refine ⟨h.nsyms,fun type' l hl => ?_⟩
  change l∈update s.symsort type none type' at hl
  by_cases htype : type'=type
  · rw [htype,update_self] at hl
    cases hl
  · rw [update_of_ne htype] at hl
    exact ⟨(h.sorted type' l hl).perm,(h.sorted type' l hl).sorted⟩

theorem Inv.flushsort (h : Inv s es) (type : Order) : Inv (flushsort type s) es :=
  h.of_listed (h.listed.flushsort type)

section
variable (h : Listed s) (qsort : Sorter ℕ) (type : Order)
include h qsort type

theorem Listed.sort {syms : List ℕ} (hsyms : syms.Perm (items s.symhash)) :
    SortedList s type (qsort.sort (compar s type) (syms.take s.nsyms)++syms.drop s.nsyms) := by
  have hlen : syms.length ≤ s.nsyms := by rw [hsyms.length_eq,h.nsyms]
  rw [take_of_length_le hlen,drop_of_length_le hlen,append_nil]
  exact ⟨(qsort.perm _ _).trans hsyms,qsort.sorted _ _ (isOrderOn_compar s type _)⟩

theorem Listed.keepsort {syms : List ℕ} (hsyms : syms.Perm (items s.symhash)) :
    Listed (keepsort qsort type syms s).2 := by
  refine ⟨h.nsyms,fun type' l hl => ?_⟩
  change l∈update s.symsort type _ type' at hl
  have hsorted : SortedList s type' l := by
    by_cases htype : type'=type
    · subst htype
      rw [update_self,Option.mem_some_iff] at hl
      exact hl ▸ h.sort qsort type' hsyms
    · rw [update_of_ne htype] at hl
      exact h.sorted type' l hl
  exact ⟨hsorted.perm,hsorted.sorted⟩

theorem Listed.getsort (room : Bool) :
    Listed (getsort qsort type room s).2 := by
  unfold SymTable.getsort
  split
  · exact h
  · split
    · exact h
    · split
      · exact h.keepsort qsort type (List.Perm.refl _)
      · split
        · exact h
        · -- the other list is taken over; it has the same symbols
          rename_i syms hother
          exact (h.flushsort type.other).keepsort qsort type (h.sorted _ syms hother).perm
end

variable (qsort : Sorter ℕ)

theorem getsort_snd (type : Order) (room : Bool) (s : Symbols) : (getsort qsort type room s).2 =
      {s with symsort := (getsort qsort type room s).2.symsort} := by
  unfold SymTable.getsort
  repeat' split
  all_goals rfl

theorem Inv.getsort (h : Inv s es) (qsort : Sorter ℕ) (type : Order) (room : Bool) :
    Inv (getsort qsort type room s).2 es := by
  have hlisted := h.listed.getsort qsort type room
  rw [getsort_snd] at hlisted ⊢
  exact h.of_listed hlisted

theorem getsymbyvalue_snd (addr : BitVec 32) (room : Bool) (s : Symbols) :
    (getsymbyvalue qsort addr room s).2=(getsort qsort .numeric room s).2 := by
  unfold SymTable.getsymbyvalue
  split
  case isTrue h => rw [SymTable.getsort,if_pos h]
  case isFalse =>
    generalize SymTable.getsort qsort .numeric room s=r
    obtain ⟨_ | syms,t⟩ := r
    · rfl
    · dsimp only
      split <;> rfl

theorem Inv.redefine_same (h : Inv s es) {p : ℕ} (hp : p∈items s.symhash) :
    Inv s (.defined (s.name p) (s.sym p).value::es) where
  toCoherent := h.toCoherent
  filed := h.filed
  fresh := h.fresh
  values name v := by
    rw [latest]
    split
    · rename_i hname
      subst hname
      rw [Option.some_inj]
      constructor
      · exact fun hv => ⟨p,hp,rfl,hv⟩
      · rintro ⟨q,hq,hname,hv⟩
        rw [←hv,inj_on_of_nodup_map h.names hq hp hname]
    · exact h.values name v

def Symbols.setValue (s : Symbols) (p : ℕ) (value : BitVec 32) : Symbols :=
  {s with sym := update s.sym p {s.sym p with value := value}}

theorem sym_setValue (s : Symbols) (p : ℕ) (value : BitVec 32) (q : ℕ) :
    (s.setValue p value).sym q=⟨if q=p then value else (s.sym q).value,(s.sym q).name⟩ := by
  change update _ _ _ _=_
  by_cases hq : q=p
  · rw [hq,update_self,if_pos rfl]
  · rw [update_of_ne hq,if_neg hq]

theorem name_setValue (s : Symbols) (p : ℕ) (value : BitVec 32) :
    (s.setValue p value).name=s.name := by
  funext q
  rw [Symbols.name,sym_setValue,Symbols.name]

theorem Listed.redefine (h : Listed s) (p : ℕ) (value : BitVec 32) :
    Listed (SymTable.flushsort .numeric (s.setValue p value)) := by
  have hname := name_setValue s p value
  have hcmp : namecmp (s.setValue p value)=namecmp s := by
    funext q r
    exact congrArg₂ (fun a b => strcmp a.bytes b.bytes) (congrFun hname q) (congrFun hname r)
  refine ⟨h.nsyms,fun type l hl => ?_⟩
  cases type with
  | alpha =>
    have hold := h.sorted .alpha l hl
    refine ⟨hold.perm,?_⟩
    change l.Pairwise fun q r => namecmp (s.setValue p value) q r≤0
    rw [hcmp]
    exact hold.sorted
  | numeric => cases hl

theorem Inv.redefine (h : Inv s es) {p : ℕ} (hp : p∈items s.symhash) (value : BitVec 32) :
    Inv (SymTable.flushsort .numeric (s.setValue p value)) (.defined (s.name p) value::es) := by
  have hname := name_setValue s p value
  refine {h.listed.redefine p value with names := ?_, filed := ?_, fresh := h.fresh, values := ?_}
  · change Distinct (s.setValue p value).name (items s.symhash)
    rw [hname]
    exact h.names
  · change Filed (fun q => chain ((s.setValue p value).name q)) s.symhash
    rw [hname]
    exact h.filed
  · intro name v
    change _ ↔ ∃ q∈items s.symhash, (s.setValue p value).name q=name ∧
      ((s.setValue p value).sym q).value=v
    rw [latest,hname]
    have hsym (q : ℕ) : ((s.setValue p value).sym q).value =
        if q=p then value else (s.sym q).value := by rw [sym_setValue]
    split
    · rename_i heq
      subst heq
      rw [Option.some_inj]
      constructor
      · rintro rfl
        exact ⟨p,hp,rfl,by rw [hsym,if_pos rfl]⟩
      · rintro ⟨q,hq,hqname,hv⟩
        rwa [hsym,if_pos (inj_on_of_nodup_map h.names hq hp hqname)] at hv
    · rename_i hne
      rw [h.values]
      refine exists_congr fun q => and_congr_right fun hq => and_congr_right fun hqname => ?_
      have hqp : q≠p := by
        rintro rfl
        exact hne hqname
      rw [hsym,if_neg hqp]

def Symbols.add (s : Symbols) (name : Name) (value : BitVec 32) : Symbols :=
  { flushsort .numeric (flushsort .alpha s) with
    sym := update s.sym s.blocks ⟨value,name⟩
    symhash := push s.symhash (chain name) s.blocks
    blocks := s.blocks+1
    maxsymlen := max s.maxsymlen name.bytes.length
    nsyms := s.nsyms+1 }

theorem symsort_flushed (s : Symbols) (type : Order) :
    (flushsort .numeric (flushsort .alpha s)).symsort type=none := by
  cases type <;> rfl

theorem Listed.add (h : Listed s) (name : Name) (value : BitVec 32) :
    Listed (s.add name value) := by
  refine ⟨?_,fun type l hl => ?_⟩
  · have hperm : (items (s.add name value).symhash).Perm (s.blocks::items s.symhash) :=
      HashChains.items_push ..
    rw [hperm.length_eq,length_cons,←h.nsyms]
    rfl
  · rw [Symbols.add,symsort_flushed] at hl
    cases hl

theorem Inv.add (h : Inv s es) (hnew : ∀ p∈items s.symhash, s.name p≠name)
    (value : BitVec 32) : Inv (s.add name value) (.defined name value::es) := by
  have hperm : (items (s.add name value).symhash).Perm (s.blocks::items s.symhash) :=
    HashChains.items_push ..
  have hself : (s.add name value).sym s.blocks=⟨value,name⟩ := update_self ..
  have hsym : ∀ p∈items s.symhash, (s.add name value).sym p=s.sym p := fun p hp =>
    update_of_ne (h.fresh p hp).ne ..
  have hname : ∀ p∈items s.symhash, (s.add name value).name p=s.name p := fun p hp =>
    congrArg Sym.name (hsym p hp)
  have hnameself : (s.add name value).name s.blocks=name := congrArg Sym.name hself
  refine {h.listed.add name value with names := ?_, filed := ?_, fresh := ?_, values := ?_}
  · refine ((hperm.map _).nodup_iff).mpr ?_
    rw [map_cons,nodup_cons,map_congr_left hname,hnameself]
    refine ⟨fun hmem => ?_,h.names⟩
    obtain ⟨p,hp,hpname⟩ := mem_map.mp hmem
    exact hnew p hp hpname
  · refine (h.filed.congr fun p hp => ?_).push ?_
    · rw [hname p hp]
    · rw [hnameself]
  · intro p hp
    change p<s.blocks+1
    rcases mem_cons.mp (hperm.mem_iff.mp hp) with rfl | hp
    · exact Nat.lt_succ_self _
    · exact (h.fresh p hp).trans (Nat.lt_succ_self _)
  · intro n v
    have hsplit : (∃ p∈items (s.add name value).symhash, (s.add name value).name p=n ∧
        ((s.add name value).sym p).value=v) ↔
        (name=n ∧ value=v) ∨ latest es n=some v := by
      rw [h.values]
      constructor
      · rintro ⟨p,hp,hpname,hv⟩
        rcases mem_cons.mp (hperm.mem_iff.mp hp) with rfl | hp
        · rw [hself] at hv
          exact .inl ⟨hnameself.symm.trans hpname,hv⟩
        · rw [hsym p hp] at hv
          exact .inr ⟨p,hp,(hname p hp).symm.trans hpname,hv⟩
      · rintro (⟨rfl,rfl⟩ | ⟨p,hp,hpname,hv⟩)
        · exact ⟨s.blocks,hperm.mem_iff.mpr mem_cons_self,hnameself,by rw [hself]⟩
        · exact ⟨p,hperm.mem_iff.mpr (mem_cons_of_mem _ hp),(hname p hp).trans hpname,
            by rw [hsym p hp,hv]⟩
    rw [hsplit,latest]
    split
    · rename_i heq
      subst heq
      rw [Option.some_inj]
      constructor
      · exact fun hv => .inl ⟨rfl,hv⟩
      · rintro (⟨-,hv⟩ | hold)
        · exact hv
        · obtain ⟨p,hp,hpname,-⟩ := (h.values name v).mp hold
          exact absurd hpname (hnew p hp)
    · rename_i hne
      exact ⟨.inr,fun hor => hor.resolve_left fun hboth => hne hboth.1⟩

theorem Inv.newsym (h : Inv s es) (hread : Readable past name s) (room : Bool)
    (value : BitVec 32) :
    let r := newsym past room name value s
    Inv r.2 ((if r.1 then some (Event.defined name value) else none).toList++es) := by
  unfold SymTable.newsym
  cases hsearch : search past name s with
  | some p =>
    obtain ⟨hp,rfl⟩ := search_some hread hsearch
    dsimp only
    split
    · exact h.redefine hp value
    · rename_i hsame
      rw [←not_not.mp hsame]
      exact h.redefine_same hp
  | none =>
    dsimp only
    split
    · exact h.add (h.search_none hread hsearch) value
    · exact (h.flushsort .alpha).flushsort .numeric

theorem Inv.sym2adr (h : Inv s es) (hread : Readable past name s) :
    sym2adr past name s = match latest es name with
      | some v => (true,v)
      | none => (false,0) := by
  have hfound : getsymbyname past name s=search past name s := by
    unfold getsymbyname
    split
    · rename_i hzero
      have hempty := length_eq_zero_iff.mp (h.nsyms ▸ hzero)
      cases hsearch : search past name s with
      | none => rfl
      | some p =>
        have hmem := (search_some hread hsearch).1
        rw [hempty] at hmem
        cases hmem
    · rfl
  unfold SymTable.sym2adr
  rw [hfound]
  cases hsearch : search past name s with
  | some p =>
    obtain ⟨hp,hname⟩ := search_some hread hsearch
    rw [(h.values name _).mpr ⟨p,hp,hname,rfl⟩]
  | none =>
    have hnone : latest es name=none := by
      rw [Option.eq_none_iff_forall_ne_some]
      intro v hv
      obtain ⟨p,hp,hname,-⟩ := (h.values name v).mp hv
      exact h.search_none hread hsearch p hp hname
    rw [hnone]

def Call.Readable (s : Symbols) : Call → Prop
  | .newsym past _ name _ => SymTable.Readable past name s
  | _ => True

theorem Inv.step (h : Inv s es) (qsort : Sorter ℕ) {c : Call} (hc : c.Readable s) :
    Inv (step qsort s c).1 ((step qsort s c).2.toList++es) := by
  cases c with
  | newsym past room name value => exact h.newsym hc room value
  | clrsyms => exact inv_empty HashChains.items_empty rfl (symsort_flushed _) fun _ => rfl
  | sym2adr past name => exact h
  | getsymbyvalue addr room =>
    change Inv (getsymbyvalue qsort addr room s).2 es
    rw [getsymbyvalue_snd]
    exact h.getsort qsort .numeric room
  | firstsym sort room => exact h.getsort qsort sort room

def AllReadable (qsort : Sorter ℕ) (cs : List Call) : Prop :=
  ∀ before c after, cs=before++c::after → c.Readable (run qsort before).1

theorem run_concat (cs : List Call) (c : Call) : run qsort (cs++[c]) =
      ((step qsort (run qsort cs).1 c).1,
        (step qsort (run qsort cs).1 c).2.toList++(run qsort cs).2) := by
  unfold run
  rw [foldl_append]
  rfl

theorem run_inv (cs : List Call) (h : AllReadable qsort cs) :
    Inv (run qsort cs).1 (run qsort cs).2 := by
  induction cs using reverseRecOn with
  | nil => exact inv_empty HashChains.items_empty rfl (fun _ => rfl) fun _ => rfl
  | append_singleton cs c ih =>
    have hbefore : AllReadable qsort cs := fun before d after hcs =>
      h before d (after++[c]) (by rw [hcs,append_assoc,cons_append])
    rw [run_concat]
    exact (ih hbefore).step qsort (h cs c [] rfl)

/-- After every run with comparable names the table is coherent, and each name has its last value.
-/
theorem run_coherent (qsort : Sorter ℕ) (cs : List Call) (h : AllReadable qsort cs) :
    Coherent (run qsort cs).1 ∧ ∀ past name, Readable past name (run qsort cs).1 →
        sym2adr past name (run qsort cs).1 = match latest (run qsort cs).2 name with
          | some v => (true,v)
          | none => (false,0) :=
  ⟨(run_inv qsort cs h).toCoherent, fun _ _ hread => (run_inv qsort cs h).sym2adr hread⟩

theorem allReadable_of_nonempty {cs : List Call}
    (h : ∀ past room name value, Call.newsym past room name value∈cs → name.bytes≠[]) :
    AllReadable qsort cs := by
  rintro before c after rfl
  cases c with
  | newsym past room name value =>
    intro hempty
    exact absurd hempty (h past room name value (by simp))
  | _ => exact trivial

def emptyName : Name := ⟨[], by simp⟩
def nameA : Name := ⟨[97], by simp⟩
def zeroPast : Past := ⟨[], fun _ => []⟩

theorem run_coherent_twice :
    let cs := [Call.newsym zeroPast true nameA 1,Call.newsym zeroPast true nameA 2]
    Coherent (run CompareSort.insertion cs).1 ∧ sym2adr zeroPast nameA (run CompareSort.insertion cs).1=(true,2) := by
  have hread : AllReadable CompareSort.insertion
      [Call.newsym zeroPast true nameA 1,Call.newsym zeroPast true nameA 2] := by
    refine allReadable_of_nonempty CompareSort.insertion fun past room name value hmem => ?_
    simp only [mem_cons,not_mem_nil,or_false,Call.newsym.injEq] at hmem
    rcases hmem with ⟨-,-,rfl,-⟩ | ⟨-,-,rfl,-⟩ <;> exact cons_ne_nil _ _
  obtain ⟨hcoherent,hlookup⟩ := run_coherent CompareSort.insertion _ hread
  exact ⟨hcoherent,hlookup zeroPast nameA fun hempty => absurd hempty (cons_ne_nil _ _)⟩

theorem run_duplicates :
    let past : Past := ⟨[1], fun _ => [2]⟩
    ¬ Coherent (run CompareSort.insertion
      [Call.newsym past true emptyName 1,Call.newsym past true emptyName 2]).1 := by
  intro past h
  have hnames := h.names
  revert hnames
  unfold Distinct
  decide +kernel

end Pmon.SymTable
