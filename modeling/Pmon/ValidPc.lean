import Pmon.SymTable

/-!
# Valid program counters

`is_validpc` keeps the ranges of `$validpc` until `flush_validpc`, which `newsym` does not call.
Text and words are not counted before they are copied. The evaluation of an expression is a
parameter.
-/

namespace Pmon

/-- The length of a command line. -/
def LINESZ : ℕ := 200

end Pmon

namespace Pmon.ValidPc
open List
open SymTable (Symbols Name Past)

def NVALIDPC : ℕ := 10
def text (s : String) : List UInt8 := s.toList.map fun c => c.toNat.toUInt8
def MAX_AC : ℕ := 100
def blank (b : UInt8) : Bool := b≤32 ∨ 128≤b

def argvizeLoop : ℕ → List UInt8 → List (List UInt8)
  | 0, _ => []
  | n+1, s =>
    match s.dropWhile blank with
    | [] => []
    | c::s =>
      if c=39 ∨ c=34 then
        -- a quoted word, with the character behind its quote
        s.takeWhile (· ≠ c)::argvizeLoop n ((s.dropWhile (· ≠ c)).drop 2)
      else (c::s.takeWhile (!blank ·))::argvizeLoop n ((s.dropWhile (!blank ·)).drop 1)

def argvize (s : List UInt8) : List (List UInt8) := argvizeLoop MAX_AC s
abbrev Ranges := List (BitVec 32 × BitVec 32)

def ranges (getRsa : List UInt8 → Option (BitVec 32)) : List (List UInt8) → Ranges
  | lo::hi::av =>
    (match getRsa lo,getRsa hi with
      | some x,some y => [(x,y)]
      | _,_ => [])++ranges getRsa av
  | _ => []

def InRanges (rs : Ranges) (adr : BitVec 32) : Prop := ∃ r∈rs, r.1≤adr ∧ adr<r.2
def InSegment (adr : BitVec 32) : Prop := adr &&& 3 = 0 ∧ 0x80000000 ≤ adr ∧ adr < 0xc0000000

instance : DecidablePred InSegment := fun adr => by unfold InSegment; infer_instance

structure State where
  value : List UInt8
  syms : Symbols
  validpc : Option Ranges

inductive Op where
  | setValidpc (value : List UInt8)
  | newsym (past : Past) (room : Bool) (name : Name) (value : BitVec 32)
  | clrsyms
  | isValidpc (adr : BitVec 32)

section
variable (getRsa : Symbols → List UInt8 → Option (BitVec 32))

def State.current (s : State) : Ranges := ranges (getRsa s.syms) (argvize s.value)

def isValidpc (adr : BitVec 32) (s : State) : Bool × State :=
  if InSegment adr then
    let rs := s.validpc.getD (s.current getRsa)
    (rs.any fun r => r.1≤adr ∧ adr<r.2,{s with validpc := some rs})
  else (false,s)

def step (s : State) : Op → State
  | .setValidpc value =>
    if (argvize value).length%2≠0 then s else {s with value := value, validpc := none}
  | .newsym past room name value =>
    {s with syms := (SymTable.newsym past room name value s.syms).2}
  | .clrsyms => {s with syms := SymTable.clrsyms s.syms, validpc := none}
  | .isValidpc adr => (isValidpc getRsa adr s).2

def run (ops : List Op) : State :=
  ops.foldl (step getRsa) ⟨text "_ftext etext",Symbols.start,none⟩

def Op.Flushes : Op → Prop
  | .setValidpc value => (argvize value).length%2=0
  | .clrsyms => True
  | _ => False

def ComputedAfter (ops pre : List Op) : Prop :=
  ∃ adr post, ops=pre ++ .isValidpc adr::post ∧ InSegment adr ∧
    (run getRsa pre).validpc=none ∧ ∀ op∈post, ¬ op.Flushes

variable {getRsa} {s : State} {rs : Ranges} {ops pre : List Op} {op : Op} {adr : BitVec 32}

theorem run_concat (ops : List Op) (op : Op) :
    run getRsa (ops++[op])=step getRsa (run getRsa ops) op := by
  rw [run,foldl_append]
  rfl

theorem isValidpc_of_mem (hadr : InSegment adr) :
    (isValidpc getRsa adr s).1=true ↔ InRanges (s.validpc.getD (s.current getRsa)) adr := by
  simp [isValidpc,hadr,InRanges]

theorem step_validpc (hop : ¬ op.Flushes) (h : s.validpc=some rs) :
    (step getRsa s op).validpc=some rs := by
  cases op with
  | setValidpc value => exact (congrArg State.validpc (if_pos hop)).trans h
  | newsym past room name value => exact h
  | clrsyms => exact absurd trivial hop
  | isValidpc adr =>
    rw [step,isValidpc]
    split
    · rw [h]
      rfl
    · exact h

theorem step_flushes (hop : op.Flushes) : (step getRsa s op).validpc=none := by
  cases op with
  | setValidpc value => exact congrArg State.validpc (if_neg (not_not.2 hop))
  | clrsyms => rfl
  | newsym past room name value => exact hop.elim
  | isValidpc adr => exact hop.elim

theorem step_computes (h : s.validpc=none) (hstep : (step getRsa s op).validpc=some rs) :
    ∃ adr, op = .isValidpc adr ∧ InSegment adr ∧ rs=s.current getRsa := by
  cases op with
  | setValidpc value =>
    rw [step] at hstep
    split at hstep
    · exact absurd (h.symm.trans hstep) nofun
    · cases hstep
  | newsym past room name value => exact absurd (h.symm.trans hstep) nofun
  | clrsyms => cases hstep
  | isValidpc adr =>
    rw [step,isValidpc] at hstep
    split at hstep
    case isTrue hadr =>
      rw [h] at hstep
      exact ⟨adr,rfl,hadr,(Option.some.inj hstep).symm⟩
    case isFalse => exact absurd (h.symm.trans hstep) nofun

theorem ComputedAfter.validpc_eq (h : ComputedAfter getRsa ops pre) :
    (run getRsa ops).validpc=some ((run getRsa pre).current getRsa) := by
  obtain ⟨adr,post,rfl,hadr,hnone,hpost⟩ := h
  induction post using reverseRecOn with
  | nil =>
    rw [run_concat,step,isValidpc,if_pos hadr,hnone]
    rfl
  | append_singleton post op ih =>
    rw [←cons_append,←append_assoc,run_concat]
    rw [forall_mem_append,forall_mem_singleton] at hpost
    exact step_validpc hpost.2 (ih hpost.1)

theorem exists_computedAfter (h : (run getRsa ops).validpc=some rs) :
    ∃ pre, ComputedAfter getRsa ops pre := by
  induction ops using reverseRecOn generalizing rs with
  | nil => cases h
  | append_singleton ops op ih =>
    rw [run_concat] at h
    cases hbefore : (run getRsa ops).validpc with
    | none =>
      obtain ⟨adr,rfl,hadr,-⟩ := step_computes hbefore h
      exact ⟨ops,adr,[],rfl,hadr,hbefore,by simp⟩
    | some rs' =>
      obtain ⟨pre,adr,post,hops,hadr,hnone,hpost⟩ := ih hbefore
      have hop : ¬ op.Flushes := fun hop => by
        rw [step_flushes hop] at h
        cases h
      refine ⟨pre,adr,post++[op],by rw [hops]; simp,hadr,hnone,?_⟩
      rw [forall_mem_append,forall_mem_singleton]
      exact ⟨hpost,hop⟩

/-- The answer is right exactly when the symbols at the first query since the last flush give the
same. -/
theorem isValidpc_iff (getRsa : Symbols → List UInt8 → Option (BitVec 32)) (ops : List Op)
    (hadr : InSegment adr) : ((isValidpc getRsa adr (run getRsa ops)).1=true ↔
        InRanges ((run getRsa ops).current getRsa) adr) ↔ ∀ pre, ComputedAfter getRsa ops pre →
        (InRanges ((run getRsa pre).current getRsa) adr ↔
          InRanges ((run getRsa ops).current getRsa) adr) := by
  rw [isValidpc_of_mem hadr]
  cases h : (run getRsa ops).validpc with
  | none =>
    refine iff_of_true Iff.rfl fun pre hpre => ?_
    rw [hpre.validpc_eq] at h
    cases h
  | some rs =>
    have heq : ∀ pre, ComputedAfter getRsa ops pre → (run getRsa pre).current getRsa=rs :=
      fun pre hpre => Option.some.inj (hpre.validpc_eq.symm.trans h)
    constructor
    · intro hright pre hpre
      rw [heq pre hpre]
      exact hright
    · intro hall
      obtain ⟨pre,hpre⟩ := exists_computedAfter h
      have hright := hall pre hpre
      rw [heq pre hpre] at hright
      exact hright

def symbolOf (s : Symbols) (word : List UInt8) : Option (BitVec 32) :=
  if h : ∀ b∈word, b≠0 then
    match SymTable.sym2adr SymTable.zeroPast ⟨word,h⟩ s with
    | (true,v) => some v
    | (false,_) => none
  else none

def etext : Name := ⟨text "etext", by decide +kernel⟩
def ftext : Name := ⟨text "_ftext", by decide +kernel⟩

def loaded : List Op :=
  [.newsym SymTable.zeroPast true ftext 0x80001000,.newsym SymTable.zeroPast true etext 0x80002000]

theorem isValidpc_cleared :
    let ops := [.isValidpc 0x80001800,.clrsyms]++loaded
    (isValidpc symbolOf 0x80001800 (run symbolOf ops)).1=true ↔
      InRanges ((run symbolOf ops).current symbolOf) 0x80001800 := by
  refine (isValidpc_iff symbolOf _ (by decide)).2 fun pre hpre => ?_
  have hnone := hpre.validpc_eq
  rw [show (run symbolOf ([.isValidpc 0x80001800,.clrsyms]++loaded)).validpc=none from rfl]
    at hnone
  cases hnone

theorem not_isValidpc_loaded :
    let ops := .isValidpc 0x80001800::loaded
    (isValidpc symbolOf 0x80001800 (run symbolOf ops)).1=false ∧
      (run symbolOf ops).current symbolOf=[(0x80001000,0x80002000)] := by
  decide +kernel
end

def TMPSZ : ℕ := 80

def splitInto (value : List UInt8) : Option (List (List UInt8)) :=
  if TMPSZ<value.length+1 then none
  else if NVALIDPC<(argvize value).length then none
  else some (argvize value)

def chgValidpc (value : List UInt8) : Option Bool :=
  (splitInto value).map fun av => av.length%2=0

section
variable (getRsa : List UInt8 → Option (BitVec 32))

/-- The loop of `compute_validpc`; a word that is not stored or an entry beyond the table is an
error. -/
def computeLoop : List (List UInt8) → Ranges → Option Ranges
  | [], rs => some rs
  | [_], _ => none
  | lo::hi::av, rs =>
    if NVALIDPC≤2*rs.length+1 then none
    else
      match getRsa lo, getRsa hi with
      | some x, some y => computeLoop av (rs++[(x,y)])
      | _, _ => computeLoop av rs

def computeValidpc (value : List UInt8) : Option Ranges :=
  (splitInto value).bind fun av => computeLoop getRsa av []

theorem computeLoop_eq (av : List (List UInt8)) (rs : Ranges) (heven : av.length%2=0)
    (hroom : 2*rs.length+av.length≤NVALIDPC) :
    computeLoop getRsa av rs=some (rs++ranges getRsa av) := by
  induction av using ranges.induct generalizing rs with
  | case1 lo hi av ih =>
    rw [length_cons,length_cons] at heven hroom
    rw [computeLoop,if_neg (by omega),ranges]
    split
    case h_1 x y hx hy =>
      rw [ih _ (by omega) (by rw [length_append,length_singleton]; omega),append_assoc]
    case h_2 => rw [ih rs (by omega) (by omega),nil_append]
  | case2 av hshort =>
    match av, hshort with
    | [], _ => exact congrArg some (append_nil rs).symm
    | [_], _ => cases heven
    | lo::hi::av, hshort => exact absurd rfl (hshort lo hi av)

/-- The arrays hold a value exactly when it has fewer than 80 characters and at most ten words. -/
theorem chgValidpc_fits_iff (value : List UInt8) : ((chgValidpc value).isSome ∧
        (chgValidpc value=some true → ∀ getRsa, (computeValidpc getRsa value).isSome)) ↔
      value.length<TMPSZ ∧ (argvize value).length≤NVALIDPC := by
  unfold chgValidpc computeValidpc splitInto
  split_ifs with hlen hwords
  · exact iff_of_false (fun h => nomatch h.1) fun h => by omega
  · exact iff_of_false (fun h => nomatch h.1) fun h => by omega
  · refine iff_of_true ⟨rfl, fun haccepted getRsa => ?_⟩ ⟨by omega, by omega⟩
    have heven : (argvize value).length%2=0 := by simpa using haccepted
    rw [Option.bind_some,computeLoop_eq getRsa _ [] heven (by simpa using hwords)]
    rfl

theorem chgValidpc_overruns : chgValidpc (List.replicate 80 97)=none ∧
      chgValidpc (text "0 1 2 3 4 5 6 7 8 9 a b")=none := by
  decide +kernel
end
end Pmon.ValidPc
