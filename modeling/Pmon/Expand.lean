import Mathlib.Data.List.TakeWhile
import Pmon.ValidPc

/-!
# Variables in a command line

`expand` copies a line to a buffer of fixed size and replaces the variables. It goes on at the second
sign of `$$`, and does not find a missing brace.
-/

namespace Pmon.Expand
open List
open ValidPc (text)

def ROOM : ℕ := 207

def alnum (b : UInt8) : Bool :=
  (48≤b ∧ b≤57) ∨ (65≤b ∧ b≤90) ∨ (97≤b ∧ b≤122)

inductive Result where
  | zero
  | line (l : List UInt8)
  | outside
  deriving DecidableEq

def variableAt (ip : List UInt8) : List UInt8 × Option (List UInt8) :=
  if ip.head?=some 123 then
    (ip.tail.takeWhile (· ≠ 125),((ip.tail.dropWhile (· ≠ 125)).tail?))
  else (ip.takeWhile alnum,some (ip.dropWhile alnum))

section
variable (getenv : List UInt8 → Option (List UInt8))

def expandLoop : ℕ → Option (List UInt8) → List UInt8 → Result
  | _, none, _ => .outside
  | _, some [], op => .line op
  | 0, some (_::_), _ => .zero
  | n+1, some (c::ip), op =>
    if ROOM≤op.length then .zero
    else if c≠36 then expandLoop n (some ip) (op++[c])
    else if ip.head?=some 36 then expandLoop n (some ip) (op++[36])
    else
      match getenv (variableAt ip).1 with
      | none => .zero
      | some v =>
        if ROOM≤op.length+v.length then .zero else expandLoop n (variableAt ip).2 (op++v)

def expand (line : List UInt8) : Result :=
  if 36∈line then expandLoop getenv line.length (some line) [] else .line line

def reference : ℕ → List UInt8 → Option (List UInt8)
  | _, [] => some []
  | 0, _ => none
  | n+1, c::s =>
    if c≠36 then (reference n s).map (c :: ·)
    else if s.head?=some 36 then (reference n s.tail).map (36 :: ·)
    else (variableAt s).2.bind fun rest =>
      (getenv (variableAt s).1).bind fun v => (reference n rest).map (v ++ ·)

def finish : Option (List UInt8) → Result
  | none => .zero
  | some l => if l.length≤ROOM then .line l else .zero

/-- What the line stands for; without a dollar sign it is not copied. -/
def result (line : List UInt8) : Result :=
  if 36∈line then finish (reference getenv line.length line) else .line line

/-- A character, a variable, or the beginning of one without a closing brace. -/
inductive Piece where
  | char (c : UInt8)
  | value (name : List UInt8)
  | unclosed (name : List UInt8)

/-- The line in the pieces of the code: the second sign of `$$` begins a variable. -/
def pieces : ℕ → List UInt8 → List Piece
  | _, [] => []
  | 0, _ => []
  | n+1, c::s =>
    if c≠36 then .char c::pieces n s
    else if s.head?=some 36 then .char 36::pieces n s
    else
      match (variableAt s).2 with
      | some rest => .value (variableAt s).1::pieces n rest
      | none => [.unclosed (variableAt s).1]

/-- The text of the pieces, if all their variables are defined. -/
def meaning : List Piece → Option (List UInt8)
  | [] => some []
  | .char c::ps => (meaning ps).map (c :: ·)
  | .value name::ps => (getenv name).bind fun v => (meaning ps).map (v ++ ·)
  | .unclosed _::_ => none

/-- A text that ends with a character may fill the buffer. -/
def EndsInChar (ps : List Piece) : Prop := ∃ c, ps.getLast?=some (.char c)

/-- The pieces have the text `l`, and the buffer has room for it. -/
def Accepted (ps : List Piece) (l : List UInt8) : Prop :=
  meaning getenv ps=some l ∧ (l.length<ROOM ∨ l.length=ROOM ∧ EndsInChar ps)

/-- The pieces end in an unclosed one, whose name is a variable that still has room. -/
def RunsOn (ps : List Piece) (op : ℕ) : Prop :=
  ∃ front name l v, ps=front++[.unclosed name] ∧ meaning getenv front=some l ∧
    getenv name=some v ∧ op+l.length+v.length<ROOM

variable {getenv} {line s op r : List UInt8} {n : ℕ} {ps : List Piece}

theorem EndsInChar.meaning_ne_nil (h : EndsInChar ps) : meaning getenv ps≠some [] := by
  obtain ⟨c,hc⟩ := h
  obtain ⟨front,rfl⟩ := getLast?_eq_some_iff.mp hc
  induction front with
  | nil => simp [meaning]
  | cons q front ih =>
    have hrest := ih (by simp)
    cases q with
    | char d => simp [meaning]
    | unclosed name => simp [meaning]
    | value name =>
      rw [cons_append,meaning]
      cases getenv name with
      | none => simp
      | some v =>
        rw [Option.bind_some]
        intro h
        obtain ⟨l,hl,hv⟩ := Option.map_eq_some_iff.mp h
        rw [(append_eq_nil_iff.mp hv).2] at hl
        exact hrest hl

theorem endsInChar_char {c : UInt8} : EndsInChar (.char c::ps) ↔ ps=[] ∨ EndsInChar ps := by
  cases ps with
  | nil => simp [EndsInChar]
  | cons q ps => simp [EndsInChar,getLast?_cons_cons]

theorem endsInChar_value {name : List UInt8} (h : EndsInChar (.value name::ps)) :
    EndsInChar ps := by
  cases ps with
  | nil => simp [EndsInChar] at h
  | cons q ps => simpa [EndsInChar,getLast?_cons_cons] using h

section
variable (getenv)

/-- The text of the pieces behind `op` is `r`, and the buffer has room for it. -/
def Taken (op : List UInt8) (ps : List Piece) (r : List UInt8) : Prop :=
  ∃ l, meaning getenv ps=some l ∧ r=op++l ∧
    (r.length<ROOM ∨ r.length=ROOM ∧ (ps=[] ∨ EndsInChar ps))
end

theorem taken_nil (hop : op.length≤ROOM) : Taken getenv op [] r ↔ r=op := by
  constructor
  · rintro ⟨l,hl,rfl,-⟩
    obtain rfl := Option.some.inj hl
    exact append_nil op
  · rintro rfl
    exact ⟨[],rfl,(append_nil r).symm,hop.lt_or_eq.imp_right fun h => ⟨h,.inl rfl⟩⟩

theorem taken_char (c : UInt8) :
    Taken getenv op (.char c::ps) r ↔ Taken getenv (op++[c]) ps r := by
  simp only [Taken,meaning,Option.map_eq_some_iff,endsInChar_char,reduceCtorEq,false_or]
  constructor
  · rintro ⟨_,⟨l,hl,rfl⟩,rfl,hroom⟩
    exact ⟨l,hl,by simp,hroom⟩
  · rintro ⟨l,hl,rfl,hroom⟩
    exact ⟨c::l,⟨l,hl,rfl⟩,by simp,hroom⟩

theorem taken_value {name v : List UInt8} (hv : getenv name=some v)
    (hroom : op.length+v.length<ROOM) :
    Taken getenv op (.value name::ps) r ↔ Taken getenv (op++v) ps r := by
  simp only [Taken,meaning,hv,Option.bind_some,Option.map_eq_some_iff,reduceCtorEq,false_or]
  constructor
  · rintro ⟨_,⟨l,hl,rfl⟩,rfl,hfits⟩
    exact ⟨l,hl,by simp,hfits.imp_right fun h => ⟨h.1,.inr (endsInChar_value h.2)⟩⟩
  · rintro ⟨l,hl,rfl,hfits⟩
    refine ⟨v++l,⟨l,hl,rfl⟩,by simp,hfits.imp_right fun h => ⟨h.1,?_⟩⟩
    rcases ps with _ | ⟨q,ps⟩
    · obtain rfl := Option.some.inj hl
      simp only [length_append,length_nil] at h
      omega
    · simpa [EndsInChar,getLast?_cons_cons] using h.2

/-- Nothing is taken behind a full buffer. -/
theorem not_taken_full (hps : ps≠[]) (hop : ROOM≤op.length) : ¬Taken getenv op ps r := by
  rintro ⟨l,hl,rfl,hfits⟩
  rw [length_append] at hfits
  have hnil : l=[] := length_eq_zero_iff.mp (by omega)
  rcases hfits with hlt | ⟨-,hempty | hends⟩
  · omega
  · exact hps hempty
  · exact hends.meaning_ne_nil (hnil ▸ hl)

theorem not_taken_value {name v : List UInt8} (hv : getenv name=some v)
    (hroom : ROOM≤op.length+v.length) : ¬Taken getenv op (.value name::ps) r := by
  rintro ⟨_,hmeaning,rfl,hfits⟩
  rw [meaning,hv,Option.bind_some] at hmeaning
  obtain ⟨l,hl,rfl⟩ := Option.map_eq_some_iff.mp hmeaning
  rw [length_append,length_append] at hfits
  have hnil : l=[] := length_eq_zero_iff.mp (by omega)
  rcases hfits with hlt | ⟨-,hempty | hends⟩
  · omega
  · cases hempty
  · exact (endsInChar_value hends).meaning_ne_nil (hnil ▸ hl)

theorem not_taken_of_none (h : meaning getenv ps=none) : ¬Taken getenv op ps r := by
  rintro ⟨l,hl,-⟩
  rw [h] at hl
  cases hl

theorem runsOn_char {c : UInt8} {k : ℕ} : RunsOn getenv (.char c::ps) k ↔ RunsOn getenv ps (k+1) := by
  constructor
  · rintro ⟨front,name,l,v,hps,hl,hv,hroom⟩
    cases front with
    | nil => cases hps
    | cons q front =>
      obtain ⟨rfl,rfl⟩ := cons.inj hps
      obtain ⟨l',hl',rfl⟩ := Option.map_eq_some_iff.mp hl
      rw [length_cons] at hroom
      exact ⟨front,name,l',v,rfl,hl',hv,by omega⟩
  · rintro ⟨front,name,l,v,rfl,hl,hv,hroom⟩
    refine ⟨.char c::front,name,c::l,v,rfl,by rw [meaning,hl]; rfl,hv,?_⟩
    rw [length_cons]
    omega

theorem runsOn_value {name v : List UInt8} {k : ℕ} (hv : getenv name=some v) :
    RunsOn getenv (.value name::ps) k ↔ RunsOn getenv ps (k+v.length) := by
  constructor
  · rintro ⟨front,open_,l,w,hps,hl,hw,hroom⟩
    cases front with
    | nil => cases hps
    | cons q front =>
      obtain ⟨rfl,rfl⟩ := cons.inj hps
      rw [meaning,hv,Option.bind_some] at hl
      obtain ⟨l',hl',rfl⟩ := Option.map_eq_some_iff.mp hl
      rw [length_append] at hroom
      exact ⟨front,open_,l',w,rfl,hl',hw,by omega⟩
  · rintro ⟨front,open_,l,w,rfl,hl,hw,hroom⟩
    refine ⟨.value name::front,open_,v++l,w,rfl,by rw [meaning,hv,hl]; rfl,hw,?_⟩
    rw [length_append]
    omega

theorem runsOn_unclosed {name : List UInt8} {k : ℕ} :
    RunsOn getenv [.unclosed name] k ↔ ∃ v, getenv name=some v ∧ k+v.length<ROOM := by
  constructor
  · rintro ⟨front,open_,l,v,hps,hl,hv,hroom⟩
    cases front with
    | nil =>
      cases hps
      exact ⟨v,hv,by omega⟩
    | cons q front => simp at hps
  · rintro ⟨v,hv,hroom⟩
    exact ⟨[],name,[],v,rfl,rfl,hv,hroom⟩

theorem not_runsOn_undefined {name : List UInt8} {k : ℕ} (hv : getenv name=none) :
    ¬RunsOn getenv (.value name::ps) k := by
  rintro ⟨front,open_,l,w,hps,hl,hw,hroom⟩
  cases front with
  | nil => cases hps
  | cons q front =>
    obtain ⟨rfl,rfl⟩ := cons.inj hps
    rw [meaning,hv] at hl
    cases hl

theorem not_runsOn_full {k : ℕ} (hk : ROOM≤k) : ¬RunsOn getenv ps k := by
  rintro ⟨front,open_,l,w,hps,hl,hw,hroom⟩
  omega

theorem variableAt_suffix {rest : List UInt8} (h : (variableAt s).2=some rest) : rest <:+ s := by
  rw [variableAt] at h
  split at h
  · have hsuffix := dropWhile_suffix (l := s.tail) (· ≠ 125)
    dsimp only at h
    cases hd : s.tail.dropWhile (· ≠ 125) with
    | nil =>
      rw [hd] at h
      cases h
    | cons b t =>
      rw [hd] at h hsuffix
      obtain rfl := Option.some.inj h
      exact ((suffix_cons b t).trans hsuffix).trans (tail_suffix s)
  · obtain rfl := Option.some.inj h
    exact dropWhile_suffix alnum

theorem pieces_ne_nil (n : ℕ) (c : UInt8) (s : List UInt8) : pieces (n+1) (c::s)≠[] := by
  rw [pieces]
  repeat' split
  all_goals exact cons_ne_nil _ _

section
variable (getenv)

/-- The loop gives a line for the pieces that have a text and room for it, and runs past the end of
the line for those that end in an unclosed variable. -/
structure Agrees (x : Result) (op : List UInt8) (ps : List Piece) : Prop where
  line : ∀ r, x = .line r ↔ Taken getenv op ps r
  outside : x = .outside ↔ RunsOn getenv ps op.length
end

theorem agrees_nil (hop : op.length≤ROOM) : Agrees getenv (.line op) op [] := by
  refine ⟨fun r => ?_,iff_of_false Result.noConfusion fun h => ?_⟩
  · rw [taken_nil hop,Result.line.injEq,eq_comm]
  · obtain ⟨front,_,_,_,hps,-⟩ := h
    simp at hps

theorem agrees_zero (ht : ∀ r, ¬Taken getenv op ps r) (hr : ¬RunsOn getenv ps op.length) :
    Agrees getenv .zero op ps :=
  ⟨fun r => iff_of_false Result.noConfusion (ht r),iff_of_false Result.noConfusion hr⟩

theorem Agrees.char {x : Result} {c : UInt8} (h : Agrees getenv x (op++[c]) ps) :
    Agrees getenv x op (.char c::ps) :=
  ⟨fun r => (h.line r).trans (taken_char c).symm,by
    rw [h.outside,runsOn_char,length_append,length_singleton]⟩

theorem Agrees.value {x : Result} {name v : List UInt8} (h : Agrees getenv x (op++v) ps)
    (hv : getenv name=some v) (hroom : op.length+v.length<ROOM) :
    Agrees getenv x op (.value name::ps) :=
  ⟨fun r => (h.line r).trans (taken_value hv hroom).symm,by
    rw [h.outside,runsOn_value hv,length_append]⟩

theorem expandLoop_agrees (hn : s.length≤n) (hop : op.length≤ROOM) :
    Agrees getenv (expandLoop getenv n (some s) op) op (pieces n s) := by
  induction n generalizing s op with
  | zero =>
    obtain rfl := length_eq_zero_iff.mp (Nat.le_zero.mp hn)
    exact agrees_nil hop
  | succ n ih =>
    cases s with
    | nil => exact agrees_nil hop
    | cons c s =>
      have hn' : s.length≤n := Nat.le_of_succ_le_succ hn
      rw [expandLoop]
      by_cases hfull : ROOM≤op.length
      · rw [if_pos hfull]
        exact agrees_zero (fun r => not_taken_full (pieces_ne_nil n c s) hfull)
          (not_runsOn_full hfull)
      have hnext : ∀ b, (op++[b]).length≤ROOM := fun b => by
        rw [length_append,length_singleton]
        omega
      rw [if_neg hfull,pieces]
      by_cases hc : c≠36
      · rw [if_pos hc,if_pos hc]
        exact (ih hn' (hnext c)).char
      rw [if_neg hc,if_neg hc]
      by_cases hdollar : s.head?=some 36
      · rw [if_pos hdollar,if_pos hdollar]
        exact (ih hn' (hnext 36)).char
      rw [if_neg hdollar,if_neg hdollar]
      cases hrest : (variableAt s).2 with
      | none =>
        dsimp only
        cases hv : getenv (variableAt s).1 with
        | none =>
          refine agrees_zero (fun r => not_taken_of_none rfl) fun h => ?_
          obtain ⟨v,hsome,-⟩ := runsOn_unclosed.mp h
          rw [hv] at hsome
          cases hsome
        | some v =>
          dsimp only
          by_cases hlong : ROOM≤op.length+v.length
          · rw [if_pos hlong]
            refine agrees_zero (fun r => not_taken_of_none rfl) fun h => ?_
            obtain ⟨w,hsome,hroom⟩ := runsOn_unclosed.mp h
            obtain rfl := Option.some.inj (hv.symm.trans hsome)
            omega
          · rw [if_neg hlong]
            refine ⟨fun r => iff_of_false (by simp [expandLoop]) (not_taken_of_none rfl),
              iff_of_true (by simp [expandLoop]) (runsOn_unclosed.mpr ⟨v,hv,by omega⟩)⟩
      | some rest =>
        dsimp only
        cases hv : getenv (variableAt s).1 with
        | none =>
          exact agrees_zero (fun r => not_taken_of_none (by rw [meaning,hv]; rfl))
            (not_runsOn_undefined hv)
        | some v =>
          dsimp only
          by_cases hlong : ROOM≤op.length+v.length
          · rw [if_pos hlong]
            refine agrees_zero (fun r => not_taken_value hv hlong) fun h => ?_
            exact not_runsOn_full hlong ((runsOn_value hv).mp h)
          · rw [if_neg hlong]
            have hrest' := (variableAt_suffix hrest).length_le.trans hn'
            exact (ih hrest' (by rw [length_append]; omega)).value hv (by omega)

theorem finish_line_iff {o : Option (List UInt8)} :
    finish o = .line r ↔ o=some r ∧ r.length≤ROOM := by
  cases o with
  | none => simp [finish]
  | some l =>
    rw [finish]
    split_ifs with h
    · simp only [Result.line.injEq,Option.some.injEq]
      exact ⟨fun heq => ⟨heq,heq ▸ h⟩,fun heq => heq.1⟩
    · simp only [Option.some.injEq,false_iff]
      rintro ⟨rfl,hle⟩
      exact h hle

theorem finish_ne_outside (o : Option (List UInt8)) : finish o ≠ .outside := by
  cases o with
  | none => exact Result.noConfusion
  | some l =>
    rw [finish]
    split_ifs <;> exact Result.noConfusion

theorem eq_iff_of_ne_outside {x y : Result} (hy : y ≠ .outside) :
    x=y ↔ (∀ r, x = .line r ↔ y = .line r) ∧ x ≠ .outside := by
  constructor
  · rintro rfl
    exact ⟨fun _ => Iff.rfl,hy⟩
  · rintro ⟨hline,hx⟩
    cases x with
    | outside => exact absurd rfl hx
    | line r => exact ((hline r).mp rfl).symm
    | zero =>
      cases y with
      | outside => exact absurd rfl hy
      | zero => rfl
      | line r => exact (hline r).mpr rfl

theorem taken_start (hps : ps≠[]) : Taken getenv [] ps r ↔ Accepted getenv ps r := by
  constructor
  · rintro ⟨l,hl,rfl,hfits⟩
    exact ⟨hl,hfits.imp_right fun h => ⟨h.1,h.2.resolve_left hps⟩⟩
  · rintro ⟨hr,hfits⟩
    exact ⟨r,hr,rfl,hfits.imp_right fun h => ⟨h.1,.inr h.2⟩⟩

/-- Without `$$` the pieces have the text that they should have. -/
theorem meaning_pieces (hn : s.length≤n) (h : ¬[36,36] <:+: s) :
    meaning getenv (pieces n s)=reference getenv n s := by
  induction n generalizing s with
  | zero =>
    obtain rfl := length_eq_zero_iff.mp (Nat.le_zero.mp hn)
    rfl
  | succ n ih =>
    cases s with
    | nil => rfl
    | cons c s =>
      have hn' : s.length≤n := Nat.le_of_succ_le_succ hn
      have hfree : ∀ {t}, t <:+ s → ¬[36,36] <:+: t := fun ht hin =>
        h (hin.trans (ht.trans (suffix_cons c s)).isInfix)
      rw [pieces,reference]
      by_cases hc : c≠36
      · rw [if_pos hc,if_pos hc,meaning,ih hn' (hfree suffix_rfl)]
      have hdollar : s.head?≠some 36 := fun hhead => by
        obtain ⟨t,rfl⟩ := head?_eq_some_iff.mp hhead
        rw [not_not.mp hc] at h
        exact h ⟨[],t,rfl⟩
      rw [if_neg hc,if_neg hc,if_neg hdollar,if_neg hdollar]
      cases hrest : (variableAt s).2 with
      | none => rfl
      | some rest =>
        have hsuffix := variableAt_suffix hrest
        rw [Option.bind_some]
        dsimp only
        rw [meaning,ih (hsuffix.length_le.trans hn') (hfree hsuffix)]

/-- A line is expanded rightly exactly when it has no dollar sign, or its pieces, as the code takes
them, have the text that they should have, and it does not end in an unclosed variable that is
defined. -/
theorem expand_right_iff (getenv : List UInt8 → Option (List UInt8)) (line : List UInt8) :
    expand getenv line=result getenv line ↔
      36∈line → (∀ r, Accepted getenv (pieces line.length line) r ↔
          reference getenv line.length line=some r ∧ r.length≤ROOM) ∧
        ¬RunsOn getenv (pieces line.length line) 0 := by
  rw [expand,result]
  split_ifs with h
  · have hloop : Agrees getenv (expandLoop getenv line.length (some line) []) []
        (pieces line.length line) := expandLoop_agrees le_rfl (Nat.zero_le _)
    rw [eq_iff_of_ne_outside (finish_ne_outside _)]
    have hps : pieces line.length line≠[] := by
      obtain ⟨c,t,rfl⟩ := exists_cons_of_ne_nil (ne_nil_of_mem h)
      exact pieces_ne_nil _ c t
    simp only [h,true_imp_iff,hloop.line,ne_eq,hloop.outside,finish_line_iff,length_nil,
      taken_start hps]
  · simp [h]
end

def envA (name : List UInt8) : Option (List UInt8) :=
  if name=text "a" then some (text "xy") else none

theorem expand_dollars :
    expand envA (text "$$") = .zero ∧ reference envA 2 (text "$$")=some (text "$") ∧
      expand envA (text "$\x7ba") = .outside := by
  decide +kernel

end Pmon.Expand
