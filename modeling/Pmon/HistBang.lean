import Pmon.Btoa
import Pmon.History
import Pmon.ValidPc

/-!
# History substitution

`findbang` looks for an event such as `!42` outside of quotes, and passes the end of the line when a
quote is not closed.
-/

namespace Pmon.HistBang
open List
open SetEnv (isspace)
open ValidPc (text)
open History (Hist decmod)
variable {p : List UInt8}

inductive Bang where
  | zero
  | at (q : List UInt8)
  | outside
  deriving DecidableEq

def findbangLoop : ℕ → List UInt8 → Bang
  | _, [] => .zero
  | 0, _::_ => .zero
  | n+1, c::p =>
    if c=39 ∨ c=34 then
      match p.dropWhile (· ≠ c) with
      | [] => .outside
      | _::p => findbangLoop n p
    else if c=33 then .at (c::p)
    else findbangLoop n p

def findbang (p : List UInt8) : Bang := findbangLoop p.length p

def firstBang : Option UInt8 → List UInt8 → Option (List UInt8)
  | _, [] => none
  | some quote, c::p => firstBang (if c=quote then none else some quote) p
  | none, c::p =>
    if c=33 then some (c::p) else firstBang (if c=39 ∨ c=34 then some c else none) p

def openQuote : Option UInt8 → List UInt8 → Bool
  | quote, [] => quote.isSome
  | some quote, c::p => openQuote (if c=quote then none else some quote) p
  | none, c::p =>
    if c=33 then false else openQuote (if c=39 ∨ c=34 then some c else none) p

def Bang.ofOption : Option (List UInt8) → Bang
  | none => .zero
  | some q => .at q

theorem quoted_eq (quote : UInt8) (p : List UInt8) :
    match p.dropWhile (· ≠ quote) with
    | [] => openQuote (some quote) p=true ∧ firstBang (some quote) p=none
    | _::r => openQuote (some quote) p=openQuote none r ∧
        firstBang (some quote) p=firstBang none r := by
  induction p with
  | nil => exact ⟨rfl,rfl⟩
  | cons c p ih =>
    rw [dropWhile_cons]
    by_cases hc : c=quote
    · rw [if_neg (by simpa using hc),openQuote,firstBang,if_pos hc]
      exact ⟨rfl,rfl⟩
    · rw [if_pos (by simpa using hc),openQuote,firstBang,if_neg hc]
      exact ih

theorem findbangLoop_eq {n : ℕ} (hn : p.length≤n) :
    findbangLoop n p = if openQuote none p then .outside else .ofOption (firstBang none p) := by
  induction n generalizing p with
  | zero =>
    obtain rfl := length_eq_zero_iff.mp (Nat.le_zero.mp hn)
    rfl
  | succ n ih =>
    rcases p with _ | ⟨c,p⟩
    · rfl
    have hlen : p.length≤n := Nat.le_of_succ_le_succ hn
    rw [findbangLoop,openQuote,firstBang]
    by_cases hquote : c=39 ∨ c=34
    · have hbang : c≠33 := by rintro rfl; revert hquote; decide
      have hrest := quoted_eq c p
      rw [if_pos hquote,if_neg hbang,if_neg hbang,if_pos hquote]
      have hsuffix := (dropWhile_suffix (· ≠ c) (l := p)).length_le
      cases hd : p.dropWhile (· ≠ c) with
      | nil =>
        rw [hd] at hrest
        rw [hrest.1]
        rfl
      | cons b r =>
        rw [hd] at hrest hsuffix
        rw [length_cons] at hsuffix
        rw [hrest.1,hrest.2]
        exact ih (by omega)
    · rw [if_neg hquote,if_neg hquote]
      split
      · rfl
      · exact ih hlen

/-- `findbang` is right exactly without an open quote at the end. -/
theorem findbang_iff (p : List UInt8) :
    findbang p = .ofOption (firstBang none p) ↔ openQuote none p=false := by
  rw [findbang,findbangLoop_eq le_rfl]
  cases openQuote none p with
  | false => simp
  | true =>
    simp only [if_true,Bool.true_eq_false,iff_false]
    cases firstBang none p <;> exact Bang.noConfusion

theorem findbang_apostrophe : findbang (text "don't") = .outside := by decide +kernel

section

/-- The word that `getword` copies; none stands for an empty one. -/
def getword (q : List UInt8) : List UInt8 := ((SetEnv.getword q).map (·.1)).getD []

theorem getword_eq (q : List UInt8) :
    getword q=(q.dropWhile isspace).takeWhile (!isspace ·) := by
  unfold getword SetEnv.getword
  dsimp only
  split_ifs with h
  · rw [h]
    rfl
  · rfl

/-- A line, or a store past the end of `buf`. -/
inductive Cmd where
  | line (l : List UInt8)
  | overflow
  deriving DecidableEq

/-- The text that the history has for an event: `!` for the last command, a number or a beginning.
Of a null pointer `stristr` inserts nothing. -/
def recalled (s : Hist) (buf : List UInt8) : Option (List UInt8) :=
  if buf=[33] then some ((s.hist (decmod s.histi)).getD [])
  else
    match Btoa.atob 32 (buf.map fun c => Char.ofNat c.toNat) 10 with
    | some v => s.gethistn v.toInt
    | none => s.gethists buf

/-- Where `findbang` comes to when it passes the end of the line: `behind` are the strings that
stand in memory there. -/
def bangBehind : List (List UInt8) → Option (List UInt8)
  | [] => none
  | t::ts =>
    match findbang t with
    | .zero => none
    | .at q => some q
    | .outside => bangBehind ts

/-- `get_cmd` behind `get_line`. An event found behind the line is replaced there. -/
def getCmd (s : Hist) (p : List UInt8) (behind : List (List UInt8)) : Cmd :=
  match findbang p with
  | .zero => .line p
  | .at q =>
    if 20<(getword q).length+1 then .overflow
    else
      let buf := (getword q).tail
      if buf.all isspace then .line p
      else
        let front := p.take (p.length-q.length)
        let rest := q.drop (buf.length+1)
        match recalled s buf with
        | none => .line (front++rest)
        | some t => .line (front++(t++rest))
  | .outside =>
    match bangBehind behind with
    | none => .line p
    | some q => if 20<(getword q).length+1 then .overflow else .line p

/-- The first event outside of quotes, in the strings from the line on while quotes stay open. -/
def bangIn : List (List UInt8) → Option (List UInt8)
  | [] => none
  | t::ts => if openQuote none t then bangIn ts else firstBang none t

/-- The event of a line, with its bang. -/
def eventOf (p : List UInt8) : List UInt8 := ((firstBang none p).map getword).getD []

/-- How many characters stand in the place of an event; a bang alone stays. -/
def inserted (s : Hist) (w : List UInt8) : ℕ :=
  if w.length≤1 then w.length else ((recalled s w.tail).getD []).length

theorem findbang_eq (p : List UInt8) :
    findbang p = if openQuote none p then .outside else .ofOption (firstBang none p) :=
  findbangLoop_eq le_rfl

theorem bangBehind_eq (ts : List (List UInt8)) : bangBehind ts=bangIn ts := by
  induction ts with
  | nil => rfl
  | cons t ts ih =>
    rw [bangBehind,bangIn,findbang_eq]
    cases openQuote none t with
    | true => exact ih
    | false => cases firstBang none t <;> rfl

theorem firstBang_open {quote : Option UInt8} (h : openQuote quote p=true) :
    firstBang quote p=none := by
  induction p generalizing quote with
  | nil => cases quote <;> rfl
  | cons c p ih =>
    cases quote with
    | some quote => exact ih h
    | none =>
      rw [openQuote] at h
      rw [firstBang]
      split at h
      · cases h
      · rw [if_neg ‹_›]
        exact ih h

theorem firstBang_spec {quote : Option UInt8} {q : List UInt8}
    (h : firstBang quote p=some q) : q <:+ p ∧ q.head?=some 33 := by
  induction p generalizing quote with
  | nil => cases quote <;> simp [firstBang] at h
  | cons c p ih =>
    cases quote with
    | some quote =>
      rw [firstBang] at h
      exact ⟨(ih h).1.trans (suffix_cons c p),(ih h).2⟩
    | none =>
      rw [firstBang] at h
      split at h
      · obtain rfl := Option.some.inj h
        exact ⟨suffix_rfl,congrArg some ‹_›⟩
      · exact ⟨(ih h).1.trans (suffix_cons c p),(ih h).2⟩

theorem getword_all (q : List UInt8) : (getword q).all (!isspace ·)=true := by
  rw [getword_eq]
  exact all_eq_true.mpr fun _ hc => mem_takeWhile_imp (p := (!isspace ·)) hc

theorem getword_bang {q : List UInt8} (h : q.head?=some 33) : 1≤(getword q).length := by
  obtain ⟨r,rfl⟩ := head?_eq_some_iff.mp h
  have hspace : isspace 33=false := by decide
  rw [getword_eq,dropWhile_cons_of_neg (by rw [hspace]; decide),
    takeWhile_cons_of_pos (by rw [hspace]; rfl),length_cons]
  omega

theorem tail_blank_iff (q : List UInt8) :
    (getword q).tail.all isspace ↔ (getword q).length≤1 := by
  have hall := getword_all q
  generalize getword q=w at hall
  rcases w with _ | ⟨c,_ | ⟨d,w⟩⟩
  · simp
  · simp
  · simp only [all_cons,Bool.and_eq_true,Bool.not_eq_true'] at hall
    simp [hall.2.1]

/-- The length of the line with the event replaced. -/
theorem length_replaced {q : List UInt8} (hq : q <:+ p) (hword : 1<(getword q).length)
    (t : List UInt8) : (p.take (p.length-q.length)++(t++q.drop ((getword q).tail.length+1))).length +
      (getword q).length=p.length+t.length := by
  have hle := hq.length_le
  have hcopied : (getword q).length≤q.length := by
    rw [getword_eq]
    exact ( takeWhile_prefix _).length_le.trans (dropWhile_suffix _).length_le
  rw [length_append,length_append,length_take,length_drop,length_tail]
  omega

/-- `get_cmd` stays inside `buf`, and the line below `LINESZ`, exactly when the event word has less
than 20 characters and there is room for what the history puts in its place. -/
theorem getCmd_fits_iff (s : Hist) (p : List UInt8) (behind : List (List UInt8)) :
    (∃ l, getCmd s p behind = .line l ∧ l.length<LINESZ) ↔
      (∀ q, bangIn (p::behind)=some q → (getword q).length<20) ∧
        p.length+inserted s (eventOf p)<LINESZ+(eventOf p).length := by
  rw [getCmd,findbang_eq,bangIn,bangBehind_eq]
  cases hopen : openQuote none p with
  | true =>
    simp only [if_true,eventOf,firstBang_open hopen]
    cases bangIn behind with
    | none => simp [inserted]
    | some q =>
      rcases Nat.lt_or_ge (getword q).length 20 with hword | hword
      · simp [Nat.not_le.mpr hword,inserted,hword]
      · simp [hword,Nat.not_lt.mpr hword]
  | false =>
    cases hbang : firstBang none p with
    | none => simp [Bang.ofOption,eventOf,hbang,inserted]
    | some q =>
      obtain ⟨hq,hhead⟩ := firstBang_spec hbang
      have hpos := getword_bang hhead
      have hevent : eventOf p=getword q := by rw [eventOf,hbang]; rfl
      simp only [Bool.false_eq_true,if_false,Bang.ofOption,hevent,Option.some.injEq,forall_eq']
      rcases Nat.lt_or_ge (getword q).length 20 with hword | hword
      · simp only [if_neg (show ¬20<(getword q).length+1 by omega),tail_blank_iff,inserted,hword,
          true_and]
        by_cases hone : (getword q).length≤1
        · simp [if_pos hone]
        · have hlen := length_replaced hq (Nat.not_le.mp hone)
          simp only [if_neg hone]
          cases recalled s (getword q).tail with
          | none =>
            have hnone := hlen []
            rw [nil_append] at hnone
            simp only [Cmd.line.injEq,exists_eq_left',Option.getD_none,length_nil] at hnone ⊢
            omega
          | some t =>
            have hsome := hlen t
            simp only [Cmd.line.injEq,exists_eq_left',Option.getD_some]
            omega
      · simp [hword,Nat.not_lt.mpr hword]

theorem getCmd_long :
    getCmd Hist.init (33::List.replicate 19 97) [] = .overflow ∧
      getCmd (Hist.after [List.replicate 161 98]) (33::98::32::List.replicate 158 97) [] =
        .line (List.replicate 161 98++32::List.replicate 158 97) := by
  decide +kernel
end
end Pmon.HistBang
