import Pmon.ValidPc

/-!
# Lists of commands

`do_cmd` cuts a line at its semicolons, but for those between quotes. The array for the parts has
twenty entries, and points into the line, which commands such as `m` and `dump` use as a buffer.
-/

namespace Pmon.DoCmd
open List
open ValidPc (argvize text)

def CMDLIST : ℕ := 20

/-- Memory from the beginning of the line on, and all that is not in it. -/
structure State (σ : Type) where
  buf : List UInt8
  other : σ

/-- The string at an offset from the line. -/
def State.textAt {σ : Type} (s : State σ) (off : ℕ) : List UInt8 :=
  (s.buf.drop off).takeWhile (· ≠ 0)

/-- An entry of `CmdTable`. The marks that `argvize` sets behind the words of a part are left out:
they stay inside the part. -/
structure Cmd (σ : Type) where
  name : List UInt8
  func : List (List UInt8) → State σ → ℤ × State σ
  rep : Bool
  minac : ℕ
  maxac : ℕ

def cmdlistLoop : ℕ → List UInt8 → List UInt8 → List (List UInt8)
  | 0, _, part => [part]
  | _, [], part => [part]
  | n+1, c::p, part =>
    if c=39 ∨ c=34 then
      let q := p.dropWhile (· ≠ c)
      cmdlistLoop n (q.drop 1) (part++c::(p.takeWhile (· ≠ c)++q.take 1))
    else if c=59 then part::cmdlistLoop n p []
    else cmdlistLoop n p (part++[c])

def cmdlist (p : List UInt8) : List (List UInt8) := cmdlistLoop p.length p []

/-- The parts with the zeros that the scan has put in place of the semicolons. -/
def marked (parts : List (List UInt8)) : List UInt8 := parts.flatMap (· ++ [0])

/-- Where the parts begin: the pointers in `cmdlist`. -/
def starts : ℕ → List (List UInt8) → List ℕ
  | _, [] => []
  | off, part::parts => off::starts (off+part.length+1) parts

section
variable {σ : Type} (table : List (Cmd σ)) (repeating : Bool)

def runPart (part : List UInt8) (s : State σ) : Bool × State σ :=
  let av := argvize part
  match av with
  | [] => (true,s)
  | name::_ =>
    match table.find? fun cmd => cmd.name=name with
    | none => (false,s)
    | some cmd =>
      if repeating && !cmd.rep then (false,s)
      else if av.length<cmd.minac ∨ cmd.maxac<av.length then (false,s)
      else
        let (stat,s) := cmd.func av s
        (stat=0,s)

/-- The second loop of `do_cmd`: the parts as they were read, and the state at the end. -/
def runParts : List ℕ → State σ → List (List UInt8) × State σ
  | [], s => ([],s)
  | off::offs, s =>
    match runPart table repeating (s.textAt off) s with
    | (true,s') => let (done,s') := runParts offs s'; (s.textAt off::done,s')
    | (false,s') => ([s.textAt off],s')

/-- The line with its semicolons replaced. -/
def State.cut (s : State σ) : State σ :=
  {s with buf := marked (cmdlist (s.textAt 0))++s.buf.drop ((s.textAt 0).length+1)}

def doCmd (s : State σ) : Option (List (List UInt8) × State σ) :=
  let parts := cmdlist (s.textAt 0)
  if parts.length≤CMDLIST then some (runParts table repeating (starts 0 parts) s.cut) else none

/-- Parts are executed from left to right until one does not return zero. -/
inductive Executes : List (List UInt8) → State σ → List (List UInt8) → State σ → Prop
  | none {s : State σ} : Executes [] s [] s
  | next {part : List UInt8} {parts done : List (List UInt8)} {s s' s'' : State σ}
    (hpart : runPart table repeating part s=(true,s')) (h : Executes parts s' done s'') :
    Executes (part::parts) s (part::done) s''
  | last {part : List UInt8} {parts : List (List UInt8)} {s s' : State σ}
    (hpart : runPart table repeating part s=(false,s')) :
    Executes (part::parts) s [part] s'

/-- Each part that is reached is still in the line then. -/
def InPlace : List (List UInt8) → ℕ → State σ → Prop
  | [], _, _ => True
  | part::parts, off, s => s.textAt off=part ∧
      ∀ s', runPart table repeating part s=(true,s') → InPlace parts (off+part.length+1) s'

theorem executes_cons_iff {part : List UInt8} {parts done : List (List UInt8)} {s s' : State σ} :
    Executes table repeating (part::parts) s done s' ↔
      (∃ s₁ done₁, runPart table repeating part s=(true,s₁) ∧ done=part::done₁ ∧
        Executes table repeating parts s₁ done₁ s') ∨
      runPart table repeating part s=(false,s') ∧ done=[part] := by
  constructor
  · intro h
    cases h with
    | next hpart h => exact .inl ⟨_,_,hpart,rfl,h⟩
    | last hpart => exact .inr ⟨hpart,rfl⟩
  · rintro (⟨s₁,done₁,hpart,rfl,h⟩ | ⟨hpart,rfl⟩)
    · exact .next hpart h
    · exact .last hpart

/-- What is executed are the parts exactly when they are in place. -/
theorem runParts_executes_iff (parts : List (List UInt8)) (off : ℕ) (s : State σ) :
    Executes table repeating parts s (runParts table repeating (starts off parts) s).1
      (runParts table repeating (starts off parts) s).2 ↔ InPlace table repeating parts off s := by
  induction parts generalizing off s with
  | nil => exact iff_of_true .none trivial
  | cons part parts ih =>
    rw [starts,runParts,InPlace,executes_cons_iff]
    by_cases htext : s.textAt off=part
    · rw [htext]
      rcases runPart table repeating part s with ⟨go,s'⟩
      cases go with
      | true => simp [←ih]
      | false => simp
    · refine iff_of_false (fun h => htext ?_) fun h => htext h.1
      rcases hrun : runPart table repeating (s.textAt off) s with ⟨go,s'⟩
      rw [hrun] at h
      cases go <;> rcases h with ⟨_,_,_,hpart,_⟩ | ⟨_,hpart⟩ <;> exact (cons.inj hpart).1
end

/-- The text between the semicolons that are outside quotes; the first argument is the quote
that is open. -/
def segments : Option UInt8 → List UInt8 → List (List UInt8)
  | _, [] => [[]]
  | some q, c::p => (segments (if c=q then none else some q) p).modifyHead (c :: ·)
  | none, c::p =>
    if c=39 ∨ c=34 then (segments (some c) p).modifyHead (c :: ·)
    else if c=59 then []::segments none p
    else (segments none p).modifyHead (c :: ·)

theorem segments_some (q : UInt8) (p : List UInt8) :
    segments (some q) p=(segments none ((p.dropWhile (· ≠ q)).drop 1)).modifyHead
      (p.takeWhile (· ≠ q)++(p.dropWhile (· ≠ q)).take 1 ++ ·) := by
  induction p with
  | nil => rfl
  | cons c p ih =>
    rw [segments]
    by_cases hc : c=q
    · rw [if_pos hc,dropWhile_cons_of_neg (by simp [hc]),takeWhile_cons_of_neg (by simp [hc])]
      rfl
    · rw [if_neg hc,ih,dropWhile_cons_of_pos (by simp [hc]),
        takeWhile_cons_of_pos (by simp [hc]),modifyHead_modifyHead]
      rfl

theorem modifyHead_nil_append (l : List (List UInt8)) : l.modifyHead ([] ++ ·)=l := by
  cases l <;> rfl

theorem cmdlistLoop_eq (n : ℕ) (p part : List UInt8) (hn : p.length≤n) :
    cmdlistLoop n p part=(segments none p).modifyHead (part ++ ·) := by
  induction n generalizing p part with
  | zero =>
    obtain rfl := length_eq_zero_iff.mp (Nat.le_zero.mp hn)
    simp [cmdlistLoop,segments]
  | succ n ih =>
    cases p with
    | nil => simp [cmdlistLoop,segments]
    | cons c p =>
      have hp : p.length≤n := Nat.le_of_succ_le_succ hn
      rw [cmdlistLoop,segments]
      split
      · have hlen := (dropWhile_suffix (l := p) (· ≠ c)).length_le
        dsimp only
        rw [ih _ _ (by rw [length_drop]; omega),segments_some,modifyHead_modifyHead,
          modifyHead_modifyHead]
        congr 1
        funext l
        simp
      · split
        · rw [ih _ _ hp,modifyHead_nil_append]
          simp
        · rw [ih _ _ hp,modifyHead_modifyHead]
          congr 1
          funext l
          simp

theorem cmdlist_eq (p : List UInt8) : cmdlist p=segments none p := by
  rw [cmdlist,cmdlistLoop_eq _ _ _ le_rfl,modifyHead_nil_append]

/-- The parts of a line are executed rightly exactly when there are at most twenty and none is
overwritten before its turn. -/
theorem doCmd_executes_iff {σ : Type} (table : List (Cmd σ)) (repeating : Bool) (s : State σ) :
    (∃ done s', doCmd table repeating s=some (done,s') ∧
        Executes table repeating (segments none (s.textAt 0)) s.cut done s') ↔
      (segments none (s.textAt 0)).length≤CMDLIST ∧
        InPlace table repeating (segments none (s.textAt 0)) 0 s.cut := by
  rw [doCmd,cmdlist_eq,←runParts_executes_iff]
  constructor
  · rintro ⟨done,s',h,hdone⟩
    split at h
    · rename_i hlen
      obtain ⟨rfl,rfl⟩ := Prod.mk.inj (Option.some.inj h).symm
      exact ⟨hlen,hdone⟩
    · cases h
  · rintro ⟨hlen,hdone⟩
    exact ⟨_,_,if_pos hlen,hdone⟩

section
variable {σ : Type} {table : List (Cmd σ)} {repeating : Bool}

theorem not_mem_segments {b : UInt8} {quote : Option UInt8} {p : List UInt8} (hb : b∉p) :
    ∀ part∈segments quote p, b∉part := by
  have hcons : ∀ {c : UInt8} {l : List (List UInt8)}, b≠c → (∀ part∈l, b∉part) →
      ∀ part∈l.modifyHead (c :: ·), b∉part := by
    intro c l hc hl part hpart
    cases l with
    | nil => exact absurd hpart not_mem_nil
    | cons first l =>
      rcases mem_cons.mp hpart with rfl | hpart
      · exact not_mem_cons_of_ne_of_not_mem hc (hl first mem_cons_self)
      · exact hl part (mem_cons_of_mem _ hpart)
  induction p generalizing quote with
  | nil => cases quote <;> simp [segments]
  | cons c p ih =>
    have hne := ne_of_not_mem_cons hb
    have hrest := not_mem_of_not_mem_cons hb
    cases quote with
    | some q => exact hcons hne (ih hrest)
    | none =>
      rw [segments]
      split
      · exact hcons hne (ih hrest)
      · split
        · intro part hpart
          rcases mem_cons.mp hpart with rfl | hpart
          · exact not_mem_nil
          · exact ih hrest part hpart
        · exact hcons hne (ih hrest)

theorem textAt_marked {pre part tail : List UInt8} (parts : List (List UInt8)) (hpart : 0∉part)
    (other : σ) : State.textAt ⟨pre++(marked (part::parts)++tail),other⟩ pre.length=part := by
  rw [State.textAt,drop_left,marked,flatMap_cons,append_assoc,append_assoc,
    takeWhile_append_of_pos fun c hc => by simpa using ne_of_mem_of_not_mem hc hpart]
  simp

theorem runPart_buf (hkeep : ∀ cmd∈table, ∀ av s, (cmd.func av s).2.buf=s.buf)
    (part : List UInt8) (s : State σ) : (runPart table repeating part s).2.buf=s.buf := by
  unfold runPart
  dsimp only
  split
  · rfl
  · split
    · rfl
    · rename_i cmd hcmd
      repeat' split
      · rfl
      · rfl
      · exact hkeep cmd (mem_of_find?_eq_some hcmd) _ s

/-- Commands that leave the line alone leave the parts in place. -/
theorem inPlace_of_kept (hkeep : ∀ cmd∈table, ∀ av s, (cmd.func av s).2.buf=s.buf)
    {parts : List (List UInt8)} (hparts : ∀ part∈parts, 0∉part) {pre tail : List UInt8}
    {s : State σ} (hs : s.buf=pre++(marked parts++tail)) :
    InPlace table repeating parts pre.length s := by
  induction parts generalizing pre s with
  | nil => trivial
  | cons part parts ih =>
    refine ⟨?_,fun s' hs' => ?_⟩
    · obtain ⟨buf,other⟩ := s
      obtain rfl : buf=_ := hs
      exact textAt_marked parts (hparts part mem_cons_self) other
    · have hbuf : (runPart table repeating part s).2.buf=s.buf := runPart_buf hkeep part s
      rw [hs',hs] at hbuf
      have hlen : pre.length+part.length+1=(pre++(part++[0])).length := by simp [Nat.add_assoc]
      rw [hlen]
      refine ih (fun q hq => hparts q (mem_cons_of_mem _ hq)) (hbuf.trans ?_)
      simp [marked]

/-- Commands that leave the line alone leave every part of it in place. -/
theorem inPlace_cut (hkeep : ∀ cmd∈table, ∀ av s, (cmd.func av s).2.buf=s.buf) (s : State σ) :
    InPlace table repeating (segments none (s.textAt 0)) 0 s.cut := by
  have hzero : 0∉s.textAt 0 := fun h => by
    rw [State.textAt] at h
    simpa using mem_takeWhile_imp h
  have hbuf : s.cut.buf=[]++(marked (segments none (s.textAt 0))++
      s.buf.drop ((s.textAt 0).length+1)) := by
    rw [nil_append,←cmdlist_eq]
    rfl
  exact inPlace_of_kept hkeep (not_mem_segments hzero) hbuf
end

/-- `sprintf (line, text)`. -/
def State.write {σ : Type} (s : State σ) (t : List UInt8) : State σ :=
  {s with buf := t++0::s.buf.drop (t.length+1)}

/-- `dump` of 32 zeros, which writes its records in the line, and `r`. -/
def dumpTable : List (Cmd Unit) :=
  [⟨text "dump",fun _ s => (0,(s.write (text "S32580020000"++List.replicate 64 48++
      text "58\n")).write (text "S70500000000FA\n")),false,3,4⟩,
    ⟨text "r",fun _ s => (0,s),true,1,4⟩]

/-- Twenty semicolons are too many; and behind `dump` it is not `r` that is looked up. -/
theorem doCmd_not_executes :
    (segments none (List.replicate 20 59)).length=21 ∧
      doCmd ([] : List (Cmd Unit)) false ⟨List.replicate 20 59++[0],()⟩=none ∧
      segments none (text "dump 80020000 20;r")=[text "dump 80020000 20",text "r"] ∧
      (doCmd dumpTable false ⟨text "dump 80020000 20;r"++[0],()⟩).map (·.1)=
        some [text "dump 80020000 20",List.replicate 59 48++text "58\n"] := by
  refine ⟨by decide +kernel,?_,by decide +kernel,by decide +kernel⟩
  rw [doCmd,if_neg (by decide +kernel)]

end Pmon.DoCmd
