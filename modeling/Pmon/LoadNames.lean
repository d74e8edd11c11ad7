import Pmon.FastSyms
import Pmon.LoadSymrec
import Pmon.RecordFeed
import Pmon.ValidPc

/-!
# Names of downloaded symbols

Nothing bounds the copy of a name but its comma, and a record has room for longer names than the
buffer.
-/

namespace Pmon.LoadNames
open LoadFn FastLoad List
open LoadSymrec (Field fields)


variable {σ : Type}
section
variable (M : Monitor σ) (flags : Flags)

def copied : ℕ → List Char → ℤ → Loader σ → List ℕ
  | 0, _, _, _ => []
  | fuel+1, p, len, s =>
    if 2<len then
      match gethex p 8 with
      | none => []
      | some adr =>
        let p := p.drop 8
        if ',' ∈ p then
          let name := p.takeWhile (· ≠ ',')
          let value := if flags.absSyms then adr else (adr+s.offset)%2^32
          (name.length+1) ::
            match M.newsym s.syms name value with
            | none => []
            | some syms =>
              copied fuel (p.drop (name.length+1)) (len-8-name.length) {s with syms := syms}
        else []
    else []

def s3Copied (s : Loader σ) (recbuf : List Char) : List ℕ :=
  if recbuf[0]?=some 'S' ∧ recbuf[1]?=some '4' ∧ flags.noSyms=false then
    match gethex (recbuf.drop 2) 2 with
    | none => []
    | some len => copied M flags recbuf.length (recbuf.drop 4) len s
  else []

inductive Reached : List Field → Loader σ → Field → Prop
  | here {f : Field} {fs : List Field} {s : Loader σ} : Reached (f::fs) s f
  | later {g f : Field} {fs : List Field} {s : Loader σ} {syms : σ}
    (hnew : M.newsym s.syms g.name (LoadSymrec.value flags s.offset g.adr)=some syms)
    (h : Reached fs {s with syms := syms} f) : Reached (g::fs) s f

def symbolFields (recbuf : List Char) : List Field :=
  if recbuf[0]?=some 'S' ∧ recbuf[1]?=some '4' then LoadSymrec.recordFields recbuf else []

variable {M flags}

theorem reached_cons_iff {g f : Field} {fs : List Field} {s : Loader σ} :
    Reached M flags (g::fs) s f ↔ f=g ∨ ∃ syms,
      M.newsym s.syms g.name (LoadSymrec.value flags s.offset g.adr)=some syms ∧
        Reached M flags fs {s with syms := syms} f := by
  constructor
  · intro h
    cases h with
    | here => exact .inl rfl
    | later hnew h => exact .inr ⟨_,hnew,h⟩
  · rintro (rfl | ⟨syms,hnew,h⟩)
    · exact .here
    · exact .later hnew h

theorem forall_mem_copied {P : ℕ → Prop} (fuel : ℕ) (p : List Char) (len : ℤ) (s : Loader σ) :
    (∀ n∈copied M flags fuel p len s, P n) ↔
      ∀ f, Reached M flags (fields fuel p len).1 s f → P (f.name.length+1) := by
  induction fuel generalizing p len s with
  | zero => exact iff_of_true (fun n hn => absurd hn not_mem_nil) fun f hf => by cases hf
  | succ fuel ih =>
    have hnone : (∀ n∈([] : List ℕ), P n) ↔ ∀ f, Reached M flags [] s f → P (f.name.length+1) :=
      iff_of_true (fun n hn => absurd hn not_mem_nil) fun f hf => by cases hf
    rw [copied,fields]
    by_cases hlen : 2<len
    · rw [if_pos hlen,if_pos hlen]
      cases hadr : gethex p 8 with
      | none => exact hnone
      | some adr =>
        dsimp only
        by_cases hcomma : ',' ∈ p.drop 8
        · rw [if_pos hcomma,if_pos hcomma,forall_mem_cons]
          simp only [reached_cons_iff,forall_eq_or_imp]
          refine and_congr_right fun _ => ?_
          rw [LoadSymrec.value]
          cases M.newsym s.syms ((p.drop 8).takeWhile (· ≠ ','))
            (if flags.absSyms then adr else (adr+s.offset)%2^32) with
          | none => exact iff_of_true (fun n hn => absurd hn not_mem_nil) fun f hf => by simp at hf
          | some syms =>
            simp only [Option.some.injEq,exists_eq_left']
            exact ih _ _ _
        · rw [if_neg hcomma,if_neg hcomma]
          exact hnone
    · rw [if_neg hlen,if_neg hlen]
      exact hnone

theorem forall_mem_s3Copied {P : ℕ → Prop} (s : Loader σ) (recbuf : List Char) :
    (∀ n∈s3Copied M flags s recbuf, P n) ↔ (flags.noSyms=false →
      ∀ f, Reached M flags (symbolFields recbuf) s f → P (f.name.length+1)) := by
  have hnone : (∀ n∈([] : List ℕ), P n) ↔ (flags.noSyms=false →
      ∀ f, Reached M flags [] s f → P (f.name.length+1)) :=
    iff_of_true (fun n hn => absurd hn not_mem_nil) nofun
  rw [s3Copied,symbolFields,LoadSymrec.recordFields]
  by_cases hkind : recbuf[0]?=some 'S' ∧ recbuf[1]?=some '4'
  · rw [if_pos hkind]
    by_cases hsyms : flags.noSyms=false
    · rw [if_pos ⟨hkind.1,hkind.2,hsyms⟩]
      cases gethex (recbuf.drop 2) 2 with
      | none => exact hnone
      | some len =>
        rw [forall_mem_copied]
        exact ⟨fun h _ => h,fun h => h hsyms⟩
    · rw [if_neg fun h => hsyms h.2.2]
      exact iff_of_true (fun n hn => absurd hn not_mem_nil) fun h => absurd h hsyms
  · rw [if_neg hkind,if_neg fun h => hkind ⟨h.1,h.2.1⟩]
    exact hnone
end
section
variable (M : FastMonitor σ) (flags : FastFlags)

def nameSize : Item → ℕ
  | .symbol name => name.length+1
  | .openSymbol name => name.length
  | _ => 0

inductive ReachedItem : List Item → ℕ → DlCode → FastLoader σ → Item → Prop
  | here {item : Item} {is : List Item} {len : ℕ} {status : DlCode} {s : FastLoader σ} :
    ReachedItem (item::is) len status s item
  | later {i item : Item} {is : List Item} {len len' : ℕ} {status status' : DlCode}
    {s s' : FastLoader σ} (hexec : exec M flags len status s i = .next len' status' s')
    (h : ReachedItem is len' status' s' item) : ReachedItem (i::is) len status s item

variable {M flags}

def Exec.state : Exec σ → FastLoader σ
  | .next _ _ s => s
  | .leave _ _ s => s
  | .fail _ s => s

theorem named_storeNext (bs : List UInt8) (s : FastLoader σ) :
    (storeNext bs s).named=s.named := by
  induction bs generalizing s with
  | nil => rfl
  | cons b bs ih => rw [storeNext,ih]

theorem named_fill {bs : List UInt8} {len : ℕ} {status : DlCode} (s : FastLoader σ) :
    (Exec.state (fill M flags bs len status s)).named=s.named := by
  unfold fill
  split
  · rfl
  · exact named_storeNext _ _

theorem forall_named_exec (item : Item) (len : ℕ) (status : DlCode) (s : FastLoader σ)
    {P : ℕ → Prop} (hzero : P 0) :
    (∀ n∈(Exec.state (exec M flags len status s item)).named, P n) ↔
      (∀ n∈s.named, P n) ∧ P (nameSize item) := by
  have hwritten : ∀ n, (∀ m∈s.named++[n], P m) ↔ (∀ m∈s.named, P m) ∧ P n := by
    intro n
    rw [forall_mem_append,forall_mem_singleton]
  have hkept : ∀ t : FastLoader σ, t.named=s.named →
      ((∀ n∈t.named, P n) ↔ (∀ n∈s.named, P n) ∧ P 0) := by
    intro t ht
    rw [ht,and_iff_left hzero]
  cases item with
  | symbol name =>
    unfold exec
    dsimp only
    split
    · exact hwritten _
    · split <;> exact hwritten _
  | openSymbol name => exact hwritten _
  | compare zcnt =>
    unfold exec
    dsimp only
    split <;> exact hkept _ rfl
  | zero zcnt =>
    unfold exec
    dsimp only
    split
    · exact hkept _ rfl
    · exact hkept _ (named_fill _)
  | byte bdat =>
    unfold exec
    dsimp only
    split
    · exact hkept _ rfl
    · exact hkept _ (named_fill _)
  | data bdat =>
    unfold exec
    dsimp only
    split
    · exact hkept _ rfl
    · exact hkept _ (named_fill _)
  | address addr =>
    unfold exec
    dsimp only
    split <;> exact hkept _ rfl
  | clear => exact hkept _ rfl
  | finish => exact hkept _ rfl
  | bad code => exact hkept _ rfl

theorem reachedItem_cons_iff {i item : Item} {is : List Item} {len : ℕ} {status : DlCode}
    {s : FastLoader σ} :
    ReachedItem M flags (i::is) len status s item ↔ item=i ∨ ∃ len' status' s',
      exec M flags len status s i = .next len' status' s' ∧
        ReachedItem M flags is len' status' s' item := by
  constructor
  · intro h
    cases h with
    | here => exact .inl rfl
    | later hexec h => exact .inr ⟨_,_,_,hexec,h⟩
  · rintro (rfl | ⟨len',status',s',hexec,h⟩)
    · exact .here
    · exact .later hexec h

theorem forall_named_run {P : ℕ → Prop} (hzero : P 0) (is : List Item) (len : ℕ)
    (status : DlCode) (s : FastLoader σ) : (∀ n∈(run M flags is len status s).2.2.named, P n) ↔
      (∀ n∈s.named, P n) ∧
        ∀ item, ReachedItem M flags is len status s item → P (nameSize item) := by
  induction is generalizing len status s with
  | nil => exact (and_iff_left fun _ h => by cases h).symm
  | cons i is ih =>
    have hnamed := @forall_named_exec σ M flags i len status s P hzero
    simp only [reachedItem_cons_iff,forall_eq_or_imp]
    rw [←and_assoc,←hnamed,run]
    cases exec M flags len status s i with
    | next len' status' s' =>
      rw [ih]
      refine and_congr_right fun _ => ⟨?_,?_⟩
      · rintro h item ⟨l,st,t,heq,hreached⟩
        cases heq
        exact h item hreached
      · exact fun h item hreached => h item ⟨_,_,_,rfl,hreached⟩
    | leave len' status' s' => exact (and_iff_left fun _ h => by simp at h).symm
    | fail code s' => exact (and_iff_left fun _ h => by simp at h).symm
end

/-- The buffers are not overrun exactly when every name that is reached has room with its null. -/
theorem names_fit_iff (M : Monitor σ) (flags : Flags) (s : Loader σ) (record : List Char)
    (FM : FastMonitor σ) (fflags : FastFlags) {t : FastLoader σ} (ht : t.named=[])
    (recbuf : Buffer) (recsize : ℤ) : ((∀ n∈s3Copied M flags s record, n≤LINESZ) ∧
        ∀ n∈(dlFastload FM fflags recbuf recsize t).2.2.named, n≤LINESZ) ↔
      (flags.noSyms=false →
        ∀ f, Reached M flags (symbolFields record) s f → f.name.length<LINESZ) ∧
      (recsize.tmod 4=0 → ∀ item,
        ReachedItem FM fflags (recordItems recbuf recsize) 0 .cont t item →
          nameSize item≤LINESZ) := by
  refine and_congr (forall_mem_s3Copied s record) ?_
  by_cases hsize : recsize.tmod 4=0
  · rw [dlFastload_eq FM fflags hsize,forall_named_run (P := (· ≤ LINESZ)) (Nat.zero_le _),
      ht,and_iff_right fun n hn => absurd hn not_mem_nil]
    exact ⟨fun h _ => h, fun h => h hsize⟩
  · rw [dlFastload,if_pos hsize,ht]
    exact iff_of_true (fun n hn => absurd hn not_mem_nil) fun h => absurd h hsize

theorem names_fit_iff_short :
    (∀ n∈s3Copied SDump.promMonitor {} SDump.clearLoader "S40C80100000ab,00".toList, n≤LINESZ) ∧
    ∀ n∈(dlFastload FastSyms.fastMonitor {} (FastSyms.textBuffer "/Sa,") 4
      FastSyms.clearFast).2.2.named, n≤LINESZ := by
  have hfields : symbolFields "S40C80100000ab,00".toList=[⟨0x80100000,['a', 'b']⟩] := by
    decide +kernel
  have hitems : recordItems (FastSyms.textBuffer "/Sa,") 4=[.symbol [97]] := by decide +kernel
  refine (names_fit_iff SDump.promMonitor {} SDump.clearLoader _ FastSyms.fastMonitor {} rfl _ 4).mpr
    ⟨fun _ f hf => ?_, fun _ item hitem => ?_⟩
  · rw [hfields] at hf
    cases hf with
    | here => decide
    | later hnew h => cases h
  · rw [hitems] at hitem
    cases hitem with
    | here => decide
    | later hexec h => cases h

def longRecord : List Char := "S4D280100000".toList++List.replicate 200 'a' ++ ",00".toList

def longFast : Buffer := fun i =>
  if i=0 then slash else if i=1 then 83 else if i<202 then 97 else comma

theorem names_overrun : longRecord.length≤RecordFeed.DLREC ∧
      201∈s3Copied SDump.promMonitor {} SDump.clearLoader longRecord ∧
      201∈(dlFastload FastSyms.fastMonitor {} longFast 204 FastSyms.clearFast).2.2.named ∧
      LINESZ<201 := by
  decide +kernel

end Pmon.LoadNames
