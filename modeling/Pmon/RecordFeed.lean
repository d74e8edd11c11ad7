import Mathlib.Data.List.TakeWhile
import Pmon.ByteStore
import Pmon.LoadFn

/-!
# Feeding records to the loaders

`load_xx` hands out lines, first from the buffer of the loaders tried before. A line that is only
partly there, after others, is lost.
-/

namespace Pmon.RecordFeed
open List Function
open ByteStore (Holds readCells)
open LoadFn (DlCode)

def DLREC : ℕ := 550
def NL : UInt8 := 10
abbrev Buffer : Type := ℕ → UInt8

def strnchr (buf : Buffer) : ℕ → ℕ → Option ℕ
  | _, 0 => none
  | p, n+1 => if buf p=NL then some p else strnchr buf (p+1) n

def fdgets (maxn : ℕ) (buf : Buffer) (o nb : ℕ) : List UInt8 → ℕ × Buffer × List UInt8
  | [] => (nb,update buf o 0,[])
  | b::rest =>
    let buf := update buf o b
    if b=NL then (nb,update buf o 0,rest)
    else if maxn≤nb+1 then (nb+1,update buf (o+1) 0,rest)
    else fdgets maxn buf (o+1) (nb+1) rest

structure Feed where
  buf : Buffer
  /-- The rest of what was in the buffer, `none` for a null pointer. -/
  p : Option ℕ
  left : ℕ
  nb : ℕ
  rest : List UInt8

def firstLine (buf : Buffer) (n : ℕ) (rest : List UInt8) : Feed := match strnchr buf 0 n with
  | some q => ⟨update buf q 0,some (q+1),n-(q+1),q,rest⟩
  | none =>
    let (got,buf,rest) := fdgets (DLREC-n) buf n 0 rest
    ⟨buf,none,0,n+got,rest⟩

/-- The next line. From a null pointer it copies what is at address zero; without a newline reading
goes on at the start, and `left` stays. -/
def advance (low : Buffer) (f : Feed) : Feed :=
  if f.left≠0 then
    let src : Buffer := match f.p with
      | some p => fun i => f.buf (p+i)
      | none => low
    let buf : Buffer := fun i => if i<f.left then src i else f.buf i
    match strnchr buf 0 f.left with
    | some q => ⟨update buf q 0,some (q+1),f.left-(q+1),q,f.rest⟩
    | none =>
      let (got,buf,rest) := fdgets DLREC buf 0 0 f.rest
      ⟨buf,none,f.left,f.left+got,rest⟩
  else
    let (got,buf,rest) := fdgets DLREC f.buf 0 0 f.rest
    ⟨buf,f.p,0,got,rest⟩

def cstr (buf : Buffer) : List UInt8 := (readCells buf 0 (DLREC+1)).takeWhile (· ≠ 0)

section
variable {σ : Type} (fn : σ → List UInt8 → ℕ → DlCode × σ) (low : Buffer)

def turns : ℕ → σ → Feed → List (List UInt8 × ℕ) × Option DlCode
  | 0, _, _ => ([],none)
  | k+1, s, f =>
    let r := fn s (cstr f.buf) f.nb
    if r.1 ≠ .cont then ([(cstr f.buf,f.nb)],some r.1)
    else
      let later := turns k r.2 (advance low f)
      ((cstr f.buf,f.nb)::later.1,later.2)

inductive Result where
  /-- `-1`: the file is not of this type. -/
  | declined
  | entry
  | failed

def loadXx (recid : UInt8) (k : ℕ) (buf : Buffer) (n : ℕ) (rest : List UInt8) (s : σ) :
    List (List UInt8 × ℕ) × Option Result :=
  let f := firstLine buf n rest
  if f.buf 0≠recid then ([],some .declined)
  else
    let (calls,code) := turns fn low k s f
    (calls,code.map fun c => if c = .done then .entry else .failed)
end

def lines (content : List UInt8) : List (List UInt8) := content.splitOn NL

inductive Cut : List UInt8 → List UInt8 → Option (List UInt8) → Prop
  | last {line : List UInt8} (hline : NL∉line) : Cut line line none
  | more {line after : List UInt8} (hline : NL∉line) :
    Cut (line++NL::after) line (some after)

theorem exists_cut (content : List UInt8) : ∃ line more, Cut content line more := by
  by_cases hmem : NL∈content
  · obtain ⟨line,after,rfl,hline⟩ := eq_append_cons_of_mem hmem
    exact ⟨line,some after,.more hline⟩
  · exact ⟨content,none,.last hmem⟩

variable {content line : List UInt8} {more : Option (List UInt8)}

theorem Cut.lines_eq (h : Cut content line more) : lines content=line::more.elim [] lines := by
  cases h with
  | last hline => exact splitOn_eq_singleton hline
  | more hline => exact splitOn_append_cons_self_of_not_mem hline _

theorem Cut.not_mem (h : Cut content line more) : NL∉line := by
  cases h <;> assumption

theorem Cut.line_start (h : Cut content line more) : line <+: content := by
  cases h with
  | last => exact prefix_rfl
  | more => exact prefix_append ..

theorem Cut.of_append {c r rest : List UInt8} (h : Cut (c++rest) (c++r) more) :
    Cut rest r more := by
  have hnot := h.not_mem
  have hr : NL∉r := fun hmem => hnot (mem_append_right c hmem)
  generalize hcontent : c++rest=content at h
  generalize hline : c++r=line at h
  cases h with
  | last =>
    obtain rfl := append_cancel_left (hcontent.trans hline.symm)
    exact .last hr
  | more =>
    subst hline
    rw [append_assoc] at hcontent
    obtain rfl := append_cancel_left hcontent
    exact .more hr

variable {buf : Buffer}

theorem strnchr_some {p n : ℕ} {after : List UInt8} (hline : NL∉line)
    (h : Holds buf p (line++NL::after)) (hn : line.length<n) :
    strnchr buf p n=some (p+line.length) := by
  induction line generalizing p n with
  | nil =>
    obtain ⟨n,rfl⟩ : ∃ m, n=m+1 := ⟨n-1,by rw [length_nil] at hn; omega⟩
    rw [strnchr,if_pos h.1]
    rfl
  | cons b line ih =>
    rw [mem_cons,not_or] at hline
    rw [length_cons] at hn
    obtain ⟨n,rfl⟩ : ∃ m, n=m+1 := ⟨n-1,by omega⟩
    have hb : buf p≠NL := by
      rw [h.1]
      exact Ne.symm hline.1
    rw [strnchr,if_neg hb,ih hline.2 h.2 (by omega),length_cons,Nat.add_right_comm,
      Nat.add_assoc]

theorem strnchr_none {p : ℕ} (hline : NL∉line) (h : Holds buf p line) :
    strnchr buf p line.length=none := by
  induction line generalizing p with
  | nil => rfl
  | cons b line ih =>
    rw [mem_cons,not_or] at hline
    have hb : buf p≠NL := by
      rw [h.1]
      exact Ne.symm hline.1
    rw [length_cons,strnchr,if_neg hb,ih hline.2 h.2]

theorem fdgets_spec (h : Cut content line more) {maxn nb : ℕ} (hlen : nb+line.length < maxn)
    (buf : Buffer) (o : ℕ) :
    ∃ buf', fdgets maxn buf o nb content=(nb+line.length,buf',more.getD []) ∧
      Holds buf' o (line++[0]) ∧ ∀ i<o, buf' i=buf i := by
  induction line generalizing content buf o nb with
  | nil =>
    refine ⟨update buf o 0,?_,⟨update_self ..,trivial⟩,
      fun i hi => update_of_ne hi.ne ..⟩
    cases h with
    | last => rfl
    | more =>
      rw [nil_append,fdgets,if_pos rfl,update_idem]
      rfl
  | cons b line ih =>
    obtain ⟨rest,rfl⟩ : ∃ rest, content=[b]++rest := by
      cases h with
      | last => exact ⟨line,rfl⟩
      | more => exact ⟨_,cons_append⟩
    have hb : b≠NL := fun heq => h.not_mem (heq ▸ mem_cons_self)
    have hcut := h.of_append (c := [b])
    rw [length_cons] at hlen
    have hlen' : nb+1+line.length < maxn := by omega
    obtain ⟨buf',hread,hholds,hbefore⟩ := ih hcut hlen' (update buf o b) (o+1)
    refine ⟨buf',?_,⟨?_,hholds⟩,fun i hi => ?_⟩
    · rw [singleton_append,fdgets,if_neg hb,if_neg (by omega),hread,length_cons,
        Nat.add_right_comm,Nat.add_assoc]
    · rw [hbefore o (Nat.lt_succ_self o),update_self]
    · rw [hbefore i (by omega),update_of_ne hi.ne]

theorem cstr_eq (h : Holds buf 0 (line++[0])) (hlen : line.length<DLREC) :
    cstr buf=line.takeWhile (· ≠ 0) := by
  obtain ⟨k,hk⟩ : ∃ k, DLREC+1=(line++[0]).length+k := by
    refine ⟨DLREC-line.length,?_⟩
    rw [length_append,length_singleton]
    omega
  have hcells : readCells buf 0 (DLREC+1)=line++0::readCells buf (line.length+1) k := by
    rw [hk,ByteStore.readCells_add,h.readCells_eq rfl,append_assoc,Nat.zero_add,length_append]
    rfl
  rw [cstr,hcells,takeWhile_append]
  split
  · rename_i heq
    have hself := ( takeWhile_prefix _).eq_of_length heq
    rw [takeWhile_cons_of_neg (by simp),append_nil,hself]
  · rfl

structure Presents (f : Feed) (line : List UInt8) : Prop where
  holds : Holds f.buf 0 (line++[0])
  nb : f.nb=line.length

def Ready (f : Feed) (content : List UInt8) : Prop :=
  ∃ carried, carried.length=f.left ∧ content=carried++f.rest ∧
    (carried≠[] → ∃ p, f.p=some p ∧ Holds f.buf p carried)

def Unbroken (ahead : ℕ) (line : List UInt8) : Prop := ahead=0 ∨ line.length<ahead

instance (ahead : ℕ) (line : List UInt8) : Decidable (Unbroken ahead line) :=
  inferInstanceAs (Decidable (_ ∨ _))

theorem Cut.split_carried {carried rest : List UInt8} (h : Cut (carried++rest) line more)
    (hlen : line.length<carried.length) :
    ∃ after, carried=line++NL::after ∧ more=some (after++rest) := by
  generalize hcontent : carried++rest=content at h
  cases h with
  | last =>
    have := congrArg List.length hcontent
    rw [length_append] at this
    omega
  | more =>
    rcases append_eq_append_iff.mp hcontent with ⟨a,hline,-⟩ | ⟨a,hcarried,hrest⟩
    · have := congrArg List.length hline
      rw [length_append] at this
      omega
    · cases a with
      | nil =>
        rw [append_nil] at hcarried
        exact absurd hlen (by rw [hcarried]; exact lt_irrefl _)
      | cons b after =>
        obtain ⟨rfl,rfl⟩ := List.cons.inj hrest
        exact ⟨after,hcarried,rfl⟩

theorem holds_terminate {after : List UInt8} (h : Holds buf 0 (line++NL::after)) :
    Holds (update buf line.length 0) 0 (line++[0]) ∧
      Holds (update buf line.length 0) (line.length+1) after := by
  obtain ⟨hline,-,hafter⟩ := (ByteStore.holds_append ..).mp h
  rw [Nat.zero_add] at hafter
  refine ⟨(ByteStore.holds_append ..).mpr ⟨?_,?_,trivial⟩,?_⟩
  · refine ByteStore.holds_congr (fun q _ hq => update_of_ne ?_ ..) hline
    omega
  · rw [Nat.zero_add,update_self]
  · refine ByteStore.holds_congr (fun q hq _ => update_of_ne ?_ ..) hafter
    omega

variable {f : Feed} (low : Buffer)

theorem holds_copied {p : ℕ} {carried : List UInt8} (h : Holds f.buf p carried) :
    Holds (fun i => if i<carried.length then f.buf (p+i) else f.buf i) 0 carried := by
  refine ByteStore.holds_of_getElem fun i hi => ?_
  rw [Nat.zero_add,if_pos hi,h.getElem hi]

theorem advance_presents (hready : Ready f content) (hcut : Cut content line more)
    (hlen : line.length<DLREC) (hok : Unbroken f.left line) :
    Presents (advance low f) line ∧ Ready (advance low f) (more.getD []) ∧
      (advance low f).left=f.left-(line.length+1) := by
  obtain ⟨carried,hleft,rfl,hcarried⟩ := hready
  unfold advance
  by_cases hzero : f.left=0
  · -- nothing is ahead: the line is read
    obtain rfl := length_eq_zero_iff.mp (hleft.trans hzero)
    rw [nil_append] at hcut
    obtain ⟨buf',hread,hholds,-⟩ :=
      fdgets_spec hcut (show 0+line.length<DLREC by omega) f.buf 0
    rw [if_neg (not_not.mpr hzero),hread,hzero,Nat.zero_sub]
    exact ⟨⟨hholds,Nat.zero_add _⟩,⟨[],rfl,rfl,fun h => absurd rfl h⟩,rfl⟩
  · -- the line is in the buffer with its newline
    have hlt := hleft ▸ hok.resolve_left hzero
    obtain ⟨after,hsplit,rfl⟩ := hcut.split_carried hlt
    obtain ⟨p,hp,hholds⟩ := hcarried (by rw [hsplit]; simp)
    have hcopy := holds_copied hholds
    rw [hleft,hsplit] at hcopy
    obtain ⟨hterm,hafter⟩ := holds_terminate hcopy
    have hfound := strnchr_some hcut.not_mem hcopy (hok.resolve_left hzero)
    rw [Nat.zero_add] at hfound
    rw [if_pos hzero,hp]
    dsimp only
    rw [hfound]
    refine ⟨⟨hterm,rfl⟩,⟨after,?_,rfl,fun _ => ⟨_,rfl,hafter⟩⟩,rfl⟩
    have := congrArg List.length hsplit
    rw [length_append,length_cons] at this
    dsimp only
    omega

theorem advance_broken (hready : Ready f content) (hcut : Cut content line more)
    (hlen : line.length<DLREC) (hbroken : ¬ Unbroken f.left line) :
    (cstr (advance low f).buf).length<line.length := by
  obtain ⟨carried,hleft,rfl,hcarried⟩ := hready
  unfold Unbroken at hbroken
  rw [not_or,Nat.not_lt,←hleft] at hbroken
  obtain ⟨hpos,hle⟩ := hbroken
  obtain ⟨p,hp,hholds⟩ := hcarried fun hnil => hpos (by rw [hnil,length_nil])
  obtain ⟨r,rfl⟩ : ∃ r, carried++r=line := prefix_of_prefix_length_le
    (prefix_append carried f.rest) hcut.line_start hle
  have hnot : NL∉carried := fun hmem => hcut.not_mem (mem_append_left r hmem)
  have hnone := strnchr_none hnot (holds_copied hholds)
  rw [length_append] at hlen
  obtain ⟨buf',hread,hbuf,-⟩ := fdgets_spec hcut.of_append (show 0+r.length<DLREC by omega)
    (fun i => if i<carried.length then f.buf (p+i) else f.buf i) 0
  have hadvance : (advance low f).buf=buf' := by
    unfold advance
    rw [if_pos (by omega),hp]
    dsimp only
    rw [←hleft,hnone]
    rw [hread]
  rw [hadvance,cstr_eq hbuf (by omega),length_append]
  have := (takeWhile_sublist (l := r) (fun b => decide (b≠0))).length_le
  omega

section
variable {σ : Type} (fn : σ → List UInt8 → ℕ → DlCode × σ)

def feed : σ → List (List UInt8) → List (List UInt8 × ℕ)
  | _, [] => []
  | s, line::lines =>
    (line,line.length) ::
      if (fn s line line.length).1 ≠ .cont then [] else feed (fn s line line.length).2 lines

def Feeds (low : Buffer) (s : σ) (f : Feed) (lines : List (List UInt8)) : Prop :=
  ∀ k, (turns fn low k s f).1=(feed fn s lines).take k

/-- The loader stops at a line, and until then no line is broken and none has a null. -/
def Stops : σ → ℕ → List (List UInt8) → Prop
  | _, _, [] => False
  | s, ahead, line::lines =>
    Unbroken ahead line ∧ 0∉line ∧ ((fn s line line.length).1 ≠ .cont ∨
        Stops (fn s line line.length).2 (ahead-(line.length+1)) lines)

variable {fn low}

theorem not_feeds_nil {s : σ} : ¬ Feeds fn low s f [] := by
  intro h
  have hone := h 1
  rw [turns] at hone
  split at hone <;> cases hone

theorem feeds_cons_iff {s : σ} (hline : Presents f line) (hlen : line.length<DLREC)
    {rest : List (List UInt8)} : Feeds fn low s f (line::rest) ↔
      0∉line ∧ ((fn s line line.length).1 ≠ .cont ∨
        Feeds fn low (fn s line line.length).2 (advance low f) rest) := by
  have hcstr := cstr_eq hline.holds hlen
  have hself : 0∉line → cstr f.buf=line := by
    intro hnull
    rw [hcstr,takeWhile_eq_self_iff]
    intro b hb
    simpa using fun heq : b=0 => hnull (heq ▸ hb)
  constructor
  · intro h
    have hnull : 0∉line := by
      have hone := h 1
      rw [turns,feed] at hone
      have hfirst : cstr f.buf=line := by
        split at hone <;> exact congrArg (fun l => (l.headD ([],0)).1) hone
      rw [hcstr,takeWhile_eq_self_iff] at hfirst
      intro hmem
      simpa using hfirst 0 hmem
    refine ⟨hnull,or_iff_not_imp_left.mpr fun hcont k => ?_⟩
    have hk := h (k+1)
    rw [turns,feed,hself hnull,hline.nb,if_neg hcont,if_neg hcont,take_succ_cons] at hk
    exact (List.cons.inj hk).2
  · rintro ⟨hnull,hor⟩ k
    cases k with
    | zero => rfl
    | succ k =>
      rw [turns,feed,hself hnull,hline.nb,take_succ_cons]
      by_cases hcont : (fn s line line.length).1 ≠ .cont
      · rw [if_pos hcont,if_pos hcont,take_nil]
      · rw [if_neg hcont,if_neg hcont]
        exact congrArg _ (hor.resolve_left hcont k)

theorem feeds_advance_iff {s : σ} (hready : Ready f content)
    (hlines : ∀ line∈lines content, line.length<DLREC) :
    Feeds fn low s (advance low f) (lines content) ↔ Stops fn s f.left (lines content) := by
  induction hn : content.length using Nat.strong_induction_on generalizing content f s with
  | _ n ih =>
    obtain ⟨line,more,hcut⟩ := exists_cut content
    rw [hcut.lines_eq] at hlines ⊢
    have hlen := hlines line mem_cons_self
    rw [Stops]
    by_cases hok : Unbroken f.left line
    · obtain ⟨hpresents,hnext,hleft⟩ := advance_presents low hready hcut hlen hok
      rw [feeds_cons_iff hpresents hlen,and_iff_right hok,←hleft]
      refine and_congr_right fun _ => or_congr_right ?_
      cases hcut with
      | last => exact ⟨fun h => absurd h not_feeds_nil,False.elim⟩
      | @more line after hline =>
        refine ih after.length ?_ hnext (fun l hl => hlines l (mem_cons_of_mem _ hl)) rfl
        rw [←hn,length_append,length_cons]
        omega
    · have hshort := advance_broken low hready hcut hlen hok
      refine ⟨fun h => absurd (h 1) ?_,fun h => absurd h.1 hok⟩
      rw [turns,feed]
      intro heq
      have hfirst : cstr (advance low f).buf=line := by
        split at heq <;> exact congrArg (fun l => (l.headD ([],0)).1) heq
      rw [hfirst] at hshort
      exact lt_irrefl _ hshort
end

/-- The buffer holds the first bytes of the content. -/
structure Loaded (content : List UInt8) (buf : Buffer) (n : ℕ) : Prop where
  le_length : n≤content.length
  le_size : n≤DLREC
  holds : Holds buf 0 (content.take n)

theorem firstLine_presents {n : ℕ} (h : Loaded content buf n) (hcut : Cut content line more)
    (hlen : line.length<DLREC) : Presents (firstLine buf n (content.drop n)) line ∧
      Ready (firstLine buf n (content.drop n)) (more.getD []) ∧
      (firstLine buf n (content.drop n)).left=n-(line.length+1) := by
  have htake := length_take_of_le h.le_length
  have hcut' : Cut (content.take n++content.drop n) line more := by
    rwa [take_append_drop]
  unfold firstLine
  by_cases hlt : line.length<n
  · obtain ⟨after,hsplit,rfl⟩ := hcut'.split_carried (by rwa [htake])
    have hholds := h.holds
    rw [hsplit] at hholds
    obtain ⟨hterm,hafter⟩ := holds_terminate hholds
    have hfound := strnchr_some hcut.not_mem hholds hlt
    rw [Nat.zero_add] at hfound
    rw [hfound]
    refine ⟨⟨hterm,rfl⟩,⟨after,?_,rfl,fun _ => ⟨_,rfl,hafter⟩⟩,rfl⟩
    have := congrArg List.length hsplit
    rw [htake,length_append,length_cons] at this
    dsimp only
    omega
  · obtain ⟨r,rfl⟩ : ∃ r, content.take n++r=line := prefix_of_prefix_length_le
      ( take_prefix n content) hcut.line_start (by omega)
    have hnot : NL∉content.take n := fun hmem => hcut.not_mem (mem_append_left r hmem)
    have hnone := strnchr_none hnot h.holds
    rw [htake] at hnone
    rw [length_append,htake] at hlen
    obtain ⟨buf',hread,hholds,hbefore⟩ :=
      fdgets_spec hcut'.of_append (show 0+r.length<DLREC-n by omega) buf n
    rw [hnone]
    dsimp only
    rw [hread]
    refine ⟨⟨?_,?_⟩,⟨[],rfl,rfl,fun hne => absurd rfl hne⟩,?_⟩
    · change Holds buf' 0 _
      rw [append_assoc,ByteStore.holds_append,htake,Nat.zero_add]
      refine ⟨ByteStore.holds_congr (fun q _ hq => hbefore q ?_) h.holds,hholds⟩
      omega
    · rw [length_append,htake,Nat.zero_add]
    · rw [length_append,htake]
      omega

section
variable {σ : Type} (fn : σ → List UInt8 → ℕ → DlCode × σ) (low : Buffer)

/-- The file starts with its character, and the loader stops at the first line, or later with no
line broken. -/
def StopsFirst (recid : UInt8) (s : σ) (n : ℕ) : List (List UInt8) → Prop
  | [] => False
  | line::lines =>
    line.headD 0=recid ∧ 0∉line ∧ ((fn s line line.length).1 ≠ .cont ∨
        Stops fn (fn s line line.length).2 (n-(line.length+1)) lines)

/-- The loader is given exactly the lines of the file if and only if the file starts with its
character and the loader stops at a line, with no null before and no line broken by the bytes read
before. -/
theorem loadXx_feeds_iff (recid : UInt8) (s : σ) (content : List UInt8) (buf : Buffer) (n : ℕ)
    (hload : Loaded content buf n) (hlines : ∀ line∈lines content, line.length<DLREC) :
    (∀ k, (loadXx fn low recid k buf n (content.drop n) s).1=(feed fn s (lines content)).take k) ↔
      StopsFirst fn recid s n (lines content) := by
  obtain ⟨line,more,hcut⟩ := exists_cut content
  rw [hcut.lines_eq] at hlines ⊢
  have hlen := hlines line mem_cons_self
  obtain ⟨hpresents,hready,hleft⟩ := firstLine_presents hload hcut hlen
  have hfirst : (firstLine buf n (content.drop n)).buf 0=line.headD 0 := by
    have hholds := hpresents.holds
    cases line with
    | nil => exact hholds.1
    | cons b line => exact hholds.1
  unfold loadXx StopsFirst
  dsimp only
  rw [hfirst]
  by_cases hrecid : line.headD 0=recid
  · rw [and_iff_right hrecid]
    simp only [if_neg (not_not.mpr hrecid)]
    refine (feeds_cons_iff hpresents hlen).trans (and_congr_right fun _ => or_congr_right ?_)
    rw [←hleft]
    cases hcut with
    | last => exact ⟨fun h => absurd h not_feeds_nil,False.elim⟩
    | more => exact feeds_advance_iff hready fun l hl => hlines l (mem_cons_of_mem _ hl)
  · simp only [if_pos hrecid]
    refine ⟨fun h => ?_, fun h => absurd h.1 hrecid⟩
    have hone := h 1
    rw [feed,take_succ_cons] at hone
    cases hone
end

def countdown (s : ℕ) (_ : List UInt8) (_ : ℕ) : DlCode × ℕ := (if s=0 then .done else .cont,s-1)
def twoRecords : List UInt8 := [83,49,10,83,57,10]
def twoBuffer : Buffer := fun i => twoRecords.getD i 0

theorem loadXx_feeds_two : Loaded twoRecords twoBuffer 3 ∧
      ∀ k, (loadXx countdown (fun _ => 0) 83 k twoBuffer 3 (twoRecords.drop 3) 1).1 =
        (feed countdown 1 (lines twoRecords)).take k := by
  have hloaded : Loaded twoRecords twoBuffer 3 := ⟨by decide, by decide,⟨rfl,rfl,rfl,trivial⟩⟩
  refine ⟨hloaded,(loadXx_feeds_iff countdown (fun _ => 0) 83 1 twoRecords twoBuffer 3 hloaded
    (by decide)).mpr ?_⟩
  refine ⟨rfl, by decide,.inr ⟨.inl rfl, by decide,.inl ?_⟩⟩
  decide

theorem loadXx_broken :
    Loaded twoRecords twoBuffer 4 ∧ (∀ line∈lines twoRecords, line.length<DLREC) ∧
      (loadXx countdown (fun _ => 0) 83 2 twoBuffer 4 (twoRecords.drop 4) 1).1 ≠
        (feed countdown 1 (lines twoRecords)).take 2 := by
  refine ⟨⟨by decide, by decide,⟨rfl,rfl,rfl,rfl,trivial⟩⟩, by decide,?_⟩
  decide +kernel

end Pmon.RecordFeed
