import Pmon.ValidPc

/-!
# The line editor

The cursor column of `get_line` is not assigned; it follows from what the helpers write to the
screen.
-/

namespace Pmon.LineEdit

open List Function

/-- The keys of `get_line`, but for those of the history. -/
inductive Key where
  | char (c : UInt8)
  | forw
  | back
  | begin
  | end
  | mark
  | delete
  | delline
  | kill
  | backspace

/-- The line, `column` and `mark`. -/
structure Line where
  p : List UInt8
  column : ℕ
  mark : ℤ
  deriving DecidableEq

/-- The column behind `putstr`. -/
def putstr (s : List UInt8) (column : ℕ) : ℕ :=
  s.foldl (fun column c => if c=10 then 0 else column+1) column

def left : ℕ → ℕ → ℕ
  | 0, column => column
  | n+1, column => if 0<column then left n (column-1) else column

def right (len : ℕ) : ℕ → ℕ → ℕ
  | 0, column => column
  | n+1, column => if column<len then right len n (column+1) else column

/-- `strdchr (&p[column])`. -/
def strdchr (column : ℕ) (p : List UInt8) : List UInt8 := p.take column++(p.drop column).tail

/-- Writing the line from `column` on with `n` blanks, and going back. -/
def redraw (p : List UInt8) (column n : ℕ) : ℕ :=
  left ((p.drop column).length+n) (putstr (List.replicate n 32) (putstr (p.drop column) column))

def step (s : Line) : Key → Line
  | .forw => {s with column := right s.p.length 1 s.column}
  | .back => {s with column := left 1 s.column}
  | .begin => {s with column := left s.column s.column}
  | .end => {s with column := right s.p.length (s.p.drop s.column).length s.column}
  | .mark => {s with mark := s.column}
  | .delete =>
    let p := strdchr s.column s.p
    ⟨p,redraw p s.column 1, if s.mark>s.column then s.mark-1 else s.mark⟩
  | .delline =>
    let n := (s.p.drop s.column).length
    ⟨s.p.take s.column,left n (putstr (List.replicate n 32) s.column),
      if s.mark>s.column then s.column else s.mark⟩
  | .kill =>
    let n := (s.column-s.mark).natAbs
    if n=0 then s
    else
      let column := if (s.column : ℤ)>s.mark then left n s.column else s.column
      let p := (strdchr column)^[n] s.p
      let column := redraw p column n
      ⟨p,column,column⟩
  | .backspace =>
    let oc := left 1 s.column
    let p := strdchr oc s.p
    ⟨p,redraw p oc 1, if s.mark≥oc then s.mark-1 else s.mark⟩
  | .char c =>
    if LINESZ-40<s.p.length then s
    else
      let p := s.p.take s.column++c::s.p.drop s.column
      {s with p, column := left ((p.drop s.column).length-1) (putstr (p.drop s.column) s.column)}

/-- The line at the first `getchar`. -/
def start (p : List UInt8) : Line := ⟨p,left (putstr p 0) (putstr p 0),0⟩

/-- The editor that is meant. -/
structure Editor where
  text : List UInt8
  cursor : ℕ
  mark : ℕ
  cursor_le : cursor≤text.length
  mark_le : mark≤text.length

/-- Deleting `n` characters at `a`, which moves a mark behind them. -/
def Editor.cut (e : Editor) (a n : ℕ) (h : a+n≤e.text.length) : Editor where
  text := e.text.take a++e.text.drop (a+n)
  cursor := a
  mark := if a+n≤e.mark then e.mark-n else min e.mark a
  cursor_le := by rw [List.length_append,List.length_take]; omega
  mark_le := by
    have := e.mark_le
    rw [List.length_append,List.length_take,List.length_drop]
    split <;> omega

def Editor.press (e : Editor) : Key → Editor
  | .forw => {e with cursor := min (e.cursor+1) e.text.length, cursor_le := min_le_right _ _}
  | .back => {e with cursor := e.cursor-1, cursor_le := (Nat.sub_le _ _).trans e.cursor_le}
  | .begin => {e with cursor := 0, cursor_le := Nat.zero_le _}
  | .end => {e with cursor := e.text.length, cursor_le := le_rfl}
  | .mark => {e with mark := e.cursor, mark_le := e.cursor_le}
  | .delete => if h : e.cursor+1≤e.text.length then e.cut e.cursor 1 h else e
  | .delline => e.cut e.cursor (e.text.length-e.cursor) (by have := e.cursor_le; omega)
  | .kill =>
    { e.cut (min e.cursor e.mark) (max e.cursor e.mark - min e.cursor e.mark)
        (by have := e.cursor_le; have := e.mark_le; omega) with
      mark := min e.cursor e.mark
      mark_le := (e.cut _ _ _).cursor_le }
  | .backspace =>
    if h : 0<e.cursor then e.cut (e.cursor-1) 1 (by have := e.cursor_le; omega) else e
  | .char c =>
    if LINESZ-40<e.text.length then e
    else
      { text := e.text.take e.cursor++c::e.text.drop e.cursor
        cursor := e.cursor+1
        mark := e.mark
        cursor_le := by rw [List.length_append,List.length_take,List.length_cons,
          List.length_drop]; have := e.cursor_le; omega
        mark_le := by rw [List.length_append,List.length_take,List.length_cons,
          List.length_drop]; have := e.mark_le; have := e.cursor_le; omega }

def Editor.start (p : List UInt8) : Editor := ⟨p,0,0,Nat.zero_le _,Nat.zero_le _⟩

/-- A backspace is neither at the start of the line nor right behind the mark. -/
def Editor.Sound (e : Editor) : Key → Prop
  | .backspace => 0<e.cursor ∧ e.mark+1≠e.cursor
  | _ => True

def Editor.Sounds : Editor → List Key → Prop
  | _, [] => True
  | e, k::keys => e.Sound k ∧ (e.press k).Sounds keys

def Key.Printable : Key → Prop
  | .char c => 32≤c ∧ c<127
  | _ => True

/-- The line is that of the editor, whose cursor and mark are never outside. -/
structure Shows (s : Line) (e : Editor) : Prop where
  text : s.p=e.text
  column : s.column=e.cursor
  mark : s.mark=e.mark
  newline : 10∉e.text

variable {s : Line} {e : Editor} {p : List UInt8} {column n a b : ℕ}

theorem left_eq (n column : ℕ) : left n column=column-n := by
  induction n generalizing column with
  | zero => rfl
  | succ n ih =>
    rw [left,ih]
    split <;> omega

theorem right_eq (h : column≤p.length) : right p.length n column = min (column+n) p.length := by
  induction n generalizing column with
  | zero => exact (min_eq_left h).symm
  | succ n ih =>
    rw [right]
    split
    · rw [ih (by omega)]
      omega
    · omega

theorem putstr_eq (h : 10∉p) : putstr p column=column+p.length := by
  induction p generalizing column with
  | nil => rfl
  | cons c p ih =>
    rw [mem_cons,not_or] at h
    have hrest : putstr p (column+1)=column+1+p.length := ih h.2
    rw [putstr] at hrest ⊢
    rw [foldl_cons,if_neg (Ne.symm h.1),hrest,length_cons]
    omega

theorem blanks_newline (n : ℕ) : (10 : UInt8)∉List.replicate n 32 := fun h =>
  absurd (eq_of_mem_replicate h) (by decide)

theorem redraw_eq (h : 10∉p) : redraw p column n=column := by
  rw [redraw,putstr_eq fun hm => h (mem_of_mem_drop hm),putstr_eq (blanks_newline n),left_eq,
    length_replicate]
  omega

theorem strdchr_iterate (h : column≤p.length) :
    (strdchr column)^[n] p=p.take column++p.drop (column+n) := by
  induction n with
  | zero => exact (take_append_drop column p).symm
  | succ n ih =>
    have hlen : (p.take column).length=column := length_take_of_le h
    rw [iterate_succ_apply',ih,strdchr,take_left' hlen,drop_left' hlen,tail_drop]
    rfl

theorem cut_newline (h : 10∉p) : 10∉p.take a++p.drop b := fun hm =>
  (mem_append.mp hm).elim (fun hm => h (mem_of_mem_take hm))
    fun hm => h (mem_of_mem_drop hm)

theorem Shows.step (h : Shows s e) {k : Key} (hkey : k.Printable) (hk : e.Sound k) :
    Shows (step s k) (e.press k) := by
  obtain ⟨p,column,mark⟩ := s
  obtain ⟨rfl,rfl,rfl,hnl⟩ := h
  have hcursor := e.cursor_le
  have hmark := e.mark_le
  cases k with
  | forw => exact ⟨rfl,right_eq hcursor,rfl,hnl⟩
  | back => exact ⟨rfl,left_eq _ _,rfl,hnl⟩
  | begin => exact ⟨rfl,(left_eq _ _).trans (Nat.sub_self _),rfl,hnl⟩
  | «end» =>
    refine ⟨rfl,(right_eq hcursor).trans ?_,rfl,hnl⟩
    dsimp only [Editor.press]
    rw [length_drop]
    exact min_eq_right (by omega)
  | mark => exact ⟨rfl,rfl,rfl,hnl⟩
  | delete =>
    have hone := strdchr_iterate (n := 1) hcursor
    rw [iterate_one] at hone
    have hnl' : 10∉strdchr e.cursor e.text := hone ▸ cut_newline hnl
    rw [Editor.press]
    split
    · refine ⟨hone,redraw_eq hnl',?_,cut_newline hnl⟩
      simp only [LineEdit.step,Editor.cut]
      split <;> split <;> omega
    · refine ⟨?_,redraw_eq hnl',if_neg (by dsimp only; omega),hnl⟩
      dsimp only [LineEdit.step]
      rw [hone,drop_of_length_le (by omega),take_of_length_le (by omega),append_nil]
  | delline =>
    refine ⟨?_,?_,?_,cut_newline hnl⟩
    · dsimp only [LineEdit.step,Editor.press,Editor.cut]
      rw [drop_of_length_le (by omega),append_nil]
    · dsimp only [LineEdit.step]
      rw [putstr_eq (blanks_newline _),left_eq,length_replicate]
      exact Nat.add_sub_cancel _ _
    · simp only [LineEdit.step,Editor.press,Editor.cut]
      split <;> split <;> omega
  | kill =>
    dsimp only [LineEdit.step,Editor.press,Editor.cut]
    split
    · rename_i hn
      have hempty : max e.cursor e.mark - min e.cursor e.mark=0 := by omega
      refine ⟨?_, by dsimp only; omega, by dsimp only; omega,cut_newline hnl⟩
      dsimp only
      rw [hempty,Nat.add_zero,take_append_drop]
    · have hcolumn : (if (e.cursor : ℤ)>e.mark then
          left ((e.cursor : ℤ)-e.mark).natAbs e.cursor else e.cursor) = min e.cursor e.mark := by
        rw [left_eq]
        split <;> omega
      have hn : ((e.cursor : ℤ)-e.mark).natAbs =
          max e.cursor e.mark - min e.cursor e.mark := by omega
      have hcut := strdchr_iterate (n := max e.cursor e.mark - min e.cursor e.mark)
        (show min e.cursor e.mark≤e.text.length by omega)
      rw [hcolumn,hn,hcut,redraw_eq (cut_newline hnl)]
      exact ⟨rfl,rfl,rfl,cut_newline hnl⟩
  | backspace =>
    obtain ⟨hpos,hne⟩ := hk
    have hone := strdchr_iterate (n := 1) (show e.cursor-1≤e.text.length by omega)
    rw [iterate_one] at hone
    rw [Editor.press,dif_pos hpos]
    dsimp only [LineEdit.step]
    rw [left_eq,hone,redraw_eq (cut_newline hnl)]
    refine ⟨rfl,rfl,?_,cut_newline hnl⟩
    dsimp only [Editor.cut]
    split <;> split <;> omega
  | char c =>
    have hc : 10≠c := by
      rintro rfl
      exact absurd hkey.1 (by decide)
    dsimp only [LineEdit.step,Editor.press]
    split
    · exact ⟨rfl,rfl,rfl,hnl⟩
    · have hnl' : 10∉c::e.text.drop e.cursor := fun hm =>
        (mem_cons.mp hm).elim hc fun hm => hnl (mem_of_mem_drop hm)
      refine ⟨rfl,?_,rfl, fun hm => (mem_append.mp hm).elim
        (fun hm => hnl (mem_of_mem_take hm)) hnl'⟩
      dsimp only
      rw [drop_left' (length_take_of_le hcursor),putstr_eq hnl',left_eq,length_cons]
      omega

/-- A backspace that is not sound loses the mark. -/
theorem Shows.sound (h : Shows s e) {k : Key} (h' : Shows (LineEdit.step s k) (e.press k)) :
    e.Sound k := by
  cases k with
  | backspace =>
    have hbefore := h.mark
    have hafter := h'.mark
    simp only [LineEdit.step,left_eq,h.column,Editor.press] at hafter
    by_cases hpos : 0<e.cursor
    · refine ⟨hpos, fun hnext => ?_⟩
      rw [dif_pos hpos] at hafter
      simp only [Editor.cut] at hafter
      split_ifs at hafter <;> omega
    · rw [dif_neg hpos] at hafter
      split_ifs at hafter <;> omega
  | _ => trivial

theorem Shows.run_iff (h : Shows s e) {keys : List Key} (hkeys : ∀ k∈keys, k.Printable) :
    (∀ n, Shows ((keys.take n).foldl LineEdit.step s) ((keys.take n).foldl Editor.press e)) ↔
      e.Sounds keys := by
  induction keys generalizing s e with
  | nil => exact iff_of_true (fun n => by rw [take_nil]; exact h) trivial
  | cons k keys ih =>
    rw [forall_mem_cons] at hkeys
    constructor
    · intro hall
      have hone : Shows (LineEdit.step s k) (e.press k) := hall 1
      exact ⟨h.sound hone,(ih hone hkeys.2).mp fun n => hall (n+1)⟩
    · rintro ⟨hk,hrest⟩ n
      cases n with
      | zero => exact h
      | succ n => exact (ih (h.step hkeys.1 hk) hkeys.2).mpr hrest n

/-- After every key the line is that of the editor exactly when every backspace is sound. -/
theorem get_line_edits_iff (p : List UInt8) (keys : List Key) (hp : 10∉p)
    (hkeys : ∀ k∈keys, k.Printable) :
    (∀ n, Shows ((keys.take n).foldl step (start p))
      ((keys.take n).foldl Editor.press (Editor.start p))) ↔ (Editor.start p).Sounds keys :=
  Shows.run_iff ⟨rfl,(left_eq _ _).trans (Nat.sub_self _),rfl,hp⟩ hkeys

theorem get_line_edits_iff_typed :
    Shows ([.char 97,.char 98,.backspace].foldl step (start []))
      ([.char 97,.char 98,.backspace].foldl Editor.press (Editor.start [])) :=
  (get_line_edits_iff [] [.char 97,.char 98,.backspace] (by decide) (by
    simp only [forall_mem_cons]
    exact ⟨⟨by decide,by decide⟩,⟨by decide,by decide⟩,trivial,by simp⟩)).mpr
    ⟨trivial,trivial,⟨by decide,by decide⟩,trivial⟩ 3

/-- At the start of the line a backspace deletes the character under the cursor. -/
theorem backspace_at_start : step (start [97]) .backspace=⟨[],0,-1⟩ ∧
    ((Editor.start [97]).press .backspace).text=[97] := by decide

end Pmon.LineEdit
