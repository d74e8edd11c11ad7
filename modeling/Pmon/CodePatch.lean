import Mathlib.Tactic
import Mathlib.Logic.Function.Basic
import Mathlib.Data.List.Basic

/-!
# Patched words and the lists that remember their contents

A list of remembered words gives everything back when its first entry for each patched word is the
original; `Held` says so for two lists.
-/

namespace Pmon.CodePatch
open List Function
variable {α β : Type} [DecidableEq α]

structure Memory (α β : Type) where
  word : α → β
  planted : α → Option β

namespace Memory

def plant (m : Memory α β) (code : β) (a : α) : Memory α β where
  word := update m.word a code
  planted := update m.planted a (some ((m.planted a).getD (m.word a)))

def giveBack [DecidableEq β] (m : Memory α β) (a : α) (v : β) : Memory α β where
  word := update m.word a v
  planted := if m.planted a=some v then update m.planted a none else m.planted

def write (m : Memory α β) (w : α × β) : Memory α β where
  word := update m.word w.1 w.2
  planted := update m.planted w.1 none

def writeAll (m : Memory α β) (ws : List (α × β)) : Memory α β := ws.foldl write m

def restore [DecidableEq β] (code : β) (m : Memory α β) (e : α × β) : Memory α β :=
  if m.word e.1=code then m.giveBack e.1 e.2 else m

def restoreAll [DecidableEq β] (m : Memory α β) (code : β) (es : List (α × β)) : Memory α β :=
  es.foldl (restore code) m

end Memory

/-- Every patched word carries the code; its original is the first entry for it in the inner list,
or in the outer one while the inner entries are the code. -/
def Held (code : β) (inner outer : List (α × β)) (m : Memory α β) : Prop :=
  ∀ a v, m.planted a=some v → m.word a=code ∧
    (inner.lookup a=some v ∨
      outer.lookup a=some v ∧ ∀ w, (a,w)∈inner → w=code)

theorem lookup_cons_self (a : α) (v : β) (es : List (α × β)) :
    ((a,v)::es).lookup a=some v := List.lookup_cons_self

theorem lookup_cons_of_ne {a b : α} (h : a≠b) (v : β) (es : List (α × β)) :
    ((b,v)::es).lookup a=es.lookup a := by
  have hkey := beq_eq_false_iff_ne.mpr h
  rw [List.lookup_cons,hkey]

theorem lookup_append (a : α) (es fs : List (α × β)) :
    (es++fs).lookup a=(es.lookup a).or (fs.lookup a) := by
  induction es with
  | nil => rfl
  | cons e es ih =>
    obtain ⟨b,v⟩ := e
    by_cases h : a=b
    · subst h
      rw [cons_append,lookup_cons_self,lookup_cons_self]
      rfl
    · rw [cons_append,lookup_cons_of_ne h,lookup_cons_of_ne h,ih]

theorem mem_of_lookup {a : α} {v : β} {es : List (α × β)} (h : es.lookup a=some v) :
    (a,v)∈es := by
  induction es with
  | nil => simp at h
  | cons e es ih =>
    obtain ⟨b,w⟩ := e
    by_cases hab : a=b
    · subst hab
      rw [lookup_cons_self] at h
      cases h
      exact mem_cons_self
    · rw [lookup_cons_of_ne hab] at h
      exact mem_cons_of_mem _ (ih h)

theorem lookup_eq_none {a : α} {es : List (α × β)} (h : ∀ v, (a,v)∉es) : es.lookup a=none := by
  cases hl : es.lookup a with
  | none => rfl
  | some v => exact absurd (mem_of_lookup hl) (h v)

theorem lookup_append_swap {es fs : List (α × β)}
    (hdisjoint : ∀ a v w, (a,v)∈es → (a,w)∉fs) {a : α} {v : β}
    (h : (es++fs).lookup a=some v) : (fs++es).lookup a=some v := by
  rw [lookup_append] at h ⊢
  cases he : es.lookup a with
  | none =>
    rw [he,Option.none_or] at h
    rw [h]
    rfl
  | some u =>
    rw [he,Option.some_or] at h
    have hnone := lookup_eq_none fun w hw => hdisjoint a u w (mem_of_lookup he) hw
    rw [hnone,Option.none_or]
    exact h

variable {code : β} {inner outer : List (α × β)} {m : Memory α β}

theorem held_nil : Held code [] [] m ↔ ∀ a, m.planted a=none := by
  constructor
  · intro h a
    cases hp : m.planted a with
    | none => rfl
    | some v =>
      rcases (h a v hp).2 with hin | hout
      · simp at hin
      · simp at hout
  · intro h a v hp
    rw [h a] at hp
    cases hp

theorem held_inner_iff : Held code inner [] m ↔ Held code [] inner m := by
  constructor
  · intro h a v hp
    obtain ⟨hword,hin | hout⟩ := h a v hp
    · exact ⟨hword,.inr ⟨hin,by simp⟩⟩
    · simp at hout
  · intro h a v hp
    obtain ⟨hword,hin | hout⟩ := h a v hp
    · simp at hin
    · exact ⟨hword,.inl hout.1⟩

theorem Held.outer_mono {outer' : List (α × β)} (h : Held code inner outer m)
    (ho : ∀ a v, outer.lookup a=some v → outer'.lookup a=some v) :
    Held code inner outer' m := by
  intro a v hp
  obtain ⟨hword,hin | hout⟩ := h a v hp
  · exact ⟨hword,.inl hin⟩
  · exact ⟨hword,.inr ⟨ho a v hout.1,hout.2⟩⟩

theorem Held.write (h : Held code inner outer m) (w : α × β) :
    Held code inner outer (m.write w) := by
  intro a v hp
  by_cases ha : a=w.1
  · have hnone : (m.write w).planted a=none := by rw [ha]; exact update_self ..
    rw [hnone] at hp
    cases hp
  · have hword : (m.write w).word a=m.word a := update_of_ne ha ..
    have hplanted : (m.write w).planted a=m.planted a := update_of_ne ha ..
    rw [hplanted] at hp
    rw [hword]
    exact h a v hp

theorem Held.writeAll (h : Held code inner outer m) (ws : List (α × β)) :
    Held code inner outer (m.writeAll ws) := by
  induction ws generalizing m with
  | nil => exact h
  | cons w ws ih => exact ih (h.write w)

def Planted (es : List (α × β)) (m : Memory α β) : Prop := ∀ e∈es, m.planted e.1≠none

theorem Planted.plant {es : List (α × β)} (h : Planted es m) (a : α) (v : β) :
    Planted (es++[(a,v)]) (m.plant code a) := by
  intro e he
  by_cases hkey : e.1=a
  · rw [hkey]
    simp [Memory.plant]
  · have hold : (m.plant code a).planted e.1=m.planted e.1 := update_of_ne hkey ..
    rw [hold]
    rcases mem_append.mp he with hmem | hnew
    · exact h e hmem
    · rw [mem_singleton] at hnew
      rw [hnew] at hkey
      exact absurd rfl hkey

theorem Held.plant (h : Held code inner outer m) (hinner : Planted inner m) (a : α) :
    Held code (inner++[(a,m.word a)]) outer (m.plant code a) := by
  intro b v hp
  -- what the longer list finds for a word it found before, or for another word
  have hmem : ∀ w, (b,w)∈inner++[(a,m.word a)] → (b,w)∈inner ∨ b=a ∧ w=m.word a := by
    intro w hw
    rcases mem_append.mp hw with hold | hnew
    · exact .inl hold
    · rw [mem_singleton,Prod.mk.injEq] at hnew
      exact .inr hnew
  have hkeep : ∀ w, inner.lookup b=some w →
      (inner++[(a,m.word a)]).lookup b=some w := by
    intro w hw
    rw [lookup_append,hw]
    rfl
  by_cases hb : b=a
  · subst hb
    have hword : (m.plant code b).word b=code := update_self ..
    have hplanted : (m.plant code b).planted b=some ((m.planted b).getD (m.word b)) :=
      update_self ..
    refine ⟨hword,?_⟩
    rw [hplanted,Option.some.injEq] at hp
    cases hold : m.planted b with
    | none =>
      rw [hold,Option.getD_none] at hp
      have hnone := lookup_eq_none fun w hw => hinner (b,w) hw hold
      left
      rw [lookup_append,hnone,lookup_cons_self,hp]
      rfl
    | some u =>
      rw [hold,Option.getD_some] at hp
      subst hp
      obtain ⟨hcode,hin | hout⟩ := h b u hold
      · exact .inl (hkeep u hin)
      · refine .inr ⟨hout.1,fun w hw => ?_⟩
        rcases hmem w hw with hold' | hnew
        · exact hout.2 w hold'
        · rw [hnew.2,hcode]
  · have hword : (m.plant code a).word b=m.word b := update_of_ne hb ..
    have hplanted : (m.plant code a).planted b=m.planted b := update_of_ne hb ..
    rw [hplanted] at hp
    rw [hword]
    obtain ⟨hcode,hin | hout⟩ := h b v hp
    · exact ⟨hcode,.inl (hkeep v hin)⟩
    · refine ⟨hcode,.inr ⟨hout.1,fun w hw => ?_⟩⟩
      rcases hmem w hw with hold | hnew
      · exact hout.2 w hold
      · exact absurd hnew.1 hb

theorem Held.restore [DecidableEq β] {e : α × β} (h : Held code (e::inner) outer m) :
    Held code inner outer (m.restore code e) := by
  obtain ⟨b,w⟩ := e
  intro a v hp
  by_cases ha : a=b
  · subst ha
    -- the word is patched, so it carries the code and the entry is stored
    have hpatched : ∃ u, m.planted a=some u := by
      by_contra hnot
      have hnone : m.planted a=none := by
        cases hold : m.planted a with
        | none => rfl
        | some u => exact absurd ⟨u,hold⟩ hnot
      rw [Memory.restore] at hp
      split at hp
      · rw [Memory.giveBack,hnone,if_neg (by simp)] at hp
        rw [hnone] at hp
        cases hp
      · rw [hnone] at hp
        cases hp
    obtain ⟨u,hu⟩ := hpatched
    obtain ⟨hcode,hrest⟩ := h a u hu
    have hstore : m.restore code (a,w)=m.giveBack a w := if_pos hcode
    have hword : (m.giveBack a w).word a=w := update_self ..
    rw [hstore] at hp ⊢
    by_cases hback : u=w
    · subst hback
      have hnone : (m.giveBack a u).planted a=none := by
        rw [Memory.giveBack,if_pos hu]
        exact update_self ..
      rw [hnone] at hp
      cases hp
    · have hstill : (m.giveBack a w).planted a=some u := by
        have hne : m.planted a≠some w := by
          rw [hu]
          simpa using hback
        rw [Memory.giveBack,if_neg hne]
        exact hu
      rw [hstill,Option.some.injEq] at hp
      subst hp
      rcases hrest with hin | hout
      · rw [lookup_cons_self,Option.some.injEq] at hin
        exact absurd hin.symm hback
      · have hsame := hout.2 w mem_cons_self
        exact ⟨hword.trans hsame,
          .inr ⟨hout.1,fun x hx => hout.2 x (mem_cons_of_mem _ hx)⟩⟩
  · have hother : (m.restore code (b,w)).word a=m.word a ∧
        (m.restore code (b,w)).planted a=m.planted a := by
      rw [Memory.restore]
      split
      · refine ⟨update_of_ne ha ..,?_⟩
        rw [Memory.giveBack]
        split
        · exact update_of_ne ha ..
        · rfl
      · exact ⟨rfl,rfl⟩
    rw [hother.2] at hp
    rw [hother.1]
    obtain ⟨hcode,hin | hout⟩ := h a v hp
    · rw [lookup_cons_of_ne ha] at hin
      exact ⟨hcode,.inl hin⟩
    · exact ⟨hcode,.inr ⟨hout.1,fun x hx => hout.2 x (mem_cons_of_mem _ hx)⟩⟩

theorem Held.restoreAll [DecidableEq β] (h : Held code inner outer m) :
    Held code [] outer (m.restoreAll code inner) := by
  induction inner generalizing m with
  | nil => exact h
  | cons e inner ih => exact ih h.restore

theorem Held.restoreAll_outer [DecidableEq β] (h : Held code [] outer m) :
    Held code [] [] (m.restoreAll code outer) := (held_inner_iff.mpr h).restoreAll

theorem Held.append (h : Held code inner outer m)
    (hagree : ∀ a v w, outer.lookup a=some v → inner.lookup a=some w → v=w) :
    Held code [] (outer++inner) m := by
  intro a v hp
  obtain ⟨hcode,hrest⟩ := h a v hp
  refine ⟨hcode,.inr ⟨?_,by simp⟩⟩
  rw [lookup_append]
  rcases hrest with hin | hout
  · cases hl : outer.lookup a with
    | none =>
      rw [hin]
      rfl
    | some w =>
      rw [hagree a w v hl hin]
      rfl
  · rw [hout.1]
    rfl

/-- Each word is as in `w₀`, or carries the code with its content among the entries; each entry
remembers that or the code. -/
structure Saved (code : β) (w₀ : α → β) (es : List (α × β)) (m : Memory α β) : Prop where
  entries : ∀ e∈es, e.2=w₀ e.1 ∨ e.2=code
  words : ∀ a, m.word a=w₀ a ∨ m.word a=code ∧ (a,w₀ a)∈es

variable {w₀ : α → β} {es : List (α × β)}

omit [DecidableEq α] in
theorem saved_nil (code : β) (m : Memory α β) : Saved code m.word [] m := ⟨by simp,by simp⟩

omit [DecidableEq α] in
theorem Saved.of_mem_iff {fs : List (α × β)} (h : Saved code w₀ es m)
    (hsame : ∀ e, e∈fs ↔ e∈es) : Saved code w₀ fs m :=
  ⟨fun e he => h.entries e ((hsame e).mp he),
    fun a => (h.words a).imp_right fun hw => ⟨hw.1,(hsame _).mpr hw.2⟩⟩

theorem Saved.plant (h : Saved code w₀ es m) (a : α) :
    Saved code w₀ ((a,m.word a)::es) (m.plant code a) := by
  constructor
  · intro e he
    rcases mem_cons.mp he with rfl | he
    · exact (h.words a).imp_right And.left
    · exact h.entries e he
  · intro b
    by_cases hb : b=a
    · subst hb
      right
      refine ⟨update_self ..,?_⟩
      rcases h.words b with hkept | ⟨-,hmem⟩
      · rw [←hkept]
        exact mem_cons_self
      · exact mem_cons_of_mem _ hmem
    · have hword : (m.plant code a).word b=m.word b := update_of_ne hb ..
      rw [hword]
      exact (h.words b).imp_right fun hw => ⟨hw.1,mem_cons_of_mem _ hw.2⟩

theorem Saved.restore [DecidableEq β] {e : α × β} (h : Saved code w₀ (e::es) m) :
    Saved code w₀ es (m.restore code e) := by
  refine ⟨fun f hf => h.entries f (mem_cons_of_mem _ hf),fun a => ?_⟩
  have hrest : ∀ a, m.word a=w₀ a ∨ m.word a=code ∧ ((a,w₀ a)=e ∨ (a,w₀ a)∈es) :=
    fun a => (h.words a).imp_right fun hw => ⟨hw.1,mem_cons.mp hw.2⟩
  unfold Memory.restore
  by_cases hcode : m.word e.1=code
  · rw [if_pos hcode]
    by_cases ha : a=e.1
    · have hword : (m.giveBack e.1 e.2).word a=e.2 := by
        rw [ha]
        exact update_self ..
      rw [hword]
      rcases h.entries e mem_cons_self with horig | hagain
      · left
        rw [horig,ha]
      · rcases hrest a with hkept | ⟨hsame,hentry | hmem⟩
        · left
          rw [hagain,←hkept,ha,hcode]
        · left
          rw [←hentry]
        · exact Or.inr ⟨hagain,hmem⟩
    · have hword : (m.giveBack e.1 e.2).word a=m.word a := update_of_ne ha ..
      rw [hword]
      rcases hrest a with hkept | ⟨hsame,hentry | hmem⟩
      · exact Or.inl hkept
      · rw [←hentry] at ha
        exact absurd rfl ha
      · exact Or.inr ⟨hsame,hmem⟩
  · rw [if_neg hcode]
    rcases hrest a with hkept | ⟨hsame,hentry | hmem⟩
    · exact Or.inl hkept
    · rw [←hentry] at hcode
      exact absurd hsame hcode
    · exact Or.inr ⟨hsame,hmem⟩

theorem Saved.restoreAll [DecidableEq β] (h : Saved code w₀ es m) :
    (m.restoreAll code es).word=w₀ := by
  induction es generalizing m with
  | nil =>
    funext a
    exact (h.words a).resolve_right (by simp)
  | cons e es ih => exact ih h.restore

theorem Saved.write {m₀ : Memory α β} (h : Saved code m₀.word es m) {w : α × β}
    (hw : ∀ e∈es, e.1≠w.1) : Saved code (m₀.write w).word es (m.write w) := by
  constructor
  · intro e he
    have hword : (m₀.write w).word e.1=m₀.word e.1 := update_of_ne (hw e he) ..
    rw [hword]
    exact h.entries e he
  · intro a
    by_cases ha : a=w.1
    · have hword : (m.write w).word w.1=w.2 := update_self ..
      have hword₀ : (m₀.write w).word w.1=w.2 := update_self ..
      left
      rw [ha,hword,hword₀]
    · have hword : (m.write w).word a=m.word a := update_of_ne ha ..
      have hword₀ : (m₀.write w).word a=m₀.word a := update_of_ne ha ..
      rw [hword,hword₀]
      exact h.words a

theorem Saved.writeAll {m₀ : Memory α β} (h : Saved code m₀.word es m) {ws : List (α × β)}
    (hws : ∀ w∈ws, ∀ e∈es, e.1≠w.1) :
    Saved code (m₀.writeAll ws).word es (m.writeAll ws) := by
  induction ws generalizing m m₀ with
  | nil => exact h
  | cons w ws ih =>
    exact ih (h.write (hws w mem_cons_self)) fun v hv => hws v (mem_cons_of_mem _ hv)

section
variable [DecidableEq β]

theorem restore_word (m : Memory α β) (code : β) (e : α × β) :
    (m.restore code e).word = if m.word e.1=code then update m.word e.1 e.2
      else m.word := by
  rw [Memory.restore]
  split <;> rfl

theorem restoreAll_word_of_ne {a : α} (h : m.word a≠code) :
    (m.restoreAll code es).word a=m.word a := by
  induction es generalizing m with
  | nil => rfl
  | cons e es ih =>
    have hstep : (m.restore code e).word a=m.word a := by
      rw [restore_word]
      split
      · rename_i hcode
        refine update_of_ne ?_ ..
        rintro rfl
        exact h hcode
      · rfl
    rw [Memory.restoreAll,foldl_cons,←Memory.restoreAll,ih (by rwa [hstep]),hstep]

theorem restoreAll_word_eq_iff :
    (m.restoreAll code es).word=m.word ↔ ∀ e∈es, m.word e.1=code → e.2=code := by
  induction es generalizing m with
  | nil => simp [Memory.restoreAll]
  | cons e es ih =>
    rw [Memory.restoreAll,foldl_cons,←Memory.restoreAll,forall_mem_cons]
    by_cases hkeep : m.word e.1=code → e.2=code
    · have hword : (m.restore code e).word=m.word := by
        rw [restore_word]
        split
        · rename_i hcode
          rw [hkeep hcode,←hcode,update_eq_self]
        · rfl
      rw [←hword,ih,hword]
      exact ⟨fun h => ⟨hkeep,h⟩,fun h => h.2⟩
    · -- the word given back no longer carries the code, and stays so
      obtain ⟨hcode,hne⟩ := Classical.not_imp.mp hkeep
      have hgiven : (m.restore code e).word e.1=e.2 := by
        rw [restore_word,if_pos hcode,update_self]
      have hfinal : ((m.restore code e).restoreAll code es).word e.1 =
          (m.restore code e).word e.1 := restoreAll_word_of_ne (by rwa [hgiven])
      refine ⟨fun h => ?_,fun h => absurd h.1 hkeep⟩
      rw [h,hgiven,hcode] at hfinal
      exact absurd hfinal.symm hne
end
end Pmon.CodePatch
