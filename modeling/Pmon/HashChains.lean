import Mathlib.Data.List.FinRange
import Mathlib.Data.List.Perm.Basic
import Mathlib.Logic.Function.Basic
import Mathlib.Tactic

/-!
# Chained hash tables

When every item is in the chain of its hash value, a search of one chain is a search of the table.
-/

namespace Pmon.HashChains
open List Function
variable {α : Type*} {n : ℕ}

def items (chains : Fin n → List α) : List α := (List.finRange n).flatMap chains

theorem mem_items {chains : Fin n → List α} {a : α} : a∈items chains ↔ ∃ i, a∈chains i := by
  simp only [items,mem_flatMap,mem_finRange,true_and]

theorem items_empty : items (fun _ : Fin n => ([] : List α))=[] := by
  simp only [items,flatMap_eq_nil_iff,implies_true]

def push (chains : Fin n → List α) (i : Fin n) (a : α) : Fin n → List α :=
  update chains i (a::chains i)

theorem flatMap_push (chains : Fin n → List α) (a : α) {i : Fin n} {l : List (Fin n)}
    (hl : l.Nodup) (hi : i∈l) : (l.flatMap (push chains i a)).Perm (a::l.flatMap chains) := by
  induction l with
  | nil => cases hi
  | cons j l ih =>
    obtain ⟨hj,hl⟩ := nodup_cons.mp hl
    rw [flatMap_cons,flatMap_cons]
    rcases mem_cons.mp hi with rfl | hi
    · have hrest : l.flatMap (push chains i a)=l.flatMap chains := by
        refine flatMap_congr fun k hk => update_of_ne ?_ ..
        rintro rfl
        exact hj hk
      rw [hrest,push,update_self]
      exact List.Perm.refl _
    · have hne : j≠i := by
        rintro rfl
        exact hj hi
      rw [push,update_of_ne hne]
      exact ((ih hl hi).append_left _).trans perm_middle

theorem items_push (chains : Fin n → List α) (i : Fin n) (a : α) :
    (items (push chains i a)).Perm (a::items chains) :=
  flatMap_push chains a (nodup_finRange n) (mem_finRange i)

def Filed (hash : α → Fin n) (chains : Fin n → List α) : Prop := ∀ i, ∀ a∈chains i, hash a=i

variable {hash : α → Fin n} {chains : Fin n → List α}

theorem Filed.mem_chain_iff (h : Filed hash chains) {a : α} :
    a∈chains (hash a) ↔ a∈items chains := by
  constructor
  · exact fun ha => mem_items.mpr ⟨_,ha⟩
  · intro ha
    obtain ⟨i,hi⟩ := mem_items.mp ha
    rwa [h i a hi]

theorem Filed.push (h : Filed hash chains) {a : α} {i : Fin n} (ha : hash a=i) :
    Filed hash (push chains i a) := by
  intro j b hb
  by_cases hj : j=i
  · subst hj
    rw [HashChains.push,update_self] at hb
    rcases mem_cons.mp hb with rfl | hb
    · exact ha
    · exact h j b hb
  · rw [HashChains.push,update_of_ne hj] at hb
    exact h j b hb

theorem Filed.congr (h : Filed hash chains) {hash' : α → Fin n}
    (heq : ∀ a∈items chains, hash' a=hash a) : Filed hash' chains := by
  intro i a ha
  rw [heq a (mem_items.mpr ⟨i,ha⟩),h i a ha]

end Pmon.HashChains
