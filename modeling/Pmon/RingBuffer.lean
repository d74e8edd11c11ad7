import Mathlib.Tactic

/-!
# First-in first-out contents of a ring of cells

A ring of `m` cells holds `count` entries from the cell `first` on. Removing only advances `first`.
-/

namespace Pmon.RingBuffer
open List
variable {α : Type*}

def contents (m : ℕ) (dat : ℕ → α) (first count : ℕ) : List α :=
  (List.range count).map fun i => dat ((first+i)%m)

@[simp] theorem length_contents (m : ℕ) (dat : ℕ → α) (first count : ℕ) :
    (contents m dat first count).length=count := by
  simp [contents]

@[simp] theorem contents_zero (m : ℕ) (dat : ℕ → α) (first : ℕ) : contents m dat first 0=[] := rfl

theorem offset_ne {m first i j : ℕ} (hi : i < m) (hj : j < m) (hij : i≠j) :
    (first+i)%m≠(first+j)%m := by
  intro h
  have hmod : i ≡ j [MOD m] := Nat.ModEq.add_left_cancel' first h
  exact hij (hmod.eq_of_lt_of_lt hi hj)

theorem contents_put {m first count : ℕ} (dat : ℕ → α) (x : α) (h : count < m) :
    contents m (Function.update dat ((first+count)%m) x) first (count+1) =
      contents m dat first count++[x] := by
  unfold contents
  rw [range_succ,map_append]
  congr 1
  · apply map_congr_left
    intro i hi
    have hi' : i<count := List.mem_range.1 hi
    exact Function.update_of_ne (offset_ne (hi'.trans h) h hi'.ne) _ _
  · simp

theorem contents_get {m first count : ℕ} (dat : ℕ → α) (hfirst : first < m) :
    contents m dat first (count+1) = dat first::contents m dat ((first+1)%m) count := by
  unfold contents
  rw [range_succ_eq_map,map_cons,map_map,Nat.add_zero,Nat.mod_eq_of_lt hfirst]
  congr 1
  apply map_congr_left
  intro i _
  simp only [Function.comp_apply,Nat.mod_add_mod]
  congr 2
  omega

end Pmon.RingBuffer
