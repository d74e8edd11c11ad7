import Mathlib

/-!
# Sorting with a comparison function

A sort permutes the array and, when the comparisons among its entries are consistent, puts it in
order.
-/

namespace Pmon.CompareSort
variable {α : Type*}

structure IsOrderOn (cmp : α → α → ℤ) (l : List α) : Prop where
  total : ∀ a∈l, ∀ b∈l, cmp a b≤0 ∨ cmp b a≤0
  trans : ∀ a∈l, ∀ b∈l, ∀ c∈l, cmp a b≤0 → cmp b c≤0 → cmp a c≤0

structure Sorter (α : Type*) where
  sort : (α → α → ℤ) → List α → List α
  perm : ∀ cmp l, (sort cmp l).Perm l
  sorted : ∀ cmp l, IsOrderOn cmp l → (sort cmp l).Pairwise fun a b => cmp a b≤0

def insertion : Sorter α where
  sort cmp l := (l.attach.insertionSort fun a b => cmp a.1 b.1≤0).map Subtype.val
  perm cmp l := by
    have hperm := (List.perm_insertionSort (fun a b : {a // a∈l} => cmp a.1 b.1≤0)
      l.attach).map Subtype.val
    rwa [List.attach_map_subtype_val] at hperm
  sorted cmp l h := by
    have : Std.Total fun a b : {a // a∈l} => cmp a.1 b.1≤0 :=
      ⟨fun a b => h.total a.1 a.2 b.1 b.2⟩
    have : IsTrans {a // a∈l} fun a b => cmp a.1 b.1≤0 :=
      ⟨fun a b c => h.trans a.1 a.2 b.1 b.2 c.1 c.2⟩
    exact List.pairwise_map.mpr (List.pairwise_insertionSort _ l.attach)

end Pmon.CompareSort
