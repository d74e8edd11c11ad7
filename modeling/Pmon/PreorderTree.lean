import Mathlib.Tactic

/-!
# Trees numbered in the order of their discovery

A depth-first walk numbers the nodes, and each remembers its parent. So the nodes below a node are
numbered without a gap.
-/

namespace Pmon.PreorderTree
open Function

inductive Below (parent : ℕ → ℕ) (b : ℕ) : ℕ → Prop
  | self : Below parent b b
  | child {j : ℕ} (hpos : 0<j) (h : Below parent b (parent j)) : Below parent b j

structure Numbered (parent : ℕ → ℕ) (n : ℕ) : Prop where
  parent_lt : ∀ j, 0<j → j<n → parent j<j
  below_pred : ∀ j, 0<j → j<n → Below parent (parent j) (j-1)

variable {parent : ℕ → ℕ} {n b i j : ℕ}

theorem Below.trans (hbi : Below parent b i) (hij : Below parent i j) : Below parent b j := by
  induction hij with
  | self => exact hbi
  | child hpos h ih => exact .child hpos ih

theorem Numbered.le_of_below (h : Numbered parent n) (hbj : Below parent b j) (hj : j<n) :
    b≤j := by
  induction hbj with
  | self => exact le_rfl
  | child hpos _ ih =>
    have hlt := h.parent_lt _ hpos hj
    exact (ih (hlt.trans hj)).trans hlt.le

theorem Below.parent_of_ne (hbj : Below parent b j) (hne : b≠j) : Below parent b (parent j) := by
  cases hbj with
  | self => exact absurd rfl hne
  | child _ h => exact h

theorem Numbered.below_of_le (h : Numbered parent n) (hbj : Below parent b j) (hj : j<n)
    (hbi : b ≤ i) (hij : i≤j) : Below parent b i := by
  induction j with
  | zero =>
    obtain rfl : i=0 := by omega
    exact hbj
  | succ j ih =>
    rcases eq_or_lt_of_le hij with rfl | hlt
    · exact hbj
    · have hparent := hbj.parent_of_ne (by omega)
      have hlast := h.below_pred (j+1) j.succ_pos hj
      exact ih (hparent.trans hlast) (by omega) (by omega)

theorem Below.congr {parent' : ℕ → ℕ} (hparent : ∀ k, 0<k → k≤j → parent' k=parent k)
    (hlt : ∀ k, 0<k → k≤j → parent k<k) (h : Below parent b j) : Below parent' b j := by
  induction h with
  | self => exact .self
  | @child k hpos _ ih =>
    have hk := hlt k hpos le_rfl
    refine .child hpos ?_
    rw [hparent k hpos le_rfl]
    exact ih (fun m hm hle => hparent m hm (hle.trans hk.le))
      (fun m hm hle => hlt m hm (hle.trans hk.le))

theorem Numbered.push (h : Numbered parent n) (hb : Below parent b (n-1)) (hbn : b<n) :
    Numbered (update parent n b) (n+1) := by
  have hold : ∀ k, k<n → update parent n b k=parent k :=
    fun k hk => update_of_ne hk.ne b parent
  have hbelow : ∀ {c j}, Below parent c j → j<n → Below (update parent n b) c j :=
    fun hcj hj => hcj.congr (fun k _ hk => hold k (hk.trans_lt hj))
      (fun k hpos hk => h.parent_lt k hpos (hk.trans_lt hj))
  constructor <;> intro j hpos hj <;> rcases eq_or_lt_of_le (Nat.le_of_lt_succ hj) with rfl | hlt
  · rw [update_self]
    exact hbn
  · rw [hold j hlt]
    exact h.parent_lt j hpos hlt
  · rw [update_self]
    exact hbelow hb (by omega)
  · rw [hold j hlt]
    exact hbelow (h.below_pred j hpos hlt) (by omega)

end Pmon.PreorderTree
