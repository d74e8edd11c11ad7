import Mathlib.Tactic
import Mathlib.Data.List.Basic

/-!
# Text with balanced parentheses

The parentheses match, and a condition holds of the characters outside of them.
-/

namespace Pmon.BalancedText

inductive Clean : (Char → Prop) → List Char → Prop
  | nil {top : Char → Prop} : Clean top []
  | char {top : Char → Prop} {c : Char} {p : List Char} (hopen : c ≠ '(') (hclose : c ≠ ')')
    (htop : top c) (hp : Clean top p) : Clean top (c::p)
  | group {top : Char → Prop} {p q : List Char} (hp : Clean (fun _ => True) p)
    (hq : Clean top q) : Clean top ('(' :: (p ++ ')' :: q))

variable {top top' : Char → Prop} {p q : List Char}

theorem Clean.append (hp : Clean top p) (hq : Clean top q) : Clean top (p++q) := by
  induction hp with
  | nil => exact hq
  | char hopen hclose htop _ ih => exact .char hopen hclose htop (ih hq)
  | group hp _ _ ih =>
    rw [List.cons_append,List.append_assoc,List.cons_append]
    exact .group hp (ih hq)

theorem Clean.mono (hp : Clean top p) (h : ∀ c, top c → top' c) : Clean top' p := by
  induction hp with
  | nil => exact .nil
  | char hopen hclose htop _ ih => exact .char hopen hclose (h _ htop) (ih h)
  | group hp _ _ ih => exact .group hp (ih h)

theorem Clean.any (hp : Clean top p) : Clean (fun _ => True) p := hp.mono fun _ _ => trivial

theorem clean_of_forall (h : ∀ c∈p, c ≠ '(' ∧ c ≠ ')' ∧ top c) : Clean top p := by
  induction p with
  | nil => exact .nil
  | cons c p ih =>
    obtain ⟨hopen,hclose,htop⟩ := h c List.mem_cons_self
    exact .char hopen hclose htop (ih fun d hd => h d (List.mem_cons_of_mem _ hd))

theorem Clean.open_group {x : List Char} (h : Clean top ('(' :: x)) :
    ∃ p q, x=p ++ ')' :: q ∧ Clean (fun _ => True) p := by
  cases h with
  | char hopen => exact absurd rfl hopen
  | group hp _ => exact ⟨_,_,rfl,hp⟩

end Pmon.BalancedText
