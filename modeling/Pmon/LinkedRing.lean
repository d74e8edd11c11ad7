import Mathlib.Tactic

/-!
# Linked paths and rings

`Path next l b`: following `next` visits the elements of `l` in order and then reaches `b`. A ring
is a path from an element to itself.
-/

namespace Pmon.LinkedRing
open List
variable {α : Type*} {next : α → α} {l : List α} {a b : α}

def Path (next : α → α) : List α → α → Prop
  | [], _ => True
  | a::l, b => next a=l.headD b ∧ Path next l b

@[simp] theorem path_nil (next : α → α) (b : α) : Path next [] b := trivial

@[simp] theorem path_cons (next : α → α) (a : α) (l : List α) (b : α) :
    Path next (a::l) b ↔ next a=l.headD b ∧ Path next l b := Iff.rfl

theorem headD_append (l l' : List α) (b : α) : (l++l').headD b=l.headD (l'.headD b) := by
  cases l <;> rfl

theorem path_append (next : α → α) (l l' : List α) (b : α) :
    Path next (l++l') b ↔ Path next l (l'.headD b) ∧ Path next l' b := by
  induction l with
  | nil => simp
  | cons a l ih => simp only [cons_append,path_cons,headD_append,ih,and_assoc]

theorem Path.congr {next' : α → α} (h : Path next l b) (heq : ∀ a∈l, next' a=next a) :
    Path next' l b := by
  induction l with
  | nil => trivial
  | cons a l ih =>
    refine ⟨?_,ih h.2 fun x hx => heq x (mem_cons_of_mem _ hx)⟩
    rw [heq a mem_cons_self]
    exact h.1

/-- Two paths from one element to `b` that do not visit `b` are the same. -/
theorem Path.unique {l' : List α} (h : Path next l b) (h' : Path next l' b) (hl : b∉l)
    (hl' : b∉l') (hhead : l.headD b=l'.headD b) : l=l' := by
  induction l generalizing l' with
  | nil =>
    cases l' with
    | nil => rfl
    | cons a' l' =>
      obtain rfl : b=a' := hhead
      exact absurd mem_cons_self hl'
  | cons a l ih =>
    cases l' with
    | nil =>
      obtain rfl : a=b := hhead
      exact absurd mem_cons_self hl
    | cons a' l' =>
      obtain rfl : a=a' := hhead
      rw [ih h.2 h'.2 (not_mem_of_not_mem_cons hl) (not_mem_of_not_mem_cons hl')
        (h.1.symm.trans h'.1)]

theorem Path.rotate {pre post : List α} {q : α} (h : Path next (pre++q::post) b)
    (hb : pre.headD q=b) : Path next (q::(post++pre)) q := by
  rw [path_append] at h
  obtain ⟨hpre,hq,hpost⟩ := h
  rw [path_cons,headD_append,hb,path_append,hb]
  exact ⟨hq,hpost,hpre⟩

def walk (next : α → α) (stop : α → Bool) : ℕ → α → Option α
  | 0, _ => none
  | n+1, a => if stop a then some a else walk next stop n (next a)

theorem Path.walk {stop : α → Bool} {n : ℕ} (h : Path next (a::l) b) (hn : l.length<n)
    (hstop : ∃ x∈a::l, stop x=true) :
    ∃ x∈a::l, LinkedRing.walk next stop n a=some x ∧ stop x=true := by
  induction l generalizing a n with
  | nil =>
    obtain ⟨n,rfl⟩ : ∃ m, n=m+1 := ⟨n-1,by omega⟩
    obtain ⟨x,hx,hs⟩ := hstop
    obtain rfl : x=a := by simpa using hx
    exact ⟨x,mem_cons_self,by rw [LinkedRing.walk,if_pos hs],hs⟩
  | cons c l ih =>
    obtain ⟨n,rfl⟩ : ∃ m, n=m+1 := ⟨n-1,by simp only [length_cons] at hn; omega⟩
    by_cases hs : stop a=true
    · exact ⟨a,mem_cons_self,by rw [LinkedRing.walk,if_pos hs],hs⟩
    · have hnext := h.1
      have hrest : ∃ x∈c::l, stop x=true := by
        obtain ⟨x,hx,hxs⟩ := hstop
        rcases mem_cons.1 hx with rfl | hx
        · exact absurd hxs hs
        · exact ⟨x,hx,hxs⟩
      obtain ⟨x,hx,hwalk,hxs⟩ := ih (n := n) h.2 (by simp only [length_cons] at hn; omega) hrest
      refine ⟨x,mem_cons_of_mem _ hx,?_,hxs⟩
      rw [LinkedRing.walk,if_neg hs,hnext]
      exact hwalk

section
variable (h : Path next (b::l) b) (ha : a∈b::l)
include h ha

theorem Path.exists_rotation :
    ∃ rest, Path next (a::rest) a ∧ (a::rest).Perm (b::l) := by
  obtain ⟨pre,post,hsplit⟩ := append_of_mem ha
  have hhead : pre.headD a=b := by
    have := congrArg (fun l => headD l b) hsplit
    simpa [headD_append] using this.symm
  have hring := hsplit ▸ h
  refine ⟨post++pre,hring.rotate hhead,?_⟩
  rw [hsplit,←cons_append]
  exact perm_append_comm

theorem Path.walk_ring {stop : α → Bool} {n : ℕ} (hn : l.length<n)
    (hstop : ∃ x∈b::l, stop x=true) :
    ∃ x∈b::l, LinkedRing.walk next stop n a=some x ∧ stop x=true := by
  obtain ⟨rest,hring,hperm⟩ := h.exists_rotation ha
  have hlen := hperm.length_eq
  simp only [length_cons,Nat.add_right_cancel_iff] at hlen
  obtain ⟨y,hy,hys⟩ := hstop
  obtain ⟨x,hx,hwalk,hs⟩ := hring.walk (n := n) (by omega) ⟨y,hperm.mem_iff.2 hy,hys⟩
  exact ⟨x,hperm.mem_iff.1 hx,hwalk,hs⟩

theorem Path.exists_pred :
    ∃ x∈b::l, next x=a := by
  have hlast : ∀ {l : List α} {c d : α}, Path next (c::l) d → ∃ x∈c::l, next x=d := by
    intro l
    induction l with
    | nil => exact fun {c d} h => ⟨c,mem_cons_self,h.1⟩
    | cons e l ih =>
      intro c d h
      obtain ⟨x,hx,hd⟩ := ih h.2
      exact ⟨x,mem_cons_of_mem _ hx,hd⟩
  obtain ⟨pre,post,hsplit⟩ := append_of_mem ha
  rw [hsplit] at h ⊢
  cases pre with
  | nil =>
    obtain rfl : b=a := (List.cons.inj hsplit).1
    exact hlast h
  | cons c pre =>
    obtain ⟨x,hx,hd⟩ := hlast ((path_append _ _ _ _).1 h).1
    exact ⟨x,mem_append_left _ hx,hd⟩
end

theorem Path.walk_good [DecidableEq α] {g : α → Bool} {n : ℕ} (h : Path next (a::l) b)
    (hb : b∉l) (hn : l.length<n) (hgood : ∃ z∈l++[b], g z=true) : ∃ x∈a::l,
      LinkedRing.walk next (fun y => g (next y) || decide (next y=b)) n a=some x ∧
        g (next x)=true := by
  induction l generalizing a n with
  | nil =>
    obtain ⟨n,rfl⟩ : ∃ m, n=m+1 := ⟨n-1,by omega⟩
    obtain ⟨z,hz,hg⟩ := hgood
    obtain rfl : z=b := by simpa using hz
    have hnext : next a=z := h.1
    refine ⟨a,mem_cons_self,?_,by rw [hnext,hg]⟩
    simp [LinkedRing.walk,hnext]
  | cons c l ih =>
    obtain ⟨n,rfl⟩ : ∃ m, n=m+1 := ⟨n-1,by simp only [length_cons] at hn; omega⟩
    have hnext : next a=c := h.1
    by_cases hc : g c=true
    · exact ⟨a,mem_cons_self,by simp [LinkedRing.walk,hnext,hc],by rw [hnext,hc]⟩
    · have hcb : c≠b := fun he => hb (by simp [he])
      have hrest : ∃ z∈l++[b], g z=true := by
        obtain ⟨z,hz,hg⟩ := hgood
        rcases mem_cons.1 hz with rfl | hz
        · exact absurd hg hc
        · exact ⟨z,hz,hg⟩
      obtain ⟨x,hx,hwalk,hg⟩ := ih (n := n) h.2 (fun hm => hb (mem_cons_of_mem _ hm))
        (by simp only [length_cons] at hn; omega) hrest
      refine ⟨x,mem_cons_of_mem _ hx,?_,hg⟩
      rw [LinkedRing.walk,if_neg (by simp [hnext,hc,hcb]),hnext]
      exact hwalk

theorem Path.walk_ring_good [DecidableEq α] {g : α → Bool} {n : ℕ} (h : Path next (b::l) b)
    (hnodup : (b::l).Nodup) (ha : a∈b::l) (hn : l.length<n)
    (hgood : ∃ z∈b::l, g z=true) : ∃ x∈b::l,
      LinkedRing.walk next (fun y => g (next y) || decide (next y=a)) n a=some x ∧
        g (next x)=true := by
  obtain ⟨rest,hring,hperm⟩ := h.exists_rotation ha
  have hlen := hperm.length_eq
  simp only [length_cons,Nat.add_right_cancel_iff] at hlen
  have hanotin := (nodup_cons.1 (hperm.nodup_iff.2 hnodup)).1
  obtain ⟨z,hz,hg⟩ := hgood
  have hz' : z∈rest++[a] := by
    have := hperm.mem_iff.2 hz
    simp only [mem_cons,mem_append,not_mem_nil,or_false] at this ⊢
    exact this.symm
  obtain ⟨x,hx,hwalk,hgx⟩ := hring.walk_good (n := n) hanotin (by omega) ⟨z,hz',hg⟩
  exact ⟨x,hperm.mem_iff.1 hx,hwalk,hgx⟩

end Pmon.LinkedRing
