import Mathlib.Combinatorics.Enumerative.Composition
import Mathlib.Tactic

/-!
# Which block of a layout holds a position

A layout of `[0, n)` is a `Composition n`, its block sizes in order of position.
-/

namespace Pmon.BlockLayout

structure HeldBy (blocks : List ℕ) (x k start size : ℕ) : Prop where
  split : ∃ pre post, blocks=pre++size::post ∧ pre.length=k ∧ pre.sum=start
  le : start≤x
  lt : x<start+size

namespace HeldBy
open List
variable {blocks : List ℕ} {x k start size : ℕ}

theorem append_right (h : HeldBy blocks x k start size) (post : List ℕ) :
    HeldBy (blocks++post) x k start size where
  split := by
    obtain ⟨pre,rest,hblocks,hk,hstart⟩ := h.split
    refine ⟨pre,rest++post,?_,hk,hstart⟩
    rw [hblocks,append_assoc,cons_append]
  le := h.le
  lt := h.lt

theorem append_left (h : HeldBy blocks x k start size) (pre : List ℕ) :
    HeldBy (pre++blocks) (pre.sum+x) (pre.length+k) (pre.sum+start) size where
  split := by
    obtain ⟨rest,post,hblocks,hk,hstart⟩ := h.split
    refine ⟨pre++rest,post,?_,?_,?_⟩
    · rw [hblocks,append_assoc]
    · rw [length_append,hk]
    · rw [sum_append,hstart]
  le := Nat.add_le_add_left h.le _
  lt := by
    have hlt := h.lt
    omega

theorem replicate {n z : ℕ} (h : x<n*z) :
    HeldBy (List.replicate n z) x (x/z) (x-x%z) z := by
  have hz : 0<z := by
    rcases Nat.eq_zero_or_pos z with rfl | hz
    · omega
    · exact hz
  have hk := (Nat.div_lt_iff_lt_mul hz).mpr h
  have hmod : x%z<z := Nat.mod_lt _ hz
  have hstart : x/z*z=x-x%z := by
    have hdiv := Nat.div_add_mod' x z
    omega
  constructor
  · refine ⟨List.replicate (x/z) z,List.replicate (n-x/z-1) z,?_,?_,?_⟩
    · rw [←replicate_succ,replicate_append_replicate]
      congr 1
      omega
    · rw [length_replicate]
    · rw [sum_replicate,smul_eq_mul,hstart]
  · exact Nat.sub_le _ _
  · have hle := Nat.mod_le x z
    omega

variable {n : ℕ} {c : Composition n}
section
variable (h : HeldBy c.blocks x k start size)
include h

theorem sizeUpTo_eq : c.sizeUpTo k=start := by
  obtain ⟨pre,post,hblocks,rfl,rfl⟩ := h.split
  rw [Composition.sizeUpTo,hblocks,take_left]

theorem lt_length : k<c.length := by
  obtain ⟨pre,post,hblocks,rfl,-⟩ := h.split
  rw [←c.blocks_length,hblocks,length_append,length_cons]
  omega

theorem blocksFun_eq :
    c.blocksFun ⟨k,h.lt_length⟩=size := by
  obtain ⟨pre,post,hblocks,rfl,-⟩ := h.split
  simp [Composition.blocksFun,hblocks]

theorem index_eq (hx : x<n) :
    c.index ⟨x,hx⟩=⟨k,h.lt_length⟩ := by
  symm
  rw [←Composition.mem_range_embedding_iff',Composition.mem_range_embedding_iff]
  have hsucc := c.sizeUpTo_succ' ⟨k,h.lt_length⟩
  rw [h.blocksFun_eq,h.sizeUpTo_eq] at hsucc
  constructor
  · rw [h.sizeUpTo_eq]
    exact h.le
  · exact hsucc ▸ h.lt
end
end HeldBy
section
variable {n : ℕ} (c : Composition n)

theorem index_mono {x y : Fin n} (h : x≤y) : c.index x≤c.index y := by
  by_contra hlt
  have hnext : (c.index y : ℕ)+1≤c.index x := by
    rw [not_le] at hlt
    exact hlt
  have hle := (c.monotone_sizeUpTo hnext).trans (c.sizeUpTo_index_le x)
  have hy : (y : ℕ)<c.sizeUpTo (c.index y+1) := c.lt_sizeUpTo_index_succ y
  have hxy := h
  omega

theorem index_sizeUpTo {k : ℕ} (hk : k<c.length) (h : c.sizeUpTo k<n) :
    (c.index ⟨c.sizeUpTo k,h⟩ : ℕ)=k := by
  have hfirst := c.index_embedding ⟨k,hk⟩ ⟨0,c.blocks_pos (c.blocksFun_mem_blocks _)⟩
  have heq : c.embedding ⟨k,hk⟩ ⟨0,c.blocks_pos (c.blocksFun_mem_blocks _)⟩ =
      ⟨c.sizeUpTo k,h⟩ := Fin.ext (by simp)
  rw [←heq,hfirst]

theorem sizeUpTo_lt {k : ℕ} (hk : k<c.length) : c.sizeUpTo k<n :=
  (c.sizeUpTo_strict_mono hk).trans_le (c.sizeUpTo_le _)
end
end Pmon.BlockLayout
