import Pmon.FlashRomKept
import Pmon.FlashRomMap

/-!
# Errors of an aligned request

`fromprogramaligned` plans the whole request before it programs it. The merge buffers are the
scratch entries of the vector.
-/

namespace Pmon.FlashRom

theorem scratch_cons (v : Fromvec) (vec : List Fromvec) : (v::vec).filterMap Fromvec.scratch =
      v.scratch.toList++vec.filterMap Fromvec.scratch := by
  cases hv : v.scratch <;> simp [hv]

section
variable (fcp : Geometry) (chip : Chip)

theorem planLoop_planned (flags : Flags) (fuel o nb : ℕ) (mem : List UInt8) (s : Flash) :
    Planned ((planLoop fcp chip flags fuel o nb mem s).2.1.filterMap Fromvec.scratch) s
      (planLoop fcp chip flags fuel o nb mem s).2.2 := by
  induction fuel generalizing o nb mem s with
  | zero => exact Planned.idle rfl rfl rfl rfl le_rfl
  | succ fuel ih =>
    by_cases hnb : nb=0
    · subst hnb
      rw [planLoop_zero]
      exact Planned.idle rfl rfl rfl rfl le_rfl
    · have hround := planLoop_round fcp chip flags fuel o hnb mem s
      generalize planLoop fcp chip flags (fuel+1) o nb mem s=r at hround ⊢
      cases hround with
      | stop _ hplanned => exact hplanned
      | @entry v n s' _ _ _ hplanned =>
        have h := hplanned.trans (ih (o+n) (nb-n) (mem.drop n) s')
        rw [←scratch_cons] at h
        exact h

theorem fromprogramvec_cases (flags : Flags) (vec : List Fromvec) (s : Flash) :
    (fromprogramvec fcp chip flags vec s=(some .noMem,s.next)) ∨
      (∃ code s', fromprogramvec fcp chip flags vec s=(code,s') ∧
        s'.allocated=s.allocated ∧ s'.freed=s.freed ∧ s'.tiny=s.tiny ∧
        (code=none ∨ code=some .ok ∨ code=some .fail ∨ code=some .fatal)) := by
  rw [fromprogramvec]
  split
  · exact .inl rfl
  · generalize hs₁ : (if s.copied then s else {s.next with copied := true})=s₁
    have hsame : s₁.allocated=s.allocated ∧ s₁.freed=s.freed ∧ s₁.tiny=s.tiny := by
      subst hs₁
      split <;> exact ⟨rfl,rfl,rfl⟩
    have h := programEntries_programmed fcp chip flags vec .ok s₁
    have hallocated := h.kept.allocated.trans hsame.1
    have hfreed := h.kept.freed.trans hsame.2.1
    have htiny := h.kept.tiny.trans hsame.2.2
    right
    dsimp only
    split
    · exact ⟨_,_,rfl,hallocated,hfreed,htiny,.inl rfl⟩
    · refine ⟨_,_,rfl,hallocated,hfreed,htiny,.inr ?_⟩
      rcases h.code with hcode | hcode | hcode <;> simp [hcode]

theorem fromprogramaligned_tiny (offs : ℕ) (buf : List UInt8) (nbytes : ℕ) (flags : Flags)
    (s : Flash) : (fromprogramaligned fcp chip offs buf nbytes flags s).2.tiny=s.tiny := by
  have hplanned := (planLoop_planned fcp chip flags nbytes offs nbytes buf s).tiny
  rw [fromprogramaligned]
  split
  · rfl
  · generalize planLoop fcp chip flags nbytes offs nbytes buf s=q at hplanned ⊢
    obtain ⟨ret,vec,s₁⟩ := q
    dsimp only at hplanned ⊢
    split
    · rcases fromprogramvec_cases fcp chip flags vec s₁ with hvec | ⟨code,s₂,hvec,-,-,ht,-⟩
      · rw [hvec]
        exact hplanned
      · rw [hvec]
        cases code with
        | none => exact ht.trans hplanned
        | some code => exact ht.trans hplanned
    · exact hplanned

theorem programEdge_tiny (lo bo : ℕ) (data : List UInt8) (flags : Flags) (s : Flash) :
    (programEdge fcp chip lo bo data flags s).2.tiny=s.tiny := by
  rw [programEdge]
  split
  · exact fromprogramaligned_tiny fcp chip _ _ _ _ s
  · rfl

theorem programRest_tiny (offs : ℕ) (mem : List UInt8) (nb : ℕ) (flags : Flags) (s : Flash) :
    (programRest fcp chip offs mem nb flags s).2.tiny=s.tiny := by
  rw [programRest]
  split
  · split
    · exact fromprogramaligned_tiny fcp chip _ _ _ _ s
    · rfl
  · split
    · exact (fromprogramaligned_tiny fcp chip _ _ _ _ _).trans
        (programEdge_tiny fcp chip _ _ _ flags s)
    · exact programEdge_tiny fcp chip _ _ _ flags s

theorem programParts_tiny (offs : ℕ) (mem : List UInt8) (nb : ℕ) (flags : Flags) (s : Flash) :
    (programParts fcp chip offs mem nb flags s).2.tiny=s.tiny := by
  rw [programParts]
  split
  · exact programRest_tiny fcp chip _ _ _ flags s
  · dsimp only
    split
    · exact (programRest_tiny fcp chip _ _ _ flags _).trans
        (programEdge_tiny fcp chip _ _ _ flags s)
    · exact programEdge_tiny fcp chip _ _ _ flags s
end

/-- The errors changed no cell, and the buffers allocated are those freed, each once. -/
structure AllOrNothing (s : Flash) (r : Option DevCode × Flash) : Prop where
  untouched : r.1=some .devProtected ∨ r.1=some .devPartial ∨ r.1=some .noMem →
    r.2.cells=s.cells
  freed_once : r.1≠none → ∃ bufs : List ℕ, bufs.Nodup ∧
    r.2.allocated=s.allocated++bufs ∧ r.2.freed=s.freed++bufs

theorem AllOrNothing.of_planned {s s' : Flash} {vec : List Fromvec} {ret : DevCode}
    (h : Planned (vec.filterMap Fromvec.scratch) s s') {s'' : Flash}
    (hallocated : s''.allocated=s'.allocated) (hfreed : s''.freed=s'.freed)
    (hcells : ret = .devProtected ∨ ret = .devPartial ∨ ret = .noMem → s''.cells=s'.cells) :
    AllOrNothing s (some ret,freeVec vec s'') where
  untouched hret := (hcells (by simpa using hret)).trans h.cells
  freed_once _ := by
    refine ⟨_,h.nodup,hallocated.trans h.allocated,?_⟩
    rw [freeVec,hfreed,h.freed]

/-- Errors of an aligned request are all or nothing. -/
theorem fromprogramaligned_all_or_nothing (fcp : Geometry) (chip : Chip) (offs : ℕ)
    (buf : List UInt8) (nbytes : ℕ) (flags : Flags) (s : Flash) :
    AllOrNothing s (fromprogramaligned fcp chip offs buf nbytes flags s) := by
  have hplanned := planLoop_planned fcp chip flags nbytes offs nbytes buf s
  rw [fromprogramaligned]
  split
  · exact ⟨fun _ => rfl, fun _ => ⟨[],List.nodup_nil, by simp, by simp⟩⟩
  · generalize planLoop fcp chip flags nbytes offs nbytes buf s=q at hplanned ⊢
    obtain ⟨ret,vec,s₁⟩ := q
    dsimp only at hplanned ⊢
    split
    · rcases fromprogramvec_cases fcp chip flags vec s₁ with hvec | ⟨code,s₂,hvec,ha,hf,-,hcode⟩
      · rw [hvec]
        exact .of_planned hplanned rfl rfl fun _ => rfl
      · rw [hvec]
        rcases hcode with rfl | rfl | rfl | rfl
        · exact ⟨by simp, by simp⟩
        · exact .of_planned hplanned ha hf (by simp)
        · exact .of_planned hplanned ha hf (by simp)
        · exact .of_planned hplanned ha hf (by simp)
    · exact .of_planned hplanned rfl rfl fun _ => rfl

end Pmon.FlashRom
