import Mathlib.Tactic

/-!
# Tables of masked bit patterns

A search returns the first row whose code is the masked word. `classify` decides that for all words
of a class at once.
-/

namespace Pmon.MaskTable
variable {n : ℕ} {ρ : Type*} (mask code : ρ → BitVec n)

def lookup (rows : List ρ) (x : BitVec n) : Option ρ := rows.find? fun r => x &&& mask r == code r

theorem lookup_matches {rows : List ρ} {x : BitVec n} {r : ρ}
    (h : lookup mask code rows x = some r) : r ∈ rows ∧ x &&& mask r = code r := by
  constructor
  · exact List.mem_of_find?_eq_some h
  · have hfound := List.find?_some h
    exact eq_of_beq hfound

theorem lookup_isSome {rows : List ρ} {r : ρ} (hr : r∈rows) (hm : mask r=0) (hc : code r=0)
    (x : BitVec n) : (lookup mask code rows x).isSome := by
  rw [lookup,List.find?_isSome]
  exact ⟨r,hr,by simp [hm,hc]⟩

def classify (m c : BitVec n) (ok : ρ → Bool) : List ρ → Bool
  | [] => false
  | r::rows =>
    if mask r &&& m = mask r ∧ c &&& mask r = code r then ok r
    else if c &&& mask r ≠ code r &&& m then classify m c ok rows
    else ok r && classify m c ok rows

theorem lookup_of_classify {m c x : BitVec n} {ok : ρ → Bool} {rows : List ρ}
    (h : classify mask code m c ok rows = true) (hx : x &&& m = c) :
    ∃ r, lookup mask code rows x=some r ∧ ok r=true := by
  induction rows with
  | nil => simp [classify] at h
  | cons r rows ih =>
    rw [classify] at h
    by_cases hr : x &&& mask r = code r
    · have hfound : lookup mask code (r::rows) x=some r := by simp [lookup,hr]
      refine ⟨r,hfound,?_⟩
      split at h
      · exact h
      · split at h
        · -- a matching row agrees with the class on the bits they share
          rename_i hne
          refine absurd ?_ hne
          rw [←hx,←hr,BitVec.and_assoc,BitVec.and_assoc,BitVec.and_comm m]
        · exact (Bool.and_eq_true_iff.mp h).1
    · have hskip : lookup mask code (r::rows) x=lookup mask code rows x := by
        simp [lookup,hr]
      rw [hskip]
      apply ih
      split at h
      · rename_i hcert
        refine absurd ?_ hr
        rw [←hcert.1,BitVec.and_comm (mask r),←BitVec.and_assoc,hx,hcert.2]
      · split at h
        · exact h
        · exact (Bool.and_eq_true_iff.mp h).2

theorem extractLsb'_of_matches {r : ρ} {x : BitVec n} {lo len : ℕ}
    (hm : (mask r).extractLsb' lo len = BitVec.allOnes len) (hx : x &&& mask r = code r) :
    x.extractLsb' lo len=(code r).extractLsb' lo len := by
  rw [←hx,BitVec.extractLsb'_and,hm,BitVec.and_allOnes]

def fieldMask (lo len : ℕ) : BitVec n := (BitVec.allOnes len).setWidth n <<< lo

theorem and_fieldMask (x : BitVec n) (lo len : ℕ) :
    x &&& fieldMask lo len = (x.extractLsb' lo len).setWidth n <<< lo := by
  apply BitVec.eq_of_getLsbD_eq
  intro i hi
  simp only [fieldMask,BitVec.getLsbD_and,BitVec.getLsbD_shiftLeft,BitVec.getLsbD_setWidth,
    BitVec.getLsbD_allOnes,BitVec.getLsbD_extractLsb']
  by_cases hlo : i<lo
  · simp [hlo]
  · have hadd : lo+(i-lo)=i := by omega
    rw [hadd]
    grind

end Pmon.MaskTable
