import Pmon.GoBreakpoints

/-!
# Planting and removing breakpoints restores memory

Slots may share an address: the first one planted remembers the original word and the others the
code.
-/

namespace Pmon.Go
open CodePatch List
variable {κ : Type}
section
variable {w₀ : ℕ → ℕ} {es : List (ℕ × ℕ)} {m : Memory ℕ ℕ}

theorem plantBps_saved (h : Saved BPT_CODE w₀ es m) (b : Bps) :
    Saved BPT_CODE w₀ (remembered [(plantBps m b).2]++es) (plantBps m b).1 := by
  rcases plantBps_cases m b with ⟨hm,hb⟩ | ⟨hm,hb⟩
  · rw [hm,hb]
    exact h
  · rw [hm,hb]
    exact h.plant b.addr

theorem plantTable_saved (h : Saved BPT_CODE w₀ es m) (bs : List Bps) :
    Saved BPT_CODE w₀ (remembered ((plantTable m bs).2.filter fun b => b.wpt=0)++es)
      (plantTable m bs).1 := by
  induction bs generalizing m es with
  | nil => exact h
  | cons b bs ih =>
    by_cases hw : b.wpt=0
    · have hw' : (plantBps m b).2.wpt=0 := (plantBps_wpt m b).trans hw
      simp only [plantTable,if_pos hw]
      rw [filter_cons_of_pos (by simpa using hw'),remembered_cons]
      refine (ih (plantBps_saved h b)).of_mem_iff fun e => ?_
      simp only [mem_append]
      tauto
    · simp only [plantTable,if_neg hw]
      rw [filter_cons_of_neg (by simpa using hw)]
      exact ih h
end

theorem storeBreakpoint_saved (s : State κ) :
    Saved BPT_CODE s.mem.word (breakList (storeBreakpoint s)++traceList (storeBreakpoint s))
      (storeBreakpoint s).mem := by
  have htable := plantTable_saved (saved_nil BPT_CODE s.mem) s.bpt
  have htmp := plantBps_saved htable (dropDuplicates s).bptTmp
  have htrc := plantBps_saved htmp (dropDuplicates s).bptTrc
  have htrcb := plantBps_saved htrc (dropDuplicates s).bptTrcb
  refine htrcb.of_mem_iff fun e => ?_
  rw [breakList,traceList,remembered_cons,remembered_cons (storeBreakpoint s).bptTrc]
  simp only [mem_append,append_nil]
  tauto

def patched (s : State κ) : List ℕ := (breakList s++traceList s).map Prod.fst

/-- After `store_breakpoint`, other stores and `rm_bpts` every word is as after the stores only. -/
theorem rmBpts_storeBreakpoint_word (s : State κ) (ws : List (ℕ × ℕ))
    (hws : ∀ w∈ws, w.1∉patched (storeBreakpoint s)) :
    (rmBpts {storeBreakpoint s with mem := (storeBreakpoint s).mem.writeAll ws}).mem.word
      = (s.mem.writeAll ws).word := by
  rw [rmBpts_mem]
  refine ((storeBreakpoint_saved s).writeAll fun w hw e he heq => ?_).restoreAll
  exact hws w hw (heq ▸ mem_map_of_mem he)

theorem rmBpts_storeBreakpoint_word_shared :
    ∃ s : State Unit, s.bptTmp.addr=0x80020000 ∧ s.bptTrcb.addr=0x80020010 ∧
      (s.bpt.map (·.addr)).take 2=[0x80020000,0x80020000] ∧ s.mem.word 0x80020000=BPT_CODE ∧
      (rmBpts { storeBreakpoint s with
        mem := (storeBreakpoint s).mem.writeAll [(0x80020004,1)] }).mem.word
        = (s.mem.writeAll [(0x80020004,1)]).word := by
  refine ⟨{ start (fun a => if a=0x80020000 then BPT_CODE else 0) 0 () with
    bpt := {Bps.unused with addr := 0x80020000}::{Bps.unused with addr := 0x80020000} ::
      List.replicate 62 Bps.unused
    bptTmp := {Bps.unused with addr := 0x80020000}
    bptTrc := {Bps.unused with addr := 0x80020000}
    bptTrcb := {Bps.unused with addr := 0x80020010} },rfl,rfl,rfl,rfl,?_⟩
  exact rmBpts_storeBreakpoint_word _ [(0x80020004,1)] (by decide +kernel)

end Pmon.Go
