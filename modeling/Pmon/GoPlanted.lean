import Pmon.GoBreakpoints

/-!
# Which stops get planted

`store_breakpoint` drops the temporary and trace breakpoints at an entry of the table, also a
hardware watchpoint.
-/

namespace Pmon.Go
open CodePatch List
variable {κ : Type}

def Requested (s : State κ) (a : ℕ) : Prop := a≠NO_BPT ∧ ((∃ b∈s.bpt, b.addr=a ∧ b.wpt=0) ∨
    ∃ b∈[s.bptTmp,s.bptTrc,s.bptTrcb], b.addr=a)

variable {a : ℕ}

theorem plantBps_word (m : Memory ℕ ℕ) (b : Bps) (ha : a≠NO_BPT) :
    (plantBps m b).1.word a = if b.addr=a then BPT_CODE else m.word a := by
  rw [plantBps]
  by_cases hb : b.addr=a
  · rw [if_pos hb,if_pos (hb ▸ ha),hb]
    exact Function.update_self ..
  · rw [if_neg hb]
    split
    · exact Function.update_of_ne (Ne.symm hb) ..
    · rfl

theorem plantTable_word (m : Memory ℕ ℕ) (bs : List Bps) (ha : a≠NO_BPT) :
    (plantTable m bs).1.word a =
      if ∃ b∈bs, b.addr=a ∧ b.wpt=0 then BPT_CODE else m.word a := by
  induction bs generalizing m with
  | nil => simp [plantTable]
  | cons b bs ih =>
    by_cases hw : b.wpt=0
    · simp only [plantTable,if_pos hw,ih,plantBps_word m b ha]
      by_cases hb : b.addr=a <;> simp [hb,hw]
    · simp only [plantTable,if_neg hw,ih]
      simp [hw]

theorem storeBreakpoint_word (s : State κ) (ha : a≠NO_BPT) : (storeBreakpoint s).mem.word a =
      if (∃ b∈s.bpt, b.addr=a ∧ b.wpt=0) ∨
          ∃ b∈[(dropDuplicates s).bptTmp,(dropDuplicates s).bptTrc,(dropDuplicates s).bptTrcb],
            b.addr=a then BPT_CODE else s.mem.word a := by
  have hword : (storeBreakpoint s).mem.word a = if (dropDuplicates s).bptTrcb.addr=a then BPT_CODE
      else if (dropDuplicates s).bptTrc.addr=a then BPT_CODE
      else if (dropDuplicates s).bptTmp.addr=a then BPT_CODE
      else if ∃ b∈s.bpt, b.addr=a ∧ b.wpt=0 then BPT_CODE else s.mem.word a := by
    rw [←plantTable_word s.mem s.bpt ha,←plantBps_word _ _ ha,←plantBps_word _ _ ha,
      ←plantBps_word _ _ ha]
    rfl
  rw [hword]
  simp only [mem_cons,not_mem_nil,or_false,exists_eq_or_imp,exists_eq_left]
  by_cases hsoft : ∃ b∈s.bpt, b.addr=a ∧ b.wpt=0
  · simp only [hsoft,if_true,true_or,ite_self]
  · simp only [hsoft,if_false,false_or]
    grind

theorem dropIf_addr (b : Bps) (p : Prop) [Decidable p] :
    (b.dropIf p).addr = if p then NO_BPT else b.addr := by
  rw [Bps.dropIf]
  split <;> rfl

theorem dropDuplicates_of_mem {s : State κ} (ha : a≠NO_BPT) (htable : ∃ b∈s.bpt, b.addr=a)
    {b : Bps}
    (hb : b∈[(dropDuplicates s).bptTmp,(dropDuplicates s).bptTrc,(dropDuplicates s).bptTrcb]) :
    b.addr≠a := by
  -- an entry dropped for the table is unused, whatever is dropped later
  have hdrop : ∀ b : Bps, (b.dropIf (∃ w∈s.bpt, b.addr=w.addr)).addr≠a := by
    intro b heq
    rw [dropIf_addr] at heq
    split at heq
    · exact ha heq.symm
    · rename_i hnot
      obtain ⟨w,hw,hwa⟩ := htable
      exact hnot ⟨w,hw,heq.trans hwa.symm⟩
  have hagain : ∀ (b : Bps) (p : Prop) [Decidable p], b.addr≠a → (b.dropIf p).addr≠a := by
    intro b p _ hne
    rw [dropIf_addr]
    split
    · exact Ne.symm ha
    · exact hne
  simp only [mem_cons,not_mem_nil,or_false] at hb
  rcases hb with rfl | rfl | rfl
  · exact hdrop _
  · exact hagain _ _ (hdrop _)
  · exact hagain _ _ (hdrop _)

theorem dropDuplicates_of_not_mem {s : State κ} (htable : ¬ ∃ b∈s.bpt, b.addr=a)
    (hslot : ∃ b∈[s.bptTmp,s.bptTrc,s.bptTrcb], b.addr=a) :
    ∃ b∈[(dropDuplicates s).bptTmp,(dropDuplicates s).bptTrc,(dropDuplicates s).bptTrcb],
      b.addr=a := by
  have hkeep : ∀ b : Bps, b.addr=a → (b.dropIf (∃ w∈s.bpt, b.addr=w.addr)).addr=a := by
    intro b hb
    have hnot : ¬ ∃ w∈s.bpt, b.addr=w.addr := by
      rintro ⟨w,hw,hwa⟩
      exact htable ⟨w,hw,hwa.symm.trans hb⟩
    rw [dropIf_addr,if_neg hnot,hb]
  simp only [mem_cons,not_mem_nil,or_false,exists_eq_or_imp,exists_eq_left] at hslot ⊢
  by_cases htmp : (dropDuplicates s).bptTmp.addr=a
  · exact .inl htmp
  by_cases htrc : (dropDuplicates s).bptTrc.addr=a
  · exact .inr (.inl htrc)
  rcases hslot with h | h | h
  · exact absurd (hkeep _ h) htmp
  · -- it is dropped only when the temporary breakpoint has the address
    refine absurd ?_ htrc
    have hkept := hkeep _ h
    have hne : ¬ (s.bptTrc.dropIf (∃ w∈s.bpt, s.bptTrc.addr=w.addr)).addr =
        (dropDuplicates s).bptTmp.addr := fun heq => htmp (heq.symm.trans hkept)
    exact (dropIf_addr _ _).trans ((if_neg hne).trans hkept)
  · refine .inr (.inr ?_)
    have hkept := hkeep _ h
    have hne : ¬ ((s.bptTrcb.dropIf (∃ w∈s.bpt, s.bptTrcb.addr=w.addr)).addr =
          (dropDuplicates s).bptTmp.addr ∨
        (s.bptTrcb.dropIf (∃ w∈s.bpt, s.bptTrcb.addr=w.addr)).addr =
          (dropDuplicates s).bptTrc.addr) := by
      rintro (heq | heq)
      · exact htmp (heq.symm.trans hkept)
      · exact htrc (heq.symm.trans hkept)
    exact (dropIf_addr _ _).trans ((if_neg hne).trans hkept)

/-- Every stop is planted exactly when no temporary or trace breakpoint shares its address with
watchpoints only, or a break instruction is there. -/
theorem storeBreakpoint_plants_iff (s : State κ) :
    (∀ a, Requested s a → (storeBreakpoint s).mem.word a=BPT_CODE) ↔
      ∀ b∈[s.bptTmp,s.bptTrc,s.bptTrcb], b.addr≠NO_BPT → (∃ w∈s.bpt, w.addr=b.addr) →
        (∃ w∈s.bpt, w.addr=b.addr ∧ w.wpt=0) ∨ s.mem.word b.addr=BPT_CODE := by
  constructor
  · intro h b hb huse htable
    have hword := h b.addr ⟨huse,.inr ⟨b,hb,rfl⟩⟩
    rw [storeBreakpoint_word s huse] at hword
    split at hword
    · rename_i hplanted
      rcases hplanted with hsoft | ⟨d,hd,hda⟩
      · exact .inl hsoft
      · exact absurd hda (dropDuplicates_of_mem huse htable hd)
    · exact .inr hword
  · rintro h a ⟨ha,hreq⟩
    rw [storeBreakpoint_word s ha]
    split
    · rfl
    · rename_i hnot
      rcases hreq with hsoft | ⟨b,hb,rfl⟩
      · exact absurd (.inl hsoft) hnot
      · by_cases htable : ∃ w∈s.bpt, w.addr=b.addr
        · rcases h b hb ha htable with hsoft | hword
          · exact absurd (.inl hsoft) hnot
          · exact hword
        · exact absurd (.inr (dropDuplicates_of_not_mem htable ⟨b,hb,rfl⟩)) hnot

def watchedStop : State Unit := { start (fun _ => 0) 0x80001000 () with
    bpt := [{Bps.unused with addr := 0x80002000, len := 4, wpt := 2}]
    bptTmp := {Bps.unused with addr := 0x80002000} }

theorem storeBreakpoint_skips_watched : Requested watchedStop 0x80002000 ∧
      (storeBreakpoint watchedStop).mem.word 0x80002000≠BPT_CODE := by
  refine ⟨⟨by decide,.inr ⟨_,mem_cons_self,rfl⟩⟩,?_⟩
  decide

end Pmon.Go
