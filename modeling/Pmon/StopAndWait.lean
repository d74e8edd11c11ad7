import Mathlib

/-!
# One-way stop-and-wait links with unbounded numbers

The receiver acknowledges with the number it expects next. What is in flight lies in a window of two
numbers, so numbers modulo any `k ≥ 2` are never mistaken.
-/

namespace Pmon.StopAndWait

structure Link (α : Type*) where
  sent : List α
  acked : ℕ
  taken : ℕ
  passed : ℕ
  data : List ℕ
  acks : List ℕ
  acked_le_passed : acked≤passed
  passed_le_taken : passed≤taken
  taken_le_sent : taken ≤ sent.length
  sent_le_acked : sent.length≤acked+1
  data_sorted : data.Pairwise (· ≤ ·)
  data_window : ∀ d∈data, taken≤d+1 ∧ d≤acked ∧ d<sent.length
  acks_sorted : acks.Pairwise (· ≤ ·)
  acks_window : ∀ a∈acks, acked≤a ∧ a≤passed

namespace Link
variable {α : Type*}

theorem start_le : (0 : ℕ)≤0 := le_rfl
theorem start_sorted : ([] : List ℕ).Pairwise (· ≤ ·) := List.Pairwise.nil

def start : Link α where
  sent := []
  acked := 0
  taken := 0
  passed := 0
  data := []
  acks := []
  acked_le_passed := start_le
  passed_le_taken := start_le
  taken_le_sent := start_le
  sent_le_acked := by simp
  data_sorted := start_sorted
  data_window := by simp
  acks_sorted := start_sorted
  acks_window := by simp

def submit (L : Link α) (m : α) (h : L.sent.length=L.acked) : Link α := { L with
    sent := L.sent++[m]
    taken_le_sent := by
      have htaken := L.taken_le_sent
      rw [List.length_append]
      omega
    sent_le_acked := by rw [List.length_append,h]; rfl
    data_window := by
      intro d hd
      have hwindow := L.data_window d hd
      rw [List.length_append]
      omega }

def transmit (L : Link α) (h : L.acked<L.sent.length) : Link α := { L with
    data := L.data++[L.acked]
    data_sorted := by
      rw [List.pairwise_append]
      refine ⟨L.data_sorted,List.pairwise_singleton _ _,?_⟩
      intro d hd e he
      rw [List.mem_singleton.mp he]
      exact (L.data_window d hd).2.1
    data_window := by
      intro d hd
      have htaken := L.taken_le_sent
      have hsent := L.sent_le_acked
      rcases List.mem_append.mp hd with hold | hnew
      · exact L.data_window d hold
      · rw [List.mem_singleton] at hnew
        omega }

def loseData (L : Link α) (data : List ℕ) (h : data.Sublist L.data) : Link α := { L with
    data := data
    data_sorted := L.data_sorted.sublist h
    data_window := fun d hd => L.data_window d (h.subset hd) }

def loseAcks (L : Link α) (acks : List ℕ) (h : acks.Sublist L.acks) : Link α := { L with
    acks := acks
    acks_sorted := L.acks_sorted.sublist h
    acks_window := fun a ha => L.acks_window a (h.subset ha) }

def accept (L : Link α) (rest : List ℕ) (h : L.data=L.taken::rest) : Link α := { L with
    taken := L.taken+1
    data := rest
    passed_le_taken := L.passed_le_taken.trans (Nat.le_succ _)
    taken_le_sent := (L.data_window L.taken (by rw [h]; exact List.mem_cons_self)).2.2
    data_sorted := by
      have hsorted := L.data_sorted
      rw [h] at hsorted
      exact hsorted.of_cons
    data_window := by
      intro d hd
      have hsorted := L.data_sorted
      rw [h,List.pairwise_cons] at hsorted
      have hwindow := L.data_window d (by rw [h]; exact List.mem_cons_of_mem _ hd)
      have horder := hsorted.1 d hd
      omega }

def acknowledge (L : Link α) : Link α := { L with
    passed := L.taken
    acks := L.acks++[L.taken]
    acked_le_passed := L.acked_le_passed.trans L.passed_le_taken
    passed_le_taken := le_rfl
    acks_sorted := by
      rw [List.pairwise_append]
      refine ⟨L.acks_sorted,List.pairwise_singleton _ _,?_⟩
      intro a ha b hb
      rw [List.mem_singleton.mp hb]
      exact (L.acks_window a ha).2.trans L.passed_le_taken
    acks_window := by
      intro a ha
      have hacked := L.acked_le_passed
      have hpassed := L.passed_le_taken
      rcases List.mem_append.mp ha with hold | hnew
      · have hwindow := L.acks_window a hold
        omega
      · rw [List.mem_singleton] at hnew
        omega }

def confirm (L : Link α) (rest : List ℕ) (h : L.acks=(L.acked+1)::rest) : Link α := { L with
    acked := L.acked+1
    acks := rest
    acked_le_passed := (L.acks_window (L.acked+1) (by rw [h]; exact List.mem_cons_self)).2
    sent_le_acked := L.sent_le_acked.trans (Nat.le_succ _)
    data_window := by
      intro d hd
      have hwindow := L.data_window d hd
      omega
    acks_sorted := by
      have hsorted := L.acks_sorted
      rw [h] at hsorted
      exact hsorted.of_cons
    acks_window := by
      intro a ha
      have hsorted := L.acks_sorted
      rw [h,List.pairwise_cons] at hsorted
      have hwindow := L.acks_window a (by rw [h]; exact List.mem_cons_of_mem _ ha)
      exact ⟨hsorted.1 a ha,hwindow.2⟩ }

theorem succ_mod_ne {k : ℕ} (hk : 2≤k) (n : ℕ) : n%k≠(n+1)%k := by
  intro h
  have hmod : n+0 ≡ n+1 [MOD k] := h
  have hdvd : k ∣ 1 := (Nat.modEq_zero_iff_dvd).mp (Nat.ModEq.add_left_cancel' n hmod).symm
  have hle := Nat.le_of_dvd (by decide) hdvd
  omega

theorem eq_taken_of_mod (L : Link α) {k d : ℕ} (hk : 2≤k) (hd : d∈L.data)
    (h : d%k=L.taken%k) : d=L.taken := by
  have hwindow := L.data_window d hd
  have hacked := L.acked_le_passed.trans L.passed_le_taken
  by_contra hne
  have hprev : L.taken=d+1 := by omega
  rw [hprev] at h
  exact succ_mod_ne hk d h

theorem eq_acked_succ_of_mod (L : Link α) {k a : ℕ} (hk : 2≤k) (ha : a∈L.acks)
    (h : a%k=(L.acked+1)%k) : a=L.acked+1 := by
  have hwindow := L.acks_window a ha
  have hpassed := L.passed_le_taken.trans (L.taken_le_sent.trans L.sent_le_acked)
  by_contra hne
  have hold : a=L.acked := by omega
  rw [hold] at h
  exact succ_mod_ne hk L.acked h

end Link
end Pmon.StopAndWait
