import Pmon.History

/-!
# The trace history

`pchist_d` is a ring of 201 addresses, as `hist` is one of commands.
-/

namespace Pmon.PcHist
open List Function
open History

def PCHISTSZ : ℕ := 200

structure State where
  d : ℕ → BitVec 32
  ip : ℕ
  op : ℕ

def clrpchist (s : State) : State := {s with ip := 0, op := 0}

/-- `addpchist`; `incmod` is taken at `PCHISTSZ`, which is `HISTMAX`. -/
def addpchist (s : State) (adr : BitVec 32) : State :=
  { d := Function.update s.d s.ip adr
    ip := incmod s.ip
    op := if incmod s.ip=s.op then incmod s.op else s.op }

def getpchist (s : State) (n : ℤ) : BitVec 32 :=
  let i := (s.ip : ℤ)-n-1
  let i := if i<0 then i+(PCHISTSZ+1) else i
  if incmod i.toNat=s.op then 0 else s.d i.toNat

/-- The history after the addresses `adrs`. -/
def after (s : State) (adrs : List (BitVec 32)) : State := adrs.foldl addpchist (clrpchist s)

structure Ring (s : State) (log : List (BitVec 32)) : Prop where
  ip : s.ip<201
  slot : ∀ d<200, ∀ adr, log[d]?=some adr → s.d (behind s.ip (d+1))=adr
  op : s.op=behind s.ip (min log.length 200)

variable {s : State} {log : List (BitVec 32)}

theorem incmod_behind {i d : ℕ} (hi : i<201) (hd : d≤200) :
    incmod (behind i (d+1))=behind i d := by
  unfold incmod behind HISTMAX
  split <;> omega

theorem Ring.addpchist (h : Ring s log) (adr : BitVec 32) :
    Ring (addpchist s adr) (adr::log) := by
  have hi := h.ip
  refine ⟨incmod_lt _,fun d hd a ha => ?_,?_⟩
  · dsimp only [PcHist.addpchist]
    rw [behind_incmod hi (by omega)]
    cases d with
    | zero =>
      rw [behind_zero hi,update_self]
      exact Option.some.inj ha
    | succ d =>
      have hne : behind s.ip (d+1)≠s.ip := fun heq => by
        have := behind_inj (by omega) (Nat.zero_le _) (heq.trans (behind_zero hi).symm)
        omega
      rw [update_of_ne hne,h.slot d (by omega) a ha]
  · dsimp only [PcHist.addpchist]
    rw [h.op,incmod_eq hi,length_cons]
    split
    · rename_i hfull
      have hlen := behind_inj le_rfl (Nat.min_le_right _ _) hfull
      rw [←hfull,show min (log.length+1) 200=199+1 by omega,←incmod_eq hi,
        behind_incmod hi (by omega),incmod_eq hi,incmod_behind hi (by omega)]
    · rename_i hfree
      have hlen : log.length<200 := by
        by_contra hge
        exact hfree (by rw [show min log.length 200=200 by omega])
      rw [←incmod_eq hi,show min (log.length+1) 200 = min log.length 200+1 by omega,
        behind_incmod hi (by omega)]

theorem Ring.after (s : State) (adrs : List (BitVec 32)) : Ring (after s adrs) adrs.reverse := by
  induction adrs using List.reverseRecOn with
  | nil =>
    have hzero : (0 : ℕ)<201 := by decide
    exact ⟨hzero,fun d _ a ha => absurd ha (by simp),(behind_zero hzero).symm⟩
  | append_singleton adrs adr ih =>
    rw [PcHist.after,foldl_append,reverse_append]
    exact ih.addpchist adr

theorem Ring.getpchist (h : Ring s log) {k : ℕ} (hk : k≤200) :
    getpchist s k = if k = min log.length 200 then 0 else s.d (behind s.ip (k+1)) := by
  have hi := h.ip
  have hslot : (if (s.ip : ℤ)-k-1<0 then (s.ip : ℤ)-k-1+(PCHISTSZ+1)
      else (s.ip : ℤ)-k-1).toNat=behind s.ip (k+1) := by
    unfold behind PCHISTSZ
    split <;> omega
  dsimp only [PcHist.getpchist]
  rw [hslot,incmod_behind hi hk,h.op]
  by_cases heq : k = min log.length 200
  · rw [if_pos heq,if_pos (by rw [heq])]
  · rw [if_neg heq,if_neg fun h => heq (behind_inj hk (Nat.min_le_right _ _) h)]

/-- The addresses come back the latest first, and 0 behind the last one held. -/
theorem getpchist_recent (s : State) (adrs : List (BitVec 32)) :
    (∀ k<PCHISTSZ, ∀ adr, adrs.reverse[k]?=some adr → getpchist (after s adrs) k=adr) ∧
      getpchist (after s adrs) (min adrs.length PCHISTSZ : ℕ)=0 := by
  have h := Ring.after s adrs
  constructor
  · intro k hk adr hadr
    have hlen : k<adrs.reverse.length := (List.getElem?_eq_some_iff.mp hadr).1
    have hmax : k<200 := hk
    rw [h.getpchist (by omega),if_neg (by omega),h.slot k hmax adr hadr]
  · have hheld : min adrs.length PCHISTSZ = min adrs.reverse.length 200 := by
      rw [length_reverse]
      rfl
    rw [hheld,h.getpchist (Nat.min_le_right _ _),if_pos rfl]

theorem getpchist_recent_two : getpchist (after ⟨fun _ => 0,0,0⟩ [1,2]) (1 : ℕ)=1 :=
  (getpchist_recent ⟨fun _ => 0,0,0⟩ [1,2]).1 1 (by decide) 1 rfl

end Pmon.PcHist
