import Pmon.PciWindows

/-!
# Base registers of expansion ROMs

`_pci_setup_memwins` writes them in a second loop. A skipped window still has its old address.
-/

namespace Pmon.Pci
open CompareSort (Sorter)

abbrev Skips (w : PciWin) (s : State) : Prop := (s.dev w.dev).nwin .mem<0 ∨ w.size=0

def rounds : List PciWin → State → List (PciWin × State)
  | [], _ => []
  | w::ws, s => (w,s)::rounds ws (setupWin .mem w s).2

def roundWin (e : PciWin × State) : PciWin := (setupWin .mem e.1 e.2).1

def returned (e : PciWin × State) : Option (BitVec 32) :=
  if Skips e.1 e.2 then none else some (allocate e.2.pcimaster (e.2.space .mem) e.1.size).1

abbrev RomWritten (w : PciWin) : Prop := w.reg=pciMapRegRom ∧ w.address≠failed

def writeRom (s : State) (w : PciWin) : State :=
  s.confWrite (s.dev w.dev).tag w.reg (w.address ||| pciMapRom)

variable {qsort : Sorter PciWin} {wins ws : List PciWin} {s : State} {e : PciWin × State}

theorem setupWins_fst (ws : List PciWin) (s : State) :
    (setupWins .mem ws s).1=(rounds ws s).map roundWin := by
  induction ws generalizing s with
  | nil => rfl
  | cons w ws ih => exact congrArg ((setupWin .mem w s).1 :: ·) (ih _)

theorem setupRoms_eq_foldl (ws : List PciWin) (s : State) :
    setupRoms ws s=(ws.filter (RomWritten ·)).foldl writeRom s := by
  induction ws generalizing s with
  | nil => rfl
  | cons w ws ih =>
    rw [setupRoms]
    split
    · rename_i hw
      rw [List.filter_cons_of_pos (p := (RomWritten ·)) (decide_eq_true hw)]
      exact ih _
    · rename_i hw
      rw [List.filter_cons_of_neg (p := (RomWritten ·)) (by rw [decide_eq_true_iff]; exact hw)]
      exact ih s

theorem pciSetupMemwins_eq (qsort : Sorter PciWin) (wins : List PciWin) (s : State) :
    (pciSetupMemwins qsort wins s).2 =
      (((rounds (qsort.sort (wincompare s) wins) s).map roundWin).filter (RomWritten ·)).foldl
        writeRom (setupWins .mem (qsort.sort (wincompare s) wins) s).2 := by
  rw [←setupWins_fst]
  exact setupRoms_eq_foldl _ _

def RomsAllocated (qsort : Sorter PciWin) (wins : List PciWin) (s : State) : Prop :=
  ∀ e∈rounds (qsort.sort (wincompare s) wins) s, RomWritten (roundWin e) →
    returned e=some (roundWin e).address

theorem roundWin_skips (h : Skips e.1 e.2) : roundWin e=e.1 := by
  rw [roundWin,setupWin]
  dsimp only
  rw [if_pos h]

theorem roundWin_asks (h : ¬Skips e.1 e.2) : returned e=some (roundWin e).address := by
  rw [roundWin,setupWin,returned,if_neg h]
  dsimp only
  rw [if_neg h]
  split <;> rfl

/-- Exactly when no window of a ROM is skipped, except one that failed in an earlier call. -/
theorem romsAllocated_iff (qsort : Sorter PciWin) (wins : List PciWin) (s : State) :
    RomsAllocated qsort wins s ↔ ∀ e∈rounds (qsort.sort (wincompare s) wins) s,
        Skips e.1 e.2 → e.1.reg=pciMapRegRom → e.1.address=failed := by
  refine forall₂_congr fun e _ => ?_
  by_cases h : Skips e.1 e.2
  · rw [roundWin_skips h,returned,if_pos h]
    simp only [reduceCtorEq,imp_false,not_and,not_not]
    exact ⟨fun hrom _ => hrom, fun hrom => hrom h⟩
  · exact ⟨fun _ hskips => absurd hskips h, fun _ _ => roundWin_asks h⟩

def largeDev : List PciWin := [⟨0,0x10,0x10000000,0⟩,⟨0,pciMapRegRom,0x10000,0⟩]

theorem largeDev_rom_enabled :
    (rounds (CompareSort.insertion.sort (wincompare (masterState fun _ => emptyBus)) largeDev)
      (masterState fun _ => emptyBus)).map (fun e => (returned e,(roundWin e).address)) =
        [(some failed,failed),(none,0)] ∧
      (pciSetupMemwins CompareSort.insertion largeDev (masterState fun _ => emptyBus)).2.conf 0
        pciMapRegRom=pciMapRom := by
  decide +kernel

end Pmon.Pci
