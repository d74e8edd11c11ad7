import Pmon.FlashRom

/-!
# What programming never touches

Whatever the devices do, `fromprogramvec` keeps the driver's variables and merge buffers, and a poll
adds only `FLASHDEV_FAIL` and `FLASHDEV_FATAL`.
-/

namespace Pmon.FlashRom
variable {s : Flash} {status : DevCode} {r : DevCode × Flash}

structure Kept (s s' : Flash) : Prop where
  protect : s'.protect=s.protect
  copied : s'.copied=s.copied
  allocated : s'.allocated=s.allocated
  freed : s'.freed=s.freed
  tiny : s'.tiny=s.tiny

theorem Kept.refl (s : Flash) : Kept s s := ⟨rfl,rfl,rfl,rfl,rfl⟩

theorem Kept.trans {s' s'' : Flash} (h : Kept s s') (h' : Kept s' s'') : Kept s s'' :=
  ⟨h'.protect.trans h.protect,h'.copied.trans h.copied,h'.allocated.trans h.allocated,
    h'.freed.trans h.freed,h'.tiny.trans h.tiny⟩

theorem Kept.next (s : Flash) : Kept s s.next := ⟨rfl,rfl,rfl,rfl,rfl⟩

structure Programmed (status : DevCode) (s : Flash) (r : DevCode × Flash) : Prop where
  kept : Kept s r.2
  code : r.1=status ∨ r.1 = .fail ∨ r.1 = .fatal

theorem Programmed.refl (status : DevCode) (s : Flash) : Programmed status s (status,s) :=
  ⟨Kept.refl s,.inl rfl⟩

theorem Programmed.trans {r' : DevCode × Flash} (h : Programmed status s r)
    (h' : Programmed r.1 r.2 r') : Programmed status s r' where
  kept := h.kept.trans h'.kept
  code := by
    rcases h'.code with hcode | hcode
    · rw [hcode]
      exact h.code
    · exact .inr hcode

theorem Programmed.after {s' : Flash} (h : Kept s s') (h' : Programmed status s' r) :
    Programmed status s r :=
  ⟨h.trans h'.kept,h'.code⟩

theorem Programmed.status_ok (hok : r.1 = .ok) (h : Programmed status s r) : status = .ok := by
  rcases h.code with hcode | hcode | hcode
  · exact hcode.symm.trans hok
  · cases hcode.symm.trans hok
  · cases hcode.symm.trans hok

structure Polled (status : DevCode) (s : Flash) (r : DevCode × Flash) : Prop
    extends Programmed status s r where
  cells : r.2.cells=s.cells

theorem Polled.refl (status : DevCode) (s : Flash) : Polled status s (status,s) :=
  ⟨Programmed.refl status s,rfl⟩

theorem Polled.trans {r' : DevCode × Flash} (h : Polled status s r) (h' : Polled r.1 r.2 r') :
    Polled status s r' :=
  ⟨h.toProgrammed.trans h'.toProgrammed,h'.cells.trans h.cells⟩

theorem Polled.poll {stat : DevCode} (h : stat = .ok ∨ stat = .fail ∨ stat = .fatal)
    (status : DevCode) (s : Flash) :
    Polled status s (if stat ≠ .ok then stat else status,s.next) where
  kept := Kept.next s
  code := by
    rcases h with rfl | rfl | rfl <;> simp
  cells := rfl

section
variable (fcp : Geometry) (chip : Chip) (flags : Flags) (fp n col : ℕ) (mp : List UInt8)

theorem eraseColumn_kept (cp : ℕ) (s : Flash) : Kept s (eraseColumn fcp cp s) :=
  ⟨rfl,rfl,rfl,rfl,rfl⟩

theorem programGroup_kept (cp : ℕ) (val : List UInt8) (s : Flash) :
    Kept s (programGroup fcp chip cp val s) := ⟨rfl,rfl,rfl,rfl,rfl⟩

theorem frompollAmd_code (expect : List UInt8) (flags : Flags) (s : Flash) :
    frompollAmd fcp chip fp expect flags s = .ok ∨ frompollAmd fcp chip fp expect flags s = .fail ∨
      frompollAmd fcp chip fp expect flags s = .fatal := by
  rw [frompollAmd]
  split_ifs <;> simp

theorem frompoll_code (expect : List UInt8) (flags : Flags) (s : Flash) :
    frompoll fcp chip fp expect flags s = .ok ∨ frompoll fcp chip fp expect flags s = .fail ∨
      frompoll fcp chip fp expect flags s = .fatal := by
  rw [frompoll]
  split
  · rw [frompollIbcs]
    split_ifs <;> simp
  · exact frompollAmd_code fcp chip fp expect flags s
  · exact .inr (.inl rfl)

theorem startErase_kept (e : ℕ) (s : Flash) : Kept s (startErase fcp fp n col e s) := by
  induction n generalizing col e s with
  | zero => exact Kept.refl s
  | succ n ih =>
    refine Kept.trans ?_ (ih _ _ _)
    split
    · exact eraseColumn_kept fcp _ s
    · exact Kept.refl s

theorem pollErase_polled (e : ℕ) (status : DevCode) (s : Flash) :
    Polled status s (pollErase fcp chip fp n col e status s) := by
  induction n generalizing col e status s with
  | zero => exact Polled.refl status s
  | succ n ih =>
    rw [pollErase]
    split
    · exact (Polled.poll (frompoll_code fcp chip _ _ _ s) status s).trans (ih _ _ _ _)
    · exact ih _ _ _ _

theorem startGroups_kept (prog : ℕ) (s : Flash) :
    Kept s (startGroups fcp chip flags fp n col mp prog s).2 := by
  induction n generalizing col mp prog s with
  | zero => exact Kept.refl s
  | succ n ih =>
    rw [startGroups]
    split
    · exact (programGroup_kept fcp chip _ _ s).trans (ih _ _ _ _)
    · exact ih _ _ _ _

theorem pollGroups_polled (prog : ℕ) (status : DevCode) (s : Flash) :
    Polled status s (pollGroups fcp chip flags fp n col mp prog status s) := by
  induction n generalizing col mp prog status s with
  | zero => exact Polled.refl status s
  | succ n ih =>
    rw [pollGroups]
    split
    · exact (Polled.poll (frompoll_code fcp chip _ _ _ s) status s).trans (ih _ _ _ _ _)
    · exact ih _ _ _ _ _

theorem programLine_programmed (addr : ℕ) (mp : List UInt8) (status : DevCode) (s : Flash) :
    Programmed status s (programLine fcp chip flags addr mp status s) := by
  have hstart := startGroups_kept fcp chip flags (fromlineaddr fcp (mode flags) addr)
    fcp.board.ngroups 0 mp 0 s
  rw [programLine]
  split
  · exact (Programmed.refl status _).after hstart
  · exact (pollGroups_polled fcp chip flags _ _ _ _ _ status _).toProgrammed.after hstart

theorem programLines_programmed (addr : ℕ) (mp : List UInt8) (status : DevCode) (s : Flash) :
    Programmed status s (programLines fcp chip flags n addr mp status s) := by
  induction n generalizing addr mp status s with
  | zero => exact Programmed.refl status s
  | succ n ih =>
    exact (programLine_programmed fcp chip flags addr mp status s).trans (ih _ _ _ _)

theorem pageGroups_kept (s : Flash) : Kept s (pageGroups fcp flags fp n col mp s) := by
  induction n generalizing col mp s with
  | zero => exact Kept.refl s
  | succ n ih =>
    refine Kept.trans ?_ (ih _ _ _)
    exact ⟨rfl,rfl,rfl,rfl,rfl⟩

theorem pageLines_kept (addr : ℕ) (mp : List UInt8) (s : Flash) :
    Kept s (pageLines fcp flags n addr mp s) := by
  induction n generalizing addr mp s with
  | zero => exact Kept.refl s
  | succ n ih => exact (pageGroups_kept fcp flags _ _ _ mp s).trans (ih _ _ _)

theorem pollPage_polled (status : DevCode) (s : Flash) :
    Polled status s (pollPage fcp chip flags fp n col mp status s) := by
  induction n generalizing col mp status s with
  | zero => exact Polled.refl status s
  | succ n ih =>
    exact (Polled.poll (frompollAmd_code fcp chip _ _ _ s) status s).trans (ih _ _ _ _)

theorem programEntry_programmed (v : Fromvec) (status : DevCode) (s : Flash) :
    Programmed status s (programEntry fcp chip flags v status s) := by
  rw [programEntry]
  dsimp only
  split
  · exact (pollPage_polled fcp chip flags _ _ _ _ status _).toProgrammed.after
      (pageLines_kept fcp flags _ _ _ s)
  · exact ((pollErase_polled fcp chip _ _ _ _ status _).toProgrammed.after
      (startErase_kept fcp _ _ _ _ s)).trans (programLines_programmed fcp chip flags _ _ _ _ _)

theorem programEntries_programmed (vec : List Fromvec) (status : DevCode) (s : Flash) :
    Programmed status s (programEntries fcp chip flags vec status s) := by
  induction vec generalizing status s with
  | nil => exact Programmed.refl status s
  | cons v vec ih => exact (programEntry_programmed fcp chip flags v status s).trans (ih _ _)
end
end Pmon.FlashRom
