import Pmon.FlashRomAround
import Pmon.FlashRomTiny

/-!
# The bounds check of the flash entry points

The 32-bit sum of offset and length is compared with the device size, and one that wraps to a small
number passes.
-/

namespace Pmon.FlashRom
open ByteStore
variable {s : Flash} {nb offs : ℕ}
section
variable (fcp : Fromcookie) (chip : Chip) (w : ℕ → UInt8)

def LinePending (s : Flash) : Prop := ∀ t, s.tiny=some t → fcp.board.linesz ∣ t.offset

theorem linePending_none (h : s.tiny=none) : LinePending fcp s := by
  intro t ht
  rw [h] at ht
  cases ht

theorem fromreadbytes_rejected (cells : ℕ → UInt8) (flags : Flags)
    (h : fcp.size<(offs+nb)%2^32) :
    fromreadbytes fcp cells offs nb flags=(.fail,[]) := if_pos h

theorem readline_around (cells : ℕ → UInt8) (flags : Flags) {ho : ℕ}
    (hdvd : fcp.board.linesz ∣ ho) (hle : ho≤fcp.size) :
    fromreadbytes fcp (beyond fcp.size w cells) ho fcp.board.linesz flags =
      fromreadbytes fcp cells ho fcp.board.linesz flags := by
  rcases hle.lt_or_eq with hlt | rfl
  · exact fromreadbytes_around fcp w cells flags (fcp.line_le_size hdvd hlt)
  · have hpos := fcp.board.linesz_pos
    have hfit := fcp.size_add_linesz
    have hrej : fcp.size<(fcp.size+fcp.board.linesz)%2^32 := by omega
    rw [fromreadbytes_rejected fcp _ flags hrej,fromreadbytes_rejected fcp _ flags hrej]

theorem tinyFlush_around (self : Bool) (ho : ℕ) (hs : LinePending fcp s) :
    Confined fcp w (tinyFlush fcp chip self ho) s := by
  unfold Confined
  cases htiny : s.tiny with
  | none => simp only [tinyFlush,Flash.around_tiny,htiny]
  | some t =>
    simp only [tinyFlush,Flash.around_tiny,htiny]
    split
    · rw [(programline_around fcp chip w t.flags t.buffer s (hs t htiny)).eq]
      rfl
    · rfl

theorem tinyFlush_pending (self : Bool) (ho : ℕ) (hs : LinePending fcp s) :
    LinePending fcp (tinyFlush fcp chip self ho s).2 := by
  cases htiny : s.tiny with
  | none =>
    simp only [tinyFlush,htiny]
    exact hs
  | some t =>
    simp only [tinyFlush,htiny]
    split
    · exact linePending_none fcp rfl
    · exact hs

theorem tinyFill_around (flags : Flags) {ho : ℕ} (hdvd : fcp.board.linesz ∣ ho)
    (hle : ho≤fcp.size) (s : Flash) : Confined fcp w (tinyFill fcp flags ho) s := by
  unfold Confined
  cases htiny : s.tiny with
  | some t => simp only [tinyFill,Flash.around_tiny,htiny]
  | none =>
    simp only [tinyFill,Flash.around_tiny,htiny,Flash.around_cells,
      readline_around fcp w s.cells flags hdvd hle]
    split <;> rfl

theorem tinyFill_pending (flags : Flags) {ho : ℕ} (hdvd : fcp.board.linesz ∣ ho)
    (hs : LinePending fcp s) : LinePending fcp (tinyFill fcp flags ho s).2 := by
  cases htiny : s.tiny with
  | some t =>
    simp only [tinyFill,htiny]
    exact hs
  | none =>
    simp only [tinyFill,htiny]
    split
    · intro t ht
      rw [←Option.some.inj ht]
      exact hdvd
    · exact hs

theorem tinyStore_pending (bo : ℕ) (data : List UInt8) (hs : LinePending fcp s) :
    LinePending fcp (tinyStore bo data s) := by
  intro t ht
  obtain ⟨t',ht',rfl⟩ := Option.map_eq_some_iff.mp ht
  exact hs t' ht'

theorem tinyLoop_around (self : Bool) (flags : Flags) (fuel : ℕ) (mem : Option (List UInt8))
    (hin : offs+nb≤fcp.size) (hs : LinePending fcp s) :
    Confined fcp w (tinyLoop fcp chip self flags fuel offs mem nb) s := by
  unfold Confined
  induction fuel generalizing offs nb mem s with
  | zero => rfl
  | succ fuel ih =>
    have hdvd := Nat.dvd_sub_mod (n := fcp.board.linesz) offs
    have hle : offs-offs%fcp.board.linesz≤fcp.size := by omega
    have hflush := tinyFlush_around fcp chip w self (offs-offs%fcp.board.linesz) hs
    have hpending := tinyFlush_pending fcp chip self (offs-offs%fcp.board.linesz) hs
    cases mem with
    | none =>
      rw [tinyLoop,tinyLoop]
      exact hflush
    | some mem =>
      rw [tinyLoop,tinyLoop,hflush.eq]
      generalize tinyFlush fcp chip self (offs-offs%fcp.board.linesz) s=r at hpending ⊢
      have hfill := tinyFill_around fcp w flags hdvd hle r.2
      have hpending' := tinyFill_pending fcp flags hdvd hpending
      rw [hfill.eq]
      generalize tinyFill fcp flags (offs-offs%fcp.board.linesz) r.2=r' at hpending' ⊢
      split
      · rfl
      · dsimp only
        split
        · rfl
        · split
          · exact ih (some _) (by omega) (tinyStore_pending fcp _ _ hpending')
          · rfl

theorem programEdge_around {lo : ℕ} (bo : ℕ) (data : List UInt8) (flags : Flags) (s : Flash)
    (hdvd : fcp.board.linesz ∣ lo) (hle : lo≤fcp.size) :
    Confined fcp w (programEdge fcp chip lo bo data flags) s := by
  unfold Confined
  rw [programEdge,programEdge,Flash.around_cells,readline_around fcp w s.cells flags hdvd hle]
  split
  · exact programline_around fcp chip w _ _ s hdvd
  · rfl

theorem programRest_around (mem : List UInt8) (flags : Flags) (s : Flash)
    (hoffs : nb=0 ∨ fcp.board.linesz ∣ offs) (hin : offs+nb≤fcp.size) :
    Confined fcp w (programRest fcp chip offs mem nb flags) s := by
  unfold Confined
  rcases hoffs with rfl | hdvd
  · simp [programRest]
  · have hmid := Nat.dvd_sub_mod (n := fcp.board.linesz) nb
    have hle := Nat.mod_le nb fcp.board.linesz
    rw [programRest,programRest]
    have hmiddle := fun r : Option DevCode × Flash => fromprogramaligned_around fcp chip w flags
      mem r.2 hdvd hmid (by omega)
    by_cases htail : nb%fcp.board.linesz=0
    · rw [if_pos htail,if_pos htail]
      split
      · exact hmiddle (some .ok,s)
      · rfl
    · have hedge := programEdge_around fcp chip w 0
        ((mem.drop (nb-nb%fcp.board.linesz)).take (nb%fcp.board.linesz)) flags s
        (Nat.dvd_add hdvd hmid) (by omega)
      rw [if_neg htail,if_neg htail,hedge.eq]
      split
      · exact hmiddle _
      · rfl

theorem programParts_around (mem : List UInt8) (flags : Flags) (s : Flash)
    (hin : offs+nb≤fcp.size) : Confined fcp w (programParts fcp chip offs mem nb flags) s := by
  unfold Confined
  have hpos := fcp.board.linesz_pos
  have hmod := Nat.mod_lt offs hpos
  have hmodle := Nat.mod_le offs fcp.board.linesz
  have hstart := Nat.dvd_sub_mod (n := fcp.board.linesz) offs
  rw [programParts,programParts]
  by_cases hbo : offs%fcp.board.linesz=0
  · rw [if_pos hbo,if_pos hbo]
    exact programRest_around fcp chip w mem flags s (.inr (Nat.dvd_of_mod_eq_zero hbo)) hin
  · rw [if_neg hbo,if_neg hbo]
    dsimp only
    rw [(programEdge_around fcp chip w _ _ flags s hstart (by omega)).eq]
    split
    · refine programRest_around fcp chip w _ flags _ ?_ (by omega)
      -- the head ends the line, or the request
      rcases le_total (fcp.board.linesz-offs%fcp.board.linesz) nb with hle | hle
      · rw [min_eq_left hle]
        right
        have hend : offs+(fcp.board.linesz-offs%fcp.board.linesz) =
            offs-offs%fcp.board.linesz+fcp.board.linesz := by omega
        rw [hend]
        exact Nat.dvd_add hstart dvd_rfl
      · left
        omega
    · rfl

theorem fromprogrambytes_around (mem : Option (List UInt8)) (flags : Flags)
    (hin : offs+nb≤fcp.size) (hs : LinePending fcp s) :
    Confined fcp w (fromprogrambytes fcp chip offs mem nb flags) s := by
  unfold Confined
  have hlimit := fcp.limit_ok hin
  rw [fromprogrambytes,fromprogrambytes,if_neg hlimit,if_neg hlimit]
  split
  · split
    · exact tinyLoop_around fcp chip w true _ _ mem hin hs
    · have hflush : fromprogramtiny fcp chip false 0 none 0 0 (s.around fcp.size w)=_ :=
        tinyLoop_around fcp chip w false _ _ none (Nat.zero_le _) hs
      rw [hflush]
      exact programParts_around fcp chip w _ flags _ hin
  · split
    · rfl
    · exact programParts_around fcp chip w _ flags s hin

theorem fromprogrambytes_rejected (mem : Option (List UInt8)) (flags : Flags) (s : Flash)
    (h : fcp.size<(offs+nb)%2^32) :
    fromprogrambytes fcp chip offs mem nb flags s=(some .fail,s) := if_pos h

structure Image where
  inProm : Bool
  length : ℕ

def sbdFlashprogram (image : Image) (answer : Bool) (data : List UInt8) (size offset : ℕ)
    (bigend : Bool) (s : Flash) : Option ℕ × Flash :=
  if (size+offset)%2^32>fcp.size then (some 1,s)
  else
    let reboot := image.inProm && decide (offset < image.length)
    if !answer then (some 0,s)
    else
      let r := fromprogrambytes fcp chip offset (some data) size
        (progMerge ||| (if bigend then progCodeEb else 0) ||| (if reboot then progReboot else 0)) s
      (r.1.map fun _ => 0,r.2)

theorem sbdFlashprogram_around (image : Image) (answer : Bool) (data : List UInt8) {size offset : ℕ}
    (bigend : Bool) (hin : offset+size≤fcp.size) (hs : LinePending fcp s) :
    sbdFlashprogram fcp chip image answer data size offset bigend (s.around fcp.size w) =
      ((sbdFlashprogram fcp chip image answer data size offset bigend s).1,
        (sbdFlashprogram fcp chip image answer data size offset bigend s).2.around fcp.size w) := by
  have hlimit := Nat.add_comm offset size ▸ fcp.limit_ok hin
  rw [sbdFlashprogram,sbdFlashprogram,if_neg hlimit,if_neg hlimit]
  dsimp only
  split
  · rfl
  · rw [fromprogrambytes_around fcp chip w _ _ hin hs]

theorem sbdFlashprogram_rejected (image : Image) (answer : Bool) (data : List UInt8)
    {size offset : ℕ} (bigend : Bool) (s : Flash) (h : fcp.size<(offset+size)%2^32) :
    sbdFlashprogram fcp chip image answer data size offset bigend s=(some 1,s) :=
  if_pos (Nat.add_comm offset size ▸ h)
end

/-- What lies beyond the device neither matters nor changes, and a request that reaches there is
refused. -/
structure WithinDevice (fcp : Fromcookie) (offs nb : ℕ) : Prop where
  read : ∀ flags cells w, fromreadbytes fcp (beyond fcp.size w cells) offs nb flags =
    fromreadbytes fcp cells offs nb flags
  /-- `fromreadbytes` refuses a request that reaches beyond. -/
  read_rejects : fcp.size<offs+nb → ∀ flags cells,
    fromreadbytes fcp cells offs nb flags=(.fail,[])
  program : ∀ chip mem flags w s, LinePending fcp s →
    fromprogrambytes fcp chip offs mem nb flags (s.around fcp.size w) =
      ((fromprogrambytes fcp chip offs mem nb flags s).1,
        (fromprogrambytes fcp chip offs mem nb flags s).2.around fcp.size w)
  /-- `fromprogrambytes` refuses a request that reaches beyond. -/
  program_rejects : fcp.size<offs+nb → ∀ chip mem flags s,
    fromprogrambytes fcp chip offs mem nb flags s=(some .fail,s)
  sbd : ∀ chip image answer data bigend w s, LinePending fcp s →
    sbdFlashprogram fcp chip image answer data nb offs bigend (s.around fcp.size w) =
      ((sbdFlashprogram fcp chip image answer data nb offs bigend s).1,
        (sbdFlashprogram fcp chip image answer data nb offs bigend s).2.around fcp.size w)
  /-- `sbd_flashprogram` refuses a request that reaches beyond. -/
  sbd_rejects : fcp.size<offs+nb → ∀ chip image answer data bigend s,
    sbdFlashprogram fcp chip image answer data nb offs bigend s=(some 1,s)

variable {fcp : Fromcookie}

theorem WithinDevice.of_le (h : offs+nb≤fcp.size) : WithinDevice fcp offs nb where
  read flags cells w := fromreadbytes_around fcp w cells flags h
  read_rejects hlt := absurd hlt (not_lt.mpr h)
  program chip mem flags w _ hs := fromprogrambytes_around fcp chip w mem flags h hs
  program_rejects hlt := absurd hlt (not_lt.mpr h)
  sbd chip image answer data bigend w _ hs :=
    sbdFlashprogram_around fcp chip w image answer data bigend h hs
  sbd_rejects hlt := absurd hlt (not_lt.mpr h)

theorem WithinDevice.of_rejected (h : fcp.size<(offs+nb)%2^32) :
    WithinDevice fcp offs nb where
  read flags cells w := by
    rw [fromreadbytes_rejected fcp _ flags h,fromreadbytes_rejected fcp _ flags h]
  read_rejects _ flags cells := fromreadbytes_rejected fcp cells flags h
  program chip mem flags w _ _ := by
    rw [fromprogrambytes_rejected fcp chip mem flags _ h,
      fromprogrambytes_rejected fcp chip mem flags _ h]
  program_rejects _ chip mem flags s := fromprogrambytes_rejected fcp chip mem flags s h
  sbd chip image answer data bigend w _ _ := by
    rw [sbdFlashprogram_rejected fcp chip image answer data bigend _ h,
      sbdFlashprogram_rejected fcp chip image answer data bigend _ h]
  sbd_rejects _ chip image answer data bigend s :=
    sbdFlashprogram_rejected fcp chip image answer data bigend s h

theorem fromreadbytes_accepts (h : ¬ fcp.size<(offs+nb)%2^32) (cells : ℕ → UInt8)
    (flags : Flags) : (fromreadbytes fcp cells offs nb flags).1 = .ok := by
  rw [fromreadbytes,if_neg h]
  split <;> rfl

/-- The bounds hold for exactly the requests whose sum does not wrap, or wraps beyond the size. -/
theorem withinDevice_iff (fcp : Fromcookie) (offs nb : UInt32) :
    WithinDevice fcp offs.toNat nb.toNat ↔
      offs.toNat + nb.toNat<2^32 ∨ fcp.size<(offs.toNat + nb.toNat)%2^32 := by
  constructor
  · intro h
    by_contra hnot
    rw [not_or] at hnot
    obtain ⟨hwrap,hpass⟩ := hnot
    have hsize := fcp.size_le
    have hreject := h.read_rejects (by omega) 0 fun _ => 0
    have haccept := fromreadbytes_accepts hpass (fun _ => 0) 0
    rw [hreject] at haccept
    cases haccept
  · rintro (hfit | hreject)
    · by_cases hin : offs.toNat + nb.toNat≤fcp.size
      · exact .of_le hin
      · exact .of_rejected (by rw [Nat.mod_eq_of_lt hfit]; omega)
    · exact .of_rejected hreject

theorem fromreadbytes_wraps : (∀ cells, fromreadbytes twoSectors cells 0xfffffffc 4 progCodeEb =
      (.ok,readCells cells 0xfffffffc 4)) ∧ ¬ WithinDevice twoSectors 0xfffffffc 4 := by
  have hread : ∀ cells, fromreadbytes twoSectors cells 0xfffffffc 4 progCodeEb =
      (.ok,readCells cells 0xfffffffc 4) := fun _ => rfl
  refine ⟨hread, fun h => ?_⟩
  have hreject := h.read_rejects (by decide) progCodeEb fun _ => 0
  rw [hread] at hreject
  cases hreject

end Pmon.FlashRom
