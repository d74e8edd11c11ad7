import Pmon.FlashRomProgram

/-!
# Boot block protection of Atmel devices

The loop of `sectorinfo` means to probe each boot block once, but its test for "between" joins the
comparisons by an or.
-/

namespace Pmon.FlashRom
namespace Geometry
variable (fcp : Geometry)

def bootBlock : ℕ := 0x4000*fcp.board.linesz

def probed (chip : Chip) (t offs : ℕ) : Bool := (List.range fcp.board.ngroups).any fun g =>
    chip.fromautoselect (t+g) (offs+g*fcp.board.groupsz)

def bootStatus (chip : Chip) (t : ℕ) (sec : Sector) : Bool :=
  if sec.soffs+sec.ssize≤fcp.bootBlock then fcp.probed chip t 0
  else if fcp.size-fcp.bootBlock ≤ sec.soffs then
    fcp.probed chip (t+fcp.board.ngroups) (fcp.size-fcp.bootBlock)
  else false

end Geometry
section
variable (fcp : Geometry) (chip : Chip)

def ReportsBootStatus (s : Flash) : Prop := ∀ x<fcp.size,
    (sectorinfo fcp chip s x).1=fcp.bootStatus chip (s.tick+1) (fcp.sectorAt x) ∧
      ∀ y<fcp.size, (sectorinfo fcp chip (sectorinfo fcp chip s y).2.2.2 x).1 =
        fcp.bootStatus chip (s.tick+1) (fcp.sectorAt x)

def BlocksOpen (t : ℕ) : Prop :=
  ((∃ x<fcp.size, (fcp.sectorAt x).soffs+(fcp.sectorAt x).ssize≤fcp.bootBlock) →
    fcp.probed chip t 0=false) ∧
  ((∃ x<fcp.size, fcp.size-fcp.bootBlock≤(fcp.sectorAt x).soffs) →
    fcp.probed chip (t+fcp.board.ngroups) (fcp.size-fcp.bootBlock)=false)

section
variable (hatmel : fcp.family = .atmel) (hsize : 2*fcp.bootBlock<fcp.size)
include hatmel hsize

theorem probeLoop_atmel (fuel soffs : ℕ) (prot : Bool) (t : ℕ) :
    ∀ b∈(probeLoop fcp chip fuel soffs prot t).1, b=false := by
  induction fuel generalizing soffs prot t with
  | zero =>
    intro b hb
    simp [probeLoop] at hb
  | succ fuel ih =>
    have hle := fcp.size_le
    have htop : (fcp.size+2^32-0x4000*fcp.board.linesz)%2^32 =
        fcp.size-fcp.bootBlock := by
      rw [Geometry.bootBlock] at hsize ⊢
      omega
    -- an offset below the first block's end is below the last block's start
    have hbetween : fcp.family = .atmel ∧ (0x4000*fcp.board.linesz ≤ soffs ∨
        soffs<(fcp.size+2^32-0x4000*fcp.board.linesz)%2^32) := by
      refine ⟨hatmel,?_⟩
      rw [htop]
      rw [Geometry.bootBlock] at hsize ⊢
      omega
    simp only [probeLoop,if_pos hbetween]
    split
    · intro b hb
      rcases List.mem_cons.mp hb with rfl | hb
      · rfl
      · exact ih _ _ _ b hb
    · simp

theorem probeLoop_atmel_getD (t : ℕ) {x : ℕ} (hx : x<fcp.size) :
    (probeLoop fcp chip fcp.size 0 false t).1.getD (fcp.sectorAt x).secno true=false := by
  have hsec := fcp.secno_lt hx
  have hnsec : fcp.nsec≤fcp.size := fcp.length_layout ▸ fcp.layout.length_le
  have hlt : (fcp.sectorAt x).secno<(probeLoop fcp chip fcp.size 0 false t).1.length := by
    rw [length_probeLoop_zero]
    omega
  rw [List.getD_eq_getElem?_getD,List.getElem?_eq_getElem hlt,Option.getD_some]
  exact probeLoop_atmel fcp chip hatmel hsize _ _ _ _ _ (List.getElem_mem hlt)

theorem sectorinfo_atmel {s : Flash} (hcache : s.protect=none)
    (hmalloc : chip.mallocOk s.tick=true) {x : ℕ} (hx : x<fcp.size) :
    (sectorinfo fcp chip s x).1=false ∧
      ∀ y<fcp.size, (sectorinfo fcp chip (sectorinfo fcp chip s y).2.2.2 x).1=false := by
  have hopen := probeLoop_atmel_getD fcp chip hatmel hsize (s.tick+1) hx
  constructor
  · simp only [sectorinfo,fcp.findsector_sectorAt hx,hcache,hmalloc,if_true]
    exact hopen
  · intro y hy
    simp only [sectorinfo,fcp.findsector_sectorAt hx,fcp.findsector_sectorAt hy,hcache,
      hmalloc,if_true]
    exact hopen
end

/-- The cached status is right just when neither block is protected. -/
theorem sectorinfo_bootStatus_iff (hatmel : fcp.family = .atmel)
    (hsize : 2*fcp.bootBlock<fcp.size) {s : Flash} (hcache : s.protect=none)
    (hmalloc : chip.mallocOk s.tick=true) :
    ReportsBootStatus fcp chip s ↔ BlocksOpen fcp chip (s.tick+1) := by
  have hreport := fun {x : ℕ} => sectorinfo_atmel fcp chip hatmel hsize hcache hmalloc (x := x)
  constructor
  · intro h
    refine ⟨?_,?_⟩
    · rintro ⟨x,hx,hfirst⟩
      have hstatus := (h x hx).1
      rw [(hreport hx).1,Geometry.bootStatus,if_pos hfirst] at hstatus
      exact hstatus.symm
    · rintro ⟨x,hx,hlast⟩
      have hstatus := (h x hx).1
      have hfirst : ¬ (fcp.sectorAt x).soffs+(fcp.sectorAt x).ssize≤fcp.bootBlock := by
        omega
      rw [(hreport hx).1,Geometry.bootStatus,if_neg hfirst,if_pos hlast] at hstatus
      exact hstatus.symm
  · rintro ⟨hfirst,hlast⟩ x hx
    have hstatus : fcp.bootStatus chip (s.tick+1) (fcp.sectorAt x)=false := by
      rw [Geometry.bootStatus]
      split_ifs with h₁ h₂
      · exact hfirst ⟨x,hx,h₁⟩
      · exact hlast ⟨x,hx,h₂⟩
      · rfl
    rw [hstatus]
    exact hreport hx
end

def at29c040a : Fromcookie where
  board := flash8El
  devsizeLog2 := 19
  secsizeLog2 := 8
  boot := .fbNone
  am29dl := false
  family := .atmel
  secsize_le := by decide
  word_le := by decide
  eight_le := by decide
  boot_fits h := absurd rfl h
  size_lt := by decide

theorem sectorinfo_bootStatus_iff_at29c040a :
    (at29c040a.family = .atmel ∧ 2*at29c040a.bootBlock<at29c040a.size ∧
      elevens.protect=none ∧ soundChip.mallocOk elevens.tick=true) ∧
    (ReportsBootStatus at29c040a soundChip elevens ↔
      BlocksOpen at29c040a soundChip (elevens.tick+1)) :=
  ⟨by decide,sectorinfo_bootStatus_iff _ soundChip rfl (by decide) rfl rfl⟩

def lockedChip : Chip := {soundChip with fromautoselect := fun _ offs => decide (offs<0x4000)}

theorem sectorinfo_not_bootStatus : ¬ ReportsBootStatus at29c040a lockedChip elevens := by
  intro h
  have hx : 0<at29c040a.size := at29c040a.size_pos
  have hstatus := (h 0 hx).1
  rw [(sectorinfo_atmel _ lockedChip rfl (by decide) rfl rfl hx).1] at hstatus
  have hsector : at29c040a.sectorAt 0=⟨0,0,0x100⟩ := by decide
  rw [hsector] at hstatus
  exact absurd hstatus (by decide)

end Pmon.FlashRom
