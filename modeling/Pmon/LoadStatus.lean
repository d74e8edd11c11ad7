import Pmon.FastLoad
import Pmon.LoadDatarec
import Pmon.LoadSymrec

/-!
# Status codes of the record loaders

The `load` command counts errors in a table indexed by the status of a record.
-/

namespace Pmon.LoadStatus
open LoadFn FastLoad
open LoadDatarec (bytes)

def status : DlCode → ℤ
  | .cont => 0
  | .done => 1
  | .badChar => 2
  | .badLen => 3
  | .badType => 4
  | .badSum => 5
  | .noSymSpace => 6
  | .badAddr => 7
  | .ioErr => 8
  | .minusOne => -1

def dlMax : ℤ := 9
def InTable (code : DlCode) : Prop := 0 ≤ status code ∧ status code<dlMax

theorem inTable_iff (code : DlCode) : InTable code ↔ code ≠ .minusOne := by
  unfold InTable
  cases code <;> decide

variable {σ : Type} {M : Monitor σ} {flags : Flags} {s : Loader σ}

theorem loadData_ne (addr : ℕ) (len : ℤ) (p : List Char) :
    (loadData M flags s addr len p).1 ≠ .minusOne := by
  unfold loadData checkSum
  split
  · exact nofun
  · split
    · exact nofun
    · split
      · exact nofun
      · split <;> exact nofun

theorem s3Dlsym_ne (p : List Char) : (s3Dlsym M flags s p).1 ≠ .minusOne := by
  unfold s3Dlsym
  split
  · exact nofun
  · split
    · exact nofun
    · rename_i len hlen
      rw [LoadSymrec.symLoop_eq]
      match LoadSymrec.enter M flags (LoadSymrec.fields p.length (p.drop 4) len).1 s with
      | (s',false) => exact nofun
      | (s',true) =>
        dsimp only
        split
        · rename_i hend
          rw [LoadSymrec.fields_error (congrArg Prod.snd hend)]
          exact nofun
        · split <;> exact nofun

theorem s3Endrec_ne (p : List Char) : (s3Endrec s p).1 ≠ .minusOne := by
  unfold s3Endrec
  dsimp only
  split <;> exact nofun

structure CutAddress (flags : Flags) (n : ℕ) (p : List Char) : Prop where
  wanted : flags.onlySyms=false
  kind : addrWidth p[1]?=some n
  length : ∃ len, gethex (p.drop 2) 2=some len ∧ len*2=(p.drop 4).length
  cut : (bytes (p.drop 4)).length+1=n

theorem s3Datarec_eq_minusOne_iff (p : List Char) :
    (s3Datarec M flags s p).1 = .minusOne ↔ ∃ n, CutAddress flags n p := by
  constructor
  · intro h
    by_cases hwanted : flags.onlySyms=true
    · rw [s3Datarec,if_pos hwanted] at h
      cases h
    have hflags : flags.onlySyms=false := Bool.eq_false_of_not_eq_true hwanted
    cases hread : gethex (p.drop 2) 2 with
    | none =>
      rw [s3Datarec,if_neg hwanted,hread] at h
      cases h
    | some len =>
      by_cases hlen : len*2=(p.drop 4).length
      · cases hkind : addrWidth p[1]? with
        | none =>
          rw [List.length_drop] at hlen
          rw [s3Datarec,if_neg hwanted,hread] at h
          dsimp only at h
          rw [if_neg (not_not.mpr hlen),hkind] at h
          cases h
        | some n =>
          by_cases haddr : n≤(bytes (p.drop 4)).length
          · rw [LoadDatarec.s3Datarec_eq hflags hkind hread hlen haddr] at h
            exact absurd h (loadData_ne _ _ _)
          · rw [LoadDatarec.s3Datarec_short hflags hkind hread hlen (not_le.mp haddr)] at h
            refine ⟨n,hflags,hkind,⟨len,hread,hlen⟩,?_⟩
            by_contra hcut
            rw [if_neg hcut] at h
            cases h
      · rw [List.length_drop] at hlen
        rw [s3Datarec,if_neg hwanted,hread] at h
        dsimp only at h
        rw [if_pos hlen] at h
        cases h
  · rintro ⟨n,hwanted,hkind,⟨len,hread,hlen⟩,hcut⟩
    rw [LoadDatarec.s3Datarec_short hwanted hkind hread hlen (by omega),if_pos hcut]

theorem dlS3load_inTable_iff (recbuf : List Char) : InTable (dlS3load M flags s recbuf).1 ↔
      ¬ (recbuf[0]?=some 'S' ∧ ∃ n, CutAddress flags n recbuf) := by
  rw [inTable_iff,not_iff_not]
  constructor
  · intro h
    by_cases hstart : recbuf[0]?=some 'S'
    · refine ⟨hstart,?_⟩
      rw [dlS3load,if_neg (not_not.mpr hstart)] at h
      split at h
      · cases h
      · split_ifs at h
        · exact (s3Datarec_eq_minusOne_iff recbuf).mp h
        · exact absurd h (s3Dlsym_ne recbuf)
        · exact absurd h (s3Endrec_ne recbuf)
    · rw [dlS3load,if_pos hstart] at h
      cases h
  · rintro ⟨hstart,n,hcut⟩
    rw [LoadDatarec.dlS3load_eq_datarec hstart hcut.kind]
    exact (s3Datarec_eq_minusOne_iff recbuf).mpr ⟨n,hcut⟩

variable {FM : FastMonitor σ} {fflags : FastFlags}

theorem dlFastload_inTable (recbuf : Buffer) (recsize : ℤ) (s : FastLoader σ) :
    InTable (dlFastload FM fflags recbuf recsize s).1 := by
  rw [inTable_iff]
  rcases dlFastload_sound FM fflags recbuf recsize s with hstatus | herror
  · rcases hstatus with h | h <;> rw [h] <;> exact nofun
  · exact herror.2

/-- Both loaders return an index of the tables, but for an address that breaks off in its last byte.
-/
theorem loaders_inTable_iff (M : Monitor σ) (flags : Flags) (s : Loader σ) (record : List Char)
    (FM : FastMonitor σ) (fflags : FastFlags) (t : FastLoader σ) (recbuf : Buffer) (recsize : ℤ) :
    InTable (dlS3load M flags s record).1 ∧ InTable (dlFastload FM fflags recbuf recsize t).1 ↔
      ¬ (record[0]?=some 'S' ∧ ∃ n, CutAddress flags n record) := by
  rw [and_iff_left (dlFastload_inTable recbuf recsize t)]
  exact dlS3load_inTable_iff record

theorem dlS3load_cut_address :
    ¬ InTable (dlS3load SDump.promMonitor {} SDump.clearLoader "S10112".toList).1 := by
  rw [inTable_iff]
  decide +kernel

end Pmon.LoadStatus
