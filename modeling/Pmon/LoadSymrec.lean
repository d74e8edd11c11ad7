import Pmon.LoadFn

/-!
# Symbol records

A list of fields, each an address of eight digits and a name that ends in a comma. The reading
depends on the text alone.
-/

namespace Pmon.LoadSymrec
open LoadFn

structure Field where
  adr : ℕ
  name : List Char
  deriving DecidableEq

def fields : ℕ → List Char → ℤ → List Field × Except DlCode (List Char)
  | 0, p, _ => ([],.ok p)
  | fuel+1, p, len =>
    if 2<len then
      match gethex p 8 with
      | none => ([],.error .badChar)
      | some adr =>
        if ',' ∈ p.drop 8 then
          let name := (p.drop 8).takeWhile (· ≠ ',')
          let r := fields fuel ((p.drop 8).drop (name.length+1)) (len-8-name.length)
          (⟨adr,name⟩::r.1,r.2)
        else ([],.error .badChar)
    else ([],.ok p)

def recordFields (recbuf : List Char) : List Field := match gethex (recbuf.drop 2) 2 with
  | none => []
  | some len => (fields recbuf.length (recbuf.drop 4) len).1

theorem fields_error {fuel : ℕ} {p : List Char} {len : ℤ} {e : DlCode}
    (h : (fields fuel p len).2 = .error e) : e = .badChar := by
  induction fuel generalizing p len with
  | zero => cases h
  | succ fuel ih =>
    rw [fields] at h
    split at h
    · cases hadr : gethex p 8 with
      | none =>
        rw [hadr] at h
        cases h
        rfl
      | some adr =>
        rw [hadr] at h
        dsimp only at h
        split at h
        · exact ih h
        · cases h
          rfl
    · cases h

variable {σ : Type} (M : Monitor σ) (flags : Flags)

def value (offset adr : ℕ) : ℕ := if flags.absSyms then adr else (adr+offset)%2^32

def enter : List Field → Loader σ → Loader σ × Bool
  | [], s => (s,true)
  | f::fs, s =>
    match M.newsym s.syms f.name (value flags s.offset f.adr) with
    | none => (s,false)
    | some syms => enter fs {s with syms := syms}

theorem symLoop_eq (fuel : ℕ) (p : List Char) (len : ℤ) (s : Loader σ) :
    symLoop M flags fuel p len s = match enter M flags (fields fuel p len).1 s with
      | (s,false) => (s,.error .noSymSpace)
      | (s,true) => (s,(fields fuel p len).2) := by
  induction fuel generalizing p len s with
  | zero => rfl
  | succ fuel ih =>
    rw [symLoop,fields]
    by_cases hlen : 2<len
    · rw [if_pos hlen,if_pos hlen]
      cases hadr : gethex p 8 with
      | none => rfl
      | some adr =>
        dsimp only
        by_cases hcomma : ',' ∈ p.drop 8
        · rw [if_pos hcomma,if_pos hcomma]
          dsimp only
          rw [enter,value]
          cases M.newsym s.syms ((p.drop 8).takeWhile (· ≠ ','))
            (if flags.absSyms then adr else (adr+s.offset)%2^32) with
          | none => rfl
          | some syms => exact ih _ _ _
        · rw [if_neg hcomma,if_neg hcomma]
          rfl
    · rw [if_neg hlen,if_neg hlen]
      rfl

theorem enter_offset (fs : List Field) (s : Loader σ) :
    (enter M flags fs s).1.offset=s.offset := by
  induction fs generalizing s with
  | nil => rfl
  | cons f fs ih =>
    rw [enter]
    split
    · rfl
    · rw [ih]

theorem s3Dlsym_state {flags : Flags} (hflags : flags.noSyms=false)
    (s : Loader σ) (p : List Char) :
    (s3Dlsym M flags s p).2=(enter M flags (recordFields p) s).1 := by
  rw [s3Dlsym,hflags,if_neg Bool.false_ne_true,recordFields]
  cases gethex (p.drop 2) 2 with
  | none => rfl
  | some len =>
    dsimp only
    rw [symLoop_eq]
    match enter M flags (fields p.length (p.drop 4) len).1 s with
    | (s',false) => rfl
    | (s',true) =>
      dsimp only
      split
      · rename_i h
        exact (congrArg Prod.fst h).symm
      · rename_i h
        have hs := congrArg Prod.fst h
        dsimp only at hs
        rw [hs]
        split <;> rfl

end Pmon.LoadSymrec
