import Pmon.SetEnv

/-!
# The size of a word

`wordsz` counts the zero bytes behind the white space, where it should count the others, and may
leave the string. `do_cmd` asks it whether the last command fits `tmp`.
-/

namespace Pmon.WordSize
open List
open SetEnv (isspace getword)

/-- `wordsz`, for the memory from `p` on, `none` for a null pointer. -/
def wordsz : Option (List UInt8) → ℕ
  | none => 0
  | some mem => ((mem.dropWhile isspace).takeWhile fun c => c == 0 && !isspace c).length

/-- The word that `getword` copies, nothing when it returns 0. -/
def copied (p : Option (List UInt8)) : List UInt8 :=
  match p.bind fun mem => getword (mem.takeWhile (· != 0)) with
  | none => []
  | some (word,_) => word

/-- What `do_cmd` copies to `tmp` when it repeats trace commands only; `t` is the last command. -/
def repeated (t : Option (List UInt8)) : Option (List UInt8) :=
  if wordsz t>10 then none else some (copied t)

theorem dropWhile_takeWhile {mem : List UInt8} (hend : 0∈mem) :
    ∃ c rest, mem.dropWhile isspace=c::rest ∧ isspace c=false ∧
      (mem.takeWhile (· != 0)).dropWhile isspace=(c::rest).takeWhile (· != 0) := by
  induction mem with
  | nil => cases hend
  | cons b mem ih =>
    cases hb : isspace b with
    | false =>
      refine ⟨b,mem,by rw [dropWhile_cons_of_neg (by simp [hb])],hb,?_⟩
      cases hzero : b != 0 with
      | false => simp [hzero]
      | true => simp [hzero,hb]
    | true =>
      have hne : b≠0 := by
        rintro rfl
        exact absurd hb (by decide +kernel)
      obtain ⟨c,rest,hdrop,hc,htake⟩ := ih ((mem_cons.mp hend).resolve_left hne.symm)
      refine ⟨c,rest,by rw [dropWhile_cons_of_pos hb,hdrop],hc,?_⟩
      rw [takeWhile_cons_of_pos (by simpa using hne),dropWhile_cons_of_pos hb,htake]

/-- The count is 0 where there is a word, and positive where there is none. -/
theorem wordsz_eq_zero_iff {mem : List UInt8} (hend : 0∈mem) :
    wordsz (some mem)=0 ↔ copied (some mem)≠[] := by
  obtain ⟨c,rest,hdrop,hc,htake⟩ := dropWhile_takeWhile hend
  have hcount : wordsz (some mem)=((c::rest).takeWhile fun c => c == 0 && !isspace c).length := by
    rw [wordsz,hdrop]
  have hword : copied (some mem)=((c::rest).takeWhile (· != 0)).takeWhile (!isspace ·) := by
    rw [copied,Option.bind_some,getword,htake]
    by_cases hnone : (c::rest).takeWhile (· != 0)=[]
    · rw [hnone]
      rfl
    · rw [if_neg hnone]
  rw [hcount,hword]
  by_cases hzero : c=0
  · simp [hzero,hzero ▸ hc]
  · simp [hzero,hc]

/-- The two agree for the null pointer only, and the check never keeps a long word out. -/
theorem wordsz_copied {p : Option (List UInt8)} (hend : ∀ mem∈p, 0∈mem) :
    (wordsz p=(copied p).length ↔ p=none) ∧
      ((∃ word∈repeated p, 10<word.length) ↔ 10<(copied p).length) := by
  cases p with
  | none => simp [wordsz,copied,repeated]
  | some mem =>
    have hzero := wordsz_eq_zero_iff (hend mem rfl)
    refine ⟨⟨fun heq => ?_, fun h => by cases h⟩, fun ⟨word,hword,hlong⟩ => ?_, fun hlong => ?_⟩
    · rw [heq,length_eq_zero_iff] at hzero
      exact absurd hzero (by simp)
    · unfold repeated at hword
      split at hword
      · cases hword
      · rwa [Option.some.inj hword]
    · have hword : copied (some mem)≠[] := fun h => by simp [h] at hlong
      refine ⟨_,?_,hlong⟩
      rw [repeated,hzero.mpr hword]
      rfl

theorem wordsz_copied_null : wordsz none=(copied none).length :=
  (wordsz_copied fun mem h => by cases h).1.mpr rfl

/-- `abcdefghijkl`, counted as no character and copied as twelve. -/
theorem wordsz_long : wordsz (some ((List.range' 97 12).map UInt8.ofNat++[0]))=0 ∧
    repeated (some ((List.range' 97 12).map UInt8.ofNat++[0])) =
      some ((List.range' 97 12).map UInt8.ofNat) := by
  decide +kernel

end Pmon.WordSize
