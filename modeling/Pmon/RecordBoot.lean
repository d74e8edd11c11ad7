import Pmon.FastSyms
import Pmon.RecordFeed

/-!
# Whether booting from records ends

At the end `fdgets` hands out empty lines: an error to `load_s3`, a record to be continued to
`dl_fastload`.
-/

namespace Pmon.RecordBoot
open LoadFn (DlCode Monitor Flags Loader dlS3load)
open FastLoad (FastMonitor FastFlags FastLoader dlFastload slash fetch groups fastLoop)
open RecordFeed
section
variable {σ : Type} (fn : σ → Buffer → ℕ → DlCode × σ) (low : Buffer)

def recordLoop : ℕ → σ → Feed → Option DlCode
  | 0, _, _ => none
  | k+1, s, f =>
    let r := fn s f.buf f.nb
    if r.1 ≠ .cont then some r.1 else recordLoop k r.2 (advance low f)

def loadRecords (recid : UInt8) (buf : Buffer) (n : ℕ) (rest : List UInt8) (s : σ) (k : ℕ) :
    Option Result :=
  let f := firstLine buf n rest
  if f.buf 0≠recid then some .declined
  else (recordLoop fn low k s f).map fun c => if c = .done then .entry else .failed

def Returns {ρ : Type} (load : ℕ → Option ρ) : Prop := ∃ k, (load k).isSome
def Spent (f : Feed) : Prop := f.rest=[] ∧ f.left=0

instance (f : Feed) : Decidable (Spent f) := inferInstanceAs (Decidable (_ ∧ _))

def handed : ℕ → Feed → List Feed
  | 0, _ => []
  | k+1, f => f :: if Spent f then [] else handed k (advance low f)

def lines (f : Feed) : List Feed := handed low (f.rest.length+f.left+2) f

def AllCont : σ → List Feed → Prop
  | _, [] => True
  | s, f::fs => (fn s f.buf f.nb).1 = .cont ∧ AllCont (fn s f.buf f.nb).2 fs

theorem fdgets_length_lt {maxn o nb : ℕ} {buf : Buffer} {rest : List UInt8} (h : rest≠[]) :
    (fdgets maxn buf o nb rest).2.2.length<rest.length := by
  induction rest generalizing buf o nb with
  | nil => exact absurd rfl h
  | cons b rest ih =>
    unfold fdgets
    split_ifs
    · exact Nat.lt_succ_self _
    · exact Nat.lt_succ_self _
    · cases rest with
      | nil => exact Nat.lt_succ_self _
      | cons c rest => exact (ih (List.cons_ne_nil c rest)).trans (Nat.lt_succ_self _)

inductive Advance (f : Feed) : Feed → Prop where
  | within {g : Feed} (hrest : g.rest=f.rest) (hleft : g.left<f.left) : Advance f g
  | read {g : Feed} (hrest : g.rest.length<f.rest.length) (hleft : g.left=f.left) : Advance f g
  /-- The file is at its end: the line is empty, whatever its length is said to be. -/
  | dry {g : Feed} (hend : f.rest=[]) (hrest : g.rest=[]) (hleft : g.left=f.left)
      (hnb : g.nb=f.left) (hbuf : g.buf 0=0) : Advance f g

theorem fdgets_advance (f : Feed) (buf : Buffer) (q : Option ℕ) :
    Advance f ⟨(fdgets DLREC buf 0 0 f.rest).2.1,q,f.left,f.left+(fdgets DLREC buf 0 0 f.rest).1,
      (fdgets DLREC buf 0 0 f.rest).2.2⟩ := by
  by_cases hend : f.rest=[]
  · rw [hend]
    exact .dry hend rfl rfl (Nat.add_zero _) (Function.update_self 0 0 buf)
  · exact .read (fdgets_length_lt hend) rfl

theorem advance_advance (f : Feed) : Advance f (advance low f) := by
  unfold advance
  by_cases hleft : f.left≠0
  · rw [if_pos hleft]
    dsimp only
    split
    · exact .within rfl (Nat.sub_lt (Nat.pos_of_ne_zero hleft) (Nat.succ_pos _))
    · exact fdgets_advance f _ _
  · rw [if_neg hleft]
    have hzero := not_not.mp hleft
    have hread := fdgets_advance f f.buf f.p
    rw [hzero,Nat.zero_add] at hread
    exact hread

variable {fn low}
variable {s : σ} {f : Feed}

theorem returns_of_stop (h : (fn s f.buf f.nb).1 ≠ .cont) :
    Returns fun k => recordLoop fn low k s f := by
  refine ⟨1,?_⟩
  dsimp only
  rw [recordLoop,if_pos h]
  rfl

theorem returns_of_next (h : (fn s f.buf f.nb).1 = .cont)
    (hnext : Returns fun k => recordLoop fn low k (fn s f.buf f.nb).2 (advance low f)) :
    Returns fun k => recordLoop fn low k s f := by
  obtain ⟨k,hk⟩ := hnext
  refine ⟨k+1,?_⟩
  dsimp only
  rw [recordLoop,if_neg (not_not.mpr h)]
  exact hk

theorem recordLoop_returns (hempty : ∀ s buf nb, buf 0=0 → (fn s buf nb).1 ≠ .cont) (s : σ)
    (f : Feed) : Returns fun k => recordLoop fn low k s f := by
  generalize hsize : f.rest.length+f.left=size
  induction size using Nat.strong_induction_on generalizing s f with
  | h size ih =>
    by_cases hcode : (fn s f.buf f.nb).1 = .cont
    · -- after an empty line there is no turn; otherwise less is left
      have hnext : Returns fun k => recordLoop fn low k (fn s f.buf f.nb).2 (advance low f) := by
        cases advance_advance low f with
        | within hrest hleft => exact ih _ (by rw [hrest]; omega) _ _ rfl
        | read hrest hleft => exact ih _ (by rw [hleft]; omega) _ _ rfl
        | dry _ _ _ _ hbuf => exact returns_of_stop (hempty _ _ _ hbuf)
      exact returns_of_next hcode hnext
    · exact returns_of_stop hcode

theorem recordLoop_spent (hempty : ∀ s buf, (fn s buf 0).1 = .cont) {f : Feed} (hspent : Spent f)
    (hnb : f.nb=0) (k : ℕ) (s : σ) : recordLoop fn low k s f=none := by
  induction k generalizing s f with
  | zero => rfl
  | succ k ih =>
    rw [recordLoop,hnb,if_neg (not_not.mpr (hempty s f.buf))]
    cases advance_advance low f with
    | within _ hleft => exact absurd hleft (by rw [hspent.2]; exact Nat.not_lt_zero _)
    | read hrest _ => exact absurd hrest (by rw [hspent.1]; exact Nat.not_lt_zero _)
    | dry _ hrest hleft hnb' _ => exact ih ⟨hrest,hleft.trans hspent.2⟩ (hnb'.trans hspent.2) _

theorem recordLoop_allCont (hempty : ∀ s buf, (fn s buf 0).1 = .cont)
    (hdry : ∀ s buf nb, nb≠0 → buf 0=0 → (fn s buf nb).1 ≠ .cont) {m : ℕ} {s : σ} {f : Feed}
    (hm : f.rest.length+f.left+2 ≤ m) (h : AllCont fn s (handed low m f)) (k : ℕ) :
    recordLoop fn low k s f=none := by
  induction k generalizing m s f with
  | zero => rfl
  | succ k ih =>
    obtain ⟨m,rfl⟩ := Nat.exists_eq_add_of_le' (Nat.le_of_add_left_le hm : 1 ≤ m)
    obtain ⟨hcode,htail⟩ := h
    rw [recordLoop,if_neg (not_not.mpr hcode)]
    by_cases hspent : Spent f
    · cases advance_advance low f with
      | within _ hleft => exact absurd hleft (by rw [hspent.2]; exact Nat.not_lt_zero _)
      | read hrest _ => exact absurd hrest (by rw [hspent.1]; exact Nat.not_lt_zero _)
      | dry _ hrest hleft hnb _ =>
        exact recordLoop_spent hempty ⟨hrest,hleft.trans hspent.2⟩ (hnb.trans hspent.2) k _
    · rw [if_neg hspent] at htail
      cases advance_advance low f with
      | within hrest hleft => exact ih (by rw [hrest]; omega) htail
      | read hrest hleft => exact ih (by rw [hleft]; omega) htail
      | dry hend _ hleft hnb hbuf =>
        -- the line has a length but no characters
        have hne : (advance low f).nb≠0 := fun hzero => hspent ⟨hend,hnb ▸ hzero⟩
        obtain ⟨m,rfl⟩ := Nat.exists_eq_add_of_le' (by omega : 1 ≤ m)
        exact absurd htail.1 (hdry _ _ _ hne hbuf)

theorem recordLoop_of_not_allCont {m : ℕ} {s : σ} {f : Feed}
    (h : ¬AllCont fn s (handed low m f)) : Returns fun k => recordLoop fn low k s f := by
  induction m generalizing s f with
  | zero => exact absurd trivial h
  | succ m ih =>
    by_cases hcode : (fn s f.buf f.nb).1 = .cont
    · have htail : ¬AllCont fn (fn s f.buf f.nb).2 (if Spent f then [] else handed low m (advance low f)) :=
        fun ht => h ⟨hcode,ht⟩
      split at htail
      · exact absurd trivial htail
      · exact returns_of_next hcode (ih htail)
    · exact returns_of_stop hcode

theorem recordLoop_returns_iff (hempty : ∀ s buf, (fn s buf 0).1 = .cont)
    (hdry : ∀ s buf nb, nb≠0 → buf 0=0 → (fn s buf nb).1 ≠ .cont) (s : σ) (f : Feed) :
    (Returns fun k => recordLoop fn low k s f) ↔ ¬AllCont fn s (lines low f) := by
  refine ⟨fun ⟨k,hk⟩ hall => ?_,recordLoop_of_not_allCont⟩
  have hnone := recordLoop_allCont hempty hdry le_rfl hall k
  simp [hnone] at hk

theorem loadRecords_returns_iff (recid : UInt8) (buf : Buffer) (n : ℕ) (rest : List UInt8) (s : σ) :
    Returns (loadRecords fn low recid buf n rest s) ↔ ((firstLine buf n rest).buf 0=recid →
        Returns fun k => recordLoop fn low k s (firstLine buf n rest)) := by
  unfold Returns loadRecords
  by_cases hid : (firstLine buf n rest).buf 0=recid
  · simp [hid]
  · simp [hid]
end
section
variable {σ : Type} (M : FastMonitor σ) (flags : FastFlags) (low : Buffer)

def s3Line (s : Loader σ) (buf : Buffer) (_nb : ℕ) : DlCode × Loader σ :=
  let r := dlS3load M.toMonitor flags.toFlags s ((cstr buf).map fun b => Char.ofNat b.toNat)
  (r.1,r.2.2)

def fastLine (s : FastLoader σ) (buf : Buffer) (nb : ℕ) : DlCode × FastLoader σ :=
  let r := dlFastload M flags buf nb s
  (r.1,r.2.2)

def loadS3 (buf : Buffer) (n : ℕ) (rest : List UInt8) (s : Loader σ) : ℕ → Option Result :=
  loadRecords (s3Line M flags) low 83 buf n rest s

def loadFast (buf : Buffer) (n : ℕ) (rest : List UInt8) (s : FastLoader σ) : ℕ → Option Result :=
  loadRecords (fastLine M flags) low slash buf n rest s

theorem s3Line_empty (s : Loader σ) {buf : Buffer} (h : buf 0=0) (nb : ℕ) :
    (s3Line M flags s buf nb).1 ≠ .cont := by
  have hcstr : cstr buf=[] := by
    unfold cstr ByteStore.readCells
    rw [List.takeWhile_cons,h]
    rfl
  unfold s3Line dlS3load
  rw [hcstr]
  exact fun hcont => by cases hcont

theorem fastLine_empty (s : FastLoader σ) (buf : Buffer) : (fastLine M flags s buf 0).1 = .cont := rfl

theorem fastLine_dry (s : FastLoader σ) {buf : Buffer} {nb : ℕ} (hnb : nb≠0) (h : buf 0=0) :
    (fastLine M flags s buf nb).1 ≠ .cont := by
  unfold fastLine dlFastload
  by_cases hmod : (nb : ℤ).tmod 4≠0
  · rw [if_pos hmod]
    exact fun hcont => by cases hcont
  · obtain ⟨n,hn⟩ : ∃ n, ((nb : ℤ)/4).toNat=n+1 := by
      have := not_not.mp hmod
      rw [Int.tmod_eq_emod_of_nonneg (Int.natCast_nonneg nb)] at this
      exact ⟨((nb : ℤ)/4).toNat-1,by omega⟩
    rw [if_neg hmod,hn]
    have hfetch : ∀ gs, fetch ⟨buf 0,buf 1,buf 2,buf 3⟩ gs=(.bad .badLen,gs) := by
      intro gs
      rw [h]
      rfl
    dsimp only
    rw [groups,fastLoop,hfetch]
    exact fun hcont => by cases hcont

/-- Both loaders return if and only if `dl_fastload` stops at a line of a file of fast records. -/
theorem loaders_return_iff (buf : Buffer) (n : ℕ) (rest : List UInt8) (s : Loader σ)
    (t : FastLoader σ) :
    Returns (loadS3 M flags low buf n rest s) ∧ Returns (loadFast M flags low buf n rest t) ↔
      ((firstLine buf n rest).buf 0=slash →
        ¬AllCont (fastLine M flags) t (lines low (firstLine buf n rest))) := by
  have hs3 : Returns (loadS3 M flags low buf n rest s) :=
    (loadRecords_returns_iff 83 buf n rest s).mpr fun _ =>
      recordLoop_returns (fun s buf nb h => s3Line_empty M flags s h nb) s _
  have hfast : Returns (loadFast M flags low buf n rest t) ↔ _ :=
    loadRecords_returns_iff slash buf n rest t
  rw [recordLoop_returns_iff (fastLine_empty M flags)
    (fun s buf nb hnb h => fastLine_dry M flags s hnb h)] at hfast
  exact ⟨fun h => hfast.mp h.2, fun h => ⟨hs3,hfast.mpr h⟩⟩
end

def cleared : Buffer := fun i => if i<56 then [47,75,65,65].getD (i%4) 0 else 0

theorem loadFast_truncated :
    ¬Returns (loadFast FastSyms.fastMonitor {} (fun _ => 0) cleared 56 [] FastSyms.clearFast) := by
  intro h
  have hloop := (loadRecords_returns_iff slash cleared 56 [] FastSyms.clearFast).mp h
    (by decide +kernel)
  rw [recordLoop_returns_iff (fastLine_empty _ _)
    (fun s buf nb hnb h => fastLine_dry _ _ s hnb h)] at hloop
  exact hloop ⟨by decide +kernel,trivial⟩

end Pmon.RecordBoot
