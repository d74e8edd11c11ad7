import Pmon.SetEnvTable

/-!
# What a failed `setenv` leaves behind

`setenv` frees the old value before it asks for memory, and changes the table before it calls the
board.
-/

namespace Pmon.SetEnv
open EnvEntry KeyedList

structure Mallocs where
  name : Bool
  value : Bool

def _setenvWith (cfg : Config) (chg : Answers) (mem : Mallocs) (envinited : Bool) (tbl : Envvar)
    (name : CString) (value : CPtr) : Envvar × Bool :=
  if refuses cfg chg envinited name value then (tbl,false)
  else
    match scanSlots name tbl 0 none with
    | (some i,_) =>
      -- the old value is freed by now, and without a new one the name is freed too
      if value.isSome && !mem.value then (tbl.set i none,false)
      else (tbl.modify i (Option.map fun ep => {ep with value := value}),true)
    | (none,some i) =>
      if !mem.name then (tbl,false)
      else if value.isSome && !mem.value then (tbl.set i none,false)
      else (tbl.set i (some ⟨name,value⟩),true)
    | (none,none) => (tbl,false)

structure Sbd (σ : Type) where
  setenv : σ → CString → CPtr → σ × Bool
  unsetenv : σ → CString → σ × Bool
  mapenv : σ → σ × List (CString × CString)

section
variable {σ : Type} (b : Sbd σ) (cfg : Config) (chg : Answers) (mem : Mallocs)

def setenvWith (s : Env σ) (name : CString) (value : CPtr) : Env σ × Bool :=
  match _setenvWith cfg chg mem s.envinited s.envvar name value with
  | (tbl,false) => ({s with envvar := tbl},false)
  | (tbl,true) =>
    let (nv,ok) :=
      if (getstdenv cfg name).any fun sp => value.any fun v => striequ v.bytes sp.init.bytes then
        b.unsetenv s.nv name
      else b.setenv s.nv name value
    ({s with envvar := tbl, nv := nv},ok)

variable {name : CString} {value : CPtr} {tbl pre post : Envvar} {ep : Envpair}

theorem _setenvWith_found (envinited : Bool) (tbl : Envvar) (name : CString) (value : CPtr) :
    _setenvWith cfg chg ⟨true,true⟩ envinited tbl name value =
      _setenv cfg chg envinited tbl name value := by
  cases value with
  | none => rfl
  | some v => rfl

theorem _getenv_first (ep : Envpair) (hpre : ∀ x∈slots pre, fold x.name≠fold name)
    (hkey : fold name=fold ep.name) (n : CString) : _getenv (pre++some ep::post) n =
      if fold n=fold name then some (ep.value.getD CString.empty)
      else _getenv (pre++none::post) n := by
  have hnone : lookup key (slots pre) (fold name)=none := lookup_eq_none.mpr hpre
  have hep : key ep=fold name := hkey.symm
  simp only [_getenv_eq,slots_append,slots_cons_some,slots_cons_none,lookup_append,
    lookup_cons,hep]
  by_cases hn : fold n=fold name
  · simp [hn,hnone]
  · simp [hn,Ne.symm hn]

inductive SetOutcome (mem : Mallocs) (name : CString) (value : CPtr) (tbl : Envvar) :
    Envvar × Bool → Prop where
  | noRoom (hscan : (scanSlots name tbl 0 none).1=none) :
      SetOutcome mem name value tbl (tbl,false)
  | lost {pre post : Envvar} {ep : Envpair} (htbl : tbl=pre++some ep::post)
      (hscan : (scanSlots name tbl 0 none).1=some pre.length)
      (hpre : ∀ x∈slots pre, fold x.name≠fold name) (hkey : fold name=fold ep.name)
      (hval : value≠none) (hmem : mem.value=false) :
      SetOutcome mem name value tbl (pre++none::post,false)
  | changed {pre post : Envvar} {ep : Envpair} (htbl : tbl=pre++some ep::post)
      (hpre : ∀ x∈slots pre, fold x.name≠fold name) (hkey : fold name=fold ep.name)
      (hmem : value=none ∨ mem.value=true) :
      SetOutcome mem name value tbl (pre++some {ep with value := value}::post,true)
  | added {pre post : Envvar} (htbl : tbl=pre++none::post)
      (hscan : (scanSlots name tbl 0 none).1=none)
      (hnew : ∀ x∈slots tbl, fold x.name≠fold name) :
      SetOutcome mem name value tbl (pre++some ⟨name,value⟩::post,true)

theorem _setenvWith_outcome {envinited : Bool}
    (hok : refuses cfg chg envinited name value=false) (tbl : Envvar) :
    SetOutcome mem name value tbl (_setenvWith cfg chg mem envinited tbl name value) := by
  unfold _setenvWith
  rw [if_neg (by simp [hok])]
  have hspec := scanSlots_spec name tbl 0 none
  generalize hr : scanSlots name tbl 0 none=r at hspec
  obtain ⟨slot,bp⟩ := r
  rcases hspec with ⟨pre,ep,post,rfl,hpre,hk,rfl⟩ |
    ⟨hno,rfl,⟨pre,post,rfl,rfl⟩ | ⟨hfull,rfl⟩⟩
  · have hscan : (scanSlots name (pre++some ep::post) 0 none).1=some pre.length := by
      simp [hr]
    dsimp only
    split_ifs with hmem
    · have hval : value≠none ∧ mem.value=false := by
        simpa [Option.isSome_iff_ne_none] using hmem
      simpa using SetOutcome.lost rfl hscan hpre hk hval.1 hval.2
    · rw [Nat.zero_add,List.modify_eq_take_cons_drop (by simp)]
      have hval : value=none ∨ mem.value=true := by
        cases value <;> simp_all
      simpa using SetOutcome.changed rfl hpre hk hval
  · have hscan : (scanSlots name (pre++none::post) 0 none).1=none := by simp [hr]
    simp only [Option.none_or,Nat.zero_add]
    split_ifs
    · exact .noRoom hscan
    · simpa using SetOutcome.noRoom hscan
    · simpa using SetOutcome.added rfl hscan hno
  · exact .noRoom (by simp [hr])

structure ValueLost (envinited : Bool) (tbl : Envvar) (name : CString) (value : CPtr) : Prop where
  accepted : refuses cfg chg envinited name value=false
  value_ne : value≠none
  no_memory : mem.value=false
  slot : ∃ i, (scanSlots name tbl 0 none).1=some i ∧
    _getenv (tbl.set i none) name≠_getenv tbl name

structure BoardFailed (s : Env σ) (name : CString) (value : CPtr) : Prop where
  set : (_setenvWith cfg chg mem s.envinited s.envvar name value).2=true
  failed : (setenvWith b cfg chg mem s name value).2=false
  differs : _getenv s.envvar name≠some (value.getD CString.empty)

theorem _setenvWith_failed_iff (envinited : Bool) (tbl : Envvar) (name : CString) (value : CPtr) :
    ((_setenvWith cfg chg mem envinited tbl name value).2=false → ∀ n,
      _getenv (_setenvWith cfg chg mem envinited tbl name value).1 n=_getenv tbl n) ↔
    ¬ ValueLost cfg chg mem envinited tbl name value := by
  cases hok : refuses cfg chg envinited name value with
  | true =>
    have hno : ¬ ValueLost cfg chg mem envinited tbl name value := fun h => by
      simp [h.accepted] at hok
    simp [_setenvWith,hok,hno]
  | false =>
    have hout := _setenvWith_outcome cfg chg mem hok tbl
    generalize _setenvWith cfg chg mem envinited tbl name value=r at hout ⊢
    cases hout with
    | noRoom hscan =>
      refine ⟨fun _ h => ?_,fun _ _ _ => rfl⟩
      obtain ⟨i,hi,-⟩ := h.slot
      simp [hscan] at hi
    | @lost pre post ep htbl hscan hpre hkey hval hmem =>
      have hset : tbl.set pre.length none=pre++none::post := by simp [htbl]
      constructor
      · intro hkept h
        obtain ⟨i,hi,hne⟩ := h.slot
        obtain rfl : pre.length=i := Option.some.inj (hscan.symm.trans hi)
        exact hne (hset ▸ hkept rfl name)
      · intro hno _ n
        have hsame : _getenv (pre++none::post) name=_getenv tbl name := by
          by_contra hne
          exact hno ⟨hok,hval,hmem,_,hscan,hset ▸ hne⟩
        rw [htbl,_getenv_first _ hpre hkey] at hsame ⊢
        by_cases hn : fold n=fold name
        · have hcongr : _getenv (pre++none::post) n=_getenv (pre++none::post) name := by
            rw [_getenv_eq,_getenv_eq,hn]
          rw [if_pos hn,hcongr,hsame,if_pos rfl]
        · rw [if_neg hn]
    | changed htbl hpre hkey hmem =>
      refine ⟨fun _ h => ?_,fun _ h => nomatch h⟩
      rcases hmem with hnone | hmem
      · exact h.value_ne hnone
      · simp [h.no_memory] at hmem
    | added htbl hscan hnew =>
      refine ⟨fun _ h => ?_,fun _ h => nomatch h⟩
      obtain ⟨i,hi,-⟩ := h.slot
      simp [hscan] at hi

theorem _getenv_setenvWith {envinited : Bool}
    (hset : (_setenvWith cfg chg mem envinited tbl name value).2=true) (n : CString) :
    _getenv (_setenvWith cfg chg mem envinited tbl name value).1 n =
      if fold n=fold name then some (value.getD CString.empty) else _getenv tbl n := by
  have hok : refuses cfg chg envinited name value=false := by
    cases hr : refuses cfg chg envinited name value with
    | false => rfl
    | true => simp [_setenvWith,hr] at hset
  have hout := _setenvWith_outcome cfg chg mem hok tbl
  generalize _setenvWith cfg chg mem envinited tbl name value=r at hset hout ⊢
  cases hout with
  | noRoom _ => nomatch hset
  | lost _ _ _ _ _ _ => nomatch hset
  | @changed pre post ep htbl hpre hkey _ =>
    have hnew : _getenv (pre++some {ep with value := value}::post) n =
        if fold n=fold name then some (value.getD CString.empty)
        else _getenv (pre++none::post) n := _getenv_first ⟨ep.name,value⟩ hpre hkey n
    rw [htbl,_getenv_first _ hpre hkey,hnew]
    split_ifs <;> rfl
  | @added pre post htbl _ hnew =>
    have hpre : ∀ x∈slots pre, fold x.name≠fold name := fun x hx => hnew x (by simp [htbl,hx])
    rw [htbl,_getenv_first _ hpre rfl]

theorem setenvWith_fst (s : Env σ) (name : CString) (value : CPtr) :
    (setenvWith b cfg chg mem s name value).1.envvar =
        (_setenvWith cfg chg mem s.envinited s.envvar name value).1 ∧
      (setenvWith b cfg chg mem s name value).1.envinited=s.envinited := by
  unfold setenvWith
  generalize _setenvWith cfg chg mem s.envinited s.envvar name value=r
  obtain ⟨tbl,ok⟩ := r
  cases ok <;> exact ⟨rfl,rfl⟩

/-- A failed `setenv` keeps every answer of `getenv` exactly when no value is lost and the board
does not fail behind the table. -/
theorem failed_setenv_keeps_iff (s : Env σ) (name : CString) (value : CPtr) :
    (((_setenvWith cfg chg mem s.envinited s.envvar name value).2=false → ∀ n, getenv cfg { s with
        envvar := (_setenvWith cfg chg mem s.envinited s.envvar name value).1 } n =
          getenv cfg s n) ∧
    ((setenvWith b cfg chg mem s name value).2=false → ∀ n,
      getenv cfg (setenvWith b cfg chg mem s name value).1 n=getenv cfg s n)) ↔
    (s.envinited=true → ¬ ValueLost cfg chg mem true s.envvar name value ∧
      ¬ BoardFailed b cfg chg mem s name value) := by
  obtain ⟨htbl,hinit⟩ := setenvWith_fst b cfg chg mem s name value
  cases hi : s.envinited with
  | false => simp [getenv,hinit,hi]
  | true =>
    have hlost := _setenvWith_failed_iff cfg chg mem true s.envvar name value
    simp only [getenv,hinit,htbl,hi,if_true,hlost,forall_const]
    refine and_congr_right fun hno => ?_
    rw [hi] at htbl
    constructor
    · intro hkept h
      have hset := h.set
      rw [hi] at hset
      have hname := hkept h.failed name
      rw [_getenv_setenvWith cfg chg mem hset,if_pos rfl] at hname
      exact h.differs hname.symm
    · intro hboard hfail n
      cases hset : (_setenvWith cfg chg mem true s.envvar name value).2 with
      | false => exact hlost.mpr hno hset n
      | true =>
        have hsame : _getenv s.envvar name=some (value.getD CString.empty) := by
          by_contra hne
          exact hboard ⟨hi ▸ hset,hfail,hne⟩
        rw [_getenv_setenvWith cfg chg mem hset]
        split_ifs with hn
        · rw [←hsame,_getenv_eq,_getenv_eq,hn]
        · rfl
end

def noNvram : Sbd Unit where
  setenv _ _ _ := ((),false)
  unsetenv _ _ := ((),false)
  mapenv _ := ((),[])

def fooTable : Envvar := some ⟨text "foo",some (text "1")⟩::List.replicate 63 none

theorem failed_setenv_foo :
    let cfg : Config := ⟨false,false,false,false,false,CString.empty,[]⟩
    let s : Env Unit := ⟨fooTable,true,()⟩
    let r := setenvWith noNvram cfg (fun _ _ _ => true) ⟨true,false⟩ s (text "foo")
      (some (text "2"))
    let r' := setenvWith noNvram cfg (fun _ _ _ => true) ⟨true,true⟩ s (text "foo")
      (some (text "2"))
    getenv cfg s (text "foo")=some (text "1") ∧ r.2=false ∧ getenv cfg r.1 (text "foo")=none ∧
      r'.2=false ∧ getenv cfg r'.1 (text "foo")=some (text "2") := by
  decide +kernel

end Pmon.SetEnv
