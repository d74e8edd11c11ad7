import Pmon.Mk48t02
import Pmon.SetEnvFail

/-!
# The environment table as a map

A map from names, up to letter case, to spelling and value. `unsetenv` changes the slots while it
visits them, and ends early where the board's returns 0.
-/

namespace Pmon.SetEnv
open EnvEntry KeyedList
section
variable {σ : Type} (b : Sbd σ) (cfg : Config) (chg : Answers)

def unsetenvLoopWith (pat : CString) : ℕ → ℕ → Env σ → ℕ → Env σ × Bool
  | 0, _, s, ndone => (s,decide (0<ndone))
  | k+1, i, s, ndone =>
    match s.envvar[i]? with
    | some (some ep) =>
      if strpat ep.name.bytes pat.bytes then
        match getstdenv cfg ep.name with
        | some sp =>
          match setenvWith b cfg chg ⟨true,true⟩ s sp.name (some sp.init) with
          | (s,true) => unsetenvLoopWith pat k (i+1) s (ndone+1)
          | (s,false) => (s,false)
        | none =>
          let s := { s with
            nv := (b.unsetenv s.nv ep.name).1, envvar := s.envvar.set i none }
          unsetenvLoopWith pat k (i+1) s (ndone+1)
      else unsetenvLoopWith pat k (i+1) s ndone
    | _ => unsetenvLoopWith pat k (i+1) s ndone

def unsetenvWith (s : Env σ) (pat : CString) : Env σ × Bool :=
  unsetenvLoopWith b cfg chg pat nvar 0 s 0

def envinitWith (suppress : Bool) (nv : σ) : Env σ :=
  let (nv,stored) := if suppress then (nv,[]) else b.mapenv nv
  let tbl := stored.foldl (assign cfg chg) (List.replicate nvar none)
  {envvar := (defaults cfg).foldl (assignDefault cfg chg) tbl, envinited := true, nv := nv}

inductive EnvCall where
  | setenv (name : CString) (value : CPtr)
  | _setenv (name : CString) (value : CPtr)
  | unsetenv (pat : CString)

def EnvCall.exec (s : Env σ) : EnvCall → Env σ
  | .setenv name value => (setenvWith b cfg chg ⟨true,true⟩ s name value).1
  | ._setenv name value =>
    {s with envvar := (_setenvWith cfg chg ⟨true,true⟩ s.envinited s.envvar name value).1}
  | .unsetenv pat => (unsetenvWith b cfg chg s pat).1

abbrev Vars := List UInt8 → Option Envpair

def badValue (name : CString) (value : CPtr) : Bool :=
  (getstdenv cfg name).any fun sp => sp.values.any fun vs => (value.bind (matchval vs)).isNone

def unsetVar (pat : CString) (ep : Envpair) : Option Envpair :=
  if strpat ep.name.bytes pat.bytes then
    (getstdenv cfg ep.name).map fun sp => {ep with value := some sp.init}
  else some ep

def Vars.set (m : Vars) (name : CString) (value : CPtr) : Vars :=
  if badValue cfg name value then m
  else Function.update m (fold name) (some ⟨((m (fold name)).map Envpair.name).getD name,value⟩)

def Vars.step (m : Vars) : EnvCall → Vars
  | .setenv name value => m.set cfg name value
  | ._setenv name value => m.set cfg name value
  | .unsetenv pat => fun k => (m k).bind (unsetVar cfg pat)

structure Represents (s : Env σ) (m : Vars) : Prop where
  distinct : Distinct key (slots s.envvar)
  lookup_eq : ∀ k, lookup key (slots s.envvar) k=m k
  getenv_eq : ∀ n, getenv cfg s n=(m (fold n)).map fun ep => ep.value.getD CString.empty

def stops (pat : CString) (slot : Option Envpair) (nv : σ) : Bool :=
  slot.any fun ep => strpat ep.name.bytes pat.bytes &&
    (getstdenv cfg ep.name).any fun sp => !(b.unsetenv nv sp.name).2

def visit (pat : CString) (slot : Option Envpair) (nv : σ) : σ :=
  match slot with
  | none => nv
  | some ep =>
    if strpat ep.name.bytes pat.bytes then
      (b.unsetenv nv (((getstdenv cfg ep.name).map Stdenv.name).getD ep.name)).1
    else nv

def cutShort (pat : CString) : Envvar → σ → Bool
  | [], _ => false
  | slot::rest, nv =>
    if stops b cfg pat slot nv then (slots rest).any fun x => unsetVar cfg pat x != some x
    else cutShort pat rest (visit b cfg pat slot nv)

def scanned (pat : CString) : Envvar → σ → Envvar
  | [], _ => []
  | slot::rest, nv =>
    slot.bind (unsetVar cfg pat) ::
      if stops b cfg pat slot nv then rest else scanned pat rest (visit b cfg pat slot nv)

variable {b cfg chg} {pat name : CString} {value : CPtr} {tbl pre post : Envvar} {ep : Envpair}

theorem key_of_unsetVar {x : Envpair} (h : unsetVar cfg pat ep=some x) : key x=key ep := by
  unfold unsetVar at h
  split_ifs at h
  · obtain ⟨sp,-,rfl⟩ := Option.map_eq_some_iff.mp h
    rfl
  · cases h
    rfl

theorem slots_map_bind (f : Envpair → Option Envpair) (tbl : Envvar) :
    slots (tbl.map fun slot => slot.bind f)=(slots tbl).filterMap f := by
  simp [slots,List.filterMap_map,List.filterMap_filterMap]

theorem scanned_eq_map {nv : σ} (h : cutShort b cfg pat tbl nv=false) :
    scanned b cfg pat tbl nv=tbl.map fun slot => slot.bind (unsetVar cfg pat) := by
  induction tbl generalizing nv with
  | nil => rfl
  | cons slot rest ih =>
    rw [cutShort] at h
    rw [scanned,List.map_cons]
    split_ifs at h ⊢ with hstop
    · have hrest : ∀ slot∈rest, slot.bind (unsetVar cfg pat)=id slot := by
        intro slot hslot
        cases slot with
        | none => rfl
        | some x => simpa using List.any_eq_false.mp h x (mem_slots.mpr hslot)
      rw [List.map_congr_left hrest,List.map_id]
    · rw [ih h]

theorem exists_mem_scanned {nv : σ} (h : cutShort b cfg pat tbl nv=true) :
    ∃ x∈slots tbl, x∈slots (scanned b cfg pat tbl nv) ∧ unsetVar cfg pat x≠some x := by
  induction tbl generalizing nv with
  | nil => cases h
  | cons slot rest ih =>
    rw [cutShort] at h
    rw [scanned]
    split_ifs at h ⊢ with hstop
    · obtain ⟨x,hx,hne⟩ := List.any_eq_true.mp h
      have hmem := mem_slots.mp hx
      exact ⟨x,mem_slots.mpr (by simp [hmem]),mem_slots.mpr (by simp [hmem]),by simpa using hne⟩
    · obtain ⟨x,hx,hx',hne⟩ := ih h
      have hmem := mem_slots.mp hx
      have hmem' := mem_slots.mp hx'
      exact ⟨x,mem_slots.mpr (by simp [hmem]),mem_slots.mpr (by simp [hmem']),hne⟩

variable (b cfg pat) in
theorem scanned_keys (tbl : Envvar) (nv : σ) :
    ((slots (scanned b cfg pat tbl nv)).map key).Sublist ((slots tbl).map key) ∧
      (scanned b cfg pat tbl nv).length=tbl.length := by
  induction tbl generalizing nv with
  | nil => exact ⟨.refl _,rfl⟩
  | cons slot rest ih =>
    rw [scanned]
    generalize hrest : (if stops b cfg pat slot nv then rest
      else scanned b cfg pat rest (visit b cfg pat slot nv))=rest'
    have hsub : ((slots rest').map key).Sublist ((slots rest).map key) ∧
        rest'.length=rest.length := by
      rw [←hrest]
      split_ifs
      · exact ⟨.refl _,rfl⟩
      · exact ih _
    refine ⟨?_,by simp [hsub.2]⟩
    cases slot with
    | none => exact hsub.1
    | some ep =>
      rw [Option.bind_some,slots_cons_some,List.map_cons]
      cases hep : unsetVar cfg pat ep with
      | none => exact hsub.1.trans (List.sublist_cons_self _ _)
      | some x =>
        rw [slots_cons_some,List.map_cons,key_of_unsetVar hep]
        exact hsub.1.cons_cons _

theorem isSome_matchval_init {sp : Stdenv} (hsp : sp∈stdenvtab cfg) {vs : CString}
    (hvs : sp.values=some vs) : (matchval vs sp.init).isSome=true := by
  let words (cfg : Config) : List (CString × CString) :=
    (stdenvtab cfg).filterMap fun sp => sp.values.map fun vs => (vs,sp.init)
  have hall : ∀ r s i d f : Bool, ∀ p∈words ⟨r,s,i,d,f,CString.empty,[]⟩,
      (matchval p.1 p.2).isSome=true := by
    decide +kernel
  have hcfg : words cfg=words {cfg with clientpc := CString.empty, boardenv := []} := by
    simp only [words,stdenvtab,List.filterMap_append]
    rfl
  have hmem : (vs,sp.init)∈words cfg := List.mem_filterMap.mpr ⟨sp,hsp,by simp [hvs]⟩
  rw [hcfg] at hmem
  exact hall _ _ _ _ _ _ hmem

theorem refuses_eq_badValue (hchg : ∀ f n v, chg f n v=true) (name : CString) (value : CPtr) :
    refuses cfg chg true name value=badValue cfg name value := by
  unfold refuses badValue
  cases getstdenv cfg name with
  | none => rfl
  | some sp => simp [hchg]

theorem scanSlots_first (hpre : ∀ x∈slots pre, fold x.name≠fold name)
    (hkey : fold name=fold ep.name) (i : ℕ) (bp : Option ℕ) :
    (scanSlots name (pre++some ep::post) i bp).1=some (i+pre.length) := by
  induction pre generalizing i bp with
  | nil => simp [scanSlots,(striequ_iff name ep.name).mpr hkey]
  | cons slot pre ih =>
    rw [List.length_cons,Nat.add_comm pre.length,←Nat.add_assoc,List.cons_append]
    cases slot with
    | none => exact ih hpre (i+1) _
    | some x =>
      rw [slots_cons_some,List.forall_mem_cons] at hpre
      rw [scanSlots,if_neg fun h => hpre.1 ((striequ_iff name x.name).mp h).symm]
      exact ih hpre.2 (i+1) bp

theorem setenvWith_init (hchg : ∀ f n v, chg f n v=true) {s : Env σ} {sp : Stdenv}
    (hinit : s.envinited=true) (htbl : s.envvar=pre++some ep::post)
    (hd : Distinct key (slots s.envvar)) (hstd : getstdenv cfg ep.name=some sp) :
    setenvWith b cfg chg ⟨true,true⟩ s sp.name (some sp.init) =
      ({ s with
        envvar := pre++some {ep with value := some sp.init}::post
        nv := (b.unsetenv s.nv sp.name).1 },(b.unsetenv s.nv sp.name).2) := by
  obtain ⟨hmem,hkey⟩ := getstdenv_fold hstd
  have hstd' := (getstdenv_congr cfg hkey).symm.trans hstd
  have hok : refuses cfg chg true sp.name (some sp.init)=false := by
    rw [refuses_eq_badValue hchg,badValue,hstd',Option.any_some]
    cases hvs : sp.values with
    | none => rfl
    | some vs => simpa using isSome_matchval_init hmem hvs
  have hset : _setenvWith cfg chg ⟨true,true⟩ true s.envvar sp.name (some sp.init) =
      (pre++some {ep with value := some sp.init}::post,true) := by
    have hpre : ∀ x∈slots pre, fold x.name≠fold sp.name := by
      intro x hx
      rw [htbl,slots_append,slots_cons_some] at hd
      exact hkey ▸ hd.ne_of_mem (List.mem_append_left _ hx)
    have hscan : (scanSlots sp.name (pre++some ep::post) 0 none).1=some (0+pre.length) :=
      scanSlots_first hpre hkey.symm 0 none
    rw [_setenvWith,if_neg (by simp [hok]),htbl]
    generalize scanSlots sp.name (pre++some ep::post) 0 none=r at hscan ⊢
    obtain ⟨slot,bp⟩ := r
    cases hscan
    simp [List.modify_eq_take_cons_drop]
  have hdef : striequ sp.init.bytes sp.init.bytes=true := (striequ_iff _ _).mpr rfl
  rw [setenvWith,hinit,hset]
  simp [hstd', hdef]

theorem unsetenvLoopWith_eq (hchg : ∀ f n v, chg f n v=true) (done rest : Envvar) {s : Env σ}
    (ndone : ℕ) (hinit : s.envinited=true) (htbl : s.envvar=done++rest)
    (hd : Distinct key (slots s.envvar)) :
    (unsetenvLoopWith b cfg chg pat rest.length done.length s ndone).1.envvar =
        done++scanned b cfg pat rest s.nv ∧
      (unsetenvLoopWith b cfg chg pat rest.length done.length s ndone).1.envinited=true := by
  induction rest generalizing done s ndone with
  | nil => exact ⟨htbl,hinit⟩
  | cons slot rest ih =>
    have hget : s.envvar[done.length]?=some slot := by simp [htbl]
    -- the rest of the scan, behind the slot as it is now
    have hnext : ∀ (slot' : Option Envpair) (s' : Env σ) (n : ℕ), s'.envinited=true →
        s'.envvar=done++slot'::rest → Distinct key (slots s'.envvar) →
        (unsetenvLoopWith b cfg chg pat rest.length (done.length+1) s' n).1.envvar =
            done++slot'::scanned b cfg pat rest s'.nv ∧
          (unsetenvLoopWith b cfg chg pat rest.length (done.length+1) s' n).1.envinited =
            true := by
      intro slot' s' n hinit' htbl' hd'
      simpa using ih (done++[slot']) n hinit' (by simp [htbl']) hd'
    rw [List.length_cons,unsetenvLoopWith,hget]
    cases slot with
    | none => exact hnext none s ndone hinit htbl hd
    | some ep =>
      dsimp only
      split_ifs with hmatch
      · cases hstd : getstdenv cfg ep.name with
        | none =>
          have hset : s.envvar.set done.length none=done++none::rest := by simp [htbl]
          have hd' : Distinct key (slots (done++none::rest)) := by
            rw [htbl,slots_append,slots_cons_some] at hd
            rw [slots_append,slots_cons_none]
            exact hd.remove
          have hrest := hnext none ⟨done++none::rest,s.envinited,
            (b.unsetenv s.nv ep.name).1⟩ (ndone+1) hinit rfl hd'
          simpa [hset,scanned,stops,visit,unsetVar,hmatch,hstd] using hrest
        | some sp =>
          have hd' : Distinct key (slots (done++some {ep with value := some sp.init}::rest)) := by
            rw [htbl,slots_append,slots_cons_some] at hd
            rw [slots_append,slots_cons_some]
            exact hd.replace rfl
          dsimp only
          rw [setenvWith_init hchg hinit htbl hd hstd]
          cases hok : (b.unsetenv s.nv sp.name).2 with
          | false => simp [scanned,stops,unsetVar,hmatch,hstd,hok,hinit]
          | true =>
            have hrest := hnext (some {ep with value := some sp.init})
              ⟨done++some {ep with value := some sp.init}::rest,s.envinited,
                (b.unsetenv s.nv sp.name).1⟩ (ndone+1) hinit rfl hd'
            simpa [scanned,stops,visit,unsetVar,hmatch,hstd,hok] using hrest
      · have hrest := hnext (some ep) s ndone hinit htbl hd
        simpa [scanned,stops,visit,unsetVar,hmatch] using hrest

structure Kept (s : Env σ) : Prop where
  inited : s.envinited=true
  length_eq : s.envvar.length=nvar
  distinct : Distinct key (slots s.envvar)

theorem Kept.represents_iff {s : Env σ} (h : Kept s) {m : Vars} :
    Represents cfg s m ↔ lookup key (slots s.envvar)=m := by
  refine ⟨fun hr => funext hr.lookup_eq,?_⟩
  rintro rfl
  exact ⟨h.distinct,fun _ => rfl,fun n => by rw [getenv,if_pos h.inited,_getenv_eq]⟩

variable (cfg chg) in
theorem _setenv_keeps (envinited : Bool) (name : CString) (value : CPtr)
    (hd : Distinct key (slots tbl)) :
    Distinct key (slots (_setenv cfg chg envinited tbl name value).1) ∧
      (_setenv cfg chg envinited tbl name value).1.length=tbl.length := by
  cases hset : _setenv cfg chg envinited tbl name value with
  | mk tbl' ok =>
    cases ok with
    | true =>
      have hslot := (_setenv_ok hset).2
      exact ⟨hslot.distinct hd,hslot.length_eq⟩
    | false =>
      obtain rfl : tbl'=tbl := by
        cases hr : refuses cfg chg envinited name value with
        | true => simpa [_setenv,hr] using (congrArg Prod.fst hset).symm
        | false =>
          rcases _setenv_cases tbl hr with ⟨t,ht,-⟩ | ⟨hf,-⟩
          · simp [ht] at hset
          · simpa [hf] using (congrArg Prod.fst hset).symm
      exact ⟨hd,rfl⟩

theorem lookup_setenv (hchg : ∀ f n v, chg f n v=true) (hd : Distinct key (slots tbl))
    (hroom : (slots tbl).length<tbl.length) (name : CString) (value : CPtr) :
    lookup key (slots (_setenv cfg chg true tbl name value).1) =
      Vars.set cfg (lookup key (slots tbl)) name value := by
  unfold Vars.set
  rw [←refuses_eq_badValue hchg]
  cases hr : refuses cfg chg true name value with
  | true => simp [_setenv,hr]
  | false =>
    rcases _setenv_cases tbl hr with ⟨tbl',ht,hslot⟩ | ⟨-,hfull,-⟩
    · rw [ht,if_neg Bool.false_ne_true]
      cases hslot with
      | @changed pre post ep hkey =>
        simp only [slots_append,slots_cons_some] at hd ⊢
        have hfound := (lookup_eq_some hd).mpr ⟨by simp,hkey.symm⟩
        rw [hfound,hkey]
        exact lookup_replace hd rfl
      | @added pre post hnew =>
        rw [slots_append,slots_cons_none] at hnew
        have hpre : ∀ x∈slots pre, key x≠fold name :=
          fun x hx => hnew x (List.mem_append_left _ hx)
        have hnone : lookup key (slots pre++slots post) (fold name)=none :=
          lookup_eq_none.mpr hnew
        rw [slots_append,slots_append,slots_cons_some,slots_cons_none,hnone]
        exact lookup_insert hpre
    · exact absurd (length_slots_of_full hfull) hroom.ne

theorem exec_set {s : Env σ} (h : Kept s) (name : CString) (value : CPtr) {s' : Env σ}
    (hs' : s'=EnvCall.exec b cfg chg s (.setenv name value) ∨
      s'=EnvCall.exec b cfg chg s (._setenv name value)) :
    s'.envvar=(_setenv cfg chg true s.envvar name value).1 ∧ s'.envinited=true := by
  rw [←h.inited,←_setenvWith_found]
  rcases hs' with rfl | rfl
  · exact setenvWith_fst b cfg chg ⟨true,true⟩ s name value
  · exact ⟨rfl,rfl⟩

theorem Kept.set {s s' : Env σ} (h : Kept s)
    (hs' : s'.envvar=(_setenv cfg chg true s.envvar name value).1 ∧ s'.envinited=true) :
    Kept s' := by
  obtain ⟨hd,hlen⟩ := _setenv_keeps cfg chg true name value h.distinct
  exact ⟨hs'.2,hs'.1 ▸ hlen.trans h.length_eq,hs'.1 ▸ hd⟩

theorem Kept.exec_unset (hchg : ∀ f n v, chg f n v=true) {s : Env σ} (h : Kept s)
    (pat : CString) :
    (EnvCall.exec b cfg chg s (.unsetenv pat)).envvar=scanned b cfg pat s.envvar s.nv ∧
      (EnvCall.exec b cfg chg s (.unsetenv pat)).envinited=true := by
  have hloop : (unsetenvLoopWith b cfg chg pat s.envvar.length 0 s 0).1.envvar =
      scanned b cfg pat s.envvar s.nv ∧ _ :=
    unsetenvLoopWith_eq hchg [] s.envvar 0 h.inited rfl h.distinct
  rwa [h.length_eq] at hloop

theorem Kept.exec (hchg : ∀ f n v, chg f n v=true) {s : Env σ} (h : Kept s) (call : EnvCall) :
    Kept (call.exec b cfg chg s) := by
  cases call with
  | setenv name value => exact h.set (exec_set h name value (.inl rfl))
  | _setenv name value => exact h.set (exec_set h name value (.inr rfl))
  | unsetenv pat =>
    obtain ⟨htbl,hinit⟩ := h.exec_unset hchg pat
    obtain ⟨hkeys,hlen⟩ := scanned_keys b cfg pat s.envvar s.nv
    exact ⟨hinit,htbl ▸ hlen.trans h.length_eq,htbl ▸ List.Nodup.sublist hkeys h.distinct⟩

theorem Kept.represents_exec_iff (hchg : ∀ f n v, chg f n v=true) {s : Env σ} (h : Kept s)
    (hroom : (slots s.envvar).length<nvar) {m : Vars} (hm : Represents cfg s m)
    (call : EnvCall) :
    Represents cfg (call.exec b cfg chg s) (m.step cfg call) ↔
      ∀ pat, call = .unsetenv pat → cutShort b cfg pat s.envvar s.nv=false := by
  rw [(h.exec hchg call).represents_iff]
  obtain rfl := h.represents_iff.mp hm
  rw [←h.length_eq] at hroom
  cases call with
  | setenv name value =>
    rw [(exec_set h name value (.inl rfl)).1,lookup_setenv hchg h.distinct hroom]
    simp [Vars.step]
  | _setenv name value =>
    rw [(exec_set h name value (.inr rfl)).1,lookup_setenv hchg h.distinct hroom]
    simp [Vars.step]
  | unsetenv pat =>
    rw [(h.exec_unset hchg pat).1]
    constructor
    · rintro heq _ ⟨⟩
      by_contra hcut
      obtain ⟨x,hx,hx',hne⟩ := exists_mem_scanned (by simpa using hcut)
      have hd' := List.Nodup.sublist (scanned_keys b cfg pat s.envvar s.nv).1 h.distinct
      have hkey := congrFun heq (key x)
      simp only [Vars.step,(lookup_eq_some hd').mpr ⟨hx',rfl⟩,
        (lookup_eq_some h.distinct).mpr ⟨hx,rfl⟩] at hkey
      exact hne hkey.symm
    · intro hcut
      rw [scanned_eq_map (hcut pat rfl),slots_map_bind]
      exact funext fun k => lookup_filterMap (fun _ _ => key_of_unsetVar) h.distinct k

theorem kept_envinitWith (suppress : Bool) (nv : σ) :
    Kept (envinitWith b cfg chg suppress nv) := by
  let Ok (tbl : Envvar) : Prop := Distinct key (slots tbl) ∧ tbl.length=nvar
  have hassign : ∀ tbl, Ok tbl → ∀ p, Ok (assign cfg chg tbl p) := by
    intro tbl h p
    obtain ⟨hd,hlen⟩ := _setenv_keeps cfg chg false p.1 (some p.2) h.1
    exact ⟨hd,hlen.trans h.2⟩
  have hempty : Ok (List.replicate nvar none) := ⟨by simp [Distinct],List.length_replicate⟩
  have hstored := List.foldlRecOn (if suppress then (nv,[]) else b.mapenv nv).2 (assign cfg chg)
    hempty fun tbl h p _ => hassign tbl h p
  have hall := List.foldlRecOn (defaults cfg) (assignDefault cfg chg) hstored fun tbl h p _ => by
    unfold assignDefault
    split_ifs
    · exact h
    · exact hassign tbl h p
  exact ⟨rfl,hall.2,hall.1⟩
end

/-- The table represents the map after each call exactly when the board cuts no `unsetenv` short. -/
theorem run_represents_iff {σ : Type} (b : Sbd σ) (cfg : Config) (chg : Answers)
    (hchg : ∀ f n v, chg f n v=true) (suppress : Bool) (nv : σ) (calls : List EnvCall) :
    let s₀ := envinitWith b cfg chg suppress nv
    let after k := (calls.take k).foldl (EnvCall.exec b cfg chg) s₀
    (∀ k≤calls.length, (slots (after k).envvar).length<nvar) →
    ((∀ k≤calls.length, Represents cfg (after k)
      ((calls.take k).foldl (Vars.step cfg) (lookup key (slots s₀.envvar)))) ↔
    ∀ k pat, calls[k]?=some (.unsetenv pat) →
      cutShort b cfg pat (after k).envvar (after k).nv=false) := by
  intro s₀ after hroom
  have hstep : ∀ {k call}, calls[k]?=some call → calls.take (k+1)=calls.take k++[call] := by
    intro k call hk
    rw [List.take_add_one,hk,Option.toList_some]
  have hkept : ∀ k, Kept (after k) := fun k =>
    List.foldlRecOn _ _ (kept_envinitWith suppress nv) fun _ h call _ => h.exec hchg call
  constructor
  · intro hrep k pat hk
    have hlt := (List.getElem?_eq_some_iff.mp hk).1
    have hnext := hrep (k+1) hlt
    simp only [after,hstep hk,List.foldl_append,List.foldl_cons,List.foldl_nil] at hnext
    exact ((hkept k).represents_exec_iff hchg (hroom k hlt.le) (hrep k hlt.le) _).mp hnext pat rfl
  · intro hcut k
    induction k with
    | zero => exact fun _ => (hkept 0).represents_iff.mpr rfl
    | succ k ih =>
      intro hk
      have hget := List.getElem?_eq_getElem (Nat.lt_of_succ_le hk)
      have hlt := Nat.le_of_succ_le hk
      simp only [after,hstep hget,List.foldl_append,List.foldl_cons,List.foldl_nil]
      refine ((hkept k).represents_exec_iff hchg (hroom k hlt) (ih hlt) _).mpr ?_
      exact fun pat hpat => hcut k pat (hget.trans (congrArg some hpat))

end Pmon.SetEnv
namespace Pmon.Mk48t02
open ByteStore EnvEntry SetEnv

def mapLoop (m : ℕ → UInt8) : ℕ → ℕ → ℕ → List (CString × CString)
  | 0, _, _ => []
  | fuel+1, envsize, envp =>
    if 0<envsize then
      let n := (m envp).toNat
      -- sanity test
      if n=0 ∨ envTop<envp+n then []
      else pairOf (readCells m (envp+1) (n-1))::mapLoop m fuel (envsize-n) (envp+n)
    else []

def sbd (garbage : Bool) : Sbd Nvram where
  setenv s name v :=
    match s.setenv name v with
    | (s,.failed) => (s,false)
    | (s,.done) => (s,true)
    | (s,.unspecified) => (s,garbage)
  unsetenv := Nvram.unsetenv
  mapenv s :=
    let envsize := getshort s.mem nvoffEnvsize
    (s, if invalid s.mem ≠ .ok then [] else mapLoop s.mem envsize envsize envBase)

end Pmon.Mk48t02
namespace Pmon.SetEnv

def plainConfig : Config := ⟨false,false,false,false,false,text "80020000",[]⟩

def setAndUnset : List EnvCall :=
  [.setenv (text "foo") (some (text "1")),._setenv (text "FOO") (some (text "2")),
    .unsetenv (text "f*o")]

theorem run_represents_setAndUnset :
    let s₀ := envinitWith noNvram plainConfig (fun _ _ _ => true) false ()
    let m₀ := KeyedList.lookup key (slots s₀.envvar)
    ∀ k≤3, Represents plainConfig
      ((setAndUnset.take k).foldl (EnvCall.exec noNvram plainConfig fun _ _ _ => true) s₀)
      ((setAndUnset.take k).foldl (Vars.step plainConfig) m₀) := by
  refine (run_represents_iff noNvram plainConfig (fun _ _ _ => true) (fun _ _ _ => rfl) false ()
    setAndUnset (by decide +kernel)).mpr ?_
  rintro (_ | _ | _ | k) pat ⟨⟩
  decide +kernel

theorem unsetenv_keeps_foo :
    let b := Mk48t02.sbd false
    let s₀ := envinitWith b plainConfig (fun _ _ _ => true) false
      (Mk48t02.Nvram.resetenv ⟨fun _ => 0,[]⟩)
    let s := EnvCall.exec b plainConfig (fun _ _ _ => true) s₀
      (._setenv (text "foo") (some (text "1")))
    let r := unsetenvWith b plainConfig (fun _ _ _ => true) s (text "*")
    strpat (text "foo").bytes (text "*").bytes=true ∧ getstdenv plainConfig (text "foo")=none ∧
      r.2=false ∧ getenv plainConfig r.1 (text "foo")=some (text "1") := by
  decide +kernel

end Pmon.SetEnv
