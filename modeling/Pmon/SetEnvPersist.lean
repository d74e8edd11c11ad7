import Pmon.EnvSurvival
import Pmon.SetEnvTable

/-!
# The environment across a reboot

Table and store agree as long as every command spells names and defaults as the table does and
unsets no variable of the board.
-/

namespace Pmon.SetEnv
open EnvEntry KeyedList List Function

structure Agree (cfg : Config) (vars : List Envpair) (m : EnvMap) : Prop where
  distinct : Distinct key vars
  stored : ∀ n v, m n=some v → (⟨n,some v⟩ : Envpair)∈vars
  origin : ∀ ep∈vars, ∃ v, ep.value=some v ∧
    (m ep.name=some v ∨ m ep.name=none ∧ (ep.name,v)∈defaults cfg)
  standing : ∀ d∈defaults cfg, ∃ ep∈vars, ep.name=d.1

/-- The table says what the board has stored. -/
structure Synced (cfg : Config) (tbl : Envvar) (m : EnvMap) : Prop
    extends Agree cfg (slots tbl) m where
  length : tbl.length=nvar

section
variable {cfg : Config} {tbl tbl' : Envvar} {m : EnvMap} {name : CString} {value : CString}

theorem Synced.eq_of_fold_eq (h : Synced cfg tbl m) (hsp : Spelled tbl name) {n : CString}
    (hn : m n≠none) (hk : fold n=fold name) : n=name := by
  obtain ⟨v,hv⟩ := Option.ne_none_iff_exists'.mp hn
  exact hsp _ (h.stored n v hv) hk

theorem Synced.set (h : Synced cfg tbl m) (hsp : Spelled tbl name)
    (hslot : SetSlot name (some value) tbl tbl') {r : Option CString}
    (hr : r=some value ∨ r=none ∧ (name,value)∈defaults cfg) :
    Synced cfg tbl' (Function.update m name r) := by
  have hmem := hslot.mem_iff h.distinct hsp
  refine ⟨⟨hslot.distinct h.distinct,fun n v hv => ?_,fun ep hep => ?_,fun d hd => ?_⟩,
    hslot.length_eq.trans h.length⟩
  · rw [hmem]
    by_cases hn : n=name
    · rw [hn,update_self] at hv
      rcases hr with rfl | ⟨rfl,-⟩
      · cases hv
        exact Or.inl (by rw [hn])
      · cases hv
    · rw [update_of_ne hn] at hv
      exact Or.inr ⟨h.stored n v hv,fun hk => hn (h.eq_of_fold_eq hsp (by simp [hv]) hk)⟩
  · rcases (hmem ep).mp hep with rfl | ⟨hep,hne⟩
    · refine ⟨value,rfl,?_⟩
      rw [update_self]
      exact hr
    · rw [update_of_ne (fun hn => hne (by rw [hn]))]
      exact h.origin ep hep
  · obtain ⟨ep,hep,hname⟩ := h.standing d hd
    by_cases hk : fold ep.name=fold name
    · exact ⟨⟨name,some value⟩,(hmem _).mpr (Or.inl rfl),hname ▸ (hsp ep hep hk).symm⟩
    · exact ⟨ep,(hmem ep).mpr (Or.inr ⟨hep,hk⟩),hname⟩

theorem Synced.remove {pre post : Envvar} {ep : Envpair}
    (h : Synced cfg (pre++some ep::post) m) (hdef : ∀ d∈defaults cfg, d.1≠ep.name) :
    Synced cfg (pre++none::post) (Function.update m ep.name none) := by
  have hd := h.distinct
  rw [slots_append,slots_cons_some] at hd
  have hother : ∀ x∈slots pre++slots post, x.name≠ep.name :=
    fun x hx hname => hd.ne_of_mem hx (congrArg fold hname)
  have hkeep : ∀ x∈slots (pre++some ep::post), x.name≠ep.name →
      x∈slots pre++slots post := by
    intro x hx hne
    simp only [slots_append,slots_cons_some,mem_append,mem_cons] at hx ⊢
    rcases hx with hx | rfl | hx
    · exact Or.inl hx
    · exact absurd rfl hne
    · exact Or.inr hx
  have hsub : ∀ x∈slots pre++slots post, x∈slots (pre++some ep::post) := by
    intro x hx
    simp only [slots_append,slots_cons_some,mem_append,mem_cons] at hx ⊢
    exact hx.imp_right Or.inr
  refine ⟨⟨?_,fun n v hv => ?_,fun x hx => ?_,fun d hd => ?_⟩,by simpa using h.length⟩
  · rw [slots_append,slots_cons_none]
    exact hd.remove
  · rw [slots_append,slots_cons_none]
    by_cases hn : n=ep.name
    · rw [hn,update_self] at hv
      cases hv
    · rw [update_of_ne hn] at hv
      exact hkeep _ (h.stored n v hv) hn
  · rw [slots_append,slots_cons_none] at hx
    rw [update_of_ne (hother x hx)]
    exact h.origin x (hsub x hx)
  · obtain ⟨x,hx,hname⟩ := h.standing d hd
    rw [slots_append,slots_cons_none]
    exact ⟨x,hkeep x hx (hname ▸ hdef d hd),hname⟩
end

structure Within (vars : List Envpair) (tbl : Envvar) : Prop where
  length : tbl.length=nvar
  distinct : Distinct key (slots tbl)
  sub : ∀ ep∈slots tbl, ep∈vars

theorem within_empty (vars : List Envpair) : Within vars (List.replicate nvar none) := by
  refine ⟨length_replicate,?_,?_⟩
  · rw [slots_replicate]
    exact nodup_nil
  · simp

theorem Within.exists_empty {vars : List Envpair} {tbl : Envvar} (h : Within vars tbl)
    (hroom : vars.length≤nvar) {ep : Envpair} (hep : ep∈vars)
    (hnew : ∀ x∈slots tbl, fold x.name≠fold ep.name) : none∈tbl := by
  by_contra hfull
  have hlen := length_slots_of_full hfull
  have hnd := h.distinct.append hnew
  have hsub : slots tbl++[ep] ⊆ vars := by
    intro x hx
    rcases mem_append.mp hx with hx | hx
    · exact h.sub x hx
    · rw [mem_singleton.mp hx]
      exact hep
  have hle := (subperm_of_subset (List.Nodup.of_map key hnd) hsub).length_le
  have hfixed := h.length
  rw [length_append,length_singleton] at hle
  omega

section
variable {cfg : Config} {chg : Answers} {vars : List Envpair}
variable {tbl : Envvar}
section
variable (hd : Distinct key vars) (hroom : vars.length≤nvar)
include hd hroom

theorem Within.assign (h : Within vars tbl) {p : CString × CString}
    (hp : (⟨p.1,some p.2⟩ : Envpair)∈vars) (hok : refuses cfg chg false p.1 (some p.2)=false) :
    Within vars (assign cfg chg tbl p) ∧ ⟨p.1,some p.2⟩∈slots (assign cfg chg tbl p) ∧
      ∀ ep∈slots tbl, ep∈slots (assign cfg chg tbl p) := by
  have hsame : ∀ ep∈slots tbl, fold ep.name=fold p.1 → ep=⟨p.1,some p.2⟩ :=
    fun ep hep hk => inj_on_of_nodup_map hd (h.sub ep hep) hp hk
  have hsp : Spelled tbl p.1 := fun ep hep hk => by rw [hsame ep hep hk]
  unfold SetEnv.assign
  rcases _setenv_cases tbl hok with ⟨tbl',heq,hslot⟩ | ⟨-,hfull,hnew⟩
  · rw [heq]
    have hmem := hslot.mem_iff h.distinct hsp
    refine ⟨⟨hslot.length_eq.trans h.length,hslot.distinct h.distinct,fun ep hep => ?_⟩,
      (hmem _).mpr (Or.inl rfl),fun ep hep => ?_⟩
    · rcases (hmem ep).mp hep with rfl | ⟨hep,-⟩
      · exact hp
      · exact h.sub ep hep
    · by_cases hk : fold ep.name=fold p.1
      · exact (hmem ep).mpr (Or.inl (hsame ep hep hk))
      · exact (hmem ep).mpr (Or.inr ⟨hep,hk⟩)
  · exact absurd (h.exists_empty hroom hp hnew) hfull

theorem Within.foldl_assign {ps : List (CString × CString)}
    (hps : ∀ p∈ps, (⟨p.1,some p.2⟩ : Envpair)∈vars)
    (hok : ∀ p∈ps, refuses cfg chg false p.1 (some p.2)=false) (h : Within vars tbl) :
    Within vars (ps.foldl (SetEnv.assign cfg chg) tbl) ∧
      (∀ ep∈slots tbl, ep∈slots (ps.foldl (SetEnv.assign cfg chg) tbl)) ∧
      ∀ p∈ps, (⟨p.1,some p.2⟩ : Envpair)∈slots (ps.foldl (SetEnv.assign cfg chg) tbl) := by
  induction ps generalizing tbl with
  | nil => exact ⟨h,fun _ hep => hep,by simp⟩
  | cons p ps ih =>
    obtain ⟨hw,hin,hkeep⟩ := h.assign hd hroom (hps p mem_cons_self) (hok p mem_cons_self)
    obtain ⟨hw',hkeep',hall⟩ := ih (fun q hq => hps q (mem_cons_of_mem _ hq))
      (fun q hq => hok q (mem_cons_of_mem _ hq)) hw
    refine ⟨hw',fun ep hep => hkeep' ep (hkeep ep hep),fun q hq => ?_⟩
    rcases mem_cons.mp hq with rfl | hq
    · exact hkeep' _ hin
    · exact hall q hq

theorem Within.foldl_assignDefault {ds : List (CString × CString)} (h : Within vars tbl)
    (hds : ∀ d∈ds, (∀ ep∈slots tbl, fold ep.name≠fold d.1) →
      (⟨d.1,some d.2⟩ : Envpair)∈vars ∧ refuses cfg chg false d.1 (some d.2)=false) :
    Within vars (ds.foldl (assignDefault cfg chg) tbl) ∧
      (∀ ep∈slots tbl, ep∈slots (ds.foldl (assignDefault cfg chg) tbl)) ∧
      ∀ d∈ds, ∃ ep∈slots (ds.foldl (assignDefault cfg chg) tbl), fold ep.name=fold d.1 := by
  induction ds generalizing tbl with
  | nil => exact ⟨h,fun _ hep => hep,by simp⟩
  | cons d ds ih =>
    rw [foldl_cons]
    have hstep : Within vars (assignDefault cfg chg tbl d) ∧
        (∀ ep∈slots tbl, ep∈slots (assignDefault cfg chg tbl d)) ∧
        ∃ ep∈slots (assignDefault cfg chg tbl d), fold ep.name=fold d.1 := by
      unfold assignDefault
      split_ifs with hset
      · exact ⟨h,fun _ hep => hep,_getenv_isSome.mp hset⟩
      · have hnew : ∀ ep∈slots tbl, fold ep.name≠fold d.1 :=
          fun ep hep hk => hset (_getenv_isSome.mpr ⟨ep,hep,hk⟩)
        obtain ⟨hin,hok⟩ := hds d mem_cons_self hnew
        obtain ⟨hw,hin',hkeep⟩ := h.assign hd hroom hin hok
        exact ⟨hw,hkeep,_,hin',rfl⟩
    obtain ⟨hw,hkeep,x,hx,hxk⟩ := hstep
    obtain ⟨hw',hkeep',hall⟩ := ih hw fun e he hnew =>
      hds e (mem_cons_of_mem _ he) fun ep hep => hnew ep (hkeep ep hep)
    refine ⟨hw',fun ep hep => hkeep' ep (hkeep ep hep),fun e he => ?_⟩
    rcases mem_cons.mp he with rfl | he
    · exact ⟨x,hkeep' x hx,hxk⟩
    · exact hall e he
end

theorem Agree.envinit {m : EnvMap} (h : Agree cfg vars m)
    (hdist : Distinct (fun d => fold d.1) (defaults cfg)) (hroom : vars.length≤nvar)
    (hok : ∀ ep∈vars, refuses cfg chg false ep.name ep.value=false)
    {stored : List (CString × CString)} (hstored : ∀ n v, (n,v)∈stored ↔ m n=some v) :
    let tbl := (defaults cfg).foldl (assignDefault cfg chg)
      (stored.foldl (assign cfg chg) (List.replicate nvar none))
    Synced cfg tbl m ∧ ∀ ep, ep∈slots tbl ↔ ep∈vars := by
  intro tbl
  have hps : ∀ p∈stored, (⟨p.1,some p.2⟩ : Envpair)∈vars :=
    fun p hp => h.stored p.1 p.2 ((hstored p.1 p.2).mp hp)
  obtain ⟨hw,-,hall⟩ := (within_empty vars).foldl_assign h.distinct hroom hps
    fun p hp => hok _ (hps p hp)
  have hmissing : ∀ d∈defaults cfg,
      (∀ ep∈slots (stored.foldl (assign cfg chg) (List.replicate nvar none)),
        fold ep.name≠fold d.1) →
      (⟨d.1,some d.2⟩ : Envpair)∈vars ∧ refuses cfg chg false d.1 (some d.2)=false := by
    intro d hd hnew
    obtain ⟨⟨name,value⟩,hep,rfl⟩ := h.standing d hd
    obtain ⟨v,rfl,hm | ⟨-, hdef⟩⟩ := h.origin _ hep
    · -- a stored variable has been set before the defaults
      exact absurd rfl (hnew _ (hall (d.1,v) ((hstored d.1 v).mpr hm)))
    · have hv := inj_on_of_nodup_map hdist hdef hd rfl
      have hin : (⟨d.1,some d.2⟩ : Envpair)∈vars := by
        rw [←hv]
        exact hep
      exact ⟨hin,hok _ hin⟩
  obtain ⟨hw',hkeep,hpresent⟩ := hw.foldl_assignDefault h.distinct hroom hmissing
  have hsup : ∀ ep∈vars, ep∈slots tbl := by
    intro ep hep
    obtain ⟨v,hv,hm | ⟨-, hdef⟩⟩ := h.origin ep hep
    · have hin := hkeep _ (hall (ep.name,v) ((hstored ep.name v).mpr hm))
      rw [←hv] at hin
      exact hin
    · obtain ⟨x,hx,hk⟩ := hpresent _ hdef
      have heq := inj_on_of_nodup_map h.distinct (hw'.sub x hx) hep hk
      exact heq ▸ hx
  refine ⟨⟨⟨hw'.distinct,fun n v hv => hsup _ (h.stored n v hv),fun ep hep => ?_,
    fun d hd => ?_⟩,hw'.length⟩,fun ep => ⟨hw'.sub ep,hsup ep⟩⟩
  · exact h.origin ep (hw'.sub ep hep)
  · obtain ⟨ep,hep,hname⟩ := h.standing d hd
    exact ⟨ep,hsup ep hep,hname⟩

theorem agree_defaults (hdist : Distinct (fun d => fold d.1) (defaults cfg)) :
    Agree cfg ((defaults cfg).map fun d => ⟨d.1,some d.2⟩) fun _ => none := by
  refine ⟨?_,by simp,fun ep hep => ?_,fun d hd => ?_⟩
  · unfold Distinct at hdist ⊢
    rw [map_map]
    exact hdist
  · obtain ⟨d,hd,rfl⟩ := mem_map.mp hep
    exact ⟨d.2,rfl,Or.inr ⟨rfl,hd⟩⟩
  · exact ⟨_,mem_map_of_mem hd,rfl⟩
end

/-- A command with the answers of the change functions, or a reboot with those of `envinit`. -/
inductive Command where
  | set (chg : Answers) (name value : CString)
  | unset (chg : Answers) (pat : CString)
  | reboot (chg : Answers)

def Command.Plain : Command → Prop
  | .set _ name _ => PlainName name
  | .unset _ pat => PlainName pat ∧ star∉pat.bytes ∧ query∉pat.bytes
  | .reboot _ => True

/-- Names are spelled as in the tables, board variables are not unset, and at a reboot the change
functions accept the values. -/
def Command.Safe (cfg : Config) (tbl : Envvar) : Command → Prop
  | .set _ name value => Spelled tbl name ∧
      ∀ sp∈getstdenv cfg name, fold value=fold sp.init → value=sp.init
  | .unset _ pat => ∀ d∈cfg.boardenv, fold d.1≠fold pat
  | .reboot chg => ∀ ep∈slots tbl, refuses cfg chg false ep.name ep.value=false

instance (c : Command) : Decidable c.Plain := match c with
  | .set _ name _ => inferInstanceAs (Decidable (PlainName name))
  | .unset _ pat =>
    inferInstanceAs (Decidable (PlainName pat ∧ star∉pat.bytes ∧ query∉pat.bytes))
  | .reboot _ => inferInstanceAs (Decidable True)

instance (cfg : Config) (tbl : Envvar) (c : Command) : Decidable (c.Safe cfg tbl) := match c with
  | .set _ name value =>
    inferInstanceAs (Decidable (Spelled tbl name ∧
      ∀ sp∈getstdenv cfg name, fold value=fold sp.init → value=sp.init))
  | .unset _ pat => inferInstanceAs (Decidable (∀ d∈cfg.boardenv, fold d.1≠fold pat))
  | .reboot chg => inferInstanceAs
      (Decidable (∀ ep∈slots tbl, refuses cfg chg false ep.name ep.value=false))

section
variable {σ : Type} (st : EnvStore σ) (restart : σ → σ) (cfg : Config)

def Command.exec (s : Env σ) : Command → Env σ × Bool
  | .set chg name value => setenv st cfg chg s name (some value)
  | .unset chg pat => unsetenv st cfg chg s pat
  | .reboot chg => (envinit st cfg chg false (restart s.nv),true)

def runAll : Env σ → List Command → Option (Env σ)
  | s, [] => some s
  | s, c::cs =>
    match c.exec st restart cfg s with
    | (s',true) => runAll s' cs
    | (_,false) => none

def SafeRun : Env σ → List Command → Prop
  | _, [] => True
  | s, c::cs => c.Plain ∧ c.Safe cfg s.envvar ∧ SafeRun (c.exec st restart cfg s).1 cs

instance decidableSafeRun : (cs : List Command) → (s : Env σ) →
    Decidable (SafeRun st restart cfg s cs)
  | [], _ => inferInstanceAs (Decidable True)
  | c::cs, s =>
    have := decidableSafeRun cs (c.exec st restart cfg s).1
    inferInstanceAs (Decidable (c.Plain ∧ c.Safe cfg s.envvar ∧
      SafeRun st restart cfg (c.exec st restart cfg s).1 cs))

/-- A relation to a map that calls and boots keep. -/
structure Persistent (R : σ → EnvMap → Prop) : Prop where
  exec : ∀ {s m} (op : EnvOp), R s m → PlainName op.name →
    R (st.exec s op).1 (m.update op (st.exec s op).2)
  boot : ∀ {s m}, R s m → R (st.mapenv (restart s)).1 m ∧
    ∀ n v, (n,v)∈(st.mapenv (restart s)).2 ↔ m n=some v

variable {cfg}

theorem map_name_stdenvtab (cfg : Config) : (stdenvtab cfg).map Stdenv.name=(stdenvtab { cfg with
      clientpc := CString.empty, boardenv := [] }).map Stdenv.name := by
  simp [stdenvtab,stdenvHead]

theorem stdenvtab_names (cfg : Config) :
    (∀ name∈(stdenvtab cfg).map Stdenv.name, PlainName name) ∧
      (((stdenvtab cfg).map Stdenv.name).map fold).Nodup := by
  have hall : ∀ r s i d f : Bool,
      (∀ name∈(stdenvtab ⟨r,s,i,d,f,CString.empty,[]⟩).map Stdenv.name, PlainName name) ∧
      (((stdenvtab ⟨r,s,i,d,f,CString.empty,[]⟩).map Stdenv.name).map fold).Nodup := by
    simp only [stdenvtab,stdenvHead,row,choice,text,String.reduceToList]
    decide +kernel
  rw [map_name_stdenvtab]
  exact hall _ _ _ _ _

variable (cfg)

def Booted (R : σ → EnvMap → Prop) (s : Env σ) : Prop :=
  s.envinited=true ∧ ∃ m, R s.nv m ∧ Synced cfg s.envvar m

variable {st restart cfg}

theorem mem_defaults_of_std {sp : Stdenv} (h : sp∈stdenvtab cfg) :
    (sp.name,sp.init)∈defaults cfg :=
  mem_append_right _ (mem_map.mpr ⟨sp,h,rfl⟩)

variable {chg : Answers}

theorem Booted.set {R : σ → EnvMap → Prop} (hp : Persistent st restart R) {s s' : Env σ}
    (h : Booted cfg R s) {name value : CString} (hname : PlainName name)
    (hsp : Spelled s.envvar name)
    (hexact : ∀ sp∈getstdenv cfg name, fold value=fold sp.init → value=sp.init)
    (hset : setenv st cfg chg s name (some value)=(s',true)) : Booted cfg R s' := by
  obtain ⟨hinit,m,hR,hsync⟩ := h
  obtain ⟨hslot,hinit',hnv⟩ := setenv_ok st cfg hset
  refine ⟨hinit'.trans hinit,?_⟩
  rcases hnv with ⟨sp,v,hstd,hv,hfold,hnv⟩ | hnv
  · cases hv
    have hmem := getstdenv_fold hstd
    obtain ⟨ep,hep,hepname⟩ := hsync.standing _ (mem_defaults_of_std hmem.1)
    have hspelled : sp.name=name := by
      have hk : fold ep.name=fold name := by rw [hepname,hmem.2]
      rw [←hsp ep hep hk,hepname]
    have hdef : (name,value)∈defaults cfg := by
      rw [←hspelled,hexact sp hstd hfold]
      exact mem_defaults_of_std hmem.1
    refine ⟨_,?_,hsync.set hsp hslot (Or.inr ⟨rfl, hdef⟩)⟩
    rw [hnv]
    exact hp.exec (.unsetenv name) hR hname
  · refine ⟨_,?_,hsync.set hsp hslot (Or.inl rfl)⟩
    have hR' := hp.exec (.setenv name (some value)) hR hname
    have hexec : st.exec s.nv (.setenv name (some value))=(s'.nv,.ok ()) := hnv
    rw [hexec] at hR'
    exact hR'

theorem Booted.unset {R : σ → EnvMap → Prop} (hp : Persistent st restart R) {s s' : Env σ}
    (h : Booted cfg R s) {pat : CString} (hpat : PlainName pat) (hstar : star∉pat.bytes)
    (hquery : query∉pat.bytes) (hboard : ∀ d∈cfg.boardenv, fold d.1≠fold pat)
    (hunset : unsetenv st cfg chg s pat=(s',true)) : Booted cfg R s' := by
  obtain ⟨-,m,hR,hsync⟩ := id h
  cases unsetenvLoop_unset st cfg chg hstar hquery hsync.distinct hunset with
  | standard ep sp hep hname hstd hset =>
    obtain ⟨hmem,hfold⟩ := getstdenv_fold hstd
    obtain ⟨x,hx,hxname⟩ := hsync.standing _ (mem_defaults_of_std hmem)
    have hplain := (stdenvtab_names cfg).1 _ (mem_map_of_mem hmem)
    have hspelled : Spelled s.envvar sp.name := by
      have hx' := spelled_of_mem hsync.distinct hx
      rw [hxname] at hx'
      exact hx'
    refine h.set hp hplain hspelled ?_ hset
    intro sp' hsp' _
    rw [getstdenv_congr cfg hfold.symm,hstd] at hsp'
    cases hsp'
    rfl
  | user pre post ep htbl hname hstd hs' =>
    have hdef : ∀ d∈defaults cfg, d.1≠ep.name := by
      intro d hd hdname
      rcases mem_append.mp hd with hd | hd
      · exact hboard d hd (by rw [hdname,hname])
      · obtain ⟨sp,hsp,rfl⟩ := mem_map.mp hd
        have hnot := find?_eq_none.mp hstd sp hsp
        exact hnot ((striequ_iff pat sp.name).mpr (by rw [←hname,←hdname]))
    rw [htbl] at hsync
    have hsync' := hsync.remove hdef
    rw [hname] at hsync'
    subst hs'
    exact ⟨h.1,_,hp.exec (.unsetenv pat) hR hpat,hsync'⟩

theorem Booted.reboot {R : σ → EnvMap → Prop} (hp : Persistent st restart R)
    (hdist : Distinct (fun d => fold d.1) (defaults cfg)) {s : Env σ} (h : Booted cfg R s)
    (hsafe : (Command.reboot chg).Safe cfg s.envvar) :
    Booted cfg R (envinit st cfg chg false (restart s.nv)) ∧
      ∀ n, getenv cfg (envinit st cfg chg false (restart s.nv)) n=getenv cfg s n := by
  obtain ⟨hinit,m,hR,hsync⟩ := h
  obtain ⟨hR',hpairs⟩ := hp.boot hR
  have hroom := hsync.length ▸ length_slots_le s.envvar
  obtain ⟨hsync',hmem⟩ := hsync.toAgree.envinit hdist hroom hsafe hpairs
  refine ⟨⟨rfl,m,hR',hsync'⟩,fun n => ?_⟩
  have hinit' : (envinit st cfg chg false (restart s.nv)).envinited=true := rfl
  rw [getenv,getenv,hinit,hinit',if_pos rfl,if_pos rfl]
  exact _getenv_congr hsync.distinct hsync'.distinct hmem n

theorem booted_first {R : σ → EnvMap → Prop} (hp : Persistent st restart R)
    (hdist : Distinct (fun d => fold d.1) (defaults cfg)) (hroom : (defaults cfg).length≤nvar)
    (hok : ∀ d∈defaults cfg, refuses cfg chg false d.1 (some d.2)=false) {nv : σ}
    (hR : R nv fun _ => none) : Booted cfg R (envinit st cfg chg false (restart nv)) := by
  obtain ⟨hR',hpairs⟩ := hp.boot hR
  have hvars : ∀ ep∈(defaults cfg).map (fun d => (⟨d.1,some d.2⟩ : Envpair)),
      refuses cfg chg false ep.name ep.value=false := by
    intro ep hep
    obtain ⟨d,hd,rfl⟩ := mem_map.mp hep
    exact hok d hd
  obtain ⟨hsync,-⟩ := (agree_defaults hdist).envinit hdist (by simpa using hroom) hvars hpairs
  exact ⟨rfl,_,hR',hsync⟩

theorem Booted.exec {R : σ → EnvMap → Prop} (hp : Persistent st restart R)
    (hdist : Distinct (fun d => fold d.1) (defaults cfg)) {s s' : Env σ} (h : Booted cfg R s)
    {c : Command} (hplain : c.Plain) (hsafe : c.Safe cfg s.envvar)
    (hexec : c.exec st restart cfg s=(s',true)) : Booted cfg R s' := by
  cases c with
  | set chg name value => exact h.set hp hplain hsafe.1 hsafe.2 hexec
  | unset chg pat => exact h.unset hp hplain.1 hplain.2.1 hplain.2.2 hsafe hexec
  | reboot chg =>
    cases hexec
    exact (h.reboot hp hdist hsafe).1

theorem Booted.runAll {R : σ → EnvMap → Prop} (hp : Persistent st restart R)
    (hdist : Distinct (fun d => fold d.1) (defaults cfg)) {cs : List Command} {s s' : Env σ}
    (h : Booted cfg R s) (hsafe : SafeRun st restart cfg s cs)
    (hrun : SetEnv.runAll st restart cfg s cs=some s') : Booted cfg R s' := by
  induction cs generalizing s with
  | nil =>
    cases hrun
    exact h
  | cons c cs ih =>
    obtain ⟨hplain,hcsafe,hrest⟩ := hsafe
    rw [SetEnv.runAll] at hrun
    split at hrun
    · next s₁ hexec =>
      rw [hexec] at hrest
      exact ih (h.exec hp hdist hplain hcsafe hexec) hrest hrun
    · cases hrun

structure BoardNames (cfg : Config) : Prop where
  new : ∀ d∈cfg.boardenv, getstdenv cfg d.1=none
  distinct : Distinct (fun d => fold d.1) cfg.boardenv

instance (cfg : Config) : Decidable (BoardNames cfg) :=
  decidable_of_iff ((∀ d∈cfg.boardenv, getstdenv cfg d.1=none) ∧
      (cfg.boardenv.map fun d : CString × CString => fold d.1).Nodup)
    ⟨fun h => ⟨h.1,h.2⟩, fun h => ⟨h.1,h.2⟩⟩

theorem BoardNames.defaults_distinct (h : BoardNames cfg) :
    Distinct (fun d => fold d.1) (defaults cfg) := by
  have hstd := (stdenvtab_names cfg).2
  unfold Distinct defaults
  rw [map_append,nodup_append,map_map]
  refine ⟨h.distinct,by rwa [map_map] at hstd,?_⟩
  intro k hk k' hk' heq
  obtain ⟨d,hd,rfl⟩ := mem_map.mp hk
  obtain ⟨sp,hsp,rfl⟩ := mem_map.mp hk'
  have hnot := find?_eq_none.mp (h.new d hd) sp hsp
  exact hnot ((striequ_iff d.1 sp.name).mpr heq)
end
end Pmon.SetEnv
namespace Pmon.FlashEnv
open EnvEntry SetEnv

theorem persistent {b : Board} (hforce : b.forceReset=false) {part : ℕ × ℕ}
    (hpart : b.envPart=some part) : Persistent (envStore b) Store.reboot
      (Related b (fun name => ∀ c∈name, 0x20≤c ∧ c<0x7f) part) := by
  constructor
  · intro s m op hR hname
    have hhead : op.name.bytes.head?≠some 0xff := by
      intro hff
      have hlt := (hname.printable _ (List.mem_of_mem_head? hff)).2
      exact absurd hlt (by decide)
    exact exec_related hR ⟨⟨hname.no_eq,hhead⟩,hname.printable⟩
  · rintro s m ⟨bodies,hk,rfl,hP,rfl⟩
    have hnames : ∀ body∈live bodies, NameOk body := fun body hb => ⟨hk.named body hb,hP body hb⟩
    have himg := hk.layout.image
    have hboot := reboot_invalid hforce hpart himg hnames
    have hkept := booted_kept himg hk.erasable.tiled hk.tidy hnames
    have hmap : (envStore b).mapenv s.reboot =
        (envStore b).mapenv (s.booted s.envOffs s.envMaxsize bodies) := by
      change s.reboot.mapenv b=(s.booted s.envOffs s.envMaxsize bodies).mapenv b
      unfold Store.mapenv
      rw [hboot]
      rfl
    have hrep := hkept.represents
    rw [hmap,hrep.mapenv]
    exact ⟨⟨bodies,hkept,rfl,hP,rfl⟩,hrep.pairs⟩

end Pmon.FlashEnv
namespace Pmon.NvEnv
open EnvEntry SetEnv

theorem persistent {b : Board} (hforce : b.forceReset=false) :
    Persistent (envStore b) Store.reboot (Related b) := by
  constructor
  · intro s m op hR hname
    exact exec_related hR hname
  · intro s m hR
    obtain ⟨hok,-,-,hR'⟩ := hR.reboot hforce
    have hstate : (s.reboot.invalid b).1.envState = .ok := by
      obtain ⟨bodies,hk,-⟩ := hR'
      exact hk.layout.state
    have hmap : (envStore b).mapenv s.reboot=(envStore b).mapenv (s.reboot.invalid b).1 := by
      change s.reboot.mapenv b=(s.reboot.invalid b).1.mapenv b
      have hagain : (s.reboot.invalid b).1.invalid b=s.reboot.invalid b := by
        rw [Store.invalid,if_pos (by rw [hstate]; decide),hstate,←hok]
      unfold Store.mapenv
      rw [hagain]
    have hrep := hR'.represents
    rw [hmap,hrep.mapenv]
    exact ⟨hR',hrep.pairs⟩

end Pmon.NvEnv
namespace Pmon.SetEnv
open EnvEntry

def p6032 (memsize : CString) : Config where
  r4000 := true
  sable := false
  inet := true
  dhcp := false
  floatingpt := true
  clientpc := text "0x80020000"
  boardenv := [(text "memsize",memsize)]

/-- With either store a reboot after safe commands leaves every answer of `getenv`. -/
theorem getenv_survives_reboot (cfg : Config) (hboard : BoardNames cfg)
    (hroom : (defaults cfg).length≤nvar) (first : Answers)
    (hfirst : ∀ d∈defaults cfg, refuses cfg first false d.1 (some d.2)=false)
    (cs : List Command) (chg : Answers) :
    (∀ (b : FlashEnv.Board) (s : FlashEnv.Store) (e : Env FlashEnv.Store),
      b.forceReset=false → FlashEnv.Erasable b s → b.envPart=some s.part →
      let st := FlashEnv.envStore b
      let e₀ := envinit st cfg first false (s.reset b).reboot
      SafeRun st FlashEnv.Store.reboot cfg e₀ cs →
      runAll st FlashEnv.Store.reboot cfg e₀ cs=some e →
      (Command.reboot chg).Safe cfg e.envvar →
        ∀ n, getenv cfg (envinit st cfg chg false e.nv.reboot) n=getenv cfg e n) ∧
    (∀ (b : NvEnv.Board) (s : NvEnv.Store) (e : Env NvEnv.Store),
      b.forceReset=false → s.part=b.part →
      let st := NvEnv.envStore b
      let e₀ := envinit st cfg first false s.reset.reboot
      SafeRun st NvEnv.Store.reboot cfg e₀ cs →
      runAll st NvEnv.Store.reboot cfg e₀ cs=some e →
      (Command.reboot chg).Safe cfg e.envvar →
        ∀ n, getenv cfg (envinit st cfg chg false e.nv.reboot) n=getenv cfg e n) := by
  have hdist := hboard.defaults_distinct
  constructor
  · intro b s e hforce herase hpart st e₀ hsafe hrun hchg
    have hp := FlashEnv.persistent hforce hpart
    have hempty : FlashEnv.Related b (fun name => ∀ c∈name, 0x20≤c ∧ c<0x7f) s.part
        (s.reset b) fun _ => none :=
      ⟨[],FlashEnv.reset_kept herase, by simp [FlashEnv.Store.part,herase],
        by simp [FlashEnv.live],rfl⟩
    have hbooted := (booted_first hp hdist hroom hfirst hempty).runAll hp hdist hsafe hrun
    exact (hbooted.reboot hp hdist hchg).2
  · intro b s e hforce hpart st e₀ hsafe hrun hchg
    have hp := NvEnv.persistent hforce
    have hbooted := (booted_first hp hdist hroom hfirst
      (NvEnv.reset_related hpart)).runAll hp hdist hsafe hrun
    exact (hbooted.reboot hp hdist hchg).2

def accepting : Answers := fun _ _ _ => true
def board64 : Config := p6032 (text "0x04000000")

def plainCommands : List Command :=
  [.set accepting (text "foo") (text "1"),.set accepting (text "uleof") (text "@"),
    .unset accepting (text "foo"),.reboot accepting]

theorem getenv_survives_reboot_plainCommands :
    let st := NvEnv.envStore (NvEnv.p6032 false)
    let e₀ := envinit st board64 accepting false NvEnv.blankStore.reset.reboot
    let e := (runAll st NvEnv.Store.reboot board64 e₀ plainCommands).get (by decide +kernel)
    let st' := FlashEnv.envStore FlashEnv.smallBoard
    let e₀' := envinit st' board64 accepting false
      (FlashEnv.smallStore.reset FlashEnv.smallBoard).reboot
    let e' := (runAll st' FlashEnv.Store.reboot board64 e₀' plainCommands).get (by decide +kernel)
    (∀ n, getenv board64 (envinit st board64 accepting false e.nv.reboot) n=getenv board64 e n) ∧
      ∀ n, getenv board64 (envinit st' board64 accepting false e'.nv.reboot) n =
        getenv board64 e' n := by
  intro st e₀ e st' e₀' e'
  have h := getenv_survives_reboot board64 (by decide +kernel) (by decide +kernel) accepting
    (by decide +kernel) plainCommands accepting
  constructor
  · exact h.2 (NvEnv.p6032 false) NvEnv.blankStore e rfl (by decide) (by decide +kernel)
      (Option.some_get _).symm (by decide +kernel)
  · exact h.1 FlashEnv.smallBoard FlashEnv.smallStore e' rfl FlashEnv.smallStore_erasable
      (by decide) (by decide +kernel) (Option.some_get _).symm (by decide +kernel)

def twoSpellings : List Command :=
  [.set accepting (text "FOO") (text "1"),.set accepting (text "foo") (text "2"),
    .unset accepting (text "FOO")]

theorem getenv_twoSpellings :
    let st := NvEnv.envStore (NvEnv.p6032 false)
    let st' := FlashEnv.envStore FlashEnv.smallBoard
    (runAll st NvEnv.Store.reboot board64
      (envinit st board64 accepting false NvEnv.blankStore.reset.reboot) twoSpellings).map
      (fun e => (getenv board64 e (text "foo"),
        getenv board64 (envinit st board64 accepting false e.nv.reboot) (text "foo"))) =
      some (none,some (text "2")) ∧
    (runAll st' FlashEnv.Store.reboot board64 (envinit st' board64 accepting false
      (FlashEnv.smallStore.reset FlashEnv.smallBoard).reboot) twoSpellings).map
      (fun e => (getenv board64 e (text "foo"),
        getenv board64 (envinit st' board64 accepting false e.nv.reboot) (text "foo"))) =
      some (none,some (text "2")) := by
  decide +kernel

end Pmon.SetEnv
