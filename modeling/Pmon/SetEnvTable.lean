import Mathlib.Data.List.Perm.Subperm
import Pmon.SetEnv

/-!
# What the environment functions do to the table

The filled slots form a list of items with distinct keys, the names in upper case.
-/

namespace Pmon.SetEnv
open EnvEntry KeyedList

def fold (name : CString) : List UInt8 := name.bytes.map toupper

theorem striequ_eq (s t : List UInt8) : striequ s t=decide (s.map toupper=t.map toupper) := by
  induction s generalizing t with
  | nil => cases t <;> simp [striequ]
  | cons a s ih => cases t <;> simp [striequ,ih,Bool.beq_eq_decide_eq]

theorem striequ_iff (s t : CString) : striequ s.bytes t.bytes=true ↔ fold s=fold t := by
  rw [striequ_eq,decide_eq_true_iff]
  rfl

theorem strpatLoop_plain {pat : List UInt8} (hstar : star ∉ pat) (hquery : query ∉ pat)
    (s : List UInt8) {fuel : ℕ} (hfuel : pat.length<fuel) :
    strpatLoop fuel s pat=decide (s = pat) := by
  induction pat generalizing s fuel with
  | nil =>
    obtain ⟨k,rfl⟩ := Nat.exists_eq_add_one.mpr hfuel
    cases s <;> simp [strpatLoop]
  | cons d pat ih =>
    obtain ⟨k,rfl⟩ := Nat.exists_eq_add_one.mpr (Nat.zero_lt_of_lt hfuel)
    simp only [List.mem_cons,not_or,List.length_cons] at hstar hquery hfuel
    cases s with
    | nil =>
      have hd : (d == star)=false := by simpa using Ne.symm hstar.1
      simp [strpatLoop,hd]
    | cons c s =>
      have hne := Ne.symm hstar.1
      have hnq := Ne.symm hquery.1
      simp only [strpatLoop,hne,hnq,if_false,false_or]
      by_cases hdc : d=c
      · rw [if_pos hdc,ih hstar.2 hquery.2 s (by omega),hdc]
        simp
      · rw [if_neg hdc]
        simp [Ne.symm hdc]

theorem strpat_plain {pat : List UInt8} (hstar : star ∉ pat) (hquery : query ∉ pat)
    (s : List UInt8) : strpat s pat=decide (s = pat) := by
  have hanchor : star∉(0xde : UInt8)::(pat++[0xa4]) ∧
      query∉(0xde : UInt8)::(pat++[0xa4]) := by
    have hs : star≠0xde ∧ star≠0xa4 := by decide
    have hq : query≠0xde ∧ query≠0xa4 := by decide
    simp [hstar,hquery,hs,hq]
  rw [strpat,strpatLoop_plain hanchor.1 hanchor.2 _ (by simp)]
  simp

def slots (tbl : Envvar) : List Envpair := tbl.filterMap id
def key (ep : Envpair) : List UInt8 := fold ep.name

@[simp] theorem slots_append (s t : Envvar) : slots (s++t)=slots s++slots t :=
  List.filterMap_append

@[simp] theorem slots_cons_none (t : Envvar) : slots (none::t)=slots t := rfl

@[simp] theorem slots_cons_some (ep : Envpair) (t : Envvar) : slots (some ep::t)=ep::slots t :=
  rfl

@[simp] theorem slots_replicate (k : ℕ) : slots (List.replicate k none)=[] := by
  induction k with
  | zero => rfl
  | succ k ih => rw [List.replicate_succ,slots_cons_none,ih]

variable {name : CString} {tbl : Envvar}

theorem mem_slots {ep : Envpair} : ep∈slots tbl ↔ some ep∈tbl := by
  simp [slots]

theorem length_slots_le (tbl : Envvar) : (slots tbl).length≤tbl.length :=
  List.length_filterMap_le _ _

theorem length_slots_of_full (h : none∉tbl) : (slots tbl).length=tbl.length := by
  induction tbl with
  | nil => rfl
  | cons slot tbl ih =>
    cases slot with
    | none => simp at h
    | some ep => simpa using ih (by simpa using h)

theorem _getenv_eq (tbl : Envvar) (name : CString) :
    _getenv tbl name =
      (lookup key (slots tbl) (fold name)).map fun ep => ep.value.getD CString.empty := by
  unfold _getenv
  congr 1
  induction tbl with
  | nil => rfl
  | cons slot tbl ih =>
    cases slot with
    | none => simpa using ih
    | some ep =>
      rw [List.findSome?_cons,slots_cons_some,lookup_cons]
      by_cases hk : fold name=fold ep.name
      · simp [key,hk,(striequ_iff name ep.name).mpr hk]
      · have hno : striequ name.bytes ep.name.bytes=false := by
          simpa using fun h => hk ((striequ_iff name ep.name).mp h)
        simp [key,hno,Ne.symm hk,ih]

theorem _getenv_isSome :
    (_getenv tbl name).isSome=true ↔ ∃ ep∈slots tbl, fold ep.name=fold name := by
  rw [_getenv_eq,Option.isSome_map,Option.isSome_iff_ne_none,ne_eq,lookup_eq_none]
  simp [key]

theorem _getenv_congr {tbl' : Envvar} (hd : Distinct key (slots tbl))
    (hd' : Distinct key (slots tbl')) (h : ∀ ep, ep∈slots tbl' ↔ ep∈slots tbl) (name : CString)
    : _getenv tbl' name=_getenv tbl name := by
  rw [_getenv_eq,_getenv_eq]
  congr 1
  ext ep
  rw [lookup_eq_some hd',lookup_eq_some hd,h]

inductive SetSlot (name : CString) (value : CPtr) : Envvar → Envvar → Prop where
  | changed {pre post : Envvar} {ep : Envpair} (hkey : fold name=fold ep.name) :
      SetSlot name value (pre++some ep::post) (pre++some {ep with value := value}::post)
  | added {pre post : Envvar}
      (hnew : ∀ ep∈slots (pre++none::post), fold ep.name≠fold name) :
      SetSlot name value (pre++none::post) (pre++some ⟨name,value⟩::post)

theorem scanSlots_spec (name : CString) (tbl : Envvar) (i : ℕ) (bp : Option ℕ) :
    (∃ pre ep post, tbl=pre++some ep::post ∧ (∀ x∈slots pre, fold x.name≠fold name) ∧
      fold name=fold ep.name ∧ (scanSlots name tbl i bp).1=some (i+pre.length)) ∨
    ((∀ ep∈slots tbl, fold ep.name≠fold name) ∧ (scanSlots name tbl i bp).1=none ∧
      ((∃ pre post, tbl=pre++none::post ∧
        (scanSlots name tbl i bp).2=bp.or (some (i+pre.length))) ∨
      none∉tbl ∧ (scanSlots name tbl i bp).2=bp)) := by
  induction tbl generalizing i bp with
  | nil => exact Or.inr ⟨by simp [slots],rfl,Or.inr ⟨by simp,rfl⟩⟩
  | cons slot tbl ih =>
    cases slot with
    | none =>
      rcases ih (i+1) (bp.or (some i)) with ⟨pre,ep,post,rfl,hpre,hk,hr⟩ | ⟨hno,hr,hfree⟩
      · exact Or.inl ⟨none::pre,ep,post,rfl,by simpa using hpre,hk,by
          rw [scanSlots,hr,List.length_cons]; congr 1; omega⟩
      · refine Or.inr ⟨by simpa using hno,hr,Or.inl ⟨[],tbl,rfl,?_⟩⟩
        rw [scanSlots]
        rcases hfree with ⟨pre,post,-,hbp⟩ | ⟨-,hbp⟩
        · rw [hbp]
          cases bp <;> rfl
        · rw [hbp]
          cases bp <;> rfl
    | some ep =>
      by_cases hk : fold name=fold ep.name
      · refine Or.inl ⟨[],ep,tbl,rfl,by simp [slots],hk,?_⟩
        rw [scanSlots,if_pos ((striequ_iff name ep.name).mpr hk)]
        rfl
      · have hne : ¬ striequ name.bytes ep.name.bytes=true :=
          fun h => hk ((striequ_iff name ep.name).mp h)
        rw [scanSlots,if_neg hne]
        rcases ih (i+1) bp with ⟨pre,ep',post,rfl,hpre,hk',hr⟩ | ⟨hno,hr,hfree⟩
        · exact Or.inl ⟨some ep::pre,ep',post,rfl,by simpa using ⟨Ne.symm hk,hpre⟩,hk',by
            rw [hr,List.length_cons]; congr 1; omega⟩
        · refine Or.inr ⟨?_,hr,?_⟩
          · simpa using ⟨Ne.symm hk,hno⟩
          · rcases hfree with ⟨pre,post,rfl,hbp⟩ | ⟨hfull,hbp⟩
            · exact Or.inl ⟨some ep::pre,post,rfl,by
                rw [hbp,List.length_cons]; congr 2; omega⟩
            · exact Or.inr ⟨by simpa using hfull,hbp⟩

theorem _setenv_cases {cfg : Config} {chg : Answers} {envinited : Bool} (tbl : Envvar)
    {value : CPtr} (hok : refuses cfg chg envinited name value=false) :
    (∃ tbl', _setenv cfg chg envinited tbl name value=(tbl',true) ∧
      SetSlot name value tbl tbl') ∨
    (_setenv cfg chg envinited tbl name value=(tbl,false) ∧ none∉tbl ∧
      ∀ ep∈slots tbl, fold ep.name≠fold name) := by
  unfold _setenv
  rw [if_neg (by simp [hok])]
  have hscan := scanSlots_spec name tbl 0 none
  generalize scanSlots name tbl 0 none=r at hscan
  obtain ⟨slot,bp⟩ := r
  rcases hscan with ⟨pre,ep,post,rfl,-,hk,rfl⟩ |
    ⟨hno,rfl,⟨pre,post,rfl,rfl⟩ | ⟨hfull,rfl⟩⟩
  · refine Or.inl ⟨_,rfl,?_⟩
    rw [Nat.zero_add,List.modify_eq_take_cons_drop (by simp)]
    simpa using SetSlot.changed hk
  · refine Or.inl ⟨_,rfl,?_⟩
    simpa using SetSlot.added hno
  · exact Or.inr ⟨rfl,hfull,hno⟩

theorem _setenv_ok {cfg : Config} {chg : Answers} {envinited : Bool} {tbl' : Envvar} {value : CPtr}
    (h : _setenv cfg chg envinited tbl name value=(tbl',true)) :
    refuses cfg chg envinited name value=false ∧ SetSlot name value tbl tbl' := by
  cases hr : refuses cfg chg envinited name value with
  | true => simp [_setenv,hr] at h
  | false =>
    rcases _setenv_cases tbl hr with ⟨t,ht,hs⟩ | ⟨hf,-⟩
    · rw [ht] at h
      cases h
      exact ⟨rfl,hs⟩
    · simp [hf] at h

def Spelled (tbl : Envvar) (name : CString) : Prop :=
  ∀ ep∈slots tbl, fold ep.name=fold name → ep.name=name

instance (tbl : Envvar) (name : CString) : Decidable (Spelled tbl name) :=
  inferInstanceAs (Decidable (∀ ep∈slots tbl, fold ep.name=fold name → ep.name=name))

section
variable {name : CString} {value : CPtr} {tbl tbl' : Envvar}

theorem SetSlot.length_eq (h : SetSlot name value tbl tbl') : tbl'.length=tbl.length := by
  cases h <;> simp

theorem SetSlot.distinct (h : SetSlot name value tbl tbl') (hd : Distinct key (slots tbl)) :
    Distinct key (slots tbl') := by
  cases h with
  | changed hkey =>
    rw [slots_append,slots_cons_some] at hd ⊢
    exact hd.replace rfl
  | @added pre post hnew =>
    rw [slots_append,slots_cons_none] at hd hnew
    rw [slots_append,slots_cons_some]
    have happ : Distinct key (slots pre++slots post++[⟨name,value⟩]) := hd.append hnew
    have hperm : (slots pre++⟨name,value⟩::slots post).Perm
        (slots pre++slots post++[⟨name,value⟩]) :=
      List.perm_middle.trans (List.perm_append_singleton _ _).symm
    exact ((hperm.map key).nodup_iff).mpr happ

theorem SetSlot.mem_iff (h : SetSlot name value tbl tbl') (hd : Distinct key (slots tbl))
    (hsp : Spelled tbl name) (x : Envpair) :
    x∈slots tbl' ↔ x=⟨name,value⟩ ∨ x∈slots tbl ∧ fold x.name≠fold name := by
  cases h with
  | @changed pre post ep hkey =>
    have hname := hsp ep (by simp) hkey.symm
    rw [slots_append,slots_cons_some] at hd
    have hother : ∀ y∈slots pre++slots post, fold y.name≠fold name :=
      fun y hy => hname ▸ hd.ne_of_mem hy
    simp only [slots_append,slots_cons_some,List.mem_append,List.mem_cons,hname]
    constructor
    · rintro (hx | rfl | hx)
      · exact Or.inr ⟨Or.inl hx,hother x (by simp [hx])⟩
      · exact Or.inl rfl
      · exact Or.inr ⟨Or.inr (Or.inr hx),hother x (by simp [hx])⟩
    · rintro (rfl | ⟨hx | rfl | hx,hne⟩)
      · exact Or.inr (Or.inl rfl)
      · exact Or.inl hx
      · exact absurd hkey.symm hne
      · exact Or.inr (Or.inr hx)
  | @added pre post hnew =>
    simp only [slots_append,slots_cons_none,slots_cons_some,List.mem_append,
      List.mem_cons] at hnew ⊢
    constructor
    · rintro (hx | rfl | hx)
      · exact Or.inr ⟨Or.inl hx,hnew x (Or.inl hx)⟩
      · exact Or.inl rfl
      · exact Or.inr ⟨Or.inr hx,hnew x (Or.inr hx)⟩
    · rintro (rfl | ⟨hx | hx,-⟩)
      · exact Or.inr (Or.inl rfl)
      · exact Or.inl hx
      · exact Or.inr (Or.inr hx)
end

theorem eq_of_fold_eq {tbl : Envvar} (hd : Distinct key (slots tbl)) {x y : Envpair}
    (hx : x∈slots tbl) (hy : y∈slots tbl) (h : fold x.name=fold y.name) : x=y :=
  List.inj_on_of_nodup_map hd hx hy h

theorem spelled_of_mem {tbl : Envvar} (hd : Distinct key (slots tbl)) {ep : Envpair}
    (h : ep∈slots tbl) : Spelled tbl ep.name :=
  fun _ hx hk => congrArg Envpair.name (eq_of_fold_eq hd hx h hk)

section
variable {σ : Type} (st : EnvStore σ) (cfg : Config)
variable {name : CString} {i : ℕ}

theorem getstdenv_fold {cfg : Config} {sp : Stdenv} (h : getstdenv cfg name=some sp) :
    sp∈stdenvtab cfg ∧ fold name=fold sp.name := by
  refine ⟨List.mem_of_find?_eq_some h,?_⟩
  have hfind := List.find?_some h
  exact (striequ_iff name sp.name).mp hfind

theorem getstdenv_congr (cfg : Config) {n n' : CString} (h : fold n=fold n') :
    getstdenv cfg n=getstdenv cfg n' := by
  have hcmp : ∀ t : CString, striequ n.bytes t.bytes=striequ n'.bytes t.bytes := by
    intro t
    rw [striequ_eq,striequ_eq]
    exact congrArg (fun k => decide (k=t.bytes.map toupper)) h
  unfold getstdenv
  simp only [hcmp]

theorem setenv_ok {chg : Answers} {s s' : Env σ} {value : CPtr}
    (h : setenv st cfg chg s name value=(s',true)) :
    SetSlot name value s.envvar s'.envvar ∧ s'.envinited=s.envinited ∧
      ((∃ sp v, getstdenv cfg name=some sp ∧ value=some v ∧ fold v=fold sp.init ∧
        s'.nv=st.unsetenv s.nv (some name)) ∨
      st.setenv s.nv (some name) value true=(s'.nv,.ok ())) := by
  unfold setenv at h
  generalize hset : _setenv cfg chg s.envinited s.envvar name value=r at h
  obtain ⟨tbl,ok⟩ := r
  cases ok with
  | false => simp at h
  | true =>
    have hslot := (_setenv_ok hset).2
    dsimp only at h
    split_ifs at h with hdef
    · cases h
      obtain ⟨sp,hsp,hany⟩ := (Option.any_eq_true _ _).mp hdef
      obtain ⟨v,hv,heq⟩ := (Option.any_eq_true _ _).mp hany
      exact ⟨hslot,rfl,Or.inl ⟨sp,v,hsp,hv,(striequ_iff v sp.init).mp heq,rfl⟩⟩
    · split at h
      · next nv u hnv =>
        cases h
        exact ⟨hslot,rfl,Or.inr hnv⟩
      · simp at h

theorem unsetenvLoop_of_not_match (chg : Answers) {pat : CString} (hstar : star∉pat.bytes)
    (hquery : query∉pat.bytes) (s : Env σ) (ndone : ℕ) {k : ℕ}
    (hno : ∀ ep, some ep∈s.envvar.drop i → ep.name ≠ pat) :
    unsetenvLoop st cfg chg pat k i s ndone=(s,decide (0<ndone)) := by
  induction k generalizing i with
  | zero => rfl
  | succ k ih =>
    have hrest : ∀ ep, some ep∈s.envvar.drop (i+1) → ep.name ≠ pat := by
      intro ep hep
      refine hno ep ?_
      rw [←List.drop_drop] at hep
      exact List.mem_of_mem_drop hep
    have hnext := ih hrest
    unfold unsetenvLoop
    split
    · next ep hget =>
      have hmem : some ep∈s.envvar.drop i := by
        obtain ⟨hi,hep⟩ := List.getElem?_eq_some_iff.mp hget
        rw [List.drop_eq_getElem_cons hi,hep]
        exact List.mem_cons_self
      have hne : ep.name.bytes≠pat.bytes := fun h => hno ep hmem (CString.ext' h)
      rw [strpat_plain hstar hquery,if_neg (by simpa using hne)]
      exact hnext
    · exact hnext

inductive Unset (chg : Answers) (pat : CString) (s s' : Env σ) : Prop where
  | standard (ep : Envpair) (sp : Stdenv) (hep : ep∈slots s.envvar) (hname : ep.name = pat)
      (hstd : getstdenv cfg pat=some sp)
      (hset : setenv st cfg chg s sp.name (some sp.init)=(s',true))
  | user (pre post : Envvar) (ep : Envpair) (htbl : s.envvar=pre++some ep::post)
      (hname : ep.name = pat) (hstd : getstdenv cfg pat=none)
      (hs' : s'={ s with
        nv := st.unsetenv s.nv (some pat), envvar := pre++none::post })

theorem SetSlot.names_eq {value : CPtr} {tbl tbl' : Envvar} (h : SetSlot name value tbl tbl')
    (hin : ∃ ep∈slots tbl, fold ep.name=fold name) :
    tbl'.map (Option.map Envpair.name)=tbl.map (Option.map Envpair.name) := by
  cases h with
  | changed hkey => simp
  | added hnew =>
    obtain ⟨ep,hep,hk⟩ := hin
    exact absurd hk (hnew ep hep)

theorem name_ne_of_mem_drop {tbl : Envvar} (hd : Distinct key (slots tbl)) {ep : Envpair}
    (hget : tbl[i]?=some (some ep)) {x : Envpair} (hx : some x∈tbl.drop (i+1)) :
    x.name≠ep.name := by
  obtain ⟨hi,hep⟩ := List.getElem?_eq_some_iff.mp hget
  have hsplit : tbl=tbl.take i++some ep::tbl.drop (i+1) := by
    rw [←hep,←List.drop_eq_getElem_cons hi,List.take_append_drop]
  rw [hsplit,slots_append,slots_cons_some] at hd
  have hne := hd.ne_of_mem (List.mem_append_right _ (mem_slots.mpr hx))
  exact fun h => hne (congrArg fold h)

theorem unsetenvLoop_unset (chg : Answers) {pat : CString} (hstar : star∉pat.bytes)
    (hquery : query∉pat.bytes) {s s' : Env σ} (hd : Distinct key (slots s.envvar)) {k : ℕ}
    (h : unsetenvLoop st cfg chg pat k i s 0=(s',true)) : Unset st cfg chg pat s s' := by
  induction k generalizing i with
  | zero => simp [unsetenvLoop] at h
  | succ k ih =>
    unfold unsetenvLoop at h
    split at h
    · next ep hget =>
      rw [strpat_plain hstar hquery] at h
      split_ifs at h with hmatch
      · have hname := CString.ext' (of_decide_eq_true hmatch)
        have hmem := mem_slots.mpr (List.mem_of_getElem? hget)
        rw [hname] at h
        split at h
        · next sp hstd =>
          split at h
          · next s₁ hset =>
            -- the table keeps its names, so that no later slot matches
            have hnames := (setenv_ok st cfg hset).1.names_eq
              ⟨ep,hmem,hname ▸ (getstdenv_fold hstd).2⟩
            have hno : ∀ x, some x∈s₁.envvar.drop (i+1) → x.name ≠ pat := by
              intro x hx
              have hx' := List.mem_map_of_mem (f := Option.map Envpair.name) hx
              rw [List.map_drop,hnames,←List.map_drop] at hx'
              obtain ⟨slot,hslot,heq⟩ := List.mem_map.mp hx'
              obtain ⟨y,rfl,hy⟩ := Option.map_eq_some_iff.mp heq
              rw [←hy,←hname]
              exact name_ne_of_mem_drop hd hget hslot
            rw [unsetenvLoop_of_not_match st cfg chg hstar hquery s₁ _ hno] at h
            cases h
            exact .standard ep sp hmem hname hstd hset
          · simp at h
        · next hstd =>
          have hno : ∀ x, some x∈(s.envvar.set i none).drop (i+1) → x.name ≠ pat := by
            intro x hx
            rw [List.drop_set_of_lt (Nat.lt_succ_self i)] at hx
            exact hname ▸ name_ne_of_mem_drop hd hget hx
          rw [unsetenvLoop_of_not_match st cfg chg hstar hquery _ _ hno] at h
          cases h
          obtain ⟨hi,hep⟩ := List.getElem?_eq_some_iff.mp hget
          refine .user (s.envvar.take i) (s.envvar.drop (i+1)) ep ?_ hname hstd ?_
          · rw [←hep,←List.drop_eq_getElem_cons hi,List.take_append_drop]
          · rw [List.set_eq_take_append_cons_drop,if_pos hi]
      · exact ih h
    · exact ih h
end
end Pmon.SetEnv
