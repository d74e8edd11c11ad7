import Pmon.FlashEnvUpdate

/-!
# The flash environment as a finite map

`setenv_cases` says what a call can do; `Kept` adds the accounting and the distinctness of the live
names.
-/

namespace Pmon.FlashEnv
open ByteStore PackedRecords EnvEntry KeyedList
variable {body : List UInt8} {bodies : List (List UInt8)} {s : Store} {b : Board} {name : CString}

def envStore (b : Board) : EnvStore Store where
  setenv s := s.setenv b
  getenv s := s.getenv b
  unsetenv s := s.unsetenv b
  mapenv s := s.mapenv b

def live (bodies : List (List UInt8)) : List (List UInt8) := bodies.filter fun body => Active body

@[simp] theorem live_append (xs ys : List (List UInt8)) : live (xs++ys)=live xs++live ys :=
  List.filter_append xs ys

theorem live_cons_of_active (h : Active body) (rest : List (List UInt8)) :
    live (body::rest)=body::live rest :=
  List.filter_cons_of_pos (by simpa using h)

theorem live_cons_of_not_active (h : ¬ Active body) (rest : List (List UInt8)) :
    live (body::rest)=live rest :=
  List.filter_cons_of_neg (by simpa using h)

theorem live_live (bodies : List (List UInt8)) : live (live bodies)=live bodies := by
  simp [live]

theorem mem_live :
    body∈live bodies ↔ body∈bodies ∧ Active body := by
  simp [live]

def Store.clear (s : Store) (name : CPtr) : Store :=
  if s.find name≠0 then s.delete (s.find name) else s

def Store.makeRoom (b : Board) (s : Store) (total : ℕ) : Store :=
  if s.envMaxsize<envoffBase+s.envSize+total then s.compress b else s

/-- The entries without the first one selected by the name. -/
inductive Cleared (name : List UInt8) : List (List UInt8) → List (List UInt8) → Prop where
  | absent {bodies : List (List UInt8)} (hno : ∀ body∈bodies, ¬ Selects name body) :
      Cleared name bodies bodies
  | deleted {pre post : List (List UInt8)} {body : List UInt8}
      (hsel : Selects name body) (hpre : ∀ q∈pre, ¬ Selects name q) :
      Cleared name (pre++body::post) (pre++deleted body::post)

theorem unsetenv_eq (b : Board) (hs : s.envState = .ok) (name : CPtr) :
    s.unsetenv b name=s.clear name := by
  have hinv : s.invalid b=(s,.ok) := by simp [Store.invalid,hs]
  rw [Store.unsetenv,hinv]
  rfl

theorem clear_spec (h : Layout s bodies) (name : CString) :
    ∃ bodies', Cleared name.bytes bodies bodies' ∧ Layout (s.clear (some name)) bodies' ∧
      (s.clear (some name)).envFree+(packed (live bodies')).length =
        s.envFree+(packed (live bodies)).length := by
  rcases find_spec h name with ⟨h0,hno⟩ | ⟨pre,body,post,rfl,hsel,hpre,hpos⟩
  · have hc : s.clear (some name)=s := by rw [Store.clear,if_neg (by simp [h0])]
    rw [hc]
    exact ⟨bodies,.absent hno,h,rfl⟩
  · have hc : s.clear (some name)=s.delete (envoffBase+(packed pre).length) := by
      rw [Store.clear,if_pos (by rw [hpos]; simp [envoffBase]),hpos]
    rw [hc]
    refine ⟨_,.deleted hsel hpre,delete_layout h,?_⟩
    rw [delete_envFree h,live_append,live_append,live_cons_of_active hsel.1,
      live_cons_of_not_active (not_active_deleted body)]
    simp
    omega

theorem clear_envFree (s : Store) (name : CPtr) :
    (s.clear name).envFree =
      s.envFree + if s.find name≠0 then (s.getbyte (s.find name)).toNat else 0 := by
  unfold Store.clear
  split
  · rfl
  · rfl

@[simp] theorem clear_envMaxsize (s : Store) (name : CPtr) :
    (s.clear name).envMaxsize=s.envMaxsize := by
  unfold Store.clear; split <;> rfl

@[simp] theorem clear_envOffs (s : Store) (name : CPtr) :
    (s.clear name).envOffs=s.envOffs := by
  unfold Store.clear; split <;> rfl

@[simp] theorem clear_envState (s : Store) (name : CPtr) :
    (s.clear name).envState=s.envState := by
  unfold Store.clear; split <;> rfl

@[simp] theorem clear_compressions (s : Store) (name : CPtr) :
    (s.clear name).compressions=s.compressions := by
  unfold Store.clear; split <;> rfl

theorem setenv_cases (b : Board) (hs : s.envState = .ok) (name : CString) (val : CPtr)
    (overwrite : Bool) :
    (∃ e, s.setenv b (some name) val overwrite=(s,.error e)) ∨
    (overwrite=false ∧ s.setenv b (some name) val overwrite=(s,.ok ())) ∨
    (name.bytes≠[] ∧ entryTotal name.bytes val.bytes<255 ∧
      entryTotal name.bytes val.bytes≤(s.clear (some name)).envFree ∧
      s.setenv b (some name) val overwrite =
        let total := entryTotal name.bytes val.bytes
        let s₂ := (s.clear (some name)).makeRoom b total
        if s₂.envMaxsize<envoffBase+s₂.envSize+total then (s₂,.error .ENOSPC)
        else (s₂.append name.bytes val.bytes,.ok ())) := by
  have hinv : s.invalid b=(s,.ok) := by simp [Store.invalid,hs]
  have hfree := clear_envFree s (some name)
  rw [Store.setenv,hinv]
  dsimp only
  rw [if_neg (by simp),CPtr.bytes_some]
  by_cases hname : name.bytes.length=0
  · rw [if_pos hname]
    exact Or.inl ⟨_,rfl⟩
  rw [if_neg hname]
  by_cases hkeep : s.find (some name)≠0 ∧ overwrite=false
  · rw [if_pos hkeep]
    exact Or.inr (Or.inl ⟨hkeep.2,rfl⟩)
  rw [if_neg hkeep,←hfree]
  by_cases hlong : 255≤entryTotal name.bytes val.bytes
  · rw [if_pos hlong]
    exact Or.inl ⟨_,rfl⟩
  rw [if_neg hlong]
  by_cases hfull : (s.clear (some name)).envFree<entryTotal name.bytes val.bytes
  · rw [if_pos hfull]
    exact Or.inl ⟨_,rfl⟩
  rw [if_neg hfull]
  refine Or.inr (Or.inr ⟨?_,by omega,by omega,rfl⟩)
  intro hnil
  exact hname (by rw [hnil]; rfl)

theorem Erasable.congr {t : Store} (h : Erasable b s) (hoffs : t.envOffs=s.envOffs)
    (hmax : t.envMaxsize=s.envMaxsize) : Erasable b t :=
  ⟨by rw [hoffs,hmax]; exact h.tiled,by rw [hmax]; exact h.room⟩

theorem makeRoom_cases (b : Board) (s : Store) (total : ℕ) :
    (s.makeRoom b total=s ∧ envoffBase+s.envSize+total ≤ s.envMaxsize) ∨
      s.makeRoom b total=s.compress b := by
  unfold Store.makeRoom
  split
  · exact Or.inr rfl
  · next hfit => exact Or.inl ⟨rfl,by omega⟩

/-- The partition holds these entries, and `envfree` counts every byte that is not live. -/
structure Accounted (b : Board) (s : Store) (bodies : List (List UInt8)) : Prop where
  layout : Layout s bodies
  state : s.envState = .ok
  erasable : Erasable b s
  free : s.envFree+(packed (live bodies)).length+envoffBase=s.envMaxsize

theorem reset_accounted (h : Erasable b s) :
    Accounted b (s.reset b) [] where
  layout := reset_layout h
  state := reset_envState b s
  erasable := h.congr (reset_envOffs h) (reset_envMaxsize h)
  free := by
    have := h.room
    rw [reset_envFree h,reset_envMaxsize h]
    simp [live]
    omega

theorem Accounted.clear (h : Accounted b s bodies) (name : CString) :
    ∃ bodies', Cleared name.bytes bodies bodies' ∧
      Accounted b (s.clear (some name)) bodies' := by
  obtain ⟨bodies',hc,hl,hfree⟩ := clear_spec h.layout name
  refine ⟨bodies',hc,hl,by simpa using h.state,h.erasable.congr (by simp) (by simp),?_⟩
  have := h.free
  rw [clear_envMaxsize]
  omega

theorem Accounted.compress (h : Accounted b s bodies) :
    Accounted b (s.compress b) (live bodies) where
  layout := compress_layout h.layout h.erasable
  state := compress_envState b h.layout
  erasable := h.erasable.congr (compress_envOffs h.layout h.erasable)
    (compress_envMaxsize h.layout h.erasable)
  free := by
    have hfree := h.free
    have hc := compress_envFree h.layout h.erasable
    rw [←live] at hc
    rw [hc,compress_envMaxsize h.layout h.erasable,live_live]
    omega

variable {P : List UInt8 → Prop} {total : ℕ}

theorem Accounted.compress_room (h : Accounted b s bodies) (htotal : total ≤ s.envFree) :
    envoffBase+(s.compress b).envSize+total≤(s.compress b).envMaxsize := by
  have hfree := h.free
  have hmax := compress_envMaxsize h.layout h.erasable
  rw [h.compress.layout.size]
  omega

theorem Accounted.makeRoom (h : Accounted b s bodies) (htotal : total ≤ s.envFree) :
    ∃ bodies', Accounted b (s.makeRoom b total) bodies' ∧ live bodies'=live bodies ∧
      envoffBase+(s.makeRoom b total).envSize+total≤(s.makeRoom b total).envMaxsize ∧
      total≤(s.makeRoom b total).envFree := by
  rcases makeRoom_cases b s total with ⟨heq,hfit⟩ | heq
  · rw [heq]
    exact ⟨bodies,h,rfl,hfit,htotal⟩
  · have hc := h.compress
    have hfree := h.free
    have hfree' := hc.free
    have hmax := compress_envMaxsize h.layout h.erasable
    rw [live_live] at hfree'
    rw [heq]
    exact ⟨live bodies,hc,live_live bodies,h.compress_room htotal,by omega⟩

theorem Accounted.append (h : Accounted b s bodies) {name : List UInt8} (hne : name≠[])
    (val : List UInt8) (hact : Active (entryBody name val)) (hlt : entryTotal name val<255)
    (hfit : envoffBase+s.envSize+entryTotal name val ≤ s.envMaxsize)
    (hfree : entryTotal name val ≤ s.envFree) :
    Accounted b (s.append name val) (bodies++[entryBody name val]) := by
  have hlive : live (bodies++[entryBody name val])=live bodies++[entryBody name val] := by
    rw [live_append,live_cons_of_active hact]
    rfl
  have heq := append_eq s hne val
  refine ⟨append_layout h.layout hne val hlt hfit,?_,?_,?_⟩
  · rw [heq]
    exact h.state
  · rw [heq]
    exact h.erasable.congr rfl rfl
  · have := h.free
    rw [entryTotal_eq] at hfree
    rw [hlive,heq]
    simp only [packed_append,packed_cons,packed_nil,List.length_append,length_record,
      List.length_nil,poke_envMaxsize]
    omega

structure Kept (b : Board) (s : Store) (bodies : List (List UInt8)) : Prop where
  layout : Layout s bodies
  state : s.envState = .ok
  erasable : Erasable b s
  free : s.envFree+(packed (live bodies)).length+envoffBase=s.envMaxsize
  tidy : Tidy (live bodies)
  named : ∀ body∈live bodies, body.head?≠some eqSign

/-- A name that the store can keep: no `'='`, and no mark of a partially written entry. -/
structure Admissible (name : CString) : Prop where
  no_eq : eqSign∉name.bytes
  /-- The first byte is not `0xff`. -/
  head : name.bytes.head?≠some 0xff

instance (name : CString) : Decidable (Admissible name) :=
  decidable_of_iff (eqSign∉name.bytes ∧ name.bytes.head?≠some 0xff)
    ⟨fun h => ⟨h.1,h.2⟩, fun h => ⟨h.1,h.2⟩⟩

theorem head?_entryBody {name : List UInt8} (hne : name≠[]) (val : List UInt8) :
    (entryBody name val).head?=name.head? := by
  obtain ⟨c,name,rfl⟩ := List.exists_cons_of_ne_nil hne
  unfold entryBody
  split
  · rfl
  · rfl

theorem Admissible.active (h : Admissible name) (hne : name.bytes≠[]) (val : List UInt8) :
    Active (entryBody name.bytes val) := by
  rw [Active,head?_entryBody hne]
  exact ⟨fun h0 => name.noNul (List.mem_of_head? h0),h.head⟩

theorem Admissible.head_ne_eq (h : Admissible name) (hne : name.bytes≠[]) (val : List UInt8) :
    (entryBody name.bytes val).head?≠some eqSign := by
  rw [head?_entryBody hne]
  exact fun h0 => h.no_eq (List.mem_of_head? h0)

theorem selects_iff (hnamed : ∀ body∈live bodies, body.head?≠some eqSign) {name : List UInt8}
    (hname : eqSign∉name) (hb : body∈bodies) :
    Selects name body ↔ Active body ∧ keyOf body=name := by
  rw [Selects,matches_iff_keyOf hname]
  exact ⟨fun h => ⟨h.1,h.2.2⟩,fun h => ⟨h.1,hnamed body (mem_live.mpr ⟨hb,h.1⟩),h.2⟩⟩

theorem entryFor_eq_lookup (hnamed : ∀ body∈live bodies, body.head?≠some eqSign)
    {name : List UInt8} (hname : eqSign∉name) :
    entryFor bodies name=lookup keyOf (live bodies) name := by
  rw [entryFor,lookup,live,List.find?_filter]
  refine List.find?_congr fun body hb => ?_
  simp [selects_iff hnamed hname hb]

theorem Kept.represents (h : Kept b s bodies) :
    (envStore b).Represents s (bindings (live bodies)) :=
  h.tidy.represents (fun n hn => by
    rw [←entryFor_eq_lookup h.named hn]
    exact getenv_eq b h.layout h.state n) (mapenv_eq b h.layout h.state)

theorem Kept.accounted (h : Kept b s bodies) :
    Accounted b s bodies := ⟨h.layout,h.state,h.erasable,h.free⟩

theorem Accounted.kept (h : Accounted b s bodies) (htidy : Tidy (live bodies))
    (hnamed : ∀ body∈live bodies, body.head?≠some eqSign) : Kept b s bodies :=
  ⟨h.layout,h.state,h.erasable,h.free,htidy,hnamed⟩

theorem reset_kept (h : Erasable b s) : Kept b (s.reset b) [] :=
  (reset_accounted h).kept ⟨List.nodup_nil,by simp [live]⟩ (by simp [live])

theorem Cleared.live_spec {bodies' : List (List UInt8)} (h : Cleared name.bytes bodies bodies')
    (hname : eqSign∉name.bytes) (htidy : Tidy (live bodies))
    (hnamed : ∀ body∈live bodies, body.head?≠some eqSign) :
    Tidy (live bodies') ∧ (live bodies').Sublist (live bodies) ∧
      (∀ body∈live bodies', keyOf body≠name.bytes) ∧
      bindings (live bodies')=Function.update (bindings (live bodies)) name none := by
  cases h with
  | absent hno =>
    have hkeys : ∀ body∈live bodies, keyOf body≠name.bytes := fun body hb hk =>
      hno body (mem_live.mp hb).1
        ((selects_iff hnamed hname (mem_live.mp hb).1).mpr ⟨(mem_live.mp hb).2,hk⟩)
    refine ⟨htidy,List.Sublist.refl _,hkeys,(Function.update_eq_self_iff.mpr ?_).symm⟩
    rw [bindings,lookup_eq_none.mpr hkeys]
    rfl
  | @deleted pre post body hsel hpre =>
    have hk := ((selects_iff hnamed hname (by simp)).mp hsel).2
    rw [live_append,live_cons_of_active hsel.1] at htidy
    rw [live_append,live_append,live_cons_of_active hsel.1,
      live_cons_of_not_active (not_active_deleted body)]
    refine ⟨htidy.remove,?_,?_,bindings_remove htidy.distinct hk⟩
    · exact (List.Sublist.refl _).append (List.sublist_cons_self _ _)
    · rw [←hk]
      exact fun q hq => htidy.distinct.ne_of_mem hq

structure Dropped (b : Board) (s : Store) (bodies : List (List UInt8)) (name : CString)
    (bodies' : List (List UInt8)) : Prop where
  kept : Kept b (s.clear (some name)) bodies'
  sub : (live bodies').Sublist (live bodies)
  new : ∀ body∈live bodies', keyOf body≠name.bytes
  unbound : bindings (live bodies')=Function.update (bindings (live bodies)) name none

theorem Kept.clear (h : Kept b s bodies) (hname : eqSign∉name.bytes) :
    ∃ bodies', Dropped b s bodies name bodies' := by
  obtain ⟨bodies',hc,ha⟩ := h.accounted.clear name
  obtain ⟨htidy,hsub,hkeys,hbind⟩ := hc.live_spec hname h.tidy h.named
  have hnamed : ∀ body∈live bodies', body.head?≠some eqSign :=
    fun body hb => h.named body (hsub.subset hb)
  exact ⟨bodies',ha.kept htidy hnamed,hsub,hkeys,hbind⟩

theorem Kept.makeRoom (h : Kept b s bodies) (htotal : total ≤ s.envFree) :
    ∃ bodies', Kept b (s.makeRoom b total) bodies' ∧ live bodies'=live bodies ∧
      envoffBase+(s.makeRoom b total).envSize+total≤(s.makeRoom b total).envMaxsize ∧
      total≤(s.makeRoom b total).envFree := by
  obtain ⟨bodies',ha,hlive,hfit,hfree⟩ := h.accounted.makeRoom htotal
  refine ⟨bodies',ha.kept ?_ ?_,hlive,hfit,hfree⟩
  · rw [hlive]
    exact h.tidy
  · rw [hlive]
    exact h.named

theorem Kept.append (h : Kept b s bodies) (hname : Admissible name) (hne : name.bytes≠[])
    (hnew : ∀ body∈live bodies, keyOf body≠name.bytes) (val : CPtr)
    (hlt : entryTotal name.bytes val.bytes<255)
    (hfit : envoffBase+s.envSize+entryTotal name.bytes val.bytes ≤ s.envMaxsize)
    (hfree : entryTotal name.bytes val.bytes ≤ s.envFree) :
    Kept b (s.append name.bytes val.bytes) (bodies++[entryBody name.bytes val.bytes]) := by
  have hact := hname.active hne val.bytes
  have hlive : live (bodies++[entryBody name.bytes val.bytes]) =
      live bodies++[entryBody name.bytes val.bytes] := by
    rw [live_append,live_cons_of_active hact]
    rfl
  refine (h.accounted.append hne val.bytes hact hlt hfit hfree).kept ?_ ?_
  · rw [hlive]
    exact h.tidy.append hname.no_eq hnew val
  · rw [hlive]
    intro body hb
    rcases List.mem_append.mp hb with hb | hb
    · exact h.named body hb
    · rw [List.mem_singleton.mp hb]
      exact hname.head_ne_eq hne _

theorem Kept.setenv (h : Kept b s bodies) (hname : Admissible name) (val : CPtr) :
    (∃ e, s.setenv b (some name) val true=(s,.error e)) ∨
    ∃ bodies', Kept b (s.setenv b (some name) val true).1 bodies' ∧
      (s.setenv b (some name) val true).2 = .ok () ∧
      (∀ body∈live bodies', body∈live bodies ∨ body=entryBody name.bytes val.bytes) ∧
      bindings (live bodies')=Function.update (bindings (live bodies)) name
        (some (val.getD CString.empty)) := by
  rcases setenv_cases b h.state name val true with he | ⟨hf,-⟩ | ⟨hne,hlt,hle,heq⟩
  · exact Or.inl he
  · cases hf
  · right
    obtain ⟨bodies₁,hd⟩ := h.clear hname.no_eq
    have hnew := hd.new
    have hbind := hd.unbound
    have hsub := hd.sub
    obtain ⟨bodies₂,hk₂,hlive,hfit,hfree⟩ := hd.kept.makeRoom hle
    rw [if_neg (by omega)] at heq
    rw [←hlive] at hnew hbind hsub
    have hlast : live (bodies₂++[entryBody name.bytes val.bytes]) =
        live bodies₂++[entryBody name.bytes val.bytes] := by
      rw [live_append,live_cons_of_active (hname.active hne _)]
      rfl
    rw [heq]
    refine ⟨bodies₂++[entryBody name.bytes val.bytes],
      hk₂.append hname hne hnew val hlt hfit hfree,rfl,?_,?_⟩
    · rw [hlast]
      intro body hb
      rcases List.mem_append.mp hb with hb | hb
      · exact Or.inl (hsub.subset hb)
      · exact Or.inr (List.mem_singleton.mp hb)
    · rw [hlast,bindings_append hname.no_eq hnew,hbind,Function.update_idem]

def Store.part (s : Store) : ℕ × ℕ := (s.envOffs,s.envMaxsize)

theorem Kept.setenv_part (h : Kept b s bodies) (hname : eqSign∉name.bytes) (val : CPtr) :
    (s.setenv b (some name) val true).1.part=s.part := by
  rcases setenv_cases b h.state name val true with ⟨e,he⟩ | ⟨hf,-⟩ | ⟨hne,hlt,hle,heq⟩
  · rw [he]
  · cases hf
  · obtain ⟨bodies₁,hd⟩ := h.clear hname
    have hclear : (s.clear (some name)).part=s.part := by simp [Store.part]
    have hroom : ((s.clear (some name)).makeRoom b
        (entryTotal name.bytes val.bytes)).part=s.part := by
      rcases makeRoom_cases b (s.clear (some name)) (entryTotal name.bytes val.bytes) with
        ⟨heq,-⟩ | heq
      · rw [heq,hclear]
      · rw [heq,←hclear,Store.part,compress_envOffs hd.kept.layout hd.kept.erasable,
          compress_envMaxsize hd.kept.layout hd.kept.erasable]
        rfl
    rw [heq]
    dsimp only
    split
    · exact hroom
    · rw [append_eq _ hne]
      exact hroom

def Related (b : Board) (P : List UInt8 → Prop) (part : ℕ × ℕ) (s : Store) (m : EnvMap) : Prop :=
  ∃ bodies, Kept b s bodies ∧ s.part=part ∧ (∀ body∈live bodies, P (keyOf body)) ∧
    bindings (live bodies)=m

theorem exec_related {part : ℕ × ℕ} {m : EnvMap} {op : EnvOp} (h : Related b P part s m)
    (hop : Admissible op.name ∧ P op.name.bytes) :
    Related b P part ((envStore b).exec s op).1 (m.update op ((envStore b).exec s op).2) := by
  obtain ⟨bodies,hk,rfl,hP,rfl⟩ := h
  cases op with
  | setenv name val =>
    have hname : Admissible name := hop.1
    have hpart := hk.setenv_part hname.no_eq val
    change Related b P s.part (s.setenv b (some name) val true).1
      (EnvMap.update _ _ (s.setenv b (some name) val true).2)
    rcases hk.setenv hname val with ⟨e,heq⟩ | ⟨bodies',hk',hok,hmem,hbind⟩
    · rw [heq]
      exact ⟨bodies,hk,rfl,hP,rfl⟩
    · rw [hok]
      refine ⟨bodies',hk',hpart,fun body hb => ?_,hbind⟩
      rcases hmem body hb with hb | rfl
      · exact hP body hb
      · rw [keyOf_entryBody hname.no_eq]
        exact hop.2
  | unsetenv name =>
    change Related b P s.part (s.unsetenv b (some name)) _
    rw [unsetenv_eq b hk.state]
    obtain ⟨bodies',hd⟩ := hk.clear hop.1.no_eq
    exact ⟨bodies',hd.kept,by simp [Store.part],fun body hb => hP body (hd.sub.subset hb),
      hd.unbound⟩

theorem Related.represents {part : ℕ × ℕ} {m : EnvMap} (h : Related b P part s m) :
    (envStore b).Represents s m := by
  obtain ⟨bodies,hk,-,-,rfl⟩ := h
  exact hk.represents

theorem run_related (h : Erasable b s) {ops : List EnvOp}
    (hops : ∀ op∈ops, Admissible op.name ∧ P op.name.bytes) :
    Related b P s.part ((envStore b).run (s.reset b) ops).1
      (EnvStore.mapAfter (fun _ => none) ops ((envStore b).run (s.reset b) ops).2) :=
  (envStore b).run_related (fun _ _ _ hr hop => exec_related hr hop)
    ⟨[],reset_kept h,by simp [Store.part,h],by simp [live],rfl⟩ hops

/-- After every sequence of updates the store reports the map that the return values describe. -/
theorem run_represents {b : Board} {s : Store} (h : Erasable b s) {ops : List EnvOp}
    (hops : ∀ op∈ops, Admissible op.name) :
    (envStore b).Represents ((envStore b).run (s.reset b) ops).1
      (EnvStore.mapAfter (fun _ => none) ops ((envStore b).run (s.reset b) ops).2) :=
  (run_related (P := fun _ => True) h fun op hop => ⟨hops op hop,trivial⟩).represents

def smallBoard : Board where
  flashenvOpen := true
  flashParts := some [⟨.boot,0,256⟩,⟨.env,256,128⟩]
  forceReset := false
  sector offs := (offs/128*128,128)

def smallStore : Store where
  flash _ := 0xff
  envState := .unknown
  envInitState := .unknown
  envOffs := 256
  envMaxsize := 128
  envSize := 0
  envFree := 0
  writes := []
  compressions := 0

theorem smallStore_erasable : Erasable smallBoard smallStore :=
  ⟨.cons (show smallBoard.sector 256=(256,128) by decide) (by decide) (.nil _),by decide⟩

def smallOps : List EnvOp :=
  [.setenv (cstring [0x66,0x6f,0x6f]) (some (cstring (List.replicate 60 0x31))),
    .setenv (cstring [0x66,0x6f,0x6f]) (some (cstring (List.replicate 60 0x32))),
    .setenv (cstring [0x62]) none,.unsetenv (cstring [0x62])]

theorem smallOps_admissible : ∀ op∈smallOps, Admissible op.name := by decide +kernel

theorem run_represents_smallOps :
    ((envStore smallBoard).run (smallStore.reset smallBoard) smallOps).1.compressions=1 ∧
      (envStore smallBoard).Represents
        ((envStore smallBoard).run (smallStore.reset smallBoard) smallOps).1
        (EnvStore.mapAfter (fun _ => none) smallOps
          ((envStore smallBoard).run (smallStore.reset smallBoard) smallOps).2) :=
  ⟨by decide +kernel,run_represents smallStore_erasable smallOps_admissible⟩

end Pmon.FlashEnv
