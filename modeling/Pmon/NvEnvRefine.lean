import Pmon.NvEnvBoot

/-!
# The battery-backed environment as a finite map

Under plain names the entries are tidy, so each update path is an update of the map at one name.
-/

namespace Pmon.NvEnv
open ByteStore PackedRecords EnvEntry KeyedList Function
variable {b : Board} {s : Store} {bodies : List (List UInt8)} {name : CString}

structure Kept (b : Board) (s : Store) (bodies : List (List UInt8)) : Prop where
  layout : Layout s bodies
  part : s.part=b.part
  tidy : Tidy bodies
  named : ∀ body∈bodies, keyOf body≠[]
  printable : ∀ body∈bodies, PrintableName body

theorem Kept.small (h : Kept b s bodies) : s.envMaxsize≤0xffff := by
  have hsmall := b.part_small
  rw [←h.part] at hsmall
  exact hsmall

theorem Kept.ne_nil (h : Kept b s bodies) : ∀ body∈bodies, body≠[] := by
  rintro body hb rfl
  exact h.named [] hb rfl

theorem selects_iff {name body : List UInt8} (hname : eqSign∉name) (hbody : keyOf body≠[]) :
    Selects name body ↔ keyOf body=name := by
  rw [Selects,matches_iff_keyOf hname]
  refine and_iff_right_of_imp fun _ hhead => hbody ?_
  cases body with
  | nil => rfl
  | cons c body =>
    have hc : c=eqSign := by simpa using hhead
    simp [keyOf,hc]

theorem entryFor_eq_lookup (hnamed : ∀ body∈bodies, keyOf body≠[]) {name : List UInt8}
    (hname : eqSign∉name) : entryFor bodies name=lookup keyOf bodies name := by
  rw [entryFor,lookup]
  refine List.find?_congr fun body hb => ?_
  simp [selects_iff hname (hnamed body hb)]

theorem Kept.represents (h : Kept b s bodies) : (envStore b).Represents s (bindings bodies) :=
  h.tidy.represents (fun n hn => by
    rw [←entryFor_eq_lookup h.named hn]
    exact getenv_eq b h.layout.image h.layout.state (Or.inr h.ne_nil))
    (mapenv_eq b h.layout.image h.layout.state)

theorem Kept.unselected (h : Kept b s bodies) (hname : eqSign∉name.bytes)
    (hno : ∀ body∈bodies, ¬ Selects name.bytes body) :
    ∀ body∈bodies, keyOf body≠name.bytes := fun body hb hk =>
  hno body hb ((selects_iff hname (h.named body hb)).mpr hk)

theorem SetenvStep.tidy {val : CPtr} {bodies' : List (List UInt8)} {r : Store × Except Errno Unit}
    (hstep : SetenvStep s name.bytes val.bytes true bodies r bodies') (h : Kept b s bodies)
    (hname : eqSign∉name.bytes) :
    Tidy bodies' ∧ bindings bodies'=EnvMap.update (bindings bodies) (.setenv name val) r.2 := by
  cases hstep with
  | refused e => exact ⟨h.tidy,rfl⟩
  | kept hkeep => cases hkeep
  | @same pre post hval hsel =>
    -- the entry is already what was asked for
    have hk : keyOf name.bytes=name.bytes := by
      have hbody := keyOf_entryBody hname []
      exact hbody
    have hbound : bindings (pre++name.bytes::post) name=some (val.getD CString.empty) := by
      have hl := (lookup_eq_some h.tidy.distinct).mpr ⟨by simp,hk⟩
      have hv := cstring_valOf_entryBody hname val
      rw [hval] at hv
      rw [bindings,hl]
      exact congrArg some hv
    refine ⟨h.tidy,?_⟩
    change _=Function.update _ name _
    rw [←hbound,update_eq_self]
  | @replaced pre post old hne hval hsel hlen =>
    have hk := (selects_iff hname (h.named _ (by simp))).mp hsel
    exact ⟨h.tidy.replace hname hk val,bindings_replace h.tidy.distinct hname hk val⟩
  | appended hne hno hlt hfit =>
    have hnew := h.unselected hname hno
    exact ⟨h.tidy.append hname hnew val,bindings_append hname hnew val⟩
  | @moved pre post body hne hsel hpre hlt hfit =>
    have hk := (selects_iff hname (h.named _ (by simp))).mp hsel
    have hnew : ∀ q∈pre++post, keyOf q≠name.bytes := fun q hq => by
      rw [←hk]
      exact h.tidy.distinct.ne_of_mem hq
    refine ⟨h.tidy.remove.append hname hnew val,?_⟩
    rw [bindings_append hname hnew,bindings_remove h.tidy.distinct hk,update_idem]
    rfl

theorem Kept.setenv (h : Kept b s bodies) (hname : PlainName name) (val : CPtr) :
    ∃ bodies', Kept b (s.setenv b (some name) val true).1 bodies' ∧
      bindings bodies'=EnvMap.update (bindings bodies) (.setenv name val)
        (s.setenv b (some name) val true).2 := by
  obtain ⟨bodies',hstep⟩ := setenv_step b h.layout.image h.layout.state h.small name val true
  have htidy := hstep.tidy h hname.no_eq
  have hpart := hstep.part_eq
  have hmem := hstep.mem
  refine ⟨bodies',⟨hstep.layout h.layout h.small,?_,htidy.1,?_,?_⟩,htidy.2⟩
  · rw [Store.part,hpart.1,hpart.2]
    exact h.part
  · intro body hb
    rcases hmem body hb with hb | ⟨hne,rfl⟩
    · exact h.named body hb
    · rw [keyOf_entryBody hname.no_eq]
      exact hne
  · intro body hb
    rcases hmem body hb with hb | ⟨-,rfl⟩
    · exact h.printable body hb
    · rw [PrintableName,keyOf_entryBody hname.no_eq]
      exact hname.printable

theorem Kept.unsetenv (h : Kept b s bodies) (hname : eqSign∉name.bytes) :
    ∃ bodies', Kept b (s.unsetenv b (some name)) bodies' ∧
      bindings bodies'=Function.update (bindings bodies) name none := by
  have hinv : s.invalid b=(s,.ok) := by simp [Store.invalid,h.layout.state]
  have hun : s.unsetenv b (some name)=s.delete (some name) := by
    rw [Store.unsetenv,hinv]
    rfl
  rw [hun]
  have hnil : name.bytes≠[] ∨ ∀ body∈bodies, body≠[] := Or.inr h.ne_nil
  rcases delete_cases h.layout.image hnil with
    ⟨-,heq,hno⟩ | ⟨pre,body,post,rfl,hsel,-,-,heq⟩
  · have hnew := h.unselected hname hno
    have hnone : bindings bodies name=none := by
      rw [bindings,lookup_eq_none.mpr hnew]
      rfl
    rw [heq]
    exact ⟨bodies,h,by rw [←hnone,update_eq_self]⟩
  · have hk := (selects_iff hname (h.named _ (by simp))).mp hsel
    have hsub : ∀ q∈pre++post, q∈pre++body::post := by
      intro q hq
      rcases List.mem_append.mp hq with hq | hq <;> simp [hq]
    rw [heq]
    refine ⟨pre++post,⟨update_layout (h.layout.image.delete h.small) _,?_,h.tidy.remove,
      fun q hq => h.named q (hsub q hq),fun q hq => h.printable q (hsub q hq)⟩,
      bindings_remove h.tidy.distinct hk⟩
    rw [Store.part,update_envOffs,update_envMaxsize]
    exact h.part

def Related (b : Board) (s : Store) (m : EnvMap) : Prop :=
  ∃ bodies, Kept b s bodies ∧ bindings bodies=m

theorem exec_related {m : EnvMap} {op : EnvOp} (h : Related b s m) (hop : PlainName op.name) :
    Related b ((envStore b).exec s op).1 (m.update op ((envStore b).exec s op).2) := by
  obtain ⟨bodies,hk,rfl⟩ := h
  cases op with
  | setenv name val => exact hk.setenv hop val
  | unsetenv name => exact hk.unsetenv hop.no_eq

theorem reset_related (h : s.part=b.part) : Related b s.reset fun _ => none := by
  have hb := reset_booted h
  exact ⟨[],⟨hb.layout,hb.part,⟨List.nodup_nil,by simp⟩,by simp,by simp⟩,rfl⟩

theorem Related.reboot (hforce : b.forceReset=false) {m : EnvMap} (h : Related b s m) :
    (s.reboot.invalid b).2 = .ok ∧ (s.reboot.invalid b).1.envInitState = .ok ∧
      (s.reboot.invalid b).1.nvram=s.nvram ∧ Related b (s.reboot.invalid b).1 m := by
  obtain ⟨bodies,hk,hm⟩ := h
  have hl := hk.layout
  rw [reboot_invalid hforce hl hk.part hk.printable]
  have hsum : s.accepted.calcsum=s.calcsum := calcsum_congr rfl fun _ _ => rfl
  have hacc : Kept b s.accepted bodies :=
    ⟨⟨hl.image,hsum.trans hl.csum,hl.stateByte,rfl⟩,hk.part,hk.tidy,hk.named,hk.printable⟩
  exact ⟨rfl,rfl,rfl,bodies,hacc,hm⟩

theorem Related.represents {m : EnvMap} (h : Related b s m) : (envStore b).Represents s m := by
  obtain ⟨bodies,hk,rfl⟩ := h
  exact hk.represents

/-- After every sequence of updates the store reports the map that the return values describe; a
reboot writes nothing and reports the same map. -/
theorem run_represents_reboot {b : Board} (hforce : b.forceReset=false) {s : Store}
    (hpart : s.part=b.part) {ops : List EnvOp} (hops : ∀ op∈ops, PlainName op.name) :
    let t := ((envStore b).run s.reset ops).1
    let m := EnvStore.mapAfter (fun _ => none) ops ((envStore b).run s.reset ops).2
    (envStore b).Represents t m ∧ (t.reboot.invalid b).2 = .ok ∧
      (t.reboot.invalid b).1.envInitState = .ok ∧ (t.reboot.invalid b).1.nvram=t.nvram ∧
      (envStore b).Represents (t.reboot.invalid b).1 m := by
  intro t m
  have hrel :=
    (envStore b).run_related (fun _ _ _ hr hop => exec_related hr hop) (reset_related hpart) hops
  have hboot := hrel.reboot hforce
  exact ⟨hrel.represents,hboot.1,hboot.2.1,hboot.2.2.1,hboot.2.2.2.represents⟩

def blankStore : Store where
  nvram _ := 0xff
  envState := .unknown
  envInitState := .unknown
  envOffs := 16
  envMaxsize := 112
  writes := []

def pathOps : List EnvOp := [.setenv (cstring [0x66,0x6f,0x6f]) (some (cstring [0x31])),
    .setenv (cstring [0x62]) none,
    .setenv (cstring [0x66,0x6f,0x6f]) (some (cstring [0x32])),
    .setenv (cstring [0x66,0x6f,0x6f]) (some (cstring [0x33,0x33])),
    .unsetenv (cstring [0x62])]

theorem pathOps_plain : ∀ op∈pathOps, PlainName op.name := by decide +kernel

theorem run_represents_reboot_pathOps : (envStore (p6032 false)).Represents
      ((((envStore (p6032 false)).run blankStore.reset pathOps).1.reboot.invalid (p6032 false)).1)
      (EnvStore.mapAfter (fun _ => none) pathOps
        ((envStore (p6032 false)).run blankStore.reset pathOps).2) :=
  (run_represents_reboot (b := p6032 false) rfl (s := blankStore) (by decide)
    pathOps_plain).2.2.2.2

end Pmon.NvEnv
