import Pmon.NvEnvRefine

/-!
# Power failure in the battery-backed environment

While later entries are moved the region is announced as unrecoverable. Otherwise the bytes that
count change at one name only.
-/

namespace Pmon.NvEnv
open ByteStore PackedRecords EnvEntry KeyedList
variable {s : Store} {body name : List UInt8} {bodies : List (List UInt8)} {maxsize : ℕ}
  {m : ℕ → UInt8}

structure Valid (b : Board) (s : Store) : Prop where
  state : s.envState = .ok
  part : s.part=b.part
  magic : s.getshort envoffMagic=envMagic
  csum : s.calcsum=s.getshort envoffCsum
  sound : s.structcheck=true

theorem structLoop_sound (s : Store) {e top : ℕ} (fuel : ℕ) (hle : e≤top)
    (hfuel : top-e≤fuel) (h : s.structLoop top fuel e=true) :
    ∃ bodies, Holds s.getbyte e (packed bodies) ∧ e+(packed bodies).length=top ∧
      ∀ body∈bodies, body.length+1<256 := by
  induction fuel generalizing e with
  | zero => exact ⟨[],trivial,by simp; omega,by simp⟩
  | succ fuel ih =>
    rw [Store.structLoop] at h
    by_cases hlt : e<top
    · rw [if_pos hlt] at h
      dsimp only at h
      split at h
      · cases h
      · next hsize =>
        split at h
        · have hbyte := (s.getbyte e).toNat_lt
          obtain ⟨bodies,hb,htop,hbounds⟩ := ih (by omega) (by omega) h
          have hlen : (readCells s.getbyte (e+1) ((s.getbyte e).toNat-1)).length+1 =
              (s.getbyte e).toNat := by
            rw [length_readCells]
            omega
          refine ⟨readCells s.getbyte (e+1) ((s.getbyte e).toNat-1)::bodies,?_,?_,?_⟩
          · rw [holds_packed_cons,hlen]
            refine ⟨?_,holds_readCells _ _ _,hb⟩
            simp
          · rw [length_packed_cons,hlen]
            omega
          · intro q hq
            rcases List.mem_cons.mp hq with rfl | hq
            · omega
            · exact hbounds q hq
        · cases h
    · exact ⟨[],trivial,by simp; omega,by simp⟩

variable {b : Board} {bodies' post pre : List (List UInt8)} {ws : List (ℕ × UInt8)} {t : Store}

theorem Valid.image (h : Valid b s) :
    ∃ bodies, Image s.getbyte s.envMaxsize bodies := by
  have hsound := h.sound
  have hroom := b.part_room
  rw [←h.part] at hroom
  simp only [Store.part] at hroom
  rw [Store.structcheck] at hsound
  split at hsound
  · cases hsound
  · next hsize =>
    obtain ⟨bodies,hb,htop,hbounds⟩ :=
      structLoop_sound s _ (by omega) (by omega) hsound
    have hword : word s.getbyte envoffSize=(packed bodies).length := by
      rw [←getshort_eq]
      omega
    exact ⟨bodies,h.magic,hword,hb,hbounds,by omega⟩

def SameOthers (name : List UInt8) (bodies bodies' : List (List UInt8)) : Prop :=
  ∀ n, n≠name → lookup keyOf bodies' n=lookup keyOf bodies n

theorem SameOthers.refl (name : List UInt8) (bodies : List (List UInt8)) :
    SameOthers name bodies bodies := fun _ _ => rfl

theorem SameOthers.trans {xs ys zs : List (List UInt8)} (h : SameOthers name xs ys)
    (h' : SameOthers name ys zs) : SameOthers name xs zs :=
  fun n hn => (h' n hn).trans (h n hn)

theorem sameOthers_remove (h : keyOf body=name) :
    SameOthers name (pre++body::post) (pre++post) := fun n hn =>
  (lookup_middle_of_ne (by rw [h]; exact Ne.symm hn)).symm

theorem sameOthers_replace {body' : List UInt8} (h : keyOf body=name) (h' : keyOf body'=name) :
    SameOthers name (pre++body::post) (pre++body'::post) := fun n hn => by
  rw [lookup_middle_of_ne (by rw [h']; exact Ne.symm hn),
    lookup_middle_of_ne (by rw [h]; exact Ne.symm hn)]

theorem sameOthers_append (h : keyOf body=name) :
    SameOthers name bodies (bodies++[body]) := fun n hn => by
  rw [lookup_middle_of_ne (by rw [h]; exact Ne.symm hn),List.append_nil]

theorem entryFor_eq (hne : name≠[]) (hname : eqSign∉name) (bodies : List (List UInt8)) :
    entryFor bodies name=lookup keyOf bodies name := by
  rw [entryFor,lookup]
  refine List.find?_congr fun body _ => ?_
  have hiff : Selects name body ↔ keyOf body=name := by
    by_cases hk : keyOf body=[]
    · have hno : keyOf body≠name := by
        rw [hk]
        exact Ne.symm hne
      refine iff_of_false (fun hsel => hno ?_) hno
      exact (matches_iff_keyOf hname body).mp hsel.2
    · exact selects_iff hname hk
  simp [hiff]

def Recoverable (name : List UInt8) (maxsize : ℕ) (bodies : List (List UInt8))
    (m : ℕ → UInt8) : Prop :=
  (∃ bodies', Image m maxsize bodies' ∧ SameOthers name bodies bodies') ∨
    m envoffState=EnvState.toByte .unrecoverable

theorem recoverable_update (hws : ∀ w∈ws, w.1≠envoffState)
    (h : ∀ j, ∃ bodies', Image (applyWrites (ws.take j) m) maxsize bodies' ∧
      SameOthers name bodies bodies') (sum k : ℕ) :
    Recoverable name maxsize bodies (applyWrites
      (((envoffState,EnvState.toByte .recoverable)::(ws++sumWrites sum)).take k) m) := by
  rcases update_take m .recoverable ws sum k hws with heq | ⟨j,hsame,-⟩ | hsame
  · rw [heq]
    exact Or.inl (h 0)
  · obtain ⟨bodies',himg,hoth⟩ := h j
    exact Or.inl ⟨bodies',himg.of_sameContent hsame,hoth⟩
  · obtain ⟨bodies',himg,hoth⟩ := h ws.length
    rw [List.take_length] at himg
    exact Or.inl ⟨bodies',himg.of_sameContent hsame,hoth⟩

theorem unrecoverable_update (hws : ∀ w∈ws, w.1≠envoffState) (h : Image m maxsize bodies)
    (h' : Image (applyWrites ws m) maxsize bodies') (hoth : SameOthers name bodies bodies')
    (sum k : ℕ) :
    Recoverable name maxsize bodies (applyWrites
      (((envoffState,EnvState.toByte .unrecoverable)::(ws++sumWrites sum)).take k) m) := by
  rcases update_take m .unrecoverable ws sum k hws with heq | ⟨j,-,hstate⟩ | hsame
  · rw [heq]
    exact Or.inl ⟨bodies,h,SameOthers.refl _ _⟩
  · exact Or.inr hstate
  · exact Or.inl ⟨bodies',h'.of_sameContent hsame,hoth⟩

theorem word_of_low {offs old new : ℕ} (h : word m offs=old) (hold : old<256)
    (hnew : new<256) :
    word (Function.update m offs (UInt8.ofNat new)) offs=new := by
  have hhi : (m (offs+1)).toNat=0 := by
    rw [word] at h
    omega
  rw [word,Function.update_of_ne (by omega),Function.update_self,hhi,toNat_size hnew]
  omega

theorem Image.take_appendWrites (h : Image m maxsize bodies)
    (hfit : envoffBase+(packed bodies).length+(body.length+1) ≤ maxsize)
    (hsmall : maxsize≤envoffBase+0xff) (j : ℕ) :
    Image (applyWrites ((NvEnv.appendWrites bodies body).take j) m) maxsize bodies ∨
      Image (applyWrites ((NvEnv.appendWrites bodies body).take j) m) maxsize
        (bodies++[body]) := by
  have hlenw : (writesAt (envoffBase+(packed bodies).length) (record body)).length =
      body.length+1 := by rw [length_writesAt,length_record]
  rw [NvEnv.appendWrites,List.take_append,hlenw,applyWrites_append]
  by_cases hj : j≤body.length+1
  · -- the size field is untouched
    left
    rw [show j-(body.length+1)=0 by omega,List.take_zero,applyWrites_nil,take_writesAt]
    exact h.behind fun q hq => applyWrites_writesAt_of_outside _ _ _ (Or.inl hq)
  · right
    have hall : (writesAt (envoffBase+(packed bodies).length) (record body)).take j =
        writesAt (envoffBase+(packed bodies).length) (record body) :=
      List.take_of_length_le (by omega)
    rw [hall]
    have hrec := holds_applyWrites_writesAt (envoffBase+(packed bodies).length) (record body) m
    have hfront : ∀ q, q<envoffBase+(packed bodies).length →
        applyWrites (writesAt (envoffBase+(packed bodies).length) (record body)) m q=m q :=
      fun q hq => applyWrites_writesAt_of_outside _ _ _ (Or.inl hq)
    set m₁ := applyWrites (writesAt (envoffBase+(packed bodies).length) (record body)) m
    have hsize : word m₁ envoffSize=(packed bodies).length := by
      rw [←h.size]
      refine word_congr (hfront _ ?_) (hfront _ ?_)
      · simp only [envoffBase,envoffSize]
        omega
      · simp only [envoffBase,envoffSize]
        omega
    have hbase : ∀ q, envoffBase≤q → q≠envoffSize ∧ q≠envoffSize+1 := by
      intro q hq
      simp only [envoffBase,envoffSize] at hq ⊢
      omega
    obtain ⟨i,hi⟩ : ∃ i, j-(body.length+1)=i+1 := ⟨j-(body.length+1)-1,by omega⟩
    rw [hi]
    cases i with
    | zero =>
      -- the low byte is written, the high byte is still that of the old size
      have htake : (shortWrites envoffSize ((packed bodies).length+(body.length+1))).take 1 =
          [(envoffSize, UInt8.ofNat ((packed bodies).length+(body.length+1)))] := rfl
      rw [htake,applyWrites_cons,applyWrites_nil]
      refine h.append (by omega) hfit (fun q hq h0 _ => ?_) ?_ ?_
      · rw [Function.update_of_ne h0]
        exact hfront q hq
      · refine hrec.update _ (Or.inl ?_)
        simp only [envoffBase,envoffSize]
        omega
      · exact word_of_low hsize (by omega) (by omega)
    | succ i =>
      have hshort : (shortWrites envoffSize ((packed bodies).length+(body.length+1))).take
          (i+1+1)=shortWrites envoffSize ((packed bodies).length+(body.length+1)) :=
        List.take_of_length_le (by simp [shortWrites])
      rw [hshort]
      refine h.append (by omega) hfit (fun q hq h0 h1 => ?_) ?_ (word_shortWrites _ _ (by omega))
      · rw [applyWrites_shortWrites_of_ne _ _ h0 h1]
        exact hfront q hq
      · refine holds_congr (fun q hq _ => ?_) hrec
        have hne := hbase q (by omega)
        exact applyWrites_shortWrites_of_ne _ _ hne.1 hne.2

theorem deleteWrites_ne_state (pre post : List (List UInt8)) :
    ∀ w∈deleteWrites pre post, w.1≠envoffState := by
  intro w hw
  rcases List.mem_append.mp hw with hw | hw
  · have hrange := mem_writesAt hw
    simp only [envoffBase,envoffState] at hrange ⊢
    omega
  · simp only [shortWrites,List.mem_cons,List.not_mem_nil,or_false] at hw
    rcases hw with rfl | rfl <;> simp [envoffSize,envoffState]

theorem appendWrites_ne_state (bodies : List (List UInt8)) (body : List UInt8) :
    ∀ w∈appendWrites bodies body, w.1≠envoffState := by
  intro w hw
  rcases List.mem_append.mp hw with hw | hw
  · have hrange := mem_writesAt hw
    simp only [envoffBase,envoffState] at hrange ⊢
    omega
  · simp only [shortWrites,List.mem_cons,List.not_mem_nil,or_false] at hw
    rcases hw with rfl | rfl <;> simp [envoffSize,envoffState]

theorem replaceWrites_ne_state (pre : List (List UInt8)) (name val : List UInt8) :
    ∀ w∈replaceWrites pre name val, w.1≠envoffState := by
  intro w hw
  have hrange := mem_writesAt hw
  simp only [envoffBase,envoffState] at hrange ⊢
  omega

def Store.powerFail (s s' : Store) (k : ℕ) : Store :=
  {s with nvram := applyWrites ((s'.writes.drop s.writes.length).take k) s.nvram}

theorem getbyte_powerFail {s' : Store} (h : s'.writes=s.writes++shiftWrites s.envOffs ws)
    (k : ℕ) :
    (s.powerFail s' k).getbyte=applyWrites (ws.take k) s.getbyte := by
  have hfail : s.powerFail s' k =
      {s with nvram := applyWrites (shiftWrites s.envOffs (ws.take k)) s.nvram} := by
    rw [Store.powerFail,h,List.drop_left,take_shiftWrites]
  rw [hfail]
  exact applyWrites_shiftWrites s.envOffs _ s.nvram

theorem keyOf_of_selects (hname : eqSign∉name) (h : Selects name body) :
    keyOf body=name := (matches_iff_keyOf hname body).mp h.2

theorem keyOf_name_append (hname : eqSign∉name) (rest : List UInt8) :
    keyOf (name++eqSign::rest)=name := by
  refine (matches_iff_keyOf hname _).mp ((matches_iff _ _).mpr (Or.inr ⟨rest,rfl⟩))

theorem recoverable_append {val : List UInt8} (hname : eqSign∉name) {bodies₁ : List (List UInt8)}
    (h : Image m maxsize bodies₁) (hoth : SameOthers name bodies bodies₁)
    (hfit : envoffBase+(packed bodies₁).length+((entryBody name val).length+1) ≤ maxsize)
    (hsmall : maxsize≤envoffBase+0xff) (sum k : ℕ) :
    Recoverable name maxsize bodies (applyWrites
      (((envoffState,EnvState.toByte .recoverable) ::
        (appendWrites bodies₁ (entryBody name val)++sumWrites sum)).take k) m) := by
  have hkey := keyOf_entryBody hname val
  refine recoverable_update (appendWrites_ne_state _ _) (fun j => ?_) sum k
  rcases h.take_appendWrites hfit hsmall j with himg | himg
  · exact ⟨bodies₁,himg,hoth⟩
  · exact ⟨_,himg,hoth.trans (sameOthers_append hkey)⟩

theorem recoverable_delete (hname : eqSign∉name) (h : Image m maxsize (pre++body::post))
    (hsel : Selects name body) (hmax : maxsize≤0xffff) (sum k : ℕ) :
    Recoverable name maxsize (pre++body::post) (applyWrites
      (((envoffState,EnvState.toByte .unrecoverable) ::
        (deleteWrites pre post++sumWrites sum)).take k) m) :=
  unrecoverable_update (deleteWrites_ne_state _ _) h (h.delete hmax)
    (sameOthers_remove (keyOf_of_selects hname hsel)) sum k

theorem SetenvStep.powerFail {val : List UInt8} {overwrite : Bool} {r : Store × Except Errno Unit}
    (hstep : SetenvStep s name val overwrite bodies r bodies')
    (h : Image s.getbyte s.envMaxsize bodies) (hname : eqSign∉name)
    (hsmall : s.envMaxsize≤envoffBase+0xff) (k : ℕ) :
    Recoverable name s.envMaxsize bodies (s.powerFail r.1 k).getbyte := by
  have hmax : s.envMaxsize≤0xffff := hsmall.trans (by decide)
  have hnothing : Recoverable name s.envMaxsize bodies (s.powerFail s k).getbyte := by
    have hlog : s.writes=s.writes++shiftWrites s.envOffs [] := by simp
    rw [getbyte_powerFail hlog,List.take_nil]
    exact Or.inl ⟨bodies,h,SameOthers.refl _ _⟩
  cases hstep with
  | refused e => exact hnothing
  | kept hkeep => exact hnothing
  | same hval hsel => exact hnothing
  | @replaced pre post old hne hval hsel hlen =>
    obtain ⟨sum,hlog,-⟩ := update_writes s .recoverable (replaceWrites pre name val)
    rw [getbyte_powerFail hlog]
    refine recoverable_update (replaceWrites_ne_state _ _ _) (fun j => ?_) sum k
    exact ⟨_,h.take_replaceWrites hlen j,
      sameOthers_replace (keyOf_name_append hname _) (keyOf_name_append hname _)⟩
  | appended hne hno hlt hfit =>
    obtain ⟨sum,hlog,-⟩ := update_writes s .recoverable (appendWrites bodies (entryBody name val))
    rw [getbyte_powerFail hlog]
    exact recoverable_append hname h (SameOthers.refl _ _) hfit hsmall sum k
  | @moved pre post body hne hsel hpre hlt hfit =>
    set s₁ := s.update .unrecoverable (deleteWrites pre post) with hs₁
    obtain ⟨sum,hlog,hget⟩ := update_writes s .unrecoverable (deleteWrites pre post)
    obtain ⟨sum',hlog',-⟩ :=
      update_writes s₁ .recoverable (appendWrites (pre++post) (entryBody name val))
    have hoffs : s₁.envOffs=s.envOffs := update_envOffs _ _ _
    have hsize : s₁.envMaxsize=s.envMaxsize := update_envMaxsize _ _ _
    rw [hlog,hoffs,List.append_assoc,←shiftWrites_append] at hlog'
    rw [getbyte_powerFail hlog']
    set ws₁ := (envoffState,EnvState.toByte .unrecoverable) ::
      (deleteWrites pre post++sumWrites sum)
    rw [List.take_append,applyWrites_append]
    by_cases hk : k<ws₁.length
    · -- the splice is not complete
      rw [show k-ws₁.length=0 by omega,List.take_zero,applyWrites_nil]
      exact recoverable_delete hname h hsel hmax sum k
    · have hall : ws₁.take k=ws₁ := List.take_of_length_le (by omega)
      have himg := (update_layout (h.delete hmax) .unrecoverable).image
      rw [←hs₁,hsize] at himg
      rw [hall,←hget]
      exact recoverable_append hname himg (sameOthers_remove (keyOf_of_selects hname hsel)) hfit
        hsmall sum' _

theorem delete_powerFail (h : Image s.getbyte s.envMaxsize bodies) {name : CString}
    (hne : name.bytes≠[]) (hname : eqSign∉name.bytes) (hmax : s.envMaxsize≤0xffff) (k : ℕ) :
    Recoverable name.bytes s.envMaxsize bodies (s.powerFail (s.delete (some name)) k).getbyte := by
  rcases delete_cases h (Or.inl hne) with ⟨-,heq,-⟩ | ⟨pre,body,post,rfl,hsel,-,-,heq⟩
  · have hlog : s.writes=s.writes++shiftWrites s.envOffs [] := by simp
    rw [heq,getbyte_powerFail hlog,List.take_nil]
    exact Or.inl ⟨bodies,h,SameOthers.refl _ _⟩
  · obtain ⟨sum,hlog,-⟩ := update_writes s .unrecoverable (deleteWrites pre post)
    rw [heq,getbyte_powerFail hlog]
    exact recoverable_delete hname h hsel hmax sum k

def Emptied (b : Board) (t : Store) : Prop :=
  (t.mapenv b).2=[] ∧ ∀ n : CString, (t.getenv b (some n)).2 = .error .ENOENT

def OthersKept (b : Board) (s t : Store) (name : CString) : Prop :=
  ∀ n : CString, n.bytes≠[] → eqSign∉n.bytes → n≠name →
    (t.getenv b (some n)).2=(s.getenv b (some n)).2

theorem Booted.emptied (h : Booted b t []) : Emptied b t := by
  have hl := h.layout
  refine ⟨?_,fun n => ?_⟩
  · rw [mapenv_eq b hl.image hl.state]
    rfl
  · rw [getenv_eq b hl.image hl.state (Or.inr (by simp))]
    rfl

theorem Booted.othersKept {name : CString} (h : Booted b t bodies') (hs : s.envState = .ok)
    (himg : Image s.getbyte s.envMaxsize bodies) (hoth : SameOthers name.bytes bodies bodies') :
    OthersKept b s t name := by
  intro n hne hn hnn
  have hl := h.layout
  have hbytes : n.bytes≠name.bytes := fun he => hnn (CString.ext' he)
  rw [getenv_eq b hl.image hl.state (Or.inl hne),getenv_eq b himg hs (Or.inl hne),
    entryFor_eq hne hn,entryFor_eq hne hn,hoth n.bytes hbytes]

theorem boot_of_recoverable (hs : s.envState = .ok) (hpart : s.part=b.part)
    (htpart : t.part=b.part) (himg : Image s.getbyte s.envMaxsize bodies) {name : CString}
    (h : Recoverable name.bytes s.envMaxsize bodies t.getbyte) :
    Emptied b (t.reboot.invalid b).1 ∨ OthersKept b s (t.reboot.invalid b).1 name := by
  have hwindow : (fun q => t.reboot.nvram (b.part.1+q))=t.getbyte := by
    rw [←htpart]
    rfl
  have hsize : s.envMaxsize=b.part.2 := congrArg Prod.snd hpart
  rcases h with ⟨bodies',himg',hoth⟩ | hstate
  · rw [←hwindow,hsize] at himg'
    rcases boot_of_image b rfl himg' with hb | hb
    · exact Or.inr (hb.othersKept hs himg hoth)
    · exact Or.inl hb.emptied
  · rw [←hwindow] at hstate
    exact Or.inl (boot_of_unrecoverable b rfl hstate).emptied

/-- Let `_sbd_setenv` or `_sbd_unsetenv` be cut off after `k` writes. After the next boot the
environment is empty, or every other name reads as before. -/
theorem call_powerFail (forceReset : Bool) {s : Store} (h : Valid (p6032 forceReset) s)
    {name : CString} (hne : name.bytes≠[]) (hname : PlainName name) (k : ℕ) :
    (∀ (val : CPtr) (overwrite : Bool),
      let s' := (s.setenv (p6032 forceReset) (some name) val overwrite).1
      let t := ((s.powerFail s' k).reboot.invalid (p6032 forceReset)).1
      Emptied (p6032 forceReset) t ∨ OthersKept (p6032 forceReset) s t name) ∧
    (let s' := s.unsetenv (p6032 forceReset) (some name)
      let t := ((s.powerFail s' k).reboot.invalid (p6032 forceReset)).1
      Emptied (p6032 forceReset) t ∨ OthersKept (p6032 forceReset) s t name) := by
  obtain ⟨bodies,himg⟩ := h.image
  have hsmall : s.envMaxsize≤envoffBase+0xff := by
    have hboard : (p6032 forceReset).part.2=112 := by cases forceReset <;> decide
    have hsize : s.envMaxsize=(p6032 forceReset).part.2 := congrArg Prod.snd h.part
    rw [hsize,hboard]
    decide
  have hmax : s.envMaxsize≤0xffff := hsmall.trans (by decide)
  have hpart : ∀ s' : Store, (s.powerFail s' k).part=(p6032 forceReset).part := fun _ => h.part
  refine ⟨fun val overwrite => ?_,?_⟩
  · obtain ⟨bodies',hstep⟩ :=
      setenv_step (p6032 forceReset) himg h.state hmax name val overwrite
    exact boot_of_recoverable h.state h.part (hpart _) himg
      (hstep.powerFail himg hname.no_eq hsmall k)
  · have hinv : s.invalid (p6032 forceReset)=(s,.ok) := by simp [Store.invalid,h.state]
    have hun : s.unsetenv (p6032 forceReset) (some name)=s.delete (some name) := by
      rw [Store.unsetenv,hinv]
      rfl
    rw [hun]
    exact boot_of_recoverable h.state h.part (hpart _) himg
      (delete_powerFail himg hne hname.no_eq hmax k)

def pairStore : Store :=
  ((envStore (p6032 false)).run blankStore.reset
    [.setenv (cstring [0x61]) (some (cstring [0x31])),.setenv (cstring [0x62]) none]).1

theorem pairStore_valid : Valid (p6032 false) pairStore :=
  ⟨by decide +kernel,by decide +kernel,by decide +kernel,by decide +kernel,by decide +kernel⟩

theorem call_powerFail_pairStore :
    let t := ((pairStore.powerFail (pairStore.unsetenv (p6032 false) (some (cstring [0x61])))
      2).reboot.invalid (p6032 false)).1
    Emptied (p6032 false) t ∨ OthersKept (p6032 false) pairStore t (cstring [0x61]) :=
  (call_powerFail false pairStore_valid (by decide) (by decide +kernel) 2).2

end Pmon.NvEnv
