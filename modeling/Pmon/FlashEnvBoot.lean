import Pmon.FlashEnvRefine

/-!
# Booting on a flash environment

`env_structcheck` accepts a partition exactly when its active names are printable. A call that is
cut off damages at most its own variable.
-/

namespace Pmon.FlashEnv
open ByteStore PackedRecords EnvEntry KeyedList
variable {bodies : List (List UInt8)} {s : Store} {b : Board} {name : CString} {part : ℕ × ℕ}

def NameOk (body : List UInt8) : Prop := body.head?≠some eqSign ∧ PrintableName body

instance : DecidablePred NameOk := fun body =>
  inferInstanceAs (Decidable (body.head?≠some eqSign ∧ PrintableName body))

def dead (bodies : List (List UInt8)) : List (List UInt8) :=
  bodies.filter fun body => ¬ Active body

variable {body : List UInt8} {s' : Store} {offs size : ℕ}

theorem dead_cons_of_active (h : Active body) (rest : List (List UInt8)) :
    dead (body::rest)=dead rest :=
  List.filter_cons_of_neg (by simpa using h)

theorem dead_cons_of_not_active (h : ¬ Active body) (rest : List (List UInt8)) :
    dead (body::rest)=body::dead rest :=
  List.filter_cons_of_pos (by simpa using h)

theorem length_packed_live_dead (bodies : List (List UInt8)) :
    (packed (live bodies)).length+(packed (dead bodies)).length=(packed bodies).length := by
  induction bodies with
  | nil => rfl
  | cons body rest ih =>
    by_cases ha : Active body
    · rw [live_cons_of_active ha,dead_cons_of_active ha,length_packed_cons,length_packed_cons]
      omega
    · rw [live_cons_of_not_active ha,dead_cons_of_not_active ha,length_packed_cons,
        length_packed_cons]
      omega

theorem structLoop_eq (s : Store) {fuel e stop top : ℕ} (free : ℕ)
    (h : Walk s.getbyte stop Sized fuel e bodies) (hnames : ∀ body∈live bodies, NameOk body)
    (hfit : stop≤top) (herased : ∀ q, stop≤q → q<top → s.getbyte q=0xff) :
    s.structLoop top fuel e free=(true,stop,free+(packed (dead bodies)).length) := by
  induction h generalizing free with
  | nil fuel =>
    cases fuel with
    | zero => rfl
    | succ fuel =>
      rw [Store.structLoop]
      split
      · next hlt =>
        rw [herased stop le_rfl hlt]
        rfl
      · rfl
  | @cons fuel e body rest hbody hat hle hrest ih =>
    have hpos := List.length_pos_iff.mpr hbody.1
    have hlt := hbody.2
    have hi := fun free => ih free fun q hq => hnames q (mem_live.mpr
      ⟨List.mem_cons_of_mem _ (mem_live.mp hq).1,(mem_live.mp hq).2⟩)
    have hhead := head?_of_holds hat.hbody hbody.1
    have hact := active_iff hat.hbody hbody.1
    rw [Store.structLoop,if_pos (by omega),hat.hsize]
    rw [if_neg (by omega),if_neg (by omega)]
    by_cases ha : Active body
    · have hok := hnames body (mem_live.mpr ⟨List.mem_cons_self,ha⟩)
      have hfirst : s.getbyte (e+1)≠eqSign := fun h0 => hok.1 (by rw [hhead,h0])
      rw [if_pos (hact.mp ha),if_neg hfirst,Nat.add_sub_cancel,
        if_pos ((nameCheck_iff s.getbyte hat.hbody).mpr hok.2),hi,dead_cons_of_active ha]
    · rw [if_neg (fun h0 => ha (hact.mpr h0)),hi,dead_cons_of_not_active ha,
        length_packed_cons,Nat.add_assoc]

theorem erasedLoop_eq (s : Store) {top : ℕ} (fuel e : ℕ)
    (h : ∀ q, e≤q → q<top → s.getbyte q=0xff) : s.erasedLoop top fuel e=true := by
  induction fuel generalizing e with
  | zero => rfl
  | succ fuel ih =>
    rw [Store.erasedLoop]
    split
    · have hall : (readCells s.getbyte e (min (top-e) 128)).all (· == 0xff)=true := by
        rw [List.all_eq_true]
        intro c hc
        obtain ⟨i,hi,rfl⟩ := List.getElem_of_mem hc
        rw [length_readCells] at hi
        have hcell := (holds_readCells s.getbyte e (min (top-e) 128)).getElem
          (by rw [length_readCells]; exact hi)
        rw [←hcell,h _ (by omega) (by omega)]
        rfl
      rw [if_pos hall]
      exact ih _ fun q hq hq' => h q (by omega) hq'
    · rfl

theorem structcheck_eq (h : Image s.getbyte s.envMaxsize bodies)
    (hnames : ∀ body∈live bodies, NameOk body) :
    s.structcheck =
      ({ s with
        envSize := (packed bodies).length
        envFree := (packed (dead bodies)).length +
          (s.envMaxsize-(envoffBase+(packed bodies).length)) },true) := by
  have hfits := h.fits
  have hwalk : Walk s.getbyte (envoffBase+(packed bodies).length) Sized
      (s.envMaxsize-envoffBase) envoffBase bodies :=
    walk Sized.lt h.entries h.bounds (by omega)
  rw [Store.structcheck,structLoop_eq s 0 hwalk hnames h.fits h.erased]
  dsimp only
  rw [erasedLoop_eq s _ _ h.erased,Nat.zero_add,Nat.add_sub_cancel_left]

def Board.envPart (b : Board) : Option (ℕ × ℕ) :=
  if b.flashenvOpen=false then none
  else do
    let parts ←b.flashParts
    let part ←parts.find? (·.type = .env)
    if part.size<envoffBase+64 then none
    else
      let offs := if part.offs%2=1 then part.offs+1 else part.offs
      let size := if part.offs%2=1 then part.size-1 else part.size
      some (offs, if size%2=1 then size-1 else size)

theorem invalid_eq (hs : s.envState = .unknown) (hp : b.envPart=some (offs,size)) :
    s.invalid b =
      let t := {s with envOffs := offs, envMaxsize := size}
      let r := Store.recover b {t with envInitState := t.bootState b, envState := t.bootState b}
      (r,r.envState) := by
  unfold Board.envPart at hp
  split at hp
  · cases hp
  · next hopen =>
    rw [Store.invalid,if_neg (by simp [hs])]
    rw [if_neg hopen]
    cases hparts : b.flashParts with
    | none => simp [hparts] at hp
    | some parts =>
      cases hfind : parts.find? (·.type = .env) with
      | none => simp [hparts,hfind] at hp
      | some part =>
        simp only [hparts,hfind,Option.bind_eq_bind,Option.bind_some] at hp
        split at hp
        · cases hp
        · next hroom =>
          simp only [Option.some.injEq,Prod.mk.injEq] at hp
          obtain ⟨rfl,rfl⟩ := hp
          dsimp only
          rw [hfind]
          dsimp only
          rw [if_neg hroom]
          by_cases hodd : part.offs%2=1
          · simp only [hodd,if_true]
            by_cases hs : (part.size-1)%2=1 <;> simp only [hs,if_true,if_false] <;> rfl
          · simp only [hodd,if_false]
            by_cases hs : part.size%2=1 <;> simp only [hs,if_true,if_false] <;> rfl

def Store.booted (s : Store) (offs size : ℕ) (bodies : List (List UInt8)) : Store :=
  { s with
    envState := .ok
    envInitState := .ok
    envOffs := offs
    envMaxsize := size
    envSize := (packed bodies).length
    envFree := (packed (dead bodies)).length+(size-(envoffBase+(packed bodies).length)) }

theorem reboot_invalid (hforce : b.forceReset=false) (hp : b.envPart=some (offs,size))
    (h : Image (fun q => s.flash (offs+q)) size bodies)
    (hnames : ∀ body∈live bodies, NameOk body) :
    s.reboot.invalid b=(s.booted offs size bodies,.ok) := by
  have hmagic : s.flash (offs+envoffMagic)=0xde ∧ s.flash (offs+(envoffMagic+1))=0xaf :=
    ⟨h.magic.1,h.magic.2.1⟩
  have hboot : Store.bootState b {s.reboot with envOffs := offs, envMaxsize := size} = .ok := by
    rw [Store.bootState,hforce,if_neg (by simp),if_neg]
    simpa [Store.getbyte,Store.reboot] using hmagic
  rw [invalid_eq rfl hp]
  dsimp only
  rw [hboot]
  unfold Store.recover
  have hcheck := structcheck_eq (s := { s.reboot with
    envOffs := offs, envMaxsize := size, envInitState := .ok, envState := .ok }) h hnames
  rw [hcheck]
  rfl

theorem booted_layout (h : Image (fun q => s.flash (offs+q)) size bodies) :
    Layout (s.booted offs size bodies) bodies := ⟨h,rfl⟩

theorem recovered_accounted (h : Image s.getbyte s.envMaxsize bodies) (hs : s.envState = .ok)
    (he : Erasable b s) :
    Accounted b { s with
      envSize := (packed bodies).length
      envFree := (packed (dead bodies)).length +
        (s.envMaxsize-(envoffBase+(packed bodies).length)) } bodies where
  layout := ⟨h,rfl⟩
  state := hs
  erasable := he.congr rfl rfl
  free := by
    have hfit := h.fits
    have hcount := length_packed_live_dead bodies
    dsimp only
    omega

theorem booted_kept (h : Image (fun q => s.flash (offs+q)) size bodies)
    (htiled : SectorTiled b offs (offs+size)) (htidy : Tidy (live bodies))
    (hnames : ∀ body∈live bodies, NameOk body) : Kept b (s.booted offs size bodies) bodies :=
  have ha : Accounted b (s.booted offs size bodies) bodies :=
    recovered_accounted (s := s.booted offs size bodies) h rfl
      ⟨htiled,le_trans (by omega) h.fits⟩
  ha.kept htidy fun body hb => (hnames body hb).1

theorem holds_take_appendWrites {m : ℕ → UInt8} {base : ℕ} {c : UInt8} {tail : List UInt8}
    (herased : ∀ q, base≤q → q<base+(tail.length+2) → m q=0xff) (j : ℕ) :
    ∃ body', body'.length=(c::tail).length ∧
      Holds (applyWrites ((appendWrites base (c::tail)).take (j+1)) m) base (record body') ∧
      (body'.head?=some 0xff ∨ body'=c::tail) := by
  by_cases hlast : tail.length<j
  · refine ⟨c::tail,rfl,?_,Or.inr rfl⟩
    rw [List.take_of_length_le (by simp [appendWrites]; omega)]
    exact holds_appendWrites base (by simp) m
  · have hj : (tail.take j).length=j := by simp; omega
    have htake : (appendWrites base (c::tail)).take (j+1) =
        (base, UInt8.ofNat (tail.length+2))::writesAt (base+2) (tail.take j) := by
      simp only [appendWrites,List.take_succ_cons,List.tail_cons,List.length_cons]
      rw [List.take_append_of_le_length (by simp; omega),take_writesAt]
    have hlen : (0xff::(tail.take j++List.replicate (tail.length-j) 0xff)).length =
        tail.length+1 := by
      simp
      omega
    refine ⟨_,hlen,?_,Or.inl rfl⟩
    rw [htake,applyWrites_cons]
    refine ⟨?_,?_,?_⟩
    · rw [applyWrites_writesAt_of_outside _ _ _ (Or.inl (by omega)),Function.update_self,hlen]
    · rw [applyWrites_writesAt_of_outside _ _ _ (Or.inl (by omega)),
        Function.update_of_ne (by simp)]
      exact herased _ (by omega) (by omega)
    · rw [holds_append,holds_replicate,hj]
      refine ⟨holds_applyWrites_writesAt _ _ _,fun q hq hq' => ?_⟩
      rw [applyWrites_writesAt_of_outside _ _ _ (Or.inr (by omega)),
        Function.update_of_ne (by omega)]
      exact herased _ (by omega) (by omega)

theorem Image.take_append {m : ℕ → UInt8} {maxsize : ℕ} (h : Image m maxsize bodies)
    (hb : body≠[] ∧ body.length+1<0xff)
    (hfit : envoffBase+(packed bodies).length+(body.length+1) ≤ maxsize) (k : ℕ) :
    ∃ rest, Image (applyWrites ((appendWrites (envoffBase+(packed bodies).length) body).take k)
        m) maxsize (bodies++rest) ∧ (live rest=[] ∨ rest=[body]) := by
  obtain ⟨c,tail,rfl⟩ := List.exists_cons_of_ne_nil hb.1
  cases k with
  | zero => exact ⟨[],by simpa using h,Or.inl rfl⟩
  | succ j =>
    have herased : ∀ q, envoffBase+(packed bodies).length≤q →
        q<envoffBase+(packed bodies).length+(tail.length+2) → m q=0xff :=
      fun q hq hq' => h.erased q hq (by rw [List.length_cons] at hfit; omega)
    obtain ⟨body',hlen,hrec,hcase⟩ := holds_take_appendWrites herased j (c := c)
    have hne := List.length_pos_iff.mp (by rw [hlen]; simp)
    refine ⟨[body'],h.append ⟨hne,by omega⟩ (by omega) (fun q hq => ?_) hrec,?_⟩
    · exact applyWrites_appendWrites_of_outside _ _ m _ (by omega) hb.1
    · rcases hcase with hff | rfl
      · exact Or.inl (live_cons_of_not_active (fun ha => ha.2 hff) [])
      · exact Or.inr rfl

def Store.powerFail (s s' : Store) (k : ℕ) : Store :=
  {s with flash := applyWrites ((s'.writes.drop s.writes.length).take k) s.flash}

theorem getbyte_powerFail {ws : List (ℕ × UInt8)}
    (h : s'.writes=s.writes++shiftWrites s.envOffs ws) (k : ℕ) :
    (fun q => (s.powerFail s' k).flash (s.envOffs+q))=applyWrites (ws.take k) s.getbyte := by
  rw [Store.powerFail,h,List.drop_left,take_shiftWrites]
  exact applyWrites_shiftWrites s.envOffs _ s.flash

theorem clear_writes (s : Store) (name : CPtr) :
    ∃ ws, ws.length≤1 ∧ (s.clear name).writes=s.writes++shiftWrites s.envOffs ws ∧
      (s.clear name).getbyte=applyWrites ws s.getbyte := by
  unfold Store.clear
  split
  · refine ⟨[(s.find name+1,0x00)],le_rfl,rfl,?_⟩
    rw [delete_eq,←getbyte_poke]
    rfl
  · exact ⟨[],by simp,by simp,rfl⟩

theorem entryBody_bounds {name val : List UInt8} (hne : name≠[])
    (hlt : entryTotal name val<255) :
    entryBody name val≠[] ∧ (entryBody name val).length+1<0xff := by
  rw [entryTotal_eq] at hlt
  refine ⟨fun h0 => hne ?_,hlt⟩
  rw [←List.head?_eq_none_iff,←head?_entryBody hne val,h0]
  rfl

theorem Kept.setenv_uncompressed (h : Kept b s bodies) (hname : eqSign∉name.bytes) (val : CPtr)
    (hnc : (s.setenv b (some name) val true).1.compressions=s.compressions) :
    (s.setenv b (some name) val true).1=s ∨
    (s.setenv b (some name) val true).1=(s.clear (some name)).append name.bytes val.bytes ∧
      name.bytes≠[] ∧ entryTotal name.bytes val.bytes<255 ∧
      envoffBase+(s.clear (some name)).envSize+entryTotal name.bytes val.bytes ≤
        (s.clear (some name)).envMaxsize := by
  rcases setenv_cases b h.state name val true with ⟨e,he⟩ | ⟨hf,-⟩ | ⟨hne,hlt,hle,heq⟩
  · exact Or.inl (by rw [he])
  · cases hf
  · right
    obtain ⟨bodies₁,hd⟩ := h.clear hname
    dsimp only at heq
    rcases makeRoom_cases b (s.clear (some name)) (entryTotal name.bytes val.bytes) with
      ⟨hroom,hfit⟩ | hroom
    · rw [hroom,if_neg (by omega)] at heq
      exact ⟨by rw [heq],hne,hlt,hfit⟩
    · -- compressing would have been counted
      exfalso
      have hcount := compress_compressions hd.kept.layout hd.kept.erasable
      rw [clear_compressions] at hcount
      have hsame : (s.setenv b (some name) val true).1.compressions =
          ((s.clear (some name)).compress b).compressions := by
        rw [heq,hroom]
        split
        · rfl
        · rw [append_eq _ hne]
          rfl
      omega

theorem Kept.powerFail (h : Kept b s bodies) (hname : eqSign∉name.bytes) (val : CPtr) (k : ℕ)
    (hnc : (s.setenv b (some name) val true).1.compressions=s.compressions) :
    ∃ bodies', Image (fun q => (s.powerFail (s.setenv b (some name) val true).1 k).flash
        (s.envOffs+q)) s.envMaxsize bodies' ∧
      (bodies'=bodies ∨ ∃ bodies₁ rest, Dropped b s bodies name bodies₁ ∧
        bodies'=bodies₁++rest ∧
        (live rest=[] ∨ name.bytes≠[] ∧ rest=[entryBody name.bytes val.bytes])) := by
  rcases h.setenv_uncompressed hname val hnc with heq | ⟨heq,hne,hlt,hfit⟩
  · refine ⟨bodies,?_,Or.inl rfl⟩
    have hlog : s.writes=s.writes++shiftWrites s.envOffs [] := by simp
    rw [heq,getbyte_powerFail hlog,List.take_nil]
    exact h.layout.image
  · obtain ⟨bodies₁,hd⟩ := h.clear hname
    have hl := hd.kept.layout
    obtain ⟨cw,hcw,hwrites,hget⟩ := clear_writes s (some name)
    have hlog : (s.setenv b (some name) val true).1.writes=s.writes++shiftWrites s.envOffs
        (cw++appendWrites (envoffBase+(s.clear (some name)).envSize)
          (entryBody name.bytes val.bytes)) := by
      rw [heq,append_eq _ hne,shiftWrites_append,←List.append_assoc,←hwrites,
        ←clear_envOffs s (some name)]
      rfl
    rw [getbyte_powerFail hlog]
    by_cases hk : k<cw.length
    · -- the power failed before the first write
      refine ⟨bodies,?_,Or.inl rfl⟩
      rw [show k=0 by omega]
      exact h.layout.image
    · rw [List.take_append,List.take_of_length_le (by omega),applyWrites_append,←hget,
        hl.size]
      have himg := hl.image
      rw [hl.size,entryTotal_eq,clear_envMaxsize] at hfit
      rw [clear_envMaxsize] at himg
      obtain ⟨rest,hrest,hcase⟩ :=
        himg.take_append (entryBody_bounds hne hlt) hfit (k-cw.length)
      exact ⟨bodies₁++rest,hrest,Or.inr ⟨bodies₁,rest,hd,rfl,
        hcase.imp id fun h => ⟨hne,h⟩⟩⟩

theorem Admissible.of_plain (h : PlainName name) : Admissible name :=
  ⟨h.no_eq,fun h0 => absurd (h.printable _ (List.mem_of_head? h0)).2 (by decide)⟩

theorem live_after_powerFail {bodies' : List (List UInt8)} (h : Kept b s bodies)
    (hname : Admissible name) {val : CPtr}
    (hcase : bodies'=bodies ∨ ∃ bodies₁ rest, Dropped b s bodies name bodies₁ ∧
      bodies'=bodies₁++rest ∧
      (live rest=[] ∨ name.bytes≠[] ∧ rest=[entryBody name.bytes val.bytes])) :
    Tidy (live bodies') ∧
      (∀ body∈live bodies', body∈live bodies ∨
        name.bytes≠[] ∧ body=entryBody name.bytes val.bytes) ∧
      ∃ v, bindings (live bodies')=Function.update (bindings (live bodies)) name v ∧
        (v=bindings (live bodies) name ∨ v=none ∨ v=some (val.getD CString.empty)) := by
  rcases hcase with rfl | ⟨bodies₁,rest,hd,rfl,hdead | ⟨hne,rfl⟩⟩
  · exact ⟨h.tidy,fun _ => Or.inl,_,(Function.update_eq_self _ _).symm,Or.inl rfl⟩
  · rw [live_append,hdead,List.append_nil]
    exact ⟨hd.kept.tidy,fun body hb => Or.inl (hd.sub.subset hb),none,hd.unbound,
      Or.inr (Or.inl rfl)⟩
  · rw [live_append,live_cons_of_active (hname.active hne _),show live []=[] from rfl]
    refine ⟨hd.kept.tidy.append hname.no_eq hd.new val,fun body hb => ?_,
      some (val.getD CString.empty),?_,Or.inr (Or.inr rfl)⟩
    · rcases List.mem_append.mp hb with hb | hb
      · exact Or.inl (hd.sub.subset hb)
      · exact Or.inr ⟨hne,List.mem_singleton.mp hb⟩
    · rw [bindings_append hname.no_eq hd.new,hd.unbound,Function.update_idem]

/-- Let a `_sbd_setenv` without `env_compress` be cut off after `k` writes. The next boot resets
nothing, every other variable has its binding, and the variable itself is old, unbound or new. -/
theorem setenv_powerFail {b : Board} (hforce : b.forceReset=false) {s₀ : Store}
    (h : Erasable b s₀) (hpart : b.envPart=some (s₀.envOffs,s₀.envMaxsize))
    {ops : List EnvOp} (hops : ∀ op∈ops, PlainName op.name) {name : CString}
    (hname : PlainName name) (val : CPtr) (k : ℕ) :
    let s := ((envStore b).run (s₀.reset b) ops).1
    let s' := (s.setenv b (some name) val true).1
    let t := ((s.powerFail s' k).reboot.invalid b).1
    s'.compressions=s.compressions →
      ((s.powerFail s' k).reboot.invalid b).2 = .ok ∧ t.envInitState = .ok ∧
      t.flash=(s.powerFail s' k).flash ∧
      ∃ m m' : EnvMap, (envStore b).Represents s m ∧ (envStore b).Represents t m' ∧
        (∀ n, n≠name → m' n=m n) ∧
        (m' name=m name ∨ m' name=none ∨ m' name=some (val.getD CString.empty)) := by
  intro s s' t hnc
  obtain ⟨bodies,hk,hpart',hprint,-⟩ := run_related
    (P := fun n => ∀ c∈n, 0x20≤c ∧ c<0x7f) h
    fun op hop => ⟨Admissible.of_plain (hops op hop),(hops op hop).printable⟩
  have hadm := Admissible.of_plain hname
  obtain ⟨bodies',himg,hcase⟩ := hk.powerFail hname.no_eq val k hnc
  obtain ⟨htidy,hmem,v,hbind,hv⟩ := live_after_powerFail hk hadm hcase
  have hnames : ∀ body∈live bodies', NameOk body := by
    intro body hb
    rcases hmem body hb with hb | ⟨hne,rfl⟩
    · exact ⟨hk.named body hb,hprint body hb⟩
    · refine ⟨hadm.head_ne_eq hne _,?_⟩
      rw [PrintableName,keyOf_entryBody hname.no_eq]
      exact hname.printable
  have hboot : (s.powerFail s' k).reboot.invalid b =
      ((s.powerFail s' k).booted s.envOffs s.envMaxsize bodies',.ok) :=
    reboot_invalid hforce (hpart.trans (congrArg some hpart'.symm)) himg hnames
  have ht : t=(s.powerFail s' k).booted s.envOffs s.envMaxsize bodies' := by
    simp only [t,hboot]
  rw [ht]
  refine ⟨by rw [hboot],rfl,rfl,_,_,hk.represents,
    (booted_kept himg hk.erasable.tiled htidy hnames).represents, fun n hn => ?_,?_⟩
  · rw [hbind,Function.update_of_ne hn]
  · rw [hbind,Function.update_self]
    exact hv

def smallRun : Store := ((envStore smallBoard).run (smallStore.reset smallBoard) smallOps).1

def smallSet : Store :=
  (smallRun.setenv smallBoard (some (cstring [0x66,0x6f,0x6f])) none true).1

theorem smallOps_plain : ∀ op∈smallOps, PlainName op.name := by decide +kernel

theorem setenv_powerFail_smallSet :
    smallSet.writes.length=smallRun.writes.length+5 ∧
      smallSet.compressions=smallRun.compressions ∧
      ((smallRun.powerFail smallSet 2).reboot.invalid smallBoard).2 = .ok :=
  ⟨by decide +kernel, by decide +kernel,
    (setenv_powerFail rfl smallStore_erasable (by decide) smallOps_plain (by decide +kernel)
      none 2 (by decide +kernel)).1⟩

/-- Names that a boot accepts: their entry is never active, or passes `env_structcheck`. -/
def BootAccepts (name : CString) : Prop := name.bytes.head?=some 0xff ∨ NameOk name.bytes

instance : DecidablePred BootAccepts := fun name =>
  inferInstanceAs (Decidable (name.bytes.head?=some 0xff ∨ NameOk name.bytes))

structure Bootable (b : Board) (part : ℕ × ℕ) (s : Store) (bodies : List (List UInt8)) :
    Prop where
  layout : Layout s bodies
  state : s.envState = .ok
  erasable : Erasable b s
  part_eq : s.part=part
  names : ∀ body∈live bodies, NameOk body

theorem Cleared.live_subset {name : List UInt8} {bodies' : List (List UInt8)}
    (h : Cleared name bodies bodies') : ∀ body∈live bodies', body∈live bodies := by
  cases h with
  | absent _ => exact fun _ hb => hb
  | @deleted pre post body hsel hpre =>
    intro q hq
    rw [live_append,live_cons_of_not_active (not_active_deleted body)] at hq
    rw [live_append,live_cons_of_active hsel.1]
    rcases List.mem_append.mp hq with hq | hq <;> simp [hq]

theorem Bootable.clear (h : Bootable b part s bodies) (name : CString) :
    ∃ bodies', Bootable b part (s.clear (some name)) bodies' := by
  obtain ⟨bodies',hc,hl,-⟩ := clear_spec h.layout name
  exact ⟨bodies',hl,by simpa using h.state,h.erasable.congr (by simp) (by simp),
    by simpa [Store.part] using h.part_eq,fun body hb => h.names body (hc.live_subset body hb)⟩

theorem Bootable.makeRoom (h : Bootable b part s bodies) (total : ℕ) :
    ∃ bodies', Bootable b part (s.makeRoom b total) bodies' := by
  rcases makeRoom_cases b s total with ⟨heq,-⟩ | heq
  · rw [heq]
    exact ⟨bodies,h⟩
  · have hoffs := compress_envOffs h.layout h.erasable
    have hmax := compress_envMaxsize h.layout h.erasable
    rw [heq]
    refine ⟨live bodies,compress_layout h.layout h.erasable,compress_envState b h.layout,
      h.erasable.congr hoffs hmax,?_,?_⟩
    · rw [←h.part_eq,Store.part,hoffs,hmax]
      rfl
    · rw [live_live]
      exact h.names

theorem nameOk_entryBody (h : BootAccepts name) (hne : name.bytes≠[]) (val : List UInt8)
    (ha : Active (entryBody name.bytes val)) :
    NameOk (entryBody name.bytes val) := by
  rw [Active,head?_entryBody hne] at ha
  rw [NameOk,head?_entryBody hne,PrintableName,keyOf_entryBody_eq]
  rcases h with hff | hok
  · exact absurd hff ha.2
  · exact hok

theorem Bootable.append (h : Bootable b part s bodies) (hname : BootAccepts name)
    (hne : name.bytes≠[]) (val : List UInt8) (hlt : entryTotal name.bytes val<255)
    (hfit : envoffBase+s.envSize+entryTotal name.bytes val ≤ s.envMaxsize) :
    Bootable b part (s.append name.bytes val) (bodies++[entryBody name.bytes val]) := by
  have heq := append_eq s hne val
  refine ⟨append_layout h.layout hne val hlt hfit,?_,?_,?_,fun body hb => ?_⟩
  · rw [heq]
    exact h.state
  · rw [heq]
    exact h.erasable.congr rfl rfl
  · rw [heq]
    exact h.part_eq
  · obtain ⟨hb,ha⟩ := mem_live.mp hb
    rcases List.mem_append.mp hb with hb | hb
    · exact h.names body (mem_live.mpr ⟨hb,ha⟩)
    · rw [List.mem_singleton.mp hb] at ha ⊢
      exact nameOk_entryBody hname hne val ha

theorem setenv_bootable (h : ∃ bodies, Bootable b part s bodies) {c : SetCall}
    (hname : BootAccepts c.name) (hset : s.setenv b (some c.name) c.val c.overwrite=(s',.ok ()))
    : ∃ bodies, Bootable b part s' bodies := by
  obtain ⟨bodies,hb⟩ := h
  rcases setenv_cases b hb.state c.name c.val c.overwrite with
    ⟨e,he⟩ | ⟨-,hkeep⟩ | ⟨hne,hlt,-,heq⟩
  · rw [he] at hset
    cases hset
  · rw [hkeep] at hset
    cases hset
    exact ⟨bodies,hb⟩
  · obtain ⟨bodies₁,hb₁⟩ := hb.clear c.name
    obtain ⟨bodies₂,hb₂⟩ := hb₁.makeRoom (entryTotal c.name.bytes c.val.bytes)
    rw [heq] at hset
    dsimp only at hset
    split at hset
    · cases hset
    · next hfit =>
      cases hset
      exact ⟨_,hb₂.append hname hne _ hlt (by omega)⟩

theorem Bootable.survives (hforce : b.forceReset=false) (h : Bootable b part s bodies)
    (hpart : b.envPart=some part) :
    (s.reboot.invalid b).2 = .ok ∧ (s.reboot.invalid b).1.envInitState = .ok ∧
      (s.reboot.invalid b).1.flash=s.flash ∧
      ∀ n : CString, ((s.reboot.invalid b).1.getenv b (some n)).2=(s.getenv b (some n)).2 := by
  have himg := h.layout.image
  rw [reboot_invalid hforce (by rw [hpart,←h.part_eq]; rfl) himg h.names]
  refine ⟨rfl,rfl,rfl,fun n => ?_⟩
  rw [getenv_eq b (booted_layout himg) rfl,getenv_eq b h.layout h.state]

theorem setAll_survives (hforce : b.forceReset=false) (h : Erasable b s)
    (hpart : b.envPart=some s.part) {calls : List SetCall}
    (hcalls : ∀ c∈calls, BootAccepts c.name)
    (hrun : (envStore b).setAll (s.reset b) calls=some s') :
    (s'.reboot.invalid b).2 = .ok ∧ (s'.reboot.invalid b).1.envInitState = .ok ∧
      (s'.reboot.invalid b).1.flash=s'.flash ∧
      ∀ n : CString, ((s'.reboot.invalid b).1.getenv b (some n)).2=(s'.getenv b (some n)).2 := by
  have hk := reset_kept h
  have hinit : Bootable b s.part (s.reset b) [] :=
    ⟨hk.layout,hk.state,hk.erasable,by simp [Store.part,h],by simp [live]⟩
  obtain ⟨bodies,hb⟩ := (envStore b).setAll_invariant
    (I := fun s' => ∃ bodies, Bootable b s.part s' bodies) (P := fun c => BootAccepts c.name)
    (fun _ _ _ hI hP hset => setenv_bootable hI hP hset) ⟨[],hinit⟩ hcalls hrun
  exact hb.survives hforce hpart

end Pmon.FlashEnv
