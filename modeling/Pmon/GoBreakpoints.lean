import Pmon.Go

/-!
# Breakpoints are out of memory while commands run

Which list remembers a planted word depends on the trace mode. Each path of `exception` to a command
string removes what its mode planted, but for an unexpected exception; a client exit removes
nothing.
-/

namespace Pmon.Go
open CodePatch List
variable {κ : Type} {s : State κ} {outer : List (ℕ × ℕ)} {mode : TraceMode}

def remembered (bs : List Bps) : List (ℕ × ℕ) :=
  (bs.filter fun b => b.addr≠NO_BPT).map fun b => (b.addr,b.value)

def traceList (s : State κ) : List (ℕ × ℕ) := remembered [s.bptTrc,s.bptTrcb]

def breakList (s : State κ) : List (ℕ × ℕ) :=
  remembered (s.bptTmp::s.bpt.filter fun b => b.wpt=0)

@[simp] theorem remembered_nil : remembered []=[] := rfl

theorem remembered_append (bs cs : List Bps) :
    remembered (bs++cs)=remembered bs++remembered cs := by
  simp [remembered]

theorem remembered_cons (b : Bps) (bs : List Bps) :
    remembered (b::bs)=remembered [b]++remembered bs := remembered_append [b] bs

variable {b : Bps} {c : CmdFrame}

theorem remembered_singleton (h : b.addr≠NO_BPT) : remembered [b]=[(b.addr,b.value)] := by
  simp [remembered,h]

theorem remembered_singleton_unused (h : b.addr=NO_BPT) : remembered [b]=[] := by
  simp [remembered,h]

theorem mem_remembered {bs : List Bps} {a v : ℕ} (h : (a,v)∈remembered bs) :
    a≠NO_BPT ∧ ∃ b∈bs, b.addr=a := by
  simp only [remembered,mem_map,mem_filter,decide_eq_true_eq,Prod.mk.injEq] at h
  obtain ⟨b,⟨hmem,huse⟩,haddr,-⟩ := h
  exact ⟨haddr ▸ huse,b,hmem,haddr⟩

theorem traceList_eq_nil (htrc : s.bptTrc.addr=NO_BPT) (htrcb : s.bptTrcb.addr=NO_BPT) :
    traceList s=[] := by
  rw [traceList,remembered_cons,remembered_singleton_unused htrc,
    remembered_singleton_unused htrcb]
  rfl

theorem traceList_nil_iff (s : State κ) :
    traceList s=[] ↔ s.bptTrc.addr=NO_BPT ∧ s.bptTrcb.addr=NO_BPT := by
  constructor
  · intro h
    rw [traceList,remembered_cons,append_eq_nil_iff] at h
    constructor
    · by_contra hne
      rw [remembered_singleton hne] at h
      simp at h
    · by_contra hne
      rw [remembered_singleton hne] at h
      simp at h
  · rintro ⟨htrc,htrcb⟩
    exact traceList_eq_nil htrc htrcb

variable (m : Memory ℕ ℕ)

theorem restoreAll_append (es fs : List (ℕ × ℕ)) :
    m.restoreAll BPT_CODE (es++fs)=(m.restoreAll BPT_CODE es).restoreAll BPT_CODE fs :=
  foldl_append ..

theorem giveBackBps_eq (b : Bps) : giveBackBps m b=m.restoreAll BPT_CODE (remembered [b]) := by
  by_cases h : b.addr=NO_BPT
  · rw [remembered_singleton_unused h,giveBackBps,if_neg (by simp [h])]
    rfl
  · rw [remembered_singleton h,giveBackBps]
    simp [Memory.restoreAll,Memory.restore,h]

theorem giveBackTable_eq (bs : List Bps) :
    giveBackTable m bs=m.restoreAll BPT_CODE (remembered (bs.filter fun b => b.wpt=0)) := by
  induction bs generalizing m with
  | nil => rfl
  | cons b bs ih =>
    rw [giveBackTable,foldl_cons,←giveBackTable,ih]
    by_cases h : b.wpt=0
    · rw [if_pos h,filter_cons_of_pos (by simpa using h),remembered_cons,restoreAll_append,
        giveBackBps_eq]
    · rw [if_neg h,filter_cons_of_neg (by simpa using h)]

theorem removeTraceBreakpoint_mem (s : State κ) :
    (removeTraceBreakpoint s).mem=s.mem.restoreAll BPT_CODE (traceList s) := by
  rw [traceList,remembered_cons,restoreAll_append,←giveBackBps_eq,←giveBackBps_eq]
  rfl

theorem rmBpts_mem (s : State κ) :
    (rmBpts s).mem=s.mem.restoreAll BPT_CODE (breakList s++traceList s) := by
  rw [rmBpts,removeTraceBreakpoint_mem,restoreAll_append]
  congr 1
  rw [breakList,remembered_cons,restoreAll_append,←giveBackBps_eq,←giveBackTable_eq]

theorem plantBps_cases (b : Bps) : (plantBps m b).1=m ∧ remembered [(plantBps m b).2]=[] ∨
      (plantBps m b).1=m.plant BPT_CODE b.addr ∧
        remembered [(plantBps m b).2]=[(b.addr,m.word b.addr)] := by
  by_cases hb : b.addr=NO_BPT
  · have hskip : plantBps m b=(m,b) := if_neg (by simp [hb])
    rw [hskip]
    exact .inl ⟨rfl,remembered_singleton_unused hb⟩
  · have hplant : plantBps m b=(m.plant BPT_CODE b.addr,{b with value := m.word b.addr}) :=
      if_pos hb
    rw [hplant]
    exact .inr ⟨rfl,remembered_singleton (b := {b with value := m.word b.addr}) hb⟩

theorem plantBps_held {inner : List (ℕ × ℕ)} {m : Memory ℕ ℕ} (h : Held BPT_CODE inner outer m)
    (hinner : Planted inner m) (b : Bps) :
    Held BPT_CODE (inner++remembered [(plantBps m b).2]) outer (plantBps m b).1 ∧
      Planted (inner++remembered [(plantBps m b).2]) (plantBps m b).1 := by
  rcases plantBps_cases m b with ⟨hm,hb⟩ | ⟨hm,hb⟩
  · rw [hm,hb,append_nil]
    exact ⟨h,hinner⟩
  · rw [hm,hb]
    exact ⟨h.plant hinner b.addr,hinner.plant b.addr _⟩

theorem plantBps_addr (b : Bps) : (plantBps m b).2.addr=b.addr := by
  rw [plantBps]
  split <;> rfl

theorem plantBps_wpt (b : Bps) : (plantBps m b).2.wpt=b.wpt := by
  rw [plantBps]
  split <;> rfl

theorem plantTable_held {inner : List (ℕ × ℕ)} {m : Memory ℕ ℕ} (h : Held BPT_CODE inner outer m)
    (hinner : Planted inner m) (bs : List Bps) :
    Held BPT_CODE (inner++remembered ((plantTable m bs).2.filter fun b => b.wpt=0)) outer
        (plantTable m bs).1 ∧
      Planted (inner++remembered ((plantTable m bs).2.filter fun b => b.wpt=0))
        (plantTable m bs).1 := by
  induction bs generalizing m inner with
  | nil =>
    simp only [plantTable,filter_nil,remembered_nil,append_nil]
    exact ⟨h,hinner⟩
  | cons b bs ih =>
    by_cases hw : b.wpt=0
    · have hb := plantBps_held h hinner b
      have hw' := (plantBps_wpt m b).trans hw
      have hrest := ih hb.1 hb.2
      simp only [plantTable,if_pos hw]
      rw [filter_cons_of_pos (by simpa using hw'),remembered_cons,←append_assoc]
      exact hrest
    · have hrest := ih h hinner
      simp only [plantTable,if_neg hw]
      rw [filter_cons_of_neg (by simpa using hw)]
      exact hrest

theorem plantTable_addr (bs : List Bps) : (plantTable m bs).2.map Bps.addr=bs.map Bps.addr := by
  induction bs generalizing m with
  | nil => rfl
  | cons b bs ih =>
    by_cases hw : b.wpt=0
    · simp only [plantTable,if_pos hw,map_cons,plantBps_addr,ih]
    · simp only [plantTable,if_neg hw,map_cons,ih]

theorem storeTraceBreakpoint_held (h : Held BPT_CODE [] outer s.mem) :
    Held BPT_CODE (traceList (storeTraceBreakpoint s)) outer (storeTraceBreakpoint s).mem := by
  have hnone : Planted ([] : List (ℕ × ℕ)) s.mem := by simp [Planted]
  have htrc := plantBps_held h hnone s.bptTrc
  have htrcb := plantBps_held htrc.1 htrc.2 s.bptTrcb
  rw [nil_append,←remembered_append] at htrcb
  exact htrcb.1

theorem storeTraceBreakpoint_unused (htrc : s.bptTrc.addr=NO_BPT)
    (htrcb : s.bptTrcb.addr=NO_BPT) : storeTraceBreakpoint s=s := by
  have hskip : ∀ m : Memory ℕ ℕ, ∀ b : Bps, b.addr=NO_BPT → plantBps m b=(m,b) :=
    fun m b hb => if_neg (by simp [hb])
  simp only [storeTraceBreakpoint,hskip _ _ htrc,hskip _ _ htrcb]

theorem dropIf_unused (h : b.addr=NO_BPT) (p : Prop) [Decidable p] :
    (b.dropIf p).addr=NO_BPT := by
  rw [Bps.dropIf]
  split
  · rfl
  · exact h

theorem dropDuplicates_tmp (s : State κ) : (dropDuplicates s).bptTmp.addr=NO_BPT ∨
      ∀ b∈s.bpt, b.addr≠(dropDuplicates s).bptTmp.addr := by
  by_cases h : ∃ b∈s.bpt, s.bptTmp.addr=b.addr
  · left
    simp only [dropDuplicates,Bps.dropIf,if_pos h]
  · right
    simp only [dropDuplicates,Bps.dropIf,if_neg h]
    intro b hb heq
    exact h ⟨b,hb,heq.symm⟩

theorem storeBreakpoint_held (hclean : Held BPT_CODE [] [] s.mem) (htrc : s.bptTrc.addr=NO_BPT)
    (htrcb : s.bptTrcb.addr=NO_BPT) :
    Held BPT_CODE [] (breakList (storeBreakpoint s)) (storeBreakpoint s).mem ∧
      traceList (storeBreakpoint s)=[] := by
  have hnone : Planted ([] : List (ℕ × ℕ)) s.mem := by simp [Planted]
  have htrc' : (dropDuplicates s).bptTrc.addr=NO_BPT := dropIf_unused (dropIf_unused htrc _) _
  have htrcb' : (dropDuplicates s).bptTrcb.addr=NO_BPT := dropIf_unused (dropIf_unused htrcb _) _
  obtain ⟨htable,hplanted⟩ := plantTable_held hclean hnone s.bpt
  rw [nil_append] at htable hplanted
  have hheld := (plantBps_held htable hplanted (dropDuplicates s).bptTmp).1
  -- the state after planting, before the unused trace breakpoints
  have hstate : storeBreakpoint s={ dropDuplicates s with
      mem := (plantBps (plantTable s.mem s.bpt).1 (dropDuplicates s).bptTmp).1
      bpt := (plantTable s.mem s.bpt).2
      bptTmp := (plantBps (plantTable s.mem s.bpt).1 (dropDuplicates s).bptTmp).2 } :=
    storeTraceBreakpoint_unused htrc' htrcb'
  rw [hstate]
  refine ⟨?_,traceList_eq_nil htrc' htrcb'⟩
  rw [breakList,remembered_cons]
  apply (held_inner_iff.mp hheld).outer_mono
  intro a v hlookup
  apply lookup_append_swap _ hlookup
  -- an entry of the table and the temporary breakpoint never share a word
  intro b u w hu hw
  obtain ⟨-,e,he,headdr⟩ := mem_remembered hu
  obtain ⟨huse,f,hf,hfaddr⟩ := mem_remembered hw
  rw [mem_singleton] at hf
  subst hf
  rw [plantBps_addr] at hfaddr
  have hmem : b∈s.bpt.map Bps.addr := by
    rw [←plantTable_addr s.mem,←headdr]
    exact mem_map_of_mem (mem_of_mem_filter he)
  obtain ⟨g,hg,hgaddr⟩ := mem_map.mp hmem
  rcases dropDuplicates_tmp s with hunused | hapart
  · exact huse (hfaddr.symm.trans hunused)
  · exact hapart g hg (hgaddr.trans hfaddr.symm)

def TraceMode.breaks : TraceMode → Bool
  | .gb => true
  | .dc => true
  | .tw => true
  | .dw => true
  | _ => false

/-- No break instruction is in memory. -/
structure Quiet (s : State κ) : Prop where
  clean : Held BPT_CODE [] [] s.mem
  trc : s.bptTrc.addr=NO_BPT
  trcb : s.bptTrcb.addr=NO_BPT

/-- The break instructions in memory are those of the trace mode. -/
structure Running (s : State κ) : Prop where
  on : s.traceMode ≠ .no
  held : Held BPT_CODE (traceList s) (if s.traceMode.breaks then breakList s else []) s.mem
  idle : s.traceMode = .gb ∨ s.traceMode = .dc → traceList s=[]

def Inv (s : State κ) : Prop := match s.loc with
  | .client => Running s
  | _ => Quiet s

theorem inv_start (word : ℕ → ℕ) (epc : ℕ) (regs : κ) : Inv (start word epc regs) :=
  ⟨held_nil.mpr fun _ => rfl,rfl,rfl⟩

theorem Running.held_break (h : Running s) : Held BPT_CODE (traceList s) (breakList s) s.mem := by
  have hheld := h.held
  split at hheld
  · exact hheld
  · apply hheld.outer_mono
    intro a v hlookup
    simp at hlookup

def NoneSet (s : State κ) : Prop := breakList s=[] ∧ traceList s=[]
def Apart (s : State κ) : Prop := ∀ e∈breakList s, ∀ f∈traceList s, e.1=f.1 → e.2=f.2

theorem Running.quiet_of_noneSet (h : Running s) (hnone : NoneSet s) : Quiet s := by
  have hheld := h.held_break
  have htrace := (traceList_nil_iff s).mp hnone.2
  rw [hnone.1,hnone.2] at hheld
  exact ⟨hheld,htrace.1,htrace.2⟩

theorem quiet_rmBpts (h : Held BPT_CODE (traceList s) (breakList s) s.mem) (hapart : Apart s) :
    Quiet (rmBpts s) := by
  refine ⟨?_,rfl,rfl⟩
  rw [rmBpts_mem]
  apply Held.restoreAll_outer
  apply h.append
  intro a v w hv hw
  exact hapart (a,v) (mem_of_lookup hv) (a,w) (mem_of_lookup hw) rfl

theorem apart_of_nil (h : traceList s=[]) : Apart s := by
  intro e _ f hf
  rw [h] at hf
  simp at hf

theorem Quiet.rmBpts (h : Quiet s) : Quiet (rmBpts s) := by
  have hnil := traceList_eq_nil h.trc h.trcb
  apply quiet_rmBpts _ (apart_of_nil hnil)
  rw [hnil]
  exact h.clean.outer_mono fun a v hlookup => by simp at hlookup

theorem removeTraceBreakpoint_held (h : Held BPT_CODE (traceList s) outer s.mem) :
    Held BPT_CODE [] outer (removeTraceBreakpoint s).mem := by
  rw [removeTraceBreakpoint_mem]
  exact h.restoreAll

theorem running_of_trace (cpu : Cpu κ) (adr : ℕ) (stepover : Bool) (hon : mode ≠ .no)
    (hmode : mode ≠ .gb ∧ mode ≠ .dc)
    (h : Held BPT_CODE [] (if mode.breaks then breakList s else []) s.mem) :
    Inv (enterClient (storeTraceBreakpoint
      {setTrcbp cpu s adr stepover with traceMode := mode})) := by
  have hheld := storeTraceBreakpoint_held
    (s := {setTrcbp cpu s adr stepover with traceMode := mode}) h
  refine ⟨hon,hheld,?_⟩
  rintro (hgb | hdc)
  · exact absurd hgb hmode.1
  · exact absurd hdc hmode.2

theorem Quiet.running_of_break (h : Quiet s) (hmode : mode = .gb ∨ mode = .dc) :
    Inv (enterClient (storeBreakpoint {s with traceMode := mode})) := by
  have hheld := storeBreakpoint_held (s := {s with traceMode := mode}) h.clean h.trc h.trcb
  have hbreaks : mode.breaks=true := by
    rcases hmode with rfl | rfl <;> rfl
  refine ⟨?_,?_,fun _ => hheld.2⟩
  · change mode ≠ .no
    rcases hmode with rfl | rfl <;> decide
  · have hlists : Held BPT_CODE (traceList (storeBreakpoint {s with traceMode := mode}))
        (breakList (storeBreakpoint {s with traceMode := mode}))
        (storeBreakpoint {s with traceMode := mode}).mem := by
      rw [hheld.2]
      exact hheld.1
    change Held BPT_CODE (traceList (storeBreakpoint {s with traceMode := mode}))
      (if mode.breaks then breakList (storeBreakpoint {s with traceMode := mode}) else [])
      (storeBreakpoint {s with traceMode := mode}).mem
    rw [if_pos hbreaks]
    exact hlists

theorem Quiet.running_of_step (h : Quiet s) (cpu : Cpu κ) (adr : ℕ) (stepover : Bool)
    (hon : mode ≠ .no) (hmode : mode.breaks=false) : Inv (enterClient (storeTraceBreakpoint
      {setTrcbp cpu s adr stepover with traceMode := mode})) := by
  apply running_of_trace cpu adr stepover hon
  · constructor
    · rintro rfl
      simp [TraceMode.breaks] at hmode
    · rintro rfl
      simp [TraceMode.breaks] at hmode
  · rw [hmode]
    exact h.clean

theorem Quiet.goclient (h : Quiet s) (cpu : Cpu κ) (cont : Bool) : Inv (goclient cpu cont s) := by
  rw [Go.goclient]
  split
  · exact h.running_of_step cpu s.epc false (by decide) rfl
  · exact h.running_of_break (.inl rfl)

theorem Quiet.afterTrace (h : Quiet s) (cpu : Cpu κ) (x : Exc κ) : Inv (afterTrace cpu s x) := by
  have hstop : ∀ c, Inv (stop s c) := fun c => ⟨h.clean,h.trc,h.trcb⟩
  rw [Go.afterTrace]
  split
  case h_1 => exact hstop none
  case h_2 hmode =>
    split
    · exact hstop _
    · split_ifs
      · exact hstop none
      · exact hstop none
      · exact hstop none
      · simp only [traceNext]
        have hnext : (if s.traceCount-1=1 then TraceMode.tb else s.traceMode) ≠ .no ∧
            (if s.traceCount-1=1 then TraceMode.tb else s.traceMode).breaks=false := by
          rw [hmode]
          split <;> exact ⟨by decide,rfl⟩
        exact Quiet.running_of_step (s := { s with
          traceCount := s.traceCount-1
          traceMode := if s.traceCount-1=1 then .tb else s.traceMode })
          ⟨h.clean,h.trc,h.trcb⟩ cpu s.epc s.traceOver hnext.1 hnext.2
  case h_3 =>
    apply h.running_of_break
    split
    · exact .inr rfl
    · exact .inl rfl

structure DispatchOk (s : State κ) (x : Exc κ) : Prop where
  notStepping : s.traceMode ≠ .tw ∧ s.traceMode ≠ .dw
  apart : s.traceMode = .ds → Apart s
  expected : s.traceMode ≠ .dc → s.traceMode ≠ .ds → x.exc=CEXC_BP ∨ x.hit≠0 ∨ NoneSet s

theorem Running.dispatch (h : Running s) (cpu : Cpu κ) (x : Exc κ) (hok : DispatchOk s x) :
    Inv (dispatch cpu s x) := by
  rw [Go.dispatch]
  split
  case isTrue hdebug =>
    have hapart : Apart s := by
      rcases hdebug with hdc | hds
      · exact apart_of_nil (h.idle (.inr hdc))
      · exact hok.apart hds
    have hquiet := quiet_rmBpts h.held_break hapart
    exact ⟨hquiet.clean,hquiet.trc,hquiet.trcb⟩
  case isFalse hdebug =>
    have hnot := not_or.mp hdebug
    split
    case isTrue hunexpected =>
      have hnone : NoneSet s := by
        rcases hok.expected hnot.1 hnot.2 with hbp | hhit | hnone
        · exact absurd hbp hunexpected.1
        · exact absurd hunexpected.2 hhit
        · exact hnone
      have hquiet := h.quiet_of_noneSet hnone
      exact ⟨hquiet.clean,hquiet.trc,hquiet.trcb⟩
    case isFalse hexpected =>
      split
      case h_1 hmode => exact absurd hmode h.on
      case h_2 hmode =>
        have hquiet := quiet_rmBpts h.held_break (apart_of_nil (h.idle (.inl hmode)))
        exact ⟨hquiet.clean,hquiet.trc,hquiet.trcb⟩
      case h_3 hno hgb =>
        -- only the stepping modes are left, which have planted nothing but trace breakpoints
        have hbreaks : s.traceMode.breaks=false := by
          cases hmode : s.traceMode <;> simp_all [TraceMode.breaks,hok.notStepping]
        have hheld := h.held
        rw [hbreaks] at hheld
        apply Quiet.afterTrace
        exact ⟨removeTraceBreakpoint_held hheld,rfl,rfl⟩

/-- The steps that keep breakpoints out of sight: exceptions in a non-debug mode, debugger steps and
exits that leave no breakpoint behind. -/
def Allowed (s : State κ) : Event κ → Prop
  | .exception x =>
    (s.traceMode = .ds → Apart s) ∧ (s.traceMode ≠ .dc → s.traceMode ≠ .ds → s.traceMode ≠ .dw →
        x.exc=CEXC_BP ∨ x.hit≠0 ∨ NoneSet s)
  | .exit =>
    match s.gobuf with
    | some _ => NoneSet s
    | none => s.traceMode = .gb ∨ Apart s
  | _ => True

theorem Running.afterInexact (h : Running s) (x : Exc κ) (hmode : mode = .gb ∨ mode = .dc) :
    Running (removeTraceBreakpoint {s with epc := x.epc, regs := x.regs, traceMode := mode}) := by
  have hremoved := removeTraceBreakpoint_held
    (s := {s with epc := x.epc, regs := x.regs, traceMode := mode}) h.held_break
  refine ⟨?_,?_,fun _ => traceList_eq_nil rfl rfl⟩
  · change mode ≠ .no
    rcases hmode with rfl | rfl <;> decide
  · have hbreaks : mode.breaks=true := by
      rcases hmode with rfl | rfl <;> rfl
    change Held BPT_CODE (traceList (removeTraceBreakpoint _))
      (if mode.breaks then breakList s else []) _
    rw [if_pos hbreaks,traceList_eq_nil rfl rfl]
    exact hremoved

theorem Running.exception (h : Running s) (cpu : Cpu κ) (x : Exc κ)
    (hok : Allowed s (.exception x)) : Inv (exception cpu s x) := by
  have hgoOn : ∀ t : State κ, Running t → DispatchOk t x →
      Inv (if x.exc=CEXC_BP ∧ ¬ isBreakPoint t t.epc then enterClient t
        else Go.dispatch cpu t x) := by
    intro t ht hdispatch
    split
    · exact ⟨ht.on,ht.held,ht.idle⟩
    · exact ht.dispatch cpu x hdispatch
  rw [Go.exception]
  split
  case isTrue hinexact =>
    -- the table stays planted and the trace breakpoints come on top of it
    have hnil : traceList s=[] := by
      rcases hinexact.1 with hdc | hgb
      · exact h.idle (.inr hdc)
      · exact h.idle (.inl hgb)
    have hheld := h.held_break
    rw [hnil] at hheld
    by_cases hdc : s.traceMode = .dc
    · simp only [hdc,if_true]
      exact running_of_trace cpu x.epc false (by decide) (by decide) hheld
    · simp only [hdc,if_false]
      exact running_of_trace cpu x.epc false (by decide) (by decide) hheld
  case isFalse =>
    split
    case isTrue hstep =>
      by_cases hdw : s.traceMode = .dw
      · simp only [hdw,if_true]
        apply hgoOn _ (h.afterInexact x (.inr rfl))
        exact ⟨⟨nofun,nofun⟩,nofun,fun hdc => absurd rfl hdc⟩
      · have htw : s.traceMode = .tw := hstep.resolve_left hdw
        simp only [hdw,if_false]
        apply hgoOn _ (h.afterInexact x (.inl rfl))
        refine ⟨⟨nofun,nofun⟩,nofun,fun _ _ => ?_⟩
        rcases hok.2 (by simp [htw]) (by simp [htw]) hdw with hbp | hhit | hnone
        · exact .inl hbp
        · exact .inr (.inl hhit)
        · exact .inr (.inr ⟨hnone.1,traceList_eq_nil rfl rfl⟩)
    case isFalse hstep =>
      have hnot := not_or.mp hstep
      have h' : Running {s with epc := x.epc, regs := x.regs} := ⟨h.on,h.held,h.idle⟩
      exact h'.dispatch cpu x ⟨⟨hnot.2,hnot.1⟩,hok.1,fun hdc hds => hok.2 hdc hds hnot.1⟩

theorem Running.cliexit (h : Running s) (hok : Allowed s .exit) : Inv (cliexit s) := by
  simp only [Allowed] at hok
  rw [Go.cliexit]
  split at hok
  case h_1 f hf =>
    have hquiet := h.quiet_of_noneSet hok
    rw [hf]
    cases f with
    | go c => exact ⟨hquiet.clean,hquiet.trc,hquiet.trcb⟩
    | dbgmode => exact ⟨hquiet.clean,hquiet.trc,hquiet.trcb⟩
  case h_2 hf =>
    have hapart : Apart s := by
      rcases hok with hgb | hapart
      · exact apart_of_nil (h.idle (.inl hgb))
      · exact hapart
    have hquiet := quiet_rmBpts h.held_break hapart
    rw [hf]
    exact ⟨hquiet.clean,hquiet.trc,hquiet.trcb⟩

section
variable (h : Quiet s)
include h

theorem Quiet.edit (hloc : s.loc ≠ .client) (writes : List (ℕ × ℕ)) (bpt : List Bps) (epc : ℕ)
    (regs : κ) : Inv (edit s writes bpt epc regs) := by
  have hquiet : Quiet (Go.edit s writes bpt epc regs) := ⟨h.clean.writeAll writes,h.trc,h.trcb⟩
  cases hcase : s.loc with
  | client => exact absurd hcase hloc
  | command c => simpa only [Inv,show (Go.edit s writes bpt epc regs).loc=_ from hcase]
  | debug => simpa only [Inv,show (Go.edit s writes bpt epc regs).loc=_ from hcase]

theorem Quiet.sstep (cpu : Cpu κ) (epc : ℕ) :
    Inv (sstep cpu {s with epc := epc}) := by
  have hquiet : Quiet {s with epc := epc} := ⟨h.clean,h.trc,h.trcb⟩
  exact hquiet.running_of_step cpu epc false (by decide) rfl

theorem Quiet.godebug (epc : ℕ) : Inv (godebug {s with epc := epc}) := by
  have hquiet : Quiet {s with epc := epc} := ⟨h.clean,h.trc,h.trcb⟩
  exact hquiet.running_of_break (.inr rfl)

theorem Quiet.main : Inv (main s) := by
  have hquiet := h.rmBpts
  exact ⟨hquiet.clean,hquiet.trc,hquiet.trcb⟩

theorem Quiet.go (cpu : Cpu κ) (hloc : s.loc = .command c) (args : GoArgs κ) :
    Inv (go cpu c args s) := by
  rw [Go.go]
  split
  · simp only [Inv,hloc]
    exact ⟨h.clean,rfl,rfl⟩
  · apply Quiet.goclient
    exact ⟨h.clean.writeAll args.stack,rfl,rfl⟩

theorem Quiet.cont (cpu : Cpu κ) (hloc : s.loc = .command c) (adr : Option ℕ) (bad : Bool) :
    Inv (cont cpu adr bad s) := by
  rw [Go.cont]
  split
  · simp only [Inv,hloc]
    exact ⟨h.clean,rfl,rfl⟩
  · apply Quiet.goclient
    exact ⟨h.clean,rfl,rfl⟩

theorem Quiet.trace (cpu : Cpu κ) (hloc : s.loc = .command c) (args : TraceArgs) :
    Inv (trace cpu args s) := by
  rw [Go.trace]
  split
  · simp only [Inv,hloc]
    exact ⟨h.clean,h.trc,h.trcb⟩
  · have hmode : (if args.multi then TraceMode.tn else .tb) ≠ .no ∧
        (if args.multi then TraceMode.tn else .tb).breaks=false := by
      split <;> exact ⟨by decide,rfl⟩
    have hquiet : Quiet { s with
        traceOver := args.stepOver
        traceInvalid := args.invalid
        stopval := args.stops
        traceCount := args.count.getD s.traceCount } := ⟨h.clean,h.trc,h.trcb⟩
    exact hquiet.running_of_step cpu s.epc args.stepOver hmode.1 hmode.2
end

theorem Inv.step {cpu : Cpu κ} {s' : State κ} {e : Event κ} (h : Inv s)
    (hstep : step cpu s e=some s') (hok : Allowed s e) : Inv s' := by
  unfold Inv at h
  unfold Go.step at hstep
  split at hstep <;> rename_i hloc <;> simp only [Option.some.injEq,reduceCtorEq] at hstep <;>
    subst hstep <;> simp only [hloc] at h
  case h_1 => exact Quiet.go h cpu hloc _
  case h_2 => exact Quiet.cont h cpu hloc _ _
  case h_3 => exact Quiet.trace h cpu hloc _
  case h_4 stack regs => exact ⟨h.clean.writeAll stack,h.trc,h.trcb⟩
  case h_5 writes bpt epc regs => exact Quiet.edit h (by simp [hloc]) writes bpt epc regs
  case h_6 =>
    simp only [Inv,hloc]
    exact h
  case h_7 => exact Quiet.main h
  case h_8 writes =>
    simp only [Inv,hloc]
    exact ⟨h.on,h.held.writeAll writes,h.idle⟩
  case h_9 x => exact Running.exception h cpu x hok
  case h_10 => exact Running.cliexit h hok
  case h_11 writes bpt epc regs => exact Quiet.edit h (by simp [hloc]) writes bpt epc regs
  case h_12 adr => exact Quiet.sstep h cpu _
  case h_13 adr => exact Quiet.godebug h _
  case h_14 =>
    have hcleared : Quiet (clrbpts {s with traceMode := .no, gobuf := none}) :=
      ⟨h.clean,h.trc,h.trcb⟩
    exact hcleared.main

def AllAllowed (cpu : Cpu κ) : State κ → List (Event κ) → Prop
  | _, [] => True
  | s, e::es => Allowed s e ∧ ∀ s', step cpu s e=some s' → AllAllowed cpu s' es

theorem Inv.run {cpu : Cpu κ} {es : List (Event κ)} {s' : State κ} (h : Inv s)
    (hrun : run cpu s es=some s') (hok : AllAllowed cpu s es) : Inv s' := by
  induction es generalizing s with
  | nil =>
    cases hrun
    exact h
  | cons e es ih =>
    simp only [Go.run,foldlM_cons,Option.bind_eq_bind,Option.bind_eq_some_iff] at hrun
    obtain ⟨t,hstep,hrest⟩ := hrun
    exact ih (h.step hstep hok.1) hrest (hok.2 t hstep)

/-- In every run of allowed steps no word is left patched while a command string is executed. -/
theorem run_command_unplanted (cpu : Cpu κ) (word : ℕ → ℕ) (epc : ℕ) (regs : κ)
    (es : List (Event κ)) (s : State κ) (hrun : run cpu (start word epc regs) es=some s)
    (hok : AllAllowed cpu (start word epc regs) es) (c : CmdFrame) (hloc : s.loc = .command c)
    (a : ℕ) : s.mem.planted a=none := by
  have hinv := (inv_start word epc regs).run hrun hok
  simp only [Inv,hloc] at hinv
  exact held_nil.mp hinv.clean a

def straightLine : Cpu Unit where
  isBranch := fun _ _ => false
  branchTargetAddress := fun _ _ _ => 0
  isConditionalBranch := fun _ _ => false
  isJal := fun _ _ => false
  isJr := fun _ _ => false
  isWriteable := fun _ _ => true
  ra := fun _ => 0

def tableWith (adr : ℕ) : List Bps :=
  {Bps.unused with addr := adr, len := 4}::List.replicate 63 Bps.unused

def plainGo : GoArgs Unit :=
  {bptTmp := none, entry := none, usage := false, stack := [], regs := ()}

def plainExc (exc epc : ℕ) : Exc Unit :=
  {exc := exc, epc := epc, regs := (), hit := 0, hitaddr := 0, hitlen := 0, validpc := true}

def breakRun (exc : ℕ) : List (Event Unit) :=
  [.other [] (tableWith 0x80020100) 0x80020000 (),.go plainGo,
    .exception (plainExc exc 0x80020100)]

theorem run_command_unplanted_breakRun :
    ∃ s, run straightLine (start (fun _ => 0) 0x80020000 ()) (breakRun CEXC_BP)=some s ∧
      s.loc = .command .brkcmd ∧ s.mem.planted 0x80020100=none := by
  refine ⟨_,rfl,rfl,?_⟩
  apply run_command_unplanted straightLine (fun _ => 0) 0x80020000 () (breakRun CEXC_BP) _ rfl _
    .brkcmd rfl
  refine ⟨trivial, fun s₁ h₁ => ⟨trivial, fun s₂ h₂ => ⟨⟨?_, fun _ _ _ => .inl rfl⟩,?_⟩⟩⟩
  · cases h₁
    cases h₂
    nofun
  · exact fun _ _ => trivial

theorem unexpected_exception_plants :
    ∃ s, run straightLine (start (fun _ => 0) 0x80020000 ()) (breakRun 8)=some s ∧
      s.loc = .command .brkcmd ∧ s.mem.planted 0x80020100=some 0 ∧
      s.mem.word 0x80020100=BPT_CODE :=
  ⟨_,rfl,rfl,rfl,rfl⟩

end Pmon.Go
