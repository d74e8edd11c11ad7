import Pmon.Go

/-!
# How far `trace` goes

`exception` counts the steps and switches to `TRACE_TB` for the last one, which a count of 1 never
reaches. A register condition records the register's value as an address.
-/

namespace Pmon.Go
open CodePatch List
variable {κ : Type}

structure ArgReader (κ : Type) where
  getRsa : List Char → Option ℕ
  register : κ → List Char → Option ℕ

def STOPMAX : ℕ := 10
def noStops : List Stopentry := List.replicate STOPMAX ⟨0,0,false⟩

def addstop (adr val : ℕ) (sense : Char) : List Stopentry → Option (List Stopentry)
  | [] => none
  | e::es =>
    if e.addr=0 then some (⟨adr,val,decide (sense = 'M' ∨ sense = 'R')⟩::es)
    else (addstop adr val sense es).map (e :: ·)

structure TraceParse where
  count : Option ℕ
  multi : Bool
  invalid : Bool
  stops : List Stopentry
  counted : Bool

def TraceParse.init : TraceParse := ⟨none,false,false,noStops,false⟩

inductive OptEnd where
  | done
  | condition (c : Char)
  | unrecognized

def scanOpts : List Char → TraceParse → OptEnd × TraceParse
  | [], p => (.done,p)
  | c::cs, p =>
    if c = 'v' then scanOpts cs {p with count := some 0, multi := true}
    else if c = 'm' ∨ c = 'M' ∨ c = 'r' ∨ c = 'R' then (.condition c,p)
    else if c = 'b' ∨ c = 'c' then scanOpts cs p
    else if c = 'i' then scanOpts cs {p with invalid := true, count := some 0, multi := true}
    else (.unrecognized,p)

def addCondition (rd : ArgReader κ) (regs : κ) (c : Char) (what val : List Char)
    (p : TraceParse) : Option TraceParse :=
  let adr := if c = 'm' ∨ c = 'M' then rd.getRsa what else rd.register regs what
  match adr, rd.getRsa val with
  | some adr, some val =>
    (addstop adr val c p.stops).map fun stops =>
      {p with stops := stops, count := some 0, multi := true}
  | _, _ => none

def traceArgs (rd : ArgReader κ) (regs : κ) : List (List Char) → TraceParse → Bool × TraceParse
  | [], p => (true,p)
  | ('-' :: opts)::rest, p =>
    match scanOpts opts p with
    | (.done,p) => traceArgs rd regs rest p
    | (.unrecognized,p) => (false,p)
    | (.condition c,p) =>
      match rest with
      | what::val::rest =>
        match addCondition rd regs c what val p with
        | some p => traceArgs rd regs rest p
        | none => (false,p)
      | _ => (false,p)
  | arg::rest, p =>
    if p.counted then (false,p)
    else
      match rd.getRsa arg with
      | none => (false,p)
      | some n => traceArgs rd regs rest {p with count := some n, multi := true, counted := true}

def traceCommand (cpu : Cpu κ) (rd : ArgReader κ) (stepOver : Bool) (av : List (List Char))
    (s : State κ) : State κ :=
  let (ok,p) := traceArgs rd s.regs av .init
  trace cpu
    { stepOver := stepOver
      count := p.count
      multi := p.multi
      invalid := p.invalid
      stops := p.stops
      usage := !ok } s

structure Turn (κ : Type) where
  writes : List (ℕ × ℕ)
  exc : Exc κ

def turn (cpu : Cpu κ) (s : State κ) (t : Turn κ) : Option (State κ) :=
  (step cpu s (.client t.writes)).bind fun s => step cpu s (.exception t.exc)

def runTurns (cpu : Cpu κ) (s : State κ) (ts : List (Turn κ)) : Option (State κ) :=
  ts.foldlM (turn cpu) s

/-- A step that ends in a breakpoint exception, but not at a breakpoint of the table. -/
structure Turn.Quiet (bpt : List Bps) (t : Turn κ) : Prop where
  exc : t.exc.exc=CEXC_BP
  hit : t.exc.hit=0
  table : ∀ b∈bpt, ¬(b.addr=t.exc.epc ∧ b.wpt=0)

structure Tracing (bpt : List Bps) (stops : List Stopentry) (count : ℕ) (mode : TraceMode)
    (s : State κ) : Prop where
  loc : s.loc = .client
  mode : s.traceMode=mode
  count : s.traceCount=count
  bpt : s.bpt=bpt
  stops : s.stopval=stops
  invalid : s.traceInvalid=false

def testedMemory (s : State κ) (t : Turn κ) : Memory ℕ ℕ :=
  (removeTraceBreakpoint {s with mem := s.mem.writeAll t.writes}).mem

def stepped (s : State κ) (t : Turn κ) : State κ := removeTraceBreakpoint { s with
    mem := s.mem.writeAll t.writes, epc := t.exc.epc, regs := t.exc.regs }

section
variable {bpt : List Bps} {stops : List Stopentry} {count : ℕ} {s : State κ} {t : Turn κ}

theorem turn_eq (cpu : Cpu κ) {mode : TraceMode} (h : Tracing bpt stops count mode s)
    (hmode : mode = .tb ∨ mode = .tn) (ht : t.Quiet bpt) :
    turn cpu s t=some (afterTrace cpu (stepped s t) t.exc) := by
  have hexc := ht.exc
  have hhit := ht.hit
  have hstep : turn cpu s t=some (exception cpu {s with mem := s.mem.writeAll t.writes} t.exc) := by
    simp only [turn,step,h.loc,Option.bind_some]
  rw [hstep,exception,dispatch]
  rcases hmode with rfl | rfl
  · simp [h.mode,hexc,hhit,stepped]
  · simp [h.mode,hexc,hhit,stepped]

theorem stepped_tracing {mode : TraceMode} (h : Tracing bpt stops count mode s) :
    Tracing bpt stops count mode (stepped s t) :=
  ⟨h.loc,h.mode,h.count,h.bpt,h.stops,h.invalid⟩

theorem turn_tb (cpu : Cpu κ) (h : Tracing bpt stops count .tb s) (ht : t.Quiet bpt) :
    ∃ s', turn cpu s t=some s' ∧ s'.loc = .command .brkcmd := by
  refine ⟨_,turn_eq cpu h (Or.inl rfl) ht,?_⟩
  rw [afterTrace,(stepped_tracing h).mode]
  rfl

theorem turn_tn (cpu : Cpu κ) (h : Tracing bpt stops count .tn s) (ht : t.Quiet bpt) :
    ∃ s', turn cpu s t=some s' ∧
      if stops.any (·.holds (testedMemory s t)) then s'.loc = .command .brkcmd
      else Tracing bpt stops (count-1) (if count-1=1 then .tb else .tn) s' := by
  have hstep := stepped_tracing (t := t) h
  have hnone : bptAtEpc (stepped s t)=none := by
    rw [bptAtEpc,hstep.bpt,find?_eq_none]
    intro b hb
    rw [decide_eq_true_eq]
    exact ht.table b hb
  have hmem : (stepped s t).mem=testedMemory s t := rfl
  refine ⟨_,turn_eq cpu h (Or.inr rfl) ht,?_⟩
  simp only [afterTrace,hstep.mode,hnone,ht.hit,hstep.invalid,hstep.stops,hmem]
  by_cases hstop : stops.any (·.holds (testedMemory s t))=true
  · rw [if_pos hstop]
    simp [hstop,stop]
  · rw [if_neg hstop]
    simp only [hstop]
    refine ⟨rfl,?_,?_,hstep.bpt,hstep.stops,hstep.invalid⟩
    · change (if (stepped s t).traceCount-1=1 then TraceMode.tb else (stepped s t).traceMode)
        = _
      rw [hstep.count,hstep.mode]
    · change (stepped s t).traceCount-1=_
      rw [hstep.count]
end

theorem noStops_any (m : Memory ℕ ℕ) : noStops.any (·.holds m)=false := by
  simp [noStops,Stopentry.holds]

theorem traceCommand_tracing (cpu : Cpu κ) (rd : ArgReader κ) (stepOver : Bool)
    {av : List (List Char)} (s : State κ) {p : TraceParse} {n : ℕ}
    (hargs : traceArgs rd s.regs av .init=(true,p)) (hcount : p.count=some n)
    (hmulti : p.multi=true) (hinvalid : p.invalid=false) :
    Tracing s.bpt p.stops n .tn (traceCommand cpu rd stepOver av s) := by
  simp only [traceCommand,hargs,trace,hcount,hmulti,hinvalid]
  exact ⟨rfl,rfl,rfl,rfl,rfl,rfl⟩

theorem traceArgs_count (rd : ArgReader κ) (regs : κ) {arg : List Char} {n : ℕ}
    (hget : rd.getRsa arg=some n) (harg : arg.head?≠some '-') :
    traceArgs rd regs [arg] .init=(true,⟨some n,true,false,noStops,true⟩) := by
  unfold traceArgs
  split
  · rename_i hlist
    cases hlist
  · rename_i hlist
    cases hlist
    exact absurd rfl harg
  · rename_i hlist
    cases hlist
    simp [TraceParse.init,hget,traceArgs]

section
variable {bpt : List Bps} {s : State κ}

theorem runTurns_counting (cpu : Cpu κ) {m : ℕ} (h : Tracing bpt noStops (m+2) .tn s)
    {ts : List (Turn κ)} (hquiet : ∀ t∈ts, t.Quiet bpt) (hlen : ts.length ≤ m+1) :
    ∃ s' count, runTurns cpu s ts=some s' ∧
      Tracing bpt noStops count (if ts.length=m+1 then .tb else .tn) s' := by
  induction ts generalizing m s with
  | nil => exact ⟨s,m+2,rfl,by simpa using h⟩
  | cons t ts ih =>
    obtain ⟨s₁,hturn,hnext⟩ := turn_tn cpu h (hquiet t mem_cons_self)
    rw [noStops_any,if_neg Bool.false_ne_true] at hnext
    have hquiet' : ∀ t∈ts, t.Quiet bpt := fun u hu => hquiet u (mem_cons_of_mem _ hu)
    have hrun : runTurns cpu s (t::ts)=runTurns cpu s₁ ts := by
      simp only [runTurns,foldlM_cons,hturn]
      rfl
    rw [hrun]
    cases m with
    | zero =>
      have hnil := length_eq_zero_iff.mp (by simpa using hlen)
      subst hnil
      exact ⟨s₁,_,rfl,hnext⟩
    | succ m =>
      have htn : Tracing bpt noStops (m+2) .tn s₁ := by simpa using hnext
      obtain ⟨s',count,hrest,htracing⟩ := ih htn hquiet' (by simpa using hlen)
      exact ⟨s',count,hrest,by simpa using htracing⟩

theorem runTurns_uncounted (cpu : Cpu κ) {stops : List Stopentry} {count : ℕ}
    (h : Tracing bpt stops count .tn s) (hcount : count≤1) {ts : List (Turn κ)}
    (hquiet : ∀ t∈ts, t.Quiet bpt) {s' : State κ} (hrun : runTurns cpu s ts=some s')
    (hloc : s'.loc = .client) : ∃ count'≤1, Tracing bpt stops count' .tn s' := by
  induction ts generalizing s count with
  | nil =>
    cases hrun
    exact ⟨count,hcount,h⟩
  | cons t ts ih =>
    obtain ⟨s₁,hturn,hnext⟩ := turn_tn cpu h (hquiet t mem_cons_self)
    have hquiet' : ∀ t∈ts, t.Quiet bpt := fun u hu => hquiet u (mem_cons_of_mem _ hu)
    simp only [runTurns,foldlM_cons,hturn] at hrun
    change runTurns cpu s₁ ts=some s' at hrun
    split at hnext
    · -- it has stopped, and no step can follow
      cases ts with
      | nil =>
        cases hrun
        rw [hnext] at hloc
        cases hloc
      | cons u us =>
        have hnone : turn cpu s₁ u=none := by simp only [turn,step,hnext,Option.bind_none]
        simp only [runTurns,foldlM_cons,hnone] at hrun
        cases hrun
    · rw [if_neg (by omega)] at hnext
      exact ih hnext (by omega) hquiet' hrun
end

structure StopsAfter (cpu : Cpu κ) (s : State κ) (ts : List (Turn κ)) : Prop where
  running : ∀ k<ts.length, ∃ s', runTurns cpu s (ts.take k)=some s' ∧ s'.loc = .client
  mode : ∃ s', runTurns cpu s (ts.take (ts.length-1))=some s' ∧ s'.traceMode = .tb
  stopped : ∃ s', runTurns cpu s ts=some s' ∧ s'.loc = .command .brkcmd

/-- `t n` stops after exactly `n` steps if `n` is not 1, and then only. -/
theorem traceCommand_stopsAfter_iff (cpu : Cpu κ) (rd : ArgReader κ) (stepOver : Bool)
    (s : State κ) {arg : List Char} {n : ℕ} (hget : rd.getRsa arg=some n)
    (harg : arg.head?≠some '-') (hn : 1≤n) {ts : List (Turn κ)} (hlen : ts.length=n)
    (hquiet : ∀ t∈ts, t.Quiet s.bpt) :
    StopsAfter cpu (traceCommand cpu rd stepOver [arg] s) ts ↔ n≠1 := by
  have hstart :=
    traceCommand_tracing cpu rd stepOver s (traceArgs_count rd s.regs hget harg) rfl rfl rfl
  constructor
  · rintro hstops rfl
    obtain ⟨t,rfl⟩ := length_eq_one_iff.mp hlen
    obtain ⟨s₁,hturn,hnext⟩ := turn_tn cpu hstart (hquiet t mem_cons_self)
    rw [noStops_any,if_neg Bool.false_ne_true] at hnext
    obtain ⟨s',hrun,hloc⟩ := hstops.stopped
    simp only [runTurns,foldlM_cons,foldlM_nil,hturn] at hrun
    cases hrun
    rw [hnext.loc] at hloc
    cases hloc
  · intro hne
    obtain ⟨m,rfl⟩ : ∃ m, n=m+2 := ⟨n-2, by omega⟩
    have hprefix : ∀ k ≤ m+1, ∃ s' count,
        runTurns cpu (traceCommand cpu rd stepOver [arg] s) (ts.take k)=some s' ∧
          Tracing s.bpt noStops count (if k=m+1 then .tb else .tn) s' := by
      intro k hk
      have hklen : (ts.take k).length=k := by
        rw [length_take]
        omega
      have hcounting := runTurns_counting cpu hstart
        (fun t ht => hquiet t (mem_of_mem_take ht)) (by omega : (ts.take k).length ≤ m+1)
      rw [hklen] at hcounting
      exact hcounting
    obtain ⟨s₁,count,hrun,htracing⟩ := hprefix (m+1) le_rfl
    rw [if_pos rfl] at htracing
    refine ⟨?_,?_,?_⟩
    · intro k hk
      obtain ⟨s',_,hrun',htracing'⟩ := hprefix k (by omega)
      exact ⟨s',hrun',htracing'.loc⟩
    · rw [hlen]
      exact ⟨s₁,hrun,htracing.mode⟩
    · -- the last step
      have hlast : m+1<ts.length := by omega
      have hsplit : ts=ts.take (m+1)++[ts.get ⟨m+1,hlast⟩] := by
        rw [get_eq_getElem,take_append_getElem,take_of_length_le (by omega)]
      obtain ⟨s₂,hturn,hloc⟩ := turn_tb cpu htracing (hquiet _ (get_mem ts ⟨m+1,hlast⟩))
      refine ⟨s₂,?_,hloc⟩
      rw [hsplit]
      simp only [runTurns,foldlM_append,foldlM_cons,foldlM_nil]
      simp only [runTurns] at hrun
      rw [hrun]
      simp only [Option.bind_eq_bind,Option.bind_some,hturn]
      rfl

def oneRegister : Cpu ℕ where
  isBranch := fun _ _ => false
  branchTargetAddress := fun _ _ _ => 0
  isConditionalBranch := fun _ _ => false
  isJal := fun _ _ => false
  isJr := fun _ _ => false
  isWriteable := fun _ _ => true
  ra := id

def digitReader : ArgReader ℕ where
  getRsa := fun cs =>
    match cs with
    | [c] => if '0' ≤ c ∧ c ≤ '9' then some (c.toNat - '0'.toNat) else none
    | _ => none
  register := fun regs _ => some regs

def plainTurn (epc reg : ℕ) : Turn ℕ where
  writes := []
  exc :=
    {exc := CEXC_BP, epc := epc, regs := reg, hit := 0, hitaddr := 0, hitlen := 0, validpc := true}

theorem plainTurn_quiet (epc reg : ℕ) (hepc : epc≠NO_BPT) :
    (plainTurn epc reg).Quiet (List.replicate 64 Bps.unused) := by
  refine ⟨rfl,rfl,fun b hb hhit => ?_⟩
  rw [eq_of_mem_replicate hb] at hhit
  exact hepc hhit.1.symm

theorem traceCommand_stopsAfter_two :
    StopsAfter oneRegister (traceCommand oneRegister digitReader false [['2']]
      (start (fun _ => 0) 0x80020000 0)) [plainTurn 0x80020004 0,plainTurn 0x80020008 0] := by
  refine (traceCommand_stopsAfter_iff oneRegister digitReader false _ (by rfl) (by decide)
    (by decide : 1≤2) rfl ?_).mpr (by decide)
  intro t ht
  rcases mem_cons.mp ht with rfl | ht
  · exact plainTurn_quiet _ _ (by decide)
  · rw [mem_singleton] at ht
    subst ht
    exact plainTurn_quiet _ _ (by decide)

theorem traceCommand_one_running :
    ∃ s, runTurns oneRegister (traceCommand oneRegister digitReader false [['1']]
        (start (fun _ => 0) 0x80020000 0)) [plainTurn 0x80020004 0]=some s ∧
      s.loc = .client ∧ s.traceMode = .tn ∧ s.traceCount=0 :=
  ⟨_,rfl,rfl,rfl,rfl⟩

def registerStops (r₀ val : ℕ) (differs : Bool) : List Stopentry :=
  ⟨r₀,val,differs⟩::List.replicate 9 ⟨0,0,false⟩

theorem traceArgs_register (rd : ArgReader κ) (regs : κ) {reg val : List Char} {r₀ v : ℕ}
    (differs : Bool) (hreg : rd.register regs reg=some r₀) (hval : rd.getRsa val=some v) :
    traceArgs rd regs [['-', if differs then 'R' else 'r'],reg,val] .init
      = (true,⟨some 0,true,false,registerStops r₀ v differs,false⟩) := by
  cases differs with
  | false => simp [traceArgs,scanOpts,addCondition,hreg,hval,addstop,TraceParse.init,
      noStops,STOPMAX,registerStops,List.replicate]
  | true => simp [traceArgs,scanOpts,addCondition,hreg,hval,addstop,TraceParse.init,
      noStops,STOPMAX,registerStops,List.replicate]

theorem registerStops_any (r₀ val : ℕ) (differs : Bool) (m : Memory ℕ ℕ) :
    (registerStops r₀ val differs).any (·.holds m)=true ↔
      r₀≠0 ∧ (m.word r₀=val ↔ differs=false) := by
  cases differs with
  | false => simp [registerStops,Stopentry.holds]
  | true => simp [registerStops,Stopentry.holds]

/-- `t -r reg val` stops exactly when the register equals `val` if and only if that agrees with the
word at the address the register held at first, which is not 0. -/
theorem traceRegister_stops_iff (cpu : Cpu κ) (rd : ArgReader κ) (stepOver differs : Bool)
    (s : State κ) {reg val : List Char} {r₀ v : ℕ} (hreg : rd.register s.regs reg=some r₀)
    (hval : rd.getRsa val=some v) {ts : List (Turn κ)} (hquiet : ∀ t∈ts, t.Quiet s.bpt)
    {s' : State κ} (hrun : runTurns cpu (traceCommand cpu rd stepOver
      [['-', if differs then 'R' else 'r'],reg,val] s) ts=some s')
    (hloc : s'.loc = .client) {t : Turn κ} (ht : t.Quiet s.bpt) :
    ((∃ s'', turn cpu s' t=some s'' ∧ s''.loc = .command .brkcmd) ↔
        (rd.register t.exc.regs reg=some v ↔ differs=false)) ↔
      (r₀≠0 ∧ ((testedMemory s' t).word r₀=v ↔ differs=false) ↔
        (rd.register t.exc.regs reg=some v ↔ differs=false)) := by
  have hstart := traceCommand_tracing cpu rd stepOver s
    (traceArgs_register rd s.regs differs hreg hval) rfl rfl rfl
  obtain ⟨count,-,htracing⟩ := runTurns_uncounted cpu hstart (Nat.zero_le 1) hquiet hrun hloc
  obtain ⟨s₁,hturn,hnext⟩ := turn_tn cpu htracing ht
  have hstops : (∃ s'', turn cpu s' t=some s'' ∧ s''.loc = .command .brkcmd) ↔
      r₀≠0 ∧ ((testedMemory s' t).word r₀=v ↔ differs=false) := by
    rw [←registerStops_any]
    constructor
    · rintro ⟨s₂,hturn₂,hstop⟩
      rw [hturn] at hturn₂
      cases hturn₂
      by_contra hnone
      rw [if_neg hnone] at hnext
      rw [hnext.loc] at hstop
      cases hstop
    · intro hany
      rw [if_pos hany] at hnext
      exact ⟨s₁,hturn,hnext⟩
  rw [hstops]

def pointerState : State ℕ := start (fun a => if a=0x80030000 then 5 else 0) 0x80020000 0x80030000

theorem traceRegister_stops_pointer :
    (∃ s'', turn oneRegister (traceCommand oneRegister digitReader false
        [['-', 'r'],['a'],['5']] pointerState) (plainTurn 0x80020004 5)=some s'' ∧
        s''.loc = .command .brkcmd) ↔
      (digitReader.register (plainTurn 0x80020004 5).exc.regs ['a']=some 5 ↔ false=false) := by
  have hreg : digitReader.register pointerState.regs ['a']=some 0x80030000 := rfl
  have hval : digitReader.getRsa ['5']=some 5 := rfl
  have hquiet : ∀ t∈([] : List (Turn ℕ)), t.Quiet pointerState.bpt := by simp
  have hrun : runTurns oneRegister (traceCommand oneRegister digitReader false
      [['-', if false then 'R' else 'r'],['a'],['5']] pointerState) []
      = some (traceCommand oneRegister digitReader false [['-', 'r'],['a'],['5']]
        pointerState) := rfl
  refine (traceRegister_stops_iff oneRegister digitReader false false pointerState hreg hval
    hquiet hrun rfl (plainTurn_quiet 0x80020004 5 (by decide))).mpr ?_
  exact iff_of_true ⟨by decide, by decide +kernel⟩ (by decide +kernel)

theorem traceRegister_misses :
    ∃ s, turn oneRegister (traceCommand oneRegister digitReader false [['-', 'r'],['a'],['5']]
        (start (fun _ => 0) 0x80020000 0)) (plainTurn 0x80020004 5)=some s ∧
      digitReader.register s.regs ['a']=some 5 ∧ s.loc = .client :=
  ⟨_,rfl,rfl,rfl⟩

end Pmon.Go
