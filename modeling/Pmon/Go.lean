import Pmon.CodePatch

/-!
# Running and tracing a client

`go`, `cont`, `trace` and `debug` plant breakpoints and enter the client; `exception` decides, by
the trace mode, whether to go on, to enter the remote debugger or to stop. The monitor is inside
`do_cmd`, the client or `dbgmode`. Memory remembers which words are planted and what they held.
Decoding is a parameter.
-/

namespace Pmon.Go
open CodePatch

def NO_BPT : ℕ := 0xffffffff
def BPT_CODE : ℕ := 0xd
def CEXC_BP : ℕ := 0x24
def MIPS_WATCHPOINT_INEXACT : ℕ := 0x8000
def MIPS_WATCHPOINT_VADDR : ℕ := 0x0100

inductive TraceMode where
  | no
  | tb
  | tg
  | gb
  | dg
  | dc
  | ds
  | tn
  | tw
  | dw
  deriving DecidableEq

structure Bps where
  addr : ℕ
  len : ℕ
  value : ℕ
  wpt : ℕ
  cmdstr : Option String

def Bps.unused : Bps := {addr := NO_BPT, len := 0, value := 0, wpt := 0, cmdstr := none}

structure Stopentry where
  addr : ℕ
  value : ℕ
  sense : Bool

inductive CmdFrame where
  | prompt
  | brkcmd
  | cmdstr (s : String)

inductive Frame where
  | go (c : CmdFrame)
  | dbgmode

inductive Loc where
  | command (c : CmdFrame)
  | client
  | debug

/-- What the tracer asks about an instruction in memory; words have 32 bits. -/
structure Cpu (κ : Type) where
  isBranch : (ℕ → ℕ) → ℕ → Bool
  branchTargetAddress : (ℕ → ℕ) → κ → ℕ → ℕ
  isConditionalBranch : (ℕ → ℕ) → ℕ → Bool
  isJal : (ℕ → ℕ) → ℕ → Bool
  isJr : (ℕ → ℕ) → ℕ → Bool
  isWriteable : (ℕ → ℕ) → ℕ → Bool
  ra : κ → ℕ

/-- What the go, continue and trace commands and the exception handler share: memory, the
breakpoints (the temporary one and the two of the tracer apart), the trace and the saved registers.
-/
structure State (κ : Type) where
  mem : Memory ℕ ℕ
  bpt : List Bps
  bptTmp : Bps
  bptTrc : Bps
  bptTrcb : Bps
  traceMode : TraceMode
  traceCount : ℕ
  traceInvalid : Bool
  traceOver : Bool
  stopval : List Stopentry
  epc : ℕ
  regs : κ
  gobuf : Option Frame
  loc : Loc

variable {κ : Type}

def plantBps (m : Memory ℕ ℕ) (b : Bps) : Memory ℕ ℕ × Bps :=
  if b.addr≠NO_BPT then (m.plant BPT_CODE b.addr,{b with value := m.word b.addr}) else (m,b)

def giveBackBps (m : Memory ℕ ℕ) (b : Bps) : Memory ℕ ℕ :=
  if b.addr≠NO_BPT ∧ m.word b.addr=BPT_CODE then m.giveBack b.addr b.value else m

def storeTraceBreakpoint (s : State κ) : State κ :=
  let (m,trc) := plantBps s.mem s.bptTrc
  let (m,trcb) := plantBps m s.bptTrcb
  {s with mem := m, bptTrc := trc, bptTrcb := trcb}

def removeTraceBreakpoint (s : State κ) : State κ := { s with
    mem := giveBackBps (giveBackBps s.mem s.bptTrc) s.bptTrcb
    bptTrc := {s.bptTrc with addr := NO_BPT}
    bptTrcb := {s.bptTrcb with addr := NO_BPT} }

def giveBackTable (m : Memory ℕ ℕ) (bs : List Bps) : Memory ℕ ℕ :=
  bs.foldl (fun m b => if b.wpt=0 then giveBackBps m b else m) m

def rmBpts (s : State κ) : State κ := removeTraceBreakpoint { s with
    mem := giveBackTable (giveBackBps s.mem s.bptTmp) s.bpt
    bptTmp := {s.bptTmp with addr := NO_BPT} }

def plantTable : Memory ℕ ℕ → List Bps → Memory ℕ ℕ × List Bps
  | m, [] => (m,[])
  | m, b::bs =>
    let (m,b) := if b.wpt=0 then plantBps m b else (m,b)
    let (m,bs) := plantTable m bs
    (m,b::bs)

def Bps.dropIf (b : Bps) (p : Prop) [Decidable p] : Bps :=
  if p then {b with addr := NO_BPT} else b

def dropDuplicates (s : State κ) : State κ :=
  let tmp := s.bptTmp.dropIf (∃ b∈s.bpt, s.bptTmp.addr=b.addr)
  let trc := s.bptTrc.dropIf (∃ b∈s.bpt, s.bptTrc.addr=b.addr)
  let trcb := s.bptTrcb.dropIf (∃ b∈s.bpt, s.bptTrcb.addr=b.addr)
  let trc := trc.dropIf (trc.addr=tmp.addr)
  let trcb := trcb.dropIf (trcb.addr=tmp.addr ∨ trcb.addr=trc.addr)
  {s with bptTmp := tmp, bptTrc := trc, bptTrcb := trcb}

def storeBreakpoint (s : State κ) : State κ :=
  let s := dropDuplicates s
  let (m,bpt) := plantTable s.mem s.bpt
  let (m,tmp) := plantBps m s.bptTmp
  storeTraceBreakpoint {s with mem := m, bpt := bpt, bptTmp := tmp}

def clrbpts (s : State κ) : State κ :=
  {s with bpt := s.bpt.map fun b => {b with addr := NO_BPT, wpt := 0}}

def isBreakPoint (s : State κ) (adr : ℕ) : Bool :=
  s.bpt.any (fun b => b.addr=adr ∧ b.wpt=0) || decide (s.bptTmp.addr=adr)

def setTrcbp (cpu : Cpu κ) (s : State κ) (adr : ℕ) (stepover : Bool) : State κ :=
  let w := s.mem.word
  let next := (adr+8)%2^32
  let (trc,trcb) := if cpu.isBranch w adr then
      let target := cpu.branchTargetAddress w s.regs adr
      -- a branch to itself is skipped
      let target := if target=adr then next else target
      let trc := if cpu.isConditionalBranch w adr ∧ target≠next then next else NO_BPT
      if cpu.isJal w adr ∧ stepover then (next,NO_BPT)
      else if cpu.isJr w adr ∧ ¬ cpu.isWriteable w target then (cpu.ra s.regs,NO_BPT)
      else (trc,target)
    else ((adr+4)%2^32,NO_BPT)
  {s with bptTrc := {s.bptTrc with addr := trc}, bptTrcb := {s.bptTrcb with addr := trcb}}

def enterClient (s : State κ) : State κ := {s with loc := .client}

def goclient (cpu : Cpu κ) (cont : Bool) (s : State κ) : State κ :=
  if cont || isBreakPoint s s.epc then
    enterClient (storeTraceBreakpoint {setTrcbp cpu s s.epc false with traceMode := .tg})
  else enterClient (storeBreakpoint {s with traceMode := .gb})

def godebug (s : State κ) : State κ := enterClient (storeBreakpoint {s with traceMode := .dc})

def sstep (cpu : Cpu κ) (s : State κ) : State κ :=
  enterClient (storeTraceBreakpoint {setTrcbp cpu s s.epc false with traceMode := .ds})

def dbgmode (s : State κ) : State κ := {s with gobuf := some .dbgmode, loc := .debug}
def main (s : State κ) : State κ := {rmBpts s with loc := .command .prompt}

def stop (s : State κ) (cmdstr : Option String) : State κ := { s with
    traceMode := .no
    gobuf := none
    loc := .command (match cmdstr with | some c => .cmdstr c | none => .brkcmd) }

def cliexit (s : State κ) : State κ := match s.gobuf with
  | some (.go c) => {s with gobuf := none, loc := .command c}
  | some .dbgmode => {s with gobuf := none, loc := .debug}
  | none => main s

structure Exc (κ : Type) where
  exc : ℕ
  epc : ℕ
  regs : κ
  hit : ℕ
  hitaddr : ℕ
  hitlen : ℕ
  validpc : Bool

def kvaToPa (va : ℕ) : ℕ := va%0x20000000

def Exc.matches (x : Exc κ) (b : Bps) : Bool :=
  let byVaddr : Bool := x.hit &&& MIPS_WATCHPOINT_VADDR ≠ 0
  let hita := if byVaddr then x.hitaddr else kvaToPa x.hitaddr
  let bpa := if byVaddr then b.addr else kvaToPa b.addr
  b.wpt &&& x.hit ≠ 0 ∧ bpa < (hita + x.hitlen) % 2 ^ 32 ∧ hita < (bpa + b.len) % 2 ^ 32

/-- The breakpoint at `Epc`, as a build with 32-bit registers compares it; mips3 is left out. -/
def bptAtEpc (s : State κ) : Option Bps := s.bpt.find? fun b => b.addr=s.epc ∧ b.wpt=0

def Stopentry.holds (e : Stopentry) (m : Memory ℕ ℕ) : Bool :=
  e.addr≠0 ∧ (if e.sense then m.word e.addr≠e.value else m.word e.addr=e.value)

def traceNext (cpu : Cpu κ) (s : State κ) : State κ :=
  let count := s.traceCount-1
  let s := { s with
    traceCount := count
    traceMode := if count=1 then .tb else s.traceMode }
  enterClient (storeTraceBreakpoint (setTrcbp cpu s s.epc s.traceOver))

def afterTrace (cpu : Cpu κ) (s : State κ) (x : Exc κ) : State κ := match s.traceMode with
  | .tb => stop s none
  | .tn =>
    match bptAtEpc s with
    | some b => stop s b.cmdstr
    | none =>
      if x.hit≠0 then stop s none
      else if s.traceInvalid ∧ ¬ x.validpc then stop s none
      else if s.stopval.any (·.holds s.mem) then stop s none
      else traceNext cpu s
  | mode => enterClient (storeBreakpoint {s with traceMode := if mode = .dg then .dc else .gb})

def dispatch (cpu : Cpu κ) (s : State κ) (x : Exc κ) : State κ :=
  if s.traceMode = .dc ∨ s.traceMode = .ds then dbgmode (rmBpts s)
  else if x.exc≠CEXC_BP ∧ x.hit=0 then stop s none
  else
    match s.traceMode with
    | .no => stop s none
    | .gb =>
      let found := if x.hit≠0 then s.bpt.find? x.matches else bptAtEpc s
      stop (rmBpts s) (found.bind (·.cmdstr))
    | _ => afterTrace cpu (removeTraceBreakpoint s) x

def exception (cpu : Cpu κ) (s : State κ) (x : Exc κ) : State κ :=
  let s := {s with epc := x.epc, regs := x.regs}
  if (s.traceMode = .dc ∨ s.traceMode = .gb) ∧ x.hit &&& MIPS_WATCHPOINT_INEXACT ≠ 0 then
    let mode := if s.traceMode = .dc then TraceMode.dw else .tw
    enterClient (storeTraceBreakpoint {setTrcbp cpu s s.epc false with traceMode := mode})
  else if s.traceMode = .dw ∨ s.traceMode = .tw then
    let mode := if s.traceMode = .dw then TraceMode.dc else .gb
    let s := removeTraceBreakpoint {s with traceMode := mode}
    if x.exc=CEXC_BP ∧ ¬ isBreakPoint s s.epc then enterClient s else dispatch cpu s x
  else dispatch cpu s x

structure GoArgs (κ : Type) where
  bptTmp : Option ℕ
  entry : Option ℕ
  usage : Bool
  stack : List (ℕ × ℕ)
  regs : κ

def go (cpu : Cpu κ) (c : CmdFrame) (args : GoArgs κ) (s : State κ) : State κ :=
  let s := { s with
    bptTmp := {s.bptTmp with addr := args.bptTmp.getD NO_BPT}
    bptTrc := {s.bptTrc with addr := NO_BPT}
    bptTrcb := {s.bptTrcb with addr := NO_BPT}
    epc := args.entry.getD s.epc }
  if args.usage then s
  else goclient cpu false { s with
    mem := s.mem.writeAll args.stack, regs := args.regs, gobuf := some (.go c) }

def cont (cpu : Cpu κ) (adr : Option ℕ) (bad : Bool) (s : State κ) : State κ :=
  let s := { s with
    bptTmp := {s.bptTmp with addr := if bad then NO_BPT else adr.getD NO_BPT}
    bptTrc := {s.bptTrc with addr := NO_BPT}
    bptTrcb := {s.bptTrcb with addr := NO_BPT} }
  if bad then s else goclient cpu true s

structure TraceArgs where
  stepOver : Bool
  count : Option ℕ
  multi : Bool
  invalid : Bool
  stops : List Stopentry
  usage : Bool

def trace (cpu : Cpu κ) (args : TraceArgs) (s : State κ) : State κ :=
  let s := { s with
    traceOver := args.stepOver
    traceInvalid := args.invalid
    stopval := args.stops
    traceCount := args.count.getD s.traceCount }
  if args.usage then s
  else
    let mode := if args.multi then TraceMode.tn else .tb
    enterClient (storeTraceBreakpoint {setTrcbp cpu s s.epc args.stepOver with traceMode := mode})

def debug (stack : List (ℕ × ℕ)) (regs : κ) (s : State κ) : State κ :=
  dbgmode (clrbpts {s with mem := s.mem.writeAll stack, regs := regs})

inductive Event (κ : Type) where
  | go (args : GoArgs κ)
  | cont (adr : Option ℕ) (bad : Bool)
  | trace (args : TraceArgs)
  | debug (stack : List (ℕ × ℕ)) (regs : κ)
  | other (writes : List (ℕ × ℕ)) (bpt : List Bps) (epc : ℕ) (regs : κ)
  | done
  | client (writes : List (ℕ × ℕ))
  | exception (x : Exc κ)
  | exit
  | request (writes : List (ℕ × ℕ)) (bpt : List Bps) (epc : ℕ) (regs : κ)
  | reqStep (adr : Option ℕ)
  | reqCont (adr : Option ℕ)
  | reqExit

def edit (s : State κ) (writes : List (ℕ × ℕ)) (bpt : List Bps) (epc : ℕ) (regs : κ) : State κ :=
  {s with mem := s.mem.writeAll writes, bpt := bpt, epc := epc, regs := regs}

def step (cpu : Cpu κ) (s : State κ) (e : Event κ) : Option (State κ) := match s.loc, e with
  | .command c, .go args => some (go cpu c args s)
  | .command _, .cont adr bad => some (cont cpu adr bad s)
  | .command _, .trace args => some (trace cpu args s)
  | .command _, .debug stack regs => some (debug stack regs s)
  | .command _, .other writes bpt epc regs => some (edit s writes bpt epc regs)
  | .command .prompt, .done => some s
  | .command _, .done => some (main s)
  | .client, .client writes => some {s with mem := s.mem.writeAll writes}
  | .client, .exception x => some (exception cpu s x)
  | .client, .exit => some (cliexit s)
  | .debug, .request writes bpt epc regs => some (edit s writes bpt epc regs)
  | .debug, .reqStep adr => some (sstep cpu {s with epc := adr.getD s.epc})
  | .debug, .reqCont adr => some (godebug {s with epc := adr.getD s.epc})
  | .debug, .reqExit => some (main (clrbpts {s with traceMode := .no, gobuf := none}))
  | _, _ => none

def run (cpu : Cpu κ) (s : State κ) (es : List (Event κ)) : Option (State κ) :=
  es.foldlM (step cpu) s

def start (word : ℕ → ℕ) (epc : ℕ) (regs : κ) : State κ where
  mem := {word := word, planted := fun _ => none}
  bpt := List.replicate 64 Bps.unused
  bptTmp := Bps.unused
  bptTrc := Bps.unused
  bptTrcb := Bps.unused
  traceMode := .no
  traceCount := 0
  traceInvalid := false
  traceOver := false
  stopval := []
  epc := epc
  regs := regs
  gobuf := none
  loc := .command .prompt

end Pmon.Go
