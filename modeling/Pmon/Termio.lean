import Pmon.RingBuffer

/-!
# Serial devices: input queue, flow control and the calls on them

`scandevs` of `termio.c` fills the ring of `queue.c` and `_read` empties it. Every wait calls
`scandevs` again, so calls nest, and the stack of the machine holds the suspended ones. Answers of
the devices and calls of the monitor are events.
-/

namespace Pmon.Termio

def u16 (n : ℕ) : ℕ := n%65536

/-- A ring of characters: `count` of them from `first` on. -/
structure Queue where
  first : ℕ
  count : ℕ
  limit : ℕ
  dat : ℕ → UInt8

def Qcreate (size : ℕ) (dat : ℕ → UInt8) : Option Queue :=
  if size &&& (size - 1) ≠ 0 then none
  else some {first := 0, count := 0, limit := u16 (size+65535), dat}

def Queue.Qfull (q : Queue) : Bool := q.count == q.limit
def Queue.Qempty (q : Queue) : Bool := q.count == 0
def Queue.Qused (q : Queue) : ℕ := q.count
def Queue.Qspace (q : Queue) : ℤ := (q.limit : ℤ)-q.count

def Queue.put (q : Queue) (msg : UInt8) : Queue := { q with
    dat := Function.update q.dat ((q.first + q.count) &&& q.limit) msg
    count := u16 (q.count+1) }

def Queue.get (q : Queue) : Queue :=
  {q with first := (q.first + 1) &&& q.limit, count := q.count - 1}

def Queue.head (q : Queue) : UInt8 := q.dat q.first

structure Attrs where
  istrip : Bool
  icrnl : Bool
  ixon : Bool
  ixany : Bool
  ixoff : Bool
  isig : Bool
  icanon : Bool
  echo : Bool
  echoe : Bool
  onlcr : Bool
  vintr : UInt8
  verase : UInt8
  veol : UInt8
  veol2 : UInt8
  vstart : UInt8
  vstop : UInt8

def cntrl (x : Char) : UInt8 := x.toUInt8 &&& 0x1f

def Attrs.sane (t : Attrs) : Attrs := { t with
    istrip := true, icrnl := true, ixon := true, onlcr := true
    icanon := true, isig := true, echo := true, echoe := true
    vintr := cntrl 'c', veol := 10, veol2 := cntrl 'c', verase := cntrl 'h'
    vstop := cntrl 's', vstart := cntrl 'q' }

structure Fetch where
  byte : UInt8
  intercepted : Bool
  space : Bool

inductive Fate where
  | returned
  | abandoned
  | flushed
  deriving DecidableEq

/-- A device with its queue and attributes, and what it has sent and received so far. -/
structure Dev where
  txoff : Bool
  rxoff : Bool
  rxq : Queue
  intr : Bool
  t : Attrs
  sent : List UInt8
  fetched : List Fetch
  history : List (Fate × List UInt8)

inductive Sift where
  | signal
  | resume
  | pause
  | data
  deriving DecidableEq

def Dev.strip (d : Dev) (c : UInt8) : UInt8 := if d.t.istrip then c &&& 0x7f else c

def Dev.sift (d : Dev) (c : UInt8) : Sift :=
  if d.t.isig && c == d.t.vintr then .signal
  else if d.t.ixon && (d.t.ixany && d.txoff) then .resume
  else if d.t.ixon && c == d.t.vstop then .pause
  else if d.t.ixon && c == d.t.vstart then .resume
  else .data

inductive Frame where
  | scandevs (ps : List ℕ)
  | qput (p : ℕ) (c : UInt8)
  /-- `scandevs` behind `Qput`; `n` is the space before it. -/
  | rxstop (p : ℕ) (n : ℤ)
  | chwrite (p : ℕ) (ch : UInt8)
  | txrdy (p : ℕ) (ch : UInt8)
  | write (p : ℕ) (buf : List UInt8)

inductive Phase where
  | loop
  | wait
  | take
  | store (ch : UInt8)

inductive Main where
  | idle
  | read (p n : ℕ) (buf : List UInt8) (phase : Phase)
  /-- The end of `TCSETAF`; `ok` tells whether the device takes the baud rate. -/
  | tcset (p : ℕ) (at' : Attrs) (ok : Bool)

inductive Request where
  | tcsetaf (at' : Attrs) (ok : Bool)
  | tcsetaw (at' : Attrs) (ok : Bool)
  | fionread
  | setintr (set : Bool)
  | setsane
  | setncne
  | cbreak

inductive Call where
  | scandevs
  | read (p n : ℕ)
  | write (p : ℕ) (buf : List UInt8)
  | ioctl (p : ℕ) (op : Request)

/-- An internal step, an answer of the polled device, or a call of the main program. -/
inductive Event where
  | tau
  | rx (c : Option UInt8)
  | txrdy (ready : Bool)
  | call (c : Call)

/-- The devices, the handlers that interrupt each other, and the call that they interrupt. -/
structure State where
  dev : ℕ → Dev
  stack : List Frame
  main : Main

def State.setDev (s : State) (p : ℕ) (f : Dev → Dev) : State :=
  {s with dev := Function.update s.dev p (f (s.dev p))}

def State.push (s : State) (fs : List Frame) : State := {s with stack := fs++s.stack}

def State.longjmp (s : State) : State := match s.main with
  | .read p _ buf _ =>
    { s.setDev p fun d => {d with history := d.history++[(.abandoned,buf)]} with
      stack := [], main := .idle }
  | _ => {s with stack := [], main := .idle}

def Queue.contents (q : Queue) : List UInt8 :=
  RingBuffer.contents (q.limit+1) q.dat q.first q.count

def Queue.drain (q : Queue) : Queue := Queue.get^[q.count] q

def receive (s : State) (p : ℕ) (c : UInt8) : State :=
  let d := s.dev p
  let c := d.strip c
  let n := d.rxq.Qspace
  let s := s.setDev p fun d =>
    {d with fetched := d.fetched++[⟨c,d.sift c ≠ .data,0<n⟩]}
  match d.sift c with
  | .signal => if d.intr then s.longjmp else s
  | .resume => s.setDev p fun d => {d with txoff := false}
  | .pause => s.setDev p fun d => {d with txoff := true}
  | .data => if 0<n then s.push [.qput p c,.rxstop p n] else s

def rxstop (s : State) (p : ℕ) (n : ℤ) : State :=
  if n<20 ∧ (s.dev p).rxoff=false then
    let s := s.setDev p fun d => {d with rxoff := true}
    if (s.dev p).t.ixoff then s.push [.chwrite p (cntrl 'S')] else s
  else s

def rxstart (s : State) (p : ℕ) : State :=
  let s := s.setDev p fun d => {d with rxoff := false}
  if (s.dev p).t.ixoff then s.push [.chwrite p (cntrl 'Q')] else s

def isChar (ch cc : UInt8) : Bool := ch<128 && ch == cc

section

-- The devices with a queue, in the order of `DevTable`.
variable (devs : List ℕ)

def stepFrame (s : State) : Frame → Event → Option State
  | .scandevs [], .tau => some s
  | .scandevs (_::ps), .rx none => some (s.push [.scandevs ps])
  | .scandevs (p::ps), .rx (some c) => some (receive (s.push [.scandevs (p::ps)]) p c)
  | .qput p c, .tau =>
    if (s.dev p).rxq.Qfull then some (s.push [.scandevs devs,.qput p c])
    else some (s.setDev p fun d => {d with rxq := d.rxq.put c})
  | .rxstop p n, .tau => some (rxstop s p n)
  | .chwrite p ch, .tau =>
    if (s.dev p).txoff then some (s.push [.scandevs devs,.chwrite p ch])
    else some (s.push [.txrdy p ch])
  | .txrdy p ch, .txrdy false => some (s.push [.scandevs devs,.txrdy p ch])
  | .txrdy p ch, .txrdy true => some (s.setDev p fun d => {d with sent := d.sent++[ch]})
  | .write _ [], .tau => some s
  | .write p (b::bs), .tau =>
    let return' := if (s.dev p).t.onlcr && b == 10 then [.chwrite p 13,.scandevs devs] else []
    some (s.push (return'++[.chwrite p b,.scandevs devs,.write p bs]))
  | _, _ => none

def readCanonical (s : State) (p n : ℕ) (buf : List UInt8) (ch : UInt8) : State :=
  let t := (s.dev p).t
  if isChar ch t.verase then
    let s := {s with main := .read p n buf.dropLast .loop}
    if buf.length=0 then s
    else if t.echoe then s.push [.write p [8,32,8]]
    else if t.echo then s.push [.write p [8]]
    else s
  else
    let s := {s with main := .read p n buf (.store ch)}
    if t.echo then s.push [.write p [ch]] else s

def readReturn (s : State) (p : ℕ) (buf : List UInt8) : State :=
  { s.setDev p fun d => {d with history := d.history++[(.returned,buf)]} with
    main := .idle }

def stepRead (s : State) (p n : ℕ) (buf : List UInt8) : Phase → State
  | .loop =>
    if buf.length<n then {s.push [.scandevs devs] with main := .read p n buf .wait}
    else readReturn s p buf
  | .wait =>
    let used := (s.dev p).rxq.Qused
    if used=0 then s.push [.scandevs devs]
    else
      let s := {s with main := .read p n buf .take}
      if used<20 ∧ (s.dev p).rxoff then rxstart s p else s
  | .take =>
    if (s.dev p).rxq.Qempty then s.push [.scandevs devs]
    else
      let ch := (s.dev p).rxq.head
      let s := s.setDev p fun d => {d with rxq := d.rxq.get}
      let ch := if (s.dev p).t.icrnl && ch == 13 then 10 else ch
      if (s.dev p).t.icanon then readCanonical s p n buf ch
      else {s with main := .read p n (buf++[ch]) .loop}
  | .store ch =>
    let buf := buf++[ch]
    if isChar ch (s.dev p).t.veol || isChar ch (s.dev p).t.veol2 then readReturn s p buf
    else {s with main := .read p n buf .loop}

def setAttrs (s : State) (p : ℕ) (at' : Attrs) (ok : Bool) : State :=
  if ok then s.setDev p fun d => {d with t := at'} else s

def ioctl (s : State) (p : ℕ) : Request → State
  | .tcsetaf at' ok =>
    let s := s.setDev p fun d =>
      { d with
        rxq := d.rxq.drain
        history := d.history++[(.flushed,d.rxq.contents)] }
    let s := {s with main := .tcset p at' ok}
    if (s.dev p).rxoff then rxstart s p else s
  | .tcsetaw at' ok => setAttrs s p at' ok
  | .fionread => s.push [.scandevs devs]
  | .setintr set => s.setDev p fun d => {d with intr := set}
  | .setsane => s.setDev p fun d => {d with t := d.t.sane}
  | .setncne =>
    s.setDev p fun d => {d with t := {d.t with icanon := false, echo := false, echoe := false}}
  | .cbreak => s.setDev p fun d => {d with t := {d.t with icanon := false, echo := false}}

def stepCall (s : State) : Call → State
  | .scandevs => s.push [.scandevs devs]
  | .read p n => {s with main := .read p n [] .loop}
  | .write p buf => s.push [.write p buf]
  | .ioctl p op => ioctl devs s p op

def step (s : State) (e : Event) : Option State := match s.stack with
  | f::k => stepFrame devs {s with stack := k} f e
  | [] =>
    match s.main, e with
    | .idle, .call c => some (stepCall devs s c)
    | .read p n buf phase, .tau => some (stepRead devs s p n buf phase)
    | .tcset p at' ok, .tau => some (setAttrs {s with main := .idle} p at' ok)
    | _, _ => none

def run (s : State) (es : List Event) : Option State := es.foldlM (step devs) s
end
end Pmon.Termio
