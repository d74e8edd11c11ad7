import Mathlib.Tactic

/-!
# The TFTP client

`tftplib.c` transfers a file in blocks of 512 bytes. The network is a list of events, one for each
round; a list that ends early stands for a call that has not returned. Packets that `synchnet`
discards are no events.
-/

namespace Pmon.Tftp

def segsize : ℕ := 512
def maxrexmt : ℕ := 5

inductive Opcode where
  | rrq
  | wrq
  | data
  | ack
  | error
  | unknown
  deriving DecidableEq

/-- A datagram as `recvfrom` leaves it; with fewer than 4 bytes the fields are old. -/
structure Dgram where
  port : ℕ
  len : ℕ
  opcode : Opcode
  /-- The bits of `th_block`, which is a `short`. -/
  block : BitVec 16
  payload : List UInt8
  deriving DecidableEq

inductive Reply where
  | selectError
  | timeout
  | recvError
  | datagram (d : Dgram)
  deriving DecidableEq

structure Event where
  sent : Bool
  reply : Reply
  deriving DecidableEq

inductive Accmode where
  | rdonly
  | wronly
  deriving DecidableEq

/-- The open file: `buf` holds the bytes from `start` up to `stop`, and `foffs` is the position. -/
structure Tftpfile where
  port : ℕ
  block : ℕ
  flags : Accmode
  eof : Bool
  start : ℤ
  stop : ℤ
  foffs : ℤ
  buf : List UInt8
  deriving DecidableEq

def int32 (z : ℤ) : ℤ := (z+2^31)%2^32-2^31

theorem int32_eq {z : ℤ} (hl : -2^31≤z) (hu : z<2^31) : int32 z=z := by
  unfold int32
  omega

def Tftpfile.nxtblk (tfp : Tftpfile) : Tftpfile := {tfp with block := (tfp.block+1)%2^16}
def overwrite (payload buf : List UInt8) : List UInt8 := payload++buf.drop payload.length

structure Outcome (σ ε : Type) where
  value : ℤ
  state : σ
  events : List ε

inductive Round (σ : Type) where
  | again (state : σ) (rexmt : ℕ)
  | done (value : ℤ) (state : σ)

def rounds {σ ε : Type} (round : σ → ℕ → ε → Round σ) : σ → ℕ → List ε → Option (Outcome σ ε)
  | _, _, [] => none
  | s, rexmt, e::es =>
    match round s rexmt e with
    | .again s rexmt => rounds round s rexmt es
    | .done value s => some ⟨value,s,es⟩

section
variable {σ ε : Type} {round : σ → ℕ → ε → Round σ}

theorem rounds_suffix {s : σ} {rexmt : ℕ} {es : List ε} {o : Outcome σ ε}
    (h : rounds round s rexmt es=some o) : ∃ e, e::o.events <:+ es := by
  induction es generalizing s rexmt with
  | nil => cases h
  | cons e es ih =>
    unfold rounds at h
    split at h
    · obtain ⟨f,hf⟩ := ih h
      exact ⟨f,hf.trans (List.suffix_cons e es)⟩
    · cases h
      exact ⟨e,List.suffix_refl _⟩

theorem rounds_done {P : σ → Prop} {Q : ε → Prop} {R : ℤ → σ → Prop}
    (hagain : ∀ s k e s' k', P s → Q e → round s k e = .again s' k' → P s')
    (hdone : ∀ s k e v s', P s → Q e → round s k e = .done v s' → R v s')
    {s : σ} {rexmt : ℕ} {es : List ε} {o : Outcome σ ε} (hP : P s)
    (hes : ∀ e∈es, Q e) (h : rounds round s rexmt es=some o) : R o.value o.state := by
  induction es generalizing s rexmt with
  | nil => cases h
  | cons e es ih =>
    unfold rounds at h
    split at h
    · next t k hround =>
      exact ih (hagain _ _ _ _ _ hP (hes e List.mem_cons_self) hround)
        (fun f hf => hes f (List.mem_cons_of_mem _ hf)) h
    · next v t hround =>
      cases h
      exact hdone _ _ _ _ _ hP (hes e List.mem_cons_self) hround
end

/-- A `short` that equals a block number holds its bits. -/
theorem toNat_of_toInt {x : BitVec 16} {b : ℕ} (h : x.toInt=b) : x.toNat=b := by
  rw [BitVec.toInt_eq_toNat_cond] at h
  split at h <;> omega

/-- The block counter is a `u_short`, so no number from 32768 on is found equal to it. -/
def rrqReceive (tfp : Tftpfile) (rexmt : ℕ) (d : Dgram) : Round Tftpfile :=
  if d.opcode = .error then .done (-1) tfp
  else if d.opcode = .data then
    if d.block.toInt=tfp.block then
      .done (d.len-4) {tfp with eof := tfp.eof || decide ((d.len : ℤ)-4<segsize)}
    else if d.block.toInt≠tfp.block-1 then .done (-1) tfp
    else .again tfp rexmt
  else .again tfp rexmt

def rrqRound (tfp : Tftpfile) (rexmt : ℕ) (e : Event) : Round Tftpfile :=
  if e.sent=false then .done (-1) tfp
  else if tfp.eof then .done 0 tfp
  else
    match e.reply with
    | .selectError => .done (-1) tfp
    | .timeout => if maxrexmt<rexmt+1 then .done (-1) tfp else .again tfp (rexmt+1)
    | .recvError => .done (-1) tfp
    | .datagram d =>
      let tfp := {tfp with buf := overwrite d.payload tfp.buf}
      if tfp.block≤1 then rrqReceive {tfp with port := d.port} rexmt d
      else if d.port≠tfp.port then .again tfp rexmt
      else rrqReceive tfp rexmt d

def tftprrq (tfp : Tftpfile) (es : List Event) : Option (Outcome Tftpfile Event) :=
  rounds rrqRound tfp 0 es

structure Copy where
  dst : ℤ
  /-- The count, which `bcopy` takes as an unsigned number. -/
  count : ℕ
  bytes : List UInt8

def Tftpfile.copy (tfp : Tftpfile) (dst n : ℤ) : Copy :=
  let count := (n%2^32).toNat
  ⟨dst,count,(tfp.buf.drop (tfp.foffs-tfp.start).toNat).take count⟩

def Tftpfile.drain (tfp : Tftpfile) (nb dst : ℤ) : List Copy × Tftpfile × ℤ :=
  if tfp.start≤tfp.foffs ∧ tfp.foffs<tfp.stop then
    let n := min (tfp.stop-tfp.foffs) nb
    ([tfp.copy dst n],{tfp with foffs := int32 (tfp.foffs+n)},n)
  else ([],tfp,0)

def tftpreadLoop (nread : ℤ) :
    ℕ → Tftpfile → ℤ → ℤ → List Event → Option (Outcome Tftpfile Event × List Copy)
  | 0, _, _, _, _ => none
  | fuel+1, tfp, nb, dst, es =>
    if nb≠0 ∧ tfp.start<tfp.stop then
      let (copies,tfp,n) := tfp.drain nb dst
      if tfp.stop≤tfp.foffs then
        -- the buffer is used up: acknowledge the block and wait for the next one
        match tftprrq tfp.nxtblk es with
        | none => none
        | some r =>
          if r.value<0 then some (⟨-1,r.state,r.events⟩,copies)
          else
            let tfp := {r.state with start := r.state.stop, stop := int32 (r.state.stop+r.value)}
            (tftpreadLoop nread fuel tfp (nb-n) (dst+n) r.events).map fun (o,cs) =>
              (o,copies++cs)
      else
        (tftpreadLoop nread fuel tfp (nb-n) (dst+n) es).map fun (o,cs) => (o,copies++cs)
    else some (⟨nread-nb,tfp,es⟩,[])

def tftpread (tfp : Tftpfile) (nread : ℤ) (es : List Event) :
    Option (Outcome Tftpfile Event × List Copy) :=
  if tfp.flags ≠ .rdonly then some (⟨-1,tfp,es⟩,[])
  else tftpreadLoop nread (es.length+2) tfp nread 0 es

def tftplseek (tfp : Tftpfile) (offs how : ℤ) : ℤ × Tftpfile :=
  if how≠0 ∧ how≠1 then (-1,tfp)
  else
    let noffs := if how=0 then offs else int32 (tfp.foffs+offs)
    match tfp.flags with
    | .wronly => if noffs≠tfp.foffs then (-1,tfp) else (tfp.foffs,tfp)
    | .rdonly =>
      if noffs<tfp.start then (-1,tfp) else (noffs,{tfp with foffs := noffs})

def newHandle (port : ℕ) (flags : Accmode) (block : ℕ) : Tftpfile :=
  { port := port, block := block, flags := flags, eof := false, start := 0, stop := 0, foffs := 0
    buf := List.replicate segsize 0 }

def tftpopenRead (port : ℕ) (es : List Event) : Option (Option Tftpfile × List Event) :=
  (tftprrq (newHandle port .rdonly 1) es).map fun r =>
    if r.value<0 then (none,r.events)
    else (some {r.state with stop := int32 (r.state.start+r.value)},r.events)

end Pmon.Tftp
