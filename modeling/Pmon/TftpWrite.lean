import Pmon.Tftp

/-!
# Writing over TFTP

`tftpwrite` waits for each acknowledgement; `tftpclose` sends the last block and returns 0 in any
case.
-/

namespace Pmon.Tftp
open List

def wrqReceive (tfp : Tftpfile) (size : ℤ) (rexmt : ℕ) (d : Dgram) : Round Tftpfile :=
  if d.opcode = .error then .done (-1) tfp
  else if d.opcode = .ack then
    if d.block.toInt=tfp.block then .done size tfp
    else if d.block.toInt≠tfp.block-1 then .done (-1) tfp
    else .again tfp rexmt
  else .again tfp rexmt

def wrqRound (tfp : Tftpfile) (size : ℤ) (rexmt : ℕ) (e : Event) : Round Tftpfile :=
  if e.sent=false then .done (-1) tfp
  else
    match e.reply with
    | .selectError => .done (-1) tfp
    | .timeout => if maxrexmt<rexmt+1 then .done (-1) tfp else .again tfp (rexmt+1)
    | .recvError => .done (-1) tfp
    | .datagram d =>
      if tfp.block=0 then wrqReceive {tfp with port := d.port} size rexmt d
      else if d.port≠tfp.port then .again tfp rexmt
      else wrqReceive tfp size rexmt d

structure Packet where
  block : ℕ
  data : List UInt8
  deriving DecidableEq

structure Server where
  blocks : List (List UInt8)
  closed : Bool

def Server.receive (srv : Server) (p : Packet) : Server :=
  if srv.closed=false ∧ p.block=srv.blocks.length+1 then
    ⟨srv.blocks++[p.data],decide (p.data.length<segsize)⟩
  else srv

def Server.answers (srv : Server) : Reply → Reply
  | .datagram d =>
    if d.opcode = .ack ∧ srv.blocks.length<d.block.toNat then .timeout else .datagram d
  | r => r

structure Chance where
  sent : Bool
  /-- The packets sent so far that reach the server now. Others are lost or late. -/
  arrivals : List ℕ
  reply : Reply

/-- The client's file, the server, and the packets on their way. -/
structure World where
  tfp : Tftpfile
  server : Server
  wire : List Packet
  arrived : List Packet

def World.carry (w : World) (req : Packet) (c : Chance) : World :=
  let wire := if c.sent then w.wire++[req] else w.wire
  let arrivals := c.arrivals.filterMap (wire[·]?)
  { w with
    wire := wire
    server := arrivals.foldl Server.receive w.server
    arrived := w.arrived++arrivals }

def worldRound (req : Packet) (size : ℤ) (w : World) (rexmt : ℕ) (c : Chance) : Round World :=
  let w := w.carry req c
  match wrqRound w.tfp size rexmt ⟨c.sent,w.server.answers c.reply⟩ with
  | .again tfp rexmt => .again {w with tfp := tfp} rexmt
  | .done value tfp => .done value {w with tfp := tfp}

def tftpwrq (w : World) (req : Packet) (size : ℤ) (cs : List Chance) :
    Option (Outcome World Chance) := rounds (worldRound req size) w 0 cs

def Tftpfile.pending (tfp : Tftpfile) : List UInt8 := tfp.buf.take tfp.stop.toNat

def Tftpfile.fill (tfp : Tftpfile) (bytes : List UInt8) : Tftpfile := { tfp with
    buf := tfp.pending++overwrite bytes (tfp.buf.drop tfp.stop.toNat)
    stop := int32 (tfp.stop+bytes.length)
    foffs := int32 (tfp.foffs+bytes.length) }

def sendBlock (w : World) (cs : List Chance) : Option (Outcome World Chance) :=
  let tfp := w.tfp.nxtblk
  tftpwrq {w with tfp := tfp} ⟨tfp.block,tfp.pending⟩ tfp.stop cs

def tftpwriteLoop (nwrite : ℤ) :
    ℕ → World → List UInt8 → List Chance → Option (Outcome World Chance)
  | 0, _, _, _ => none
  | fuel+1, w, bytes, cs =>
    if bytes=[] then some ⟨nwrite-bytes.length,w,cs⟩
    else
      let n := segsize - w.tfp.stop.toNat
      let w := {w with tfp := w.tfp.fill (bytes.take n)}
      if w.tfp.stop=(segsize : ℤ) then
        -- the buffer is full, send it
        match sendBlock w cs with
        | none => none
        | some r =>
          if r.value<0 then some ⟨-1,r.state,r.events⟩
          else
            let w := {r.state with tfp := {r.state.tfp with stop := 0}}
            tftpwriteLoop nwrite fuel w (bytes.drop n) r.events
      else tftpwriteLoop nwrite fuel w (bytes.drop n) cs

def tftpwrite (w : World) (bytes : List UInt8) (cs : List Chance) : Option (Outcome World Chance) :=
  if w.tfp.flags ≠ .wronly then some ⟨-1,w,cs⟩
  else tftpwriteLoop bytes.length (bytes.length+1) w bytes cs

def tftpclose (w : World) (cs : List Chance) : Option (Outcome World Chance) :=
  match sendBlock w cs with
  | none => none
  | some r =>
    if 0≤r.value ∧ r.state.tfp.stop=(segsize : ℤ) then
      -- the last block was full, so an empty one ends the file
      (sendBlock {r.state with tfp := {r.state.tfp with stop := 0}} r.events).map fun r =>
        ⟨0,r.state,r.events⟩
    else some ⟨0,r.state,r.events⟩

def writeAll : World → List (List UInt8) → List Chance → Option (World × List Chance)
  | w, [], cs => some (w,cs)
  | w, bytes::rest, cs =>
    match tftpwrite w bytes cs with
    | none => none
    | some o => if o.value=bytes.length then writeAll o.state rest o.events else none

def opened (port : ℕ) : World := ⟨newHandle port .wronly 0,⟨[],false⟩,[],[]⟩

/-- A round of `tftpwrq` changes only the port, and a count means an acknowledgement. -/
inductive Wrq (tfp : Tftpfile) (size : ℤ) (e : Event) : Round Tftpfile → Prop where
  | failed {v : ℤ} {port : ℕ} (hv : v<0) : Wrq tfp size e (.done v {tfp with port := port})
  | again {port k : ℕ} : Wrq tfp size e (.again {tfp with port := port} k)
  | acked {d : Dgram} {port : ℕ} (hreply : e.reply = .datagram d) (hopcode : d.opcode = .ack)
      (hblock : d.block.toNat=tfp.block) : Wrq tfp size e (.done size {tfp with port := port})

theorem wrqReceive_wrq {tfp : Tftpfile} {e : Event} {d : Dgram} (hreply : e.reply = .datagram d)
    (port : ℕ) (size : ℤ) (rexmt : ℕ) :
    Wrq tfp size e (wrqReceive {tfp with port := port} size rexmt d) := by
  unfold wrqReceive
  by_cases herror : d.opcode = .error
  · rw [if_pos herror]
    exact .failed (by decide)
  rw [if_neg herror]
  by_cases hack : d.opcode = .ack
  · rw [if_pos hack]
    by_cases hblock : d.block.toInt=tfp.block
    · rw [if_pos hblock]
      exact .acked hreply hack (toNat_of_toInt hblock)
    · rw [if_neg hblock]
      by_cases hstale : d.block.toInt≠tfp.block-1
      · rw [if_pos hstale]
        exact .failed (by decide)
      · rw [if_neg hstale]
        exact .again
  · rw [if_neg hack]
    exact .again

theorem wrqRound_wrq (tfp : Tftpfile) (size : ℤ) (rexmt : ℕ) (e : Event) :
    Wrq tfp size e (wrqRound tfp size rexmt e) := by
  have hfail := @Wrq.failed tfp size e (-1) tfp.port (by decide)
  have hagain : ∀ k, Wrq tfp size e (.again tfp k) := fun k => @Wrq.again tfp size e tfp.port k
  unfold wrqRound
  by_cases hsent : e.sent=false
  · rw [if_pos hsent]
    exact hfail
  rw [if_neg hsent]
  cases hreply : e.reply with
  | selectError => exact hfail
  | timeout =>
    dsimp only
    split
    · exact hfail
    · exact hagain _
  | recvError => exact hfail
  | datagram d =>
    dsimp only
    split
    · exact wrqReceive_wrq hreply d.port size rexmt
    · split
      · exact hagain _
      · exact wrqReceive_wrq hreply tfp.port size rexmt

theorem Server.receive_of_ne {srv : Server} {p : Packet} (h : p.block≠srv.blocks.length+1) :
    srv.receive p=srv := if_neg fun hp => h hp.2

/-- A request reaches the server once or not at all, however often it is sent. -/
structure Sending (w : World) (req : Packet) (w' : World) : Prop where
  tfp : ∃ port, w'.tfp={w.tfp with port := port}
  wire : ∀ p∈w'.wire, p.block≤w.server.blocks.length ∨ p=req
  arrived : ∀ p∈w'.arrived, p.block≤w.server.blocks.length ∨ p=req
  server : req∈w'.arrived ∧ w'.server=w.server.receive req ∨
    req∉w'.arrived ∧ w'.server=w.server

structure Settled (w : World) : Prop where
  closed : w.server.closed=false
  wire : ∀ p∈w.wire, p.block≤w.server.blocks.length
  arrived : ∀ p∈w.arrived, p.block≤w.server.blocks.length

variable {req : Packet}
variable {w : World}
section
variable (h : Settled w) (hreq : req.block=w.server.blocks.length+1)
include h hreq

theorem Settled.receive :
    w.server.receive req=⟨w.server.blocks++[req.data],decide (req.data.length<segsize)⟩ :=
  if_pos ⟨h.closed,hreq⟩

theorem foldl_receive {ps : List Packet}
    (hps : ∀ p∈ps, p.block≤w.server.blocks.length ∨ p=req) (srv : Server) :
    (srv=w.server.receive req → ps.foldl Server.receive srv=w.server.receive req) ∧
    (srv=w.server → req∈ps → ps.foldl Server.receive srv=w.server.receive req) ∧
    (srv=w.server → req∉ps → ps.foldl Server.receive srv=w.server) := by
  have hlen : (w.server.receive req).blocks.length=w.server.blocks.length+1 := by
    rw [h.receive hreq]
    simp
  induction ps generalizing srv with
  | nil => simp
  | cons p ps ih =>
    have hp := hps p mem_cons_self
    have hps' : ∀ p∈ps, p.block≤w.server.blocks.length ∨ p=req :=
      fun q hq => hps q (mem_cons_of_mem _ hq)
    have hstored : (w.server.receive req).receive p=w.server.receive req := by
      apply Server.receive_of_ne
      rw [hlen]
      rcases hp with hold | rfl
      · omega
      · omega
    refine ⟨?_,?_,?_⟩
    · rintro rfl
      rw [foldl_cons,hstored]
      exact (ih hps' _).1 rfl
    · rintro rfl hin
      rw [foldl_cons]
      rcases hp with hold | rfl
      · rw [Server.receive_of_ne (by omega)]
        refine (ih hps' _).2.1 rfl ((mem_cons.mp hin).resolve_left ?_)
        rintro rfl
        omega
      · exact (ih hps' _).1 rfl
    · rintro rfl hout
      rw [mem_cons,not_or] at hout
      rw [foldl_cons,Server.receive_of_ne]
      · exact (ih hps' _).2.2 rfl hout.2
      · rcases hp with hold | rfl
        · omega
        · exact absurd rfl hout.1

theorem Sending.carry {w' : World} (hs : Sending w req w') (c : Chance) :
    Sending w req (w'.carry req c) := by
  have hwire : ∀ p∈(w'.carry req c).wire, p.block≤w.server.blocks.length ∨ p=req := by
    intro p hp
    change p∈(if c.sent then w'.wire++[req] else w'.wire) at hp
    split at hp
    · rcases mem_append.mp hp with hp | hp
      · exact hs.wire p hp
      · exact Or.inr (mem_singleton.mp hp)
    · exact hs.wire p hp
  obtain ⟨ps,hps⟩ : ∃ ps, ps=c.arrivals.filterMap ((w'.carry req c).wire[·]?) := ⟨_,rfl⟩
  have harrived : (w'.carry req c).arrived=w'.arrived++ps := by rw [hps]; rfl
  have hserver : (w'.carry req c).server=ps.foldl Server.receive w'.server := by rw [hps]; rfl
  have hfrom : ∀ p∈ps, p.block≤w.server.blocks.length ∨ p=req := by
    intro p hp
    rw [hps] at hp
    obtain ⟨i,-,hi⟩ := mem_filterMap.mp hp
    exact hwire p (mem_of_getElem? hi)
  have hfold := foldl_receive h hreq hfrom w'.server
  refine ⟨hs.tfp,hwire,fun p hp => ?_,?_⟩
  · rw [harrived] at hp
    exact (mem_append.mp hp).elim (hs.arrived p) (hfrom p)
  · rw [harrived,hserver,mem_append]
    rcases hs.server with ⟨hin,hsrv⟩ | ⟨hout,hsrv⟩
    · exact Or.inl ⟨Or.inl hin,hfold.1 hsrv⟩
    · by_cases hin : req∈ps
      · exact Or.inl ⟨Or.inr hin,hfold.2.1 hsrv hin⟩
      · exact Or.inr ⟨not_or.mpr ⟨hout,hin⟩,hfold.2.2 hsrv hin⟩
end

variable {cs : List Chance}

theorem tftpwrq_sending (h : Settled w) (hreq : req.block=w.server.blocks.length+1)
    (hblock : w.tfp.block=req.block) {size : ℤ} {o : Outcome World Chance}
    (ho : tftpwrq w req size cs=some o) :
    Sending w req o.state ∧ (0≤o.value → req∈o.state.arrived) := by
  have hstart : Sending w req w := by
    refine ⟨⟨w.tfp.port,rfl⟩,fun p hp => Or.inl (h.wire p hp),
      fun p hp => Or.inl (h.arrived p hp),Or.inr ⟨fun hin => ?_,rfl⟩⟩
    have hold := h.arrived req hin
    omega
  refine rounds_done (P := Sending w req) (Q := fun _ => True)
    (R := fun v s => Sending w req s ∧ (0≤v → req∈s.arrived)) ?_ ?_ hstart
    (fun _ _ => trivial) ho
  · intro s k c s' k' hs _ hround
    have hc := hs.carry h hreq c
    have hw := wrqRound_wrq (s.carry req c).tfp size k
      ⟨c.sent,(s.carry req c).server.answers c.reply⟩
    unfold worldRound at hround
    dsimp only at hround
    generalize wrqRound (s.carry req c).tfp size k _=r at hround hw
    obtain ⟨port,hport⟩ := hc.tfp
    cases hw with
    | failed hv => cases hround
    | acked hreply hopcode hblk => cases hround
    | @again port' k =>
      cases hround
      exact ⟨⟨port',by rw [hport]⟩,hc.wire,hc.arrived,hc.server⟩
  · intro s k c v s' hs _ hround
    have hc := hs.carry h hreq c
    have hw := wrqRound_wrq (s.carry req c).tfp size k
      ⟨c.sent,(s.carry req c).server.answers c.reply⟩
    unfold worldRound at hround
    dsimp only at hround
    generalize wrqRound (s.carry req c).tfp size k _=r at hround hw
    obtain ⟨port,hport⟩ := hc.tfp
    cases hw with
    | again => cases hround
    | @failed _ port' hv =>
      cases hround
      exact ⟨⟨⟨port',by rw [hport]⟩,hc.wire,hc.arrived,hc.server⟩,fun hpos => by omega⟩
    | @acked d port' hreply hopcode hblk =>
      cases hround
      refine ⟨⟨⟨port',by rw [hport]⟩,hc.wire,hc.arrived,hc.server⟩,fun _ => ?_⟩
      -- the server acknowledges only what it has stored
      rcases hc.server with ⟨hin,-⟩ | ⟨-,hsrv⟩
      · exact hin
      · exfalso
        have hcur : (s.carry req c).tfp.block=w.tfp.block := by rw [hport]
        rw [hsrv] at hreply
        unfold Server.answers at hreply
        split at hreply
        · split_ifs at hreply with hunstored
          cases hreply
          exact hunstored ⟨hopcode,by omega⟩
        · next hnot => exact hnot d hreply

/-- The server has the whole blocks of what was written, and the client the rest. -/
structure Writing (written : List UInt8) (w : World) : Prop extends Settled w where
  flags : w.tfp.flags = .wronly
  block : w.tfp.block=written.length/segsize
  stop : w.tfp.stop=(written.length%segsize : ℕ)
  pending : w.tfp.pending=written.drop (segsize*(written.length/segsize))
  count : w.server.blocks.length=written.length/segsize
  bytes : w.server.blocks.flatten=written.take (segsize*(written.length/segsize))

theorem opened_writing (port : ℕ) : Writing [] (opened port) :=
  ⟨⟨rfl,by simp [opened],by simp [opened]⟩,rfl,rfl,rfl,rfl,rfl,rfl⟩

theorem fill_pending {tfp : Tftpfile} {k : ℕ} (hstop : tfp.stop=k)
    (hlen : tfp.pending.length=k) (bytes : List UInt8) (hsmall : k+bytes.length<2^31) :
    (tfp.fill bytes).stop=(k+bytes.length : ℕ) ∧
      (tfp.fill bytes).pending=tfp.pending++bytes := by
  have hnew : (tfp.fill bytes).stop=(k+bytes.length : ℕ) := by
    rw [Tftpfile.fill,hstop,int32_eq (by omega) (by omega)]
    push_cast
    rfl
  refine ⟨hnew,?_⟩
  rw [Tftpfile.pending,hnew,Int.toNat_natCast]
  change (tfp.pending++(bytes++_)).take _=_
  rw [←append_assoc]
  refine take_left' ?_
  rw [length_append,hlen]

theorem sendBlock_sending (h : Settled w) (hblock : w.tfp.block=w.server.blocks.length)
    (hlt : w.server.blocks.length+1<2^16) {o : Outcome World Chance}
    (ho : sendBlock w cs=some o) :
    Sending {w with tfp := w.tfp.nxtblk} ⟨w.server.blocks.length+1,w.tfp.pending⟩ o.state ∧
      (0≤o.value → ⟨w.server.blocks.length+1,w.tfp.pending⟩∈o.state.arrived) := by
  have hnext : w.tfp.nxtblk.block=w.server.blocks.length+1 := by
    rw [←hblock]
    exact Nat.mod_eq_of_lt (by omega)
  have hset : Settled {w with tfp := w.tfp.nxtblk} := ⟨h.closed,h.wire,h.arrived⟩
  unfold sendBlock at ho
  dsimp only at ho
  rw [hnext] at ho
  exact tftpwrq_sending hset rfl hnext ho

section
variable {written : List UInt8} {w : World}

theorem Writing.length_pending (h : Writing written w) :
    w.tfp.pending.length=written.length%segsize := by
  rw [h.pending,length_drop]
  unfold segsize
  omega

theorem Writing.buffer (h : Writing written w) {chunk : List UInt8}
    (hfit : written.length%segsize+chunk.length<segsize) :
    Writing (written++chunk) {w with tfp := w.tfp.fill chunk} := by
  have hseg : segsize=512 := rfl
  obtain ⟨hstop,hpend⟩ := fill_pending h.stop h.length_pending chunk (by omega)
  have hdiv : (written++chunk).length/segsize=written.length/segsize := by
    rw [length_append]
    unfold segsize at *
    omega
  have hmod : (written++chunk).length%segsize=written.length%segsize+chunk.length := by
    rw [length_append]
    unfold segsize at *
    omega
  have hle : segsize*(written.length/segsize)≤written.length := Nat.mul_div_le _ _
  refine ⟨⟨h.closed,h.wire,h.arrived⟩,h.flags,?_,?_,?_,?_,?_⟩
  · rw [hdiv]
    exact h.block
  · rw [hmod]
    exact hstop
  · rw [hdiv,drop_append_of_le_length hle,←h.pending]
    exact hpend
  · rw [hdiv]
    exact h.count
  · rw [hdiv,take_append_of_le_length hle]
    exact h.bytes

theorem Writing.send (h : Writing written w) {chunk : List UInt8}
    (hfull : written.length%segsize+chunk.length=segsize)
    (hcount : written.length/segsize+1<2^16) {cs : List Chance}
    {o : Outcome World Chance} (ho : sendBlock {w with tfp := w.tfp.fill chunk} cs=some o)
    (hvalue : 0≤o.value) :
    Writing (written++chunk) {o.state with tfp := {o.state.tfp with stop := 0}} := by
  have hseg : segsize=512 := rfl
  obtain ⟨hstop,hpend⟩ := fill_pending h.stop h.length_pending chunk (by omega)
  have hset : Settled {w with tfp := w.tfp.fill chunk} := ⟨h.closed,h.wire,h.arrived⟩
  have hcnt := h.count
  obtain ⟨hsend,harr⟩ := sendBlock_sending hset (h.block.trans h.count.symm)
    (by rw [←hcnt] at hcount; exact hcount) ho
  have hin := harr hvalue
  rw [hpend] at hsend hin
  obtain ⟨port,htfp⟩ := hsend.tfp
  have hserver := (hsend.server.resolve_right fun hn => hn.1 hin).2
  have hlen : (w.tfp.pending++chunk).length=segsize := by
    rw [length_append,h.length_pending,hfull]
  have hstored : o.state.server=⟨w.server.blocks++[w.tfp.pending++chunk],false⟩ := by
    rw [hserver]
    refine (if_pos ⟨h.closed,rfl⟩).trans ?_
    simp [hlen]
  have hdiv : (written++chunk).length/segsize=written.length/segsize+1 := by
    rw [length_append]
    unfold segsize at *
    omega
  have hall : segsize*(written.length/segsize+1)=(written++chunk).length := by
    rw [length_append]
    unfold segsize at *
    omega
  have hnext : o.state.tfp.block=written.length/segsize+1 := by
    rw [htfp]
    have hb := h.block
    change (w.tfp.block+1)%2^16=_
    rw [hb]
    exact Nat.mod_eq_of_lt hcount
  have holder : ∀ p : Packet, p.block≤w.server.blocks.length ∨
      p=⟨w.server.blocks.length+1,w.tfp.pending++chunk⟩ →
      p.block≤o.state.server.blocks.length := by
    intro p hp
    rw [hstored,length_append,length_singleton]
    rcases hp with hp | rfl
    · omega
    · exact le_rfl
  refine ⟨⟨by rw [hstored],fun p hp => holder p (hsend.wire p hp),
    fun p hp => holder p (hsend.arrived p hp)⟩,?_,?_,?_,?_,?_,?_⟩
  · rw [htfp]
    exact h.flags
  · rw [hdiv]
    exact hnext
  · rw [←hall,Nat.mul_mod_right]
    rfl
  · rw [hdiv,hall,drop_length]
    rfl
  · rw [hdiv,hstored,length_append,length_singleton,hcnt]
  · rw [hdiv,hall,take_length,hstored]
    have hsplit := take_append_drop (segsize*(written.length/segsize)) written
    simp only [flatten_append,flatten_cons,flatten_nil,append_nil]
    rw [h.bytes,h.pending,←append_assoc,hsplit]
end

theorem tftpwriteLoop_writing {nwrite : ℤ} {fuel : ℕ} {written bytes : List UInt8} {w : World}
    (h : Writing written w) (hcount : (written.length+bytes.length)/segsize+1<2^16)
    {o : Outcome World Chance} (ho : tftpwriteLoop nwrite fuel w bytes cs=some o) :
    o.value = -1 ∨ Writing (written++bytes) o.state := by
  induction fuel generalizing written bytes w cs with
  | zero => simp [tftpwriteLoop] at ho
  | succ fuel ih =>
    unfold tftpwriteLoop at ho
    by_cases hnil : bytes=[]
    · rw [if_pos hnil,Option.some.injEq] at ho
      subst hnil ho
      rw [append_nil]
      exact Or.inr h
    rw [if_neg hnil] at ho
    dsimp only at ho
    rw [h.stop,Int.toNat_natCast] at ho
    -- the bytes of this turn and those that are left
    set n := segsize-written.length%segsize with hn
    have hn' : written.length%segsize+n=segsize := by
      unfold segsize at *
      omega
    have hchunk : (bytes.take n).length≤n := length_take_le _ _
    have hsum : (bytes.take n).length+(bytes.drop n).length=bytes.length := by
      rw [←length_append,take_append_drop]
    have hrest : ((written++bytes.take n).length+(bytes.drop n).length)/segsize+1
        < 2^16 := by
      rw [length_append,Nat.add_assoc,hsum]
      exact hcount
    have hstop : (w.tfp.fill (bytes.take n)).stop
        = (written.length%segsize+(bytes.take n).length : ℕ) :=
      (fill_pending h.stop h.length_pending _ (by unfold segsize at *; omega)).1
    have hall : written++bytes=(written++bytes.take n)++bytes.drop n := by
      rw [append_assoc,take_append_drop]
    rw [hstop] at ho
    rw [hall]
    by_cases hfull : written.length%segsize+(bytes.take n).length=segsize
    · rw [if_pos (by rw [hfull])] at ho
      have hmore : written.length/segsize+1<2^16 := by
        have hmono := Nat.div_le_div_right (Nat.le_add_right written.length bytes.length)
          (c := segsize)
        omega
      cases hsend : sendBlock {w with tfp := w.tfp.fill (bytes.take n)} cs with
      | none => simp [hsend] at ho
      | some r =>
        simp only [hsend] at ho
        by_cases hneg : r.value<0
        · rw [if_pos hneg,Option.some.injEq] at ho
          subst ho
          exact Or.inl rfl
        · rw [if_neg hneg] at ho
          exact ih (h.send hfull hmore hsend (not_lt.mp hneg)) hrest ho
    · rw [if_neg (by exact_mod_cast hfull)] at ho
      exact ih (h.buffer (by omega)) hrest ho

theorem writeAll_writing {written : List UInt8} {w : World} (h : Writing written w)
    {datas : List (List UInt8)}
    (hcount : (written.length+datas.flatten.length)/segsize+1<2^16) {cs' : List Chance}
    {w' : World} (hw : writeAll w datas cs=some (w',cs')) :
    Writing (written++datas.flatten) w' := by
  induction datas generalizing written w cs with
  | nil =>
    simp only [writeAll,Option.some.injEq,Prod.mk.injEq] at hw
    rw [flatten_nil,append_nil,←hw.1]
    exact h
  | cons bytes datas ih =>
    rw [flatten_cons] at hcount ⊢
    rw [length_append,←Nat.add_assoc] at hcount
    unfold writeAll at hw
    cases hone : tftpwrite w bytes cs with
    | none => simp [hone] at hw
    | some o =>
      simp only [hone] at hw
      split at hw
      · rename_i hvalue
        unfold tftpwrite at hone
        rw [if_neg (not_not.mpr h.flags)] at hone
        have hmono := Nat.div_le_div_right
          (Nat.le_add_right (written.length+bytes.length) datas.flatten.length) (c := segsize)
        have hnext := (tftpwriteLoop_writing h (by omega) hone).resolve_left (by omega)
        rw [←append_assoc]
        exact ih hnext (by rw [length_append]; exact hcount) hw
      · cases hw

def lastPacket (data : List UInt8) : Packet :=
  ⟨data.length/segsize+1,data.drop (segsize*(data.length/segsize))⟩

/-- `tftpclose` returns 0; the server has the whole file exactly if the last block has reached it.
-/
theorem tftpclose_complete_iff (port : ℕ) (datas : List (List UInt8)) (cs : List Chance)
    (hblocks : datas.flatten.length/segsize+1≤65535) {w : World} {cs' : List Chance}
    (hwrite : writeAll (opened port) datas cs=some (w,cs')) {o : Outcome World Chance}
    (hclose : tftpclose w cs'=some o) : o.value=0 ∧
      (o.state.server.closed=true ∧ o.state.server.blocks.flatten=datas.flatten ↔
        lastPacket datas.flatten∈o.state.arrived) := by
  have h : Writing datas.flatten w :=
    writeAll_writing (opened_writing port) (by rw [length_nil,Nat.zero_add]; omega) hwrite
  unfold tftpclose at hclose
  cases hsend : sendBlock w cs' with
  | none => simp [hsend] at hclose
  | some r =>
    simp only [hsend] at hclose
    obtain ⟨hsending,-⟩ := sendBlock_sending h.toSettled (h.block.trans h.count.symm)
      (by rw [h.count]; omega) hsend
    obtain ⟨port',htfp⟩ := hsending.tfp
    have hstop : r.state.tfp.stop=(datas.flatten.length%segsize : ℕ) := by
      rw [htfp]
      exact h.stop
    have hshort : datas.flatten.length%segsize<segsize := Nat.mod_lt _ (by decide)
    rw [if_neg (by rw [hstop]; omega),Option.some.injEq] at hclose
    subst hclose
    refine ⟨rfl,?_⟩
    have hlast : (⟨w.server.blocks.length+1,w.tfp.pending⟩ : Packet)
        = lastPacket datas.flatten := by
      rw [h.count,h.pending]
      rfl
    have hserver := hsending.server
    rw [hlast] at hserver
    constructor
    · rintro ⟨hclosed,-⟩
      rcases hserver with harrived | hlost
      · exact harrived.1
      · rw [show r.state.server=w.server from hlost.2,h.closed] at hclosed
        cases hclosed
    · intro hin
      have hstored := (hserver.resolve_right fun hn => hn.1 hin).2
      rw [h.toSettled.receive (by rw [←hlast])] at hstored
      have hlen := h.length_pending
      rw [h.pending] at hlen
      rw [hstored]
      constructor
      · exact decide_eq_true (by rw [lastPacket,hlen]; exact hshort)
      · simp only [flatten_append,flatten_cons,flatten_nil,append_nil]
        rw [h.bytes,lastPacket,take_append_drop]

def delivered (number : ℕ) : Chance := ⟨true,[number],.datagram ⟨69,4,.ack,BitVec.ofNat 16 (number+1),[]⟩⟩
def lost : Chance := ⟨true,[],.timeout⟩

theorem tftpclose_complete_twoWrites :
    ∃ w, writeAll (opened 69) [[1,2],[3]] [delivered 0]=some (w,[delivered 0]) ∧
      ∃ o, tftpclose w [delivered 0]=some o ∧ lastPacket [1,2,3]∈o.state.arrived ∧
        o.state.server.blocks.flatten=[1,2,3] := by
  refine ⟨_,rfl,_,rfl, by decide +kernel,?_⟩
  exact ((tftpclose_complete_iff 69 [[1,2],[3]] [delivered 0] (by decide) rfl rfl).2.mpr
    (by decide +kernel)).2

theorem tftpclose_lost : ∃ w, writeAll (opened 69) [[1,2,3]] (List.replicate 6 lost)
        = some (w,List.replicate 6 lost) ∧
      ∃ o, tftpclose w (List.replicate 6 lost)=some o ∧ o.value=0 ∧
        o.state.server.closed=false ∧ o.state.server.blocks=[] :=
  ⟨_,rfl,_,rfl,rfl,rfl,rfl⟩

end Pmon.Tftp
