import Pmon.TftpRead

/-!
# The port of a TFTP transfer

`tftprrq` takes the port of whatever arrives while the block number is 0 or 1. The counter moves on
with every failed read too, so a client that tries again brings it back there.
-/

namespace Pmon.Tftp
open List
variable {tfp : Tftpfile} {es : List Event}

def gotPacket (tfp : Tftpfile) (e : Event) : Option Dgram :=
  if e.sent=false then none
  else if tfp.eof then none
  else
    match e.reply with
    | .datagram d =>
      if (tfp.block≤1 ∨ d.port=tfp.port) ∧ d.opcode = .data ∧ d.block.toInt=tfp.block then some d
      else none
    | _ => none

def accepted : Tftpfile → ℕ → List Event → Option Dgram
  | _, _, [] => none
  | tfp, rexmt, e::es =>
    match rrqRound tfp rexmt e with
    | .again tfp rexmt => accepted tfp rexmt es
    | .done _ _ => gotPacket tfp e

structure Wait where
  handle : Tftpfile
  packet : Option Dgram

def Tftpfile.wait (tfp : Tftpfile) (es : List Event) : Wait := ⟨tfp,accepted tfp 0 es⟩

def readWaits : ℕ → Tftpfile → ℤ → ℤ → List Event → List Wait
  | 0, _, _, _, _ => []
  | fuel+1, tfp, nb, dst, es =>
    if nb≠0 ∧ tfp.start<tfp.stop then
      let (_,tfp,n) := tfp.drain nb dst
      if tfp.stop≤tfp.foffs then
        tfp.nxtblk.wait es ::
          match tftprrq tfp.nxtblk es with
          | none => []
          | some r =>
            if r.value<0 then []
            else
              readWaits fuel { r.state with start := r.state.stop,
                                            stop := int32 (r.state.stop+r.value) }
                (nb-n) (dst+n) r.events
      else readWaits fuel tfp (nb-n) (dst+n) es
    else []

def callWaits : Tftpfile → List Event → List Call → List Wait
  | _, _, [] => []
  | tfp, es, .read n::cs =>
    (if tfp.flags ≠ .rdonly then [] else readWaits (es.length+2) tfp n 0 es) ++
      match tftpread tfp n es with
      | none => []
      | some (o,_) => callWaits o.state o.events cs
  | tfp, es, .lseek offs how::cs => callWaits (tftplseek tfp offs how).2 es cs

def transfer (port : ℕ) (es : List Event) (cs : List Call) : List Wait :=
  (newHandle port .rdonly 1).wait es ::
    match tftpopenRead port es with
    | some (some tfp,es) => callWaits tfp es cs
    | _ => []

def OnePort (ws : List Wait) : Prop :=
  match ws.filterMap Wait.packet with
  | [] => True
  | d::ds => ∀ d'∈ds, d'.port=d.port

def Tftpfile.Settled (tfp : Tftpfile) : Prop := tfp.eof=true ∨ 2≤tfp.block

instance (tfp : Tftpfile) : Decidable tfp.Settled := inferInstanceAs (Decidable (_ ∨ _))

inductive PortRound (tfp : Tftpfile) : Round Tftpfile → Option Dgram → Prop where
  | failed {v : ℤ} {t : Tftpfile} (hv : v<0) (hport : tfp.Settled → t.port=tfp.port) :
      PortRound tfp (.done v t) none
  | ended (heof : tfp.eof=true) : PortRound tfp (.done 0 tfp) none
  | again {t : Tftpfile} {k : ℕ} (hblock : t.block=tfp.block) (heof : t.eof=tfp.eof)
      (hport : tfp.Settled → t.port=tfp.port) : PortRound tfp (.again t k) none
  | got {d : Dgram} {t : Tftpfile} (hport : t.port=d.port)
      (hsettled : tfp.Settled → d.port=tfp.port) : PortRound tfp (.done (d.len-4) t) (some d)

theorem rrqReceive_portRound {t : Tftpfile} {d : Dgram} (hblock : t.block=tfp.block)
    (heof : t.eof=tfp.eof) (hport : t.port=d.port) (hkept : tfp.Settled → t.port=tfp.port)
    (rexmt : ℕ) : PortRound tfp (rrqReceive t rexmt d)
      (if d.opcode = .data ∧ d.block.toInt=tfp.block then some d else none) := by
  unfold rrqReceive
  by_cases herror : d.opcode = .error
  · rw [if_pos herror,if_neg (by simp [herror])]
    exact .failed (by decide) hkept
  rw [if_neg herror]
  by_cases hdata : d.opcode = .data
  · rw [if_pos hdata]
    by_cases hb : d.block.toInt=t.block
    · rw [if_pos hb,if_pos ⟨hdata,hblock ▸ hb⟩]
      exact .got hport fun hs => hport.symm.trans (hkept hs)
    · rw [if_neg hb]
      have hother : ¬(d.opcode = .data ∧ d.block.toInt=tfp.block) := fun h => hb (hblock ▸ h.2)
      rw [if_neg hother]
      split
      · exact .failed (by decide) hkept
      · exact .again hblock heof hkept
  · rw [if_neg hdata,if_neg (fun h => hdata h.1)]
    exact .again hblock heof hkept

theorem rrqRound_portRound (tfp : Tftpfile) (rexmt : ℕ) (e : Event) :
    PortRound tfp (rrqRound tfp rexmt e) (gotPacket tfp e) := by
  unfold rrqRound gotPacket
  by_cases hsent : e.sent=false
  · rw [if_pos hsent,if_pos hsent]
    exact .failed (by decide) fun _ => rfl
  rw [if_neg hsent,if_neg hsent]
  by_cases heof : tfp.eof=true
  · rw [if_pos heof,if_pos heof]
    exact .ended heof
  rw [if_neg heof,if_neg heof]
  cases e.reply with
  | selectError => exact .failed (by decide) fun _ => rfl
  | timeout =>
    dsimp only
    split
    · exact .failed (by decide) fun _ => rfl
    · exact .again rfl rfl fun _ => rfl
  | recvError => exact .failed (by decide) fun _ => rfl
  | datagram d =>
    by_cases hfirst : tfp.block≤1
    · -- the port is taken over, so the handle must not be settled
      simp only [hfirst,if_true,true_or,true_and]
      have hunsettled : ¬tfp.Settled := fun hs => by
        have := hs.resolve_left heof
        omega
      apply rrqReceive_portRound
      · rfl
      · rfl
      · rfl
      · exact fun hs => absurd hs hunsettled
    · by_cases hport : d.port=tfp.port
      · simp only [hfirst,hport,if_false,ne_eq,not_true_eq_false,or_true,true_and]
        apply rrqReceive_portRound
        · rfl
        · rfl
        · exact hport.symm
        · exact fun _ => rfl
      · simp only [hfirst,hport,if_false,if_true,ne_eq,not_false_eq_true,or_self,false_and]
        exact .again rfl rfl fun _ => rfl

theorem tftprrq_settled (hs : tfp.Settled) (rexmt : ℕ) (es : List Event) :
    (∀ d, accepted tfp rexmt es=some d → d.port=tfp.port) ∧
      ∀ o, rounds rrqRound tfp rexmt es=some o → o.state.port=tfp.port := by
  induction es generalizing tfp rexmt with
  | nil => exact ⟨fun d h => (by cases h),fun o h => by cases h⟩
  | cons e es ih =>
    have hround := rrqRound_portRound tfp rexmt e
    unfold accepted rounds
    cases hr : rrqRound tfp rexmt e with
    | again t k =>
      rw [hr] at hround
      generalize gotPacket tfp e=got at hround
      cases hround with
      | again hblock heof hport =>
        have hst : t.Settled := by
          unfold Tftpfile.Settled
          rw [hblock,heof]
          exact hs
        rw [←hport hs]
        exact ih hst k
    | done v t =>
      rw [hr] at hround
      generalize gotPacket tfp e=got at hround
      cases hround with
      | failed _ hport => exact ⟨fun d h => (by cases h),fun o h => by cases h; exact hport hs⟩
      | ended _ => exact ⟨fun d h => (by cases h),fun o h => by cases h; rfl⟩
      | got hport hsettled =>
        refine ⟨fun d h => ?_,fun o h => ?_⟩
        · cases h
          exact hsettled hs
        · cases h
          exact hport.trans (hsettled hs)

theorem tftprrq_accepted (heof : tfp.eof=false) {rexmt : ℕ} {o : Outcome Tftpfile Event}
    (h : rounds rrqRound tfp rexmt es=some o) (hv : 0≤o.value) :
    ∃ d, accepted tfp rexmt es=some d ∧ o.state.port=d.port := by
  induction es generalizing tfp rexmt with
  | nil => cases h
  | cons e es ih =>
    have hround := rrqRound_portRound tfp rexmt e
    unfold rounds at h
    unfold accepted
    cases hr : rrqRound tfp rexmt e with
    | again t k =>
      rw [hr] at h hround
      generalize gotPacket tfp e=got at hround
      cases hround with
      | again _ hsame _ => exact ih (hsame.trans heof) h
    | done v t =>
      rw [hr] at h hround
      cases h
      dsimp only at hv ⊢
      generalize gotPacket tfp e=got at hround
      cases hround with
      | failed hneg _ => omega
      | ended hend => simp [heof] at hend
      | got hport _ => exact ⟨_,rfl,hport⟩

@[simp] theorem drain_port (tfp : Tftpfile) (nb dst : ℤ) : (tfp.drain nb dst).2.1.port=tfp.port := by
  unfold Tftpfile.drain
  split <;> rfl

theorem readWaits_settled {fuel : ℕ} {nb dst : ℤ} (nread : ℤ)
    (hs : ∀ w∈readWaits fuel tfp nb dst es, w.handle.Settled) :
    (∀ w∈readWaits fuel tfp nb dst es, ∀ d, w.packet=some d → d.port=tfp.port) ∧
      ∀ o copies, tftpreadLoop nread fuel tfp nb dst es=some (o,copies) →
        o.state.port=tfp.port := by
  induction fuel generalizing tfp nb dst es with
  | zero => exact ⟨fun w hw => (by cases hw),fun o copies h => by cases h⟩
  | succ fuel ih =>
    unfold readWaits at hs ⊢
    unfold tftpreadLoop
    by_cases hgo : nb≠0 ∧ tfp.start<tfp.stop
    · rw [if_pos hgo] at hs ⊢
      rw [if_pos hgo]
      have hport := drain_port tfp nb dst
      cases hd : tfp.drain nb dst with
      | mk copies r =>
        obtain ⟨t,n⟩ := r
        rw [hd] at hs hport
        dsimp only at hs hport ⊢
        rw [←hport]
        by_cases hempty : t.stop≤t.foffs
        · rw [if_pos hempty] at hs ⊢
          rw [if_pos hempty]
          obtain ⟨hacc,hkept⟩ := tftprrq_settled (hs _ mem_cons_self) 0 es
          have hkept := hkept
          cases hr : tftprrq t.nxtblk es with
          | none =>
            refine ⟨fun w hw d h => ?_,fun o cs h => by cases h⟩
            rw [mem_singleton.mp hw] at h
            exact hacc d h
          | some r =>
            rw [hr] at hs
            have hrport := hkept r hr
            dsimp only at hs ⊢
            by_cases hneg : r.value<0
            · rw [if_pos hneg,if_pos hneg]
              refine ⟨fun w hw d h => ?_,fun o cs h => ?_⟩
              · rw [mem_singleton.mp hw] at h
                exact hacc d h
              · cases h
                exact hrport
            · rw [if_neg hneg] at hs ⊢
              rw [if_neg hneg]
              obtain ⟨hwaits,hloop⟩ := ih (fun w hw => hs w (mem_cons_of_mem _ hw))
              refine ⟨fun w hw d h => ?_,fun o cs h => ?_⟩
              · obtain rfl | hw := mem_cons.mp hw
                · exact hacc d h
                · exact (hwaits w hw d h).trans hrport
              · obtain ⟨⟨o',cs'⟩,hrest,heq⟩ := Option.map_eq_some_iff.mp h
                cases heq
                exact (hloop o' cs' hrest).trans hrport
        · rw [if_neg hempty] at hs ⊢
          rw [if_neg hempty]
          obtain ⟨hwaits,hloop⟩ := ih hs
          refine ⟨hwaits,fun o cs h => ?_⟩
          obtain ⟨⟨o',cs'⟩,hrest,heq⟩ := Option.map_eq_some_iff.mp h
          cases heq
          exact hloop o' cs' hrest
    · rw [if_neg hgo,if_neg hgo]
      refine ⟨fun w hw => (by cases hw),fun o copies h => ?_⟩
      cases h
      rfl

theorem tftplseek_port (tfp : Tftpfile) (offs how : ℤ) :
    (tftplseek tfp offs how).2.port=tfp.port := by
  unfold tftplseek
  split
  · rfl
  · generalize (if how=0 then offs else int32 (tfp.foffs+offs))=noffs
    cases tfp.flags <;> dsimp only <;> split <;> rfl

theorem callWaits_settled {cs : List Call} (hs : ∀ w∈callWaits tfp es cs, w.handle.Settled) :
    ∀ w∈callWaits tfp es cs, ∀ d, w.packet=some d → d.port=tfp.port := by
  induction cs generalizing tfp es with
  | nil => exact fun w hw => nomatch hw
  | cons c cs ih =>
    cases c with
    | lseek offs how =>
      rw [←tftplseek_port tfp offs how]
      exact ih hs
    | read n =>
      unfold callWaits at hs ⊢
      unfold tftpread at hs ⊢
      by_cases hmode : tfp.flags ≠ .rdonly
      · rw [if_pos hmode,if_pos hmode,nil_append] at hs ⊢
        exact ih hs
      · rw [if_neg hmode,if_neg hmode] at hs ⊢
        obtain ⟨hread,hloop⟩ :=
          readWaits_settled n fun w hw => hs w (mem_append_left _ hw)
        intro w hw d h
        obtain hw | hw := mem_append.mp hw
        · exact hread w hw d h
        · match hr : tftpreadLoop n (es.length+2) tfp n 0 es with
          | none => simp [hr] at hw
          | some (o,copies) =>
            rw [hr] at hs hw
            rw [←hloop o copies hr]
            exact ih (fun w hw => hs w (mem_append_right _ hw)) w hw d h

theorem transfer_of_open {port : ℕ} {es' : List Event}
    (h : tftpopenRead port es=some (some tfp,es')) (cs : List Call) :
    transfer port es cs=(newHandle port .rdonly 1).wait es::callWaits tfp es' cs := by
  rw [transfer,h]

theorem onePort_cons {w : Wait} {d : Dgram} (hw : w.packet=some d) (ws : List Wait) :
    OnePort (w::ws) ↔ ∀ w'∈ws, ∀ d', w'.packet=some d' → d'.port=d.port := by
  unfold OnePort
  rw [filterMap_cons_some hw]
  constructor
  · intro h w' hmem d' hd'
    exact h d' (mem_filterMap.mpr ⟨w',hmem,hd'⟩)
  · intro h d' hd'
    obtain ⟨w',hmem,hw'⟩ := mem_filterMap.mp hd'
    exact h w' hmem d' hw'

theorem onePort_singleton (w : Wait) : OnePort [w] := by
  unfold OnePort
  cases h : w.packet with
  | none => simp [h]
  | some d => simp [h]

/-- A transfer with settled handles behind the first block has one port. -/
theorem transfer_onePort (port : ℕ) (es : List Event) (cs : List Call)
    (hs : ∀ w∈(transfer port es cs).tail, w.handle.Settled) : OnePort (transfer port es cs) := by
  match hopen : tftprrq (newHandle port .rdonly 1) es with
  | none =>
    have hnone : tftpopenRead port es=none := by rw [tftpopenRead,hopen,Option.map_none]
    rw [transfer,hnone]
    exact onePort_singleton _
  | some o =>
    by_cases hneg : o.value<0
    · have hfail : tftpopenRead port es=some (none,o.events) := by
        rw [tftpopenRead,hopen,Option.map_some,if_pos hneg]
      rw [transfer,hfail]
      exact onePort_singleton _
    · have hok : tftpopenRead port es =
          some (some {o.state with stop := int32 (o.state.start+o.value)},o.events) := by
        rw [tftpopenRead,hopen,Option.map_some,if_neg hneg]
      rw [transfer_of_open hok] at hs ⊢
      rw [tail_cons] at hs
      obtain ⟨d,hd,hport⟩ := tftprrq_accepted rfl hopen (by omega)
      rw [onePort_cons hd]
      intro w hw d' hd'
      exact (callWaits_settled hs w hw d' hd').trans hport

theorem transfer_onePort_short : OnePort (transfer 69
      [⟨true,.datagram ⟨1069,516,.data,1,List.replicate segsize 0⟩⟩,
        ⟨true,.datagram ⟨2069,516,.data,2,List.replicate segsize 0⟩⟩,
        ⟨true,.datagram ⟨1069,4,.data,2,[]⟩⟩] [.read 512]) :=
  transfer_onePort _ _ _ (by decide +kernel)

def zeros : List UInt8 := List.replicate segsize 0

/-- A full block from a port. -/
def fullBlock (port : ℕ) (b : BitVec 16) : Event := ⟨true,.datagram ⟨port,516,.data,b,zeros⟩⟩

/-- A round in which `sendto` fails. -/
def unsent : Event := ⟨false,.timeout⟩

/-- A handle that holds the first block, with the counter at `b`. -/
def held (port b : ℕ) (foffs : ℤ) : Tftpfile :=
  {port := port, block := b, flags := .rdonly, eof := false, start := 0, stop := 512, foffs := foffs,
    buf := zeros}

theorem overwrite_zeros : overwrite zeros zeros=zeros := by
  simp [overwrite,zeros]

/-- While the counter is 0 or 1, the expected block is taken from every port. -/
theorem rrqRound_fullBlock {b : BitVec 16} (port : ℕ) (hb : b.toInt=tfp.block) (hfirst : tfp.block≤1)
    (heof : tfp.eof=false) (hbuf : tfp.buf=zeros) :
    rrqRound tfp 0 (fullBlock port b) = .done 512 {tfp with port := port} ∧
      gotPacket tfp (fullBlock port b)=some ⟨port,516,.data,b,zeros⟩ := by
  have hsize : decide (((516 : ℕ) : ℤ)-4<(segsize : ℤ))=false := by decide
  constructor
  · unfold rrqRound fullBlock
    rw [if_neg (by simp),if_neg (by simp [heof])]
    dsimp only
    rw [hbuf,overwrite_zeros,←hbuf,if_pos hfirst]
    unfold rrqReceive
    rw [if_neg (by simp),if_pos rfl,if_pos hb,hsize,Bool.or_false]
    rfl
  · simp [gotPacket,fullBlock,heof,hfirst,hb]

theorem tftpopenRead_fullBlock (port p : ℕ) (es : List Event) :
    tftpopenRead port (fullBlock p 1::es)=some (some (held p 1 0),es) ∧
      ∃ d, ((newHandle port .rdonly 1).wait (fullBlock p 1::es)).packet=some d ∧ d.port=p := by
  obtain ⟨hround,hgot⟩ := @rrqRound_fullBlock (newHandle port .rdonly 1) 1 p rfl le_rfl rfl rfl
  constructor
  · rw [tftpopenRead,tftprrq,rounds,hround]
    rfl
  · rw [Tftpfile.wait,accepted,hround]
    exact ⟨_,hgot,rfl⟩

/-- Behind the first read the buffer is used up. -/
theorem drain_held (port b : ℕ) {f : ℤ} (hf : f=0 ∨ f=512) :
    ∃ copies n, (held port b f).drain 512 0=(copies,held port b 512,n) := by
  obtain rfl | rfl := hf
  · exact ⟨_,512,rfl⟩
  · exact ⟨[],0,rfl⟩

section
variable {port b : ℕ} {f : ℤ} (hf : f=0 ∨ f=512)
include hf

theorem mem_callWaits_held (es : List Event) (cs : List Call) :
    (held port ((b+1)%2^16) 512).wait es∈callWaits (held port b f) es (.read 512::cs) := by
  obtain ⟨copies,n,hdrain⟩ := drain_held port b hf
  refine mem_append_left _ ?_
  rw [if_neg (show ¬(held port b f).flags ≠ .rdonly from not_not.mpr rfl),readWaits,
    if_pos ⟨by decide,show (0 : ℤ)<512 by decide⟩,Nat.cast_ofNat,hdrain]
  exact mem_cons_self

/-- A read whose packet is not sent fails, and the counter has moved on. -/
theorem callWaits_unsent (es : List Event) (cs : List Call) :
    ∃ ws, callWaits (held port b f) (unsent::es) (.read 512::cs)=
      ws++callWaits (held port ((b+1)%2^16) 512) es cs := by
  obtain ⟨copies,n,hdrain⟩ := drain_held port b hf
  have hread : tftpread (held port b f) (512 : ℕ) (unsent::es)=
      some (⟨-1,held port ((b+1)%2^16) 512,es⟩,copies) := by
    rw [tftpread,if_neg (show ¬(held port b f).flags ≠ .rdonly from not_not.mpr rfl),tftpreadLoop,
      if_pos ⟨by decide,show (0 : ℤ)<512 by decide⟩,Nat.cast_ofNat,hdrain]
    rfl
  rw [callWaits,hread]
  exact ⟨_,rfl⟩

theorem callWaits_retries {k : ℕ} (hk : b+k<2^16) (es : List Event) (cs : List Call) :
    ∃ ws g, (g=0 ∨ g=512) ∧ callWaits (held port b f) (replicate k unsent++es)
      (replicate k (.read 512)++cs)=ws++callWaits (held port (b+k) g) es cs := by
  induction k generalizing b f with
  | zero => exact ⟨[],f,hf,rfl⟩
  | succ k ih =>
    obtain ⟨ws,hws⟩ := @callWaits_unsent port b f hf (replicate k unsent++es)
      (replicate k (.read 512)++cs)
    rw [Nat.mod_eq_of_lt (by omega)] at hws
    obtain ⟨ws',g,hg,hrest⟩ := @ih (b+1) 512 (.inr rfl) (by omega)
    refine ⟨ws++ws',g,hg,?_⟩
    rw [replicate_succ,replicate_succ,cons_append,cons_append,hws,hrest,append_assoc,
      show b+1+k=b+(k+1) by omega]
end

/-- The counter of a transfer that holds its first block takes every value as reads fail. -/
theorem mem_callWaits_retries (p : ℕ) {k : ℕ} (hk : 1+k<2^16) (es : List Event) :
    (held p ((1+k+1)%2^16) 512).wait es∈callWaits (held p 1 0) (replicate k unsent++es)
      (replicate k (.read 512)++[.read 512]) := by
  obtain ⟨ws,g,hg,hrun⟩ := @callWaits_retries p 1 0 (.inl rfl) k hk es [.read 512]
  rw [hrun]
  exact mem_append_right ws (mem_callWaits_held hg es [])

/-- The first block from port `p`, failed reads, and block 0 from port `q`. -/
def retries (p q : ℕ) : List Event := fullBlock p 1::(replicate 65534 unsent++[fullBlock q 0])

theorem accepted_wrapped (p q : ℕ) :
    ((held p 0 512).wait [fullBlock q 0]).packet=some ⟨q,516,.data,0,zeros⟩ := by
  obtain ⟨hround,hgot⟩ := @rrqRound_fullBlock (held p 0 512) 0 q rfl (Nat.zero_le 1) rfl rfl
  rw [Tftpfile.wait,accepted,hround]
  exact hgot

theorem transfer_onePort_retries :
    ¬OnePort (transfer 69 (retries 1069 2069) (replicate 65534 (.read 512)++[.read 512])) := by
  obtain ⟨hopen,d₀,hd₀,hp⟩ :=
    tftpopenRead_fullBlock 69 1069 (replicate 65534 unsent++[fullBlock 2069 0])
  have hmem := @mem_callWaits_retries 1069 65534 (by norm_num) [fullBlock 2069 0]
  rw [show (1+65534+1)%2^16=0 by norm_num] at hmem
  rw [retries,transfer_of_open hopen,onePort_cons hd₀]
  intro hsame
  have hport := hsame _ hmem _ (accepted_wrapped 1069 2069)
  rw [hp] at hport
  exact absurd hport (by decide)

end Pmon.Tftp
