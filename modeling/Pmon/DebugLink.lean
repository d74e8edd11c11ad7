import Pmon.StopAndWait

/-!
# The remote-debug link

Two peers run `putmsg` and `getmsg` over packet channels, with numbers of six bits. Each step is one
call of `putpkt` or `getpkt`, so the peers interleave freely. A channel may lose packets, damage one
(`-1`) or let a read time out (`-2`).
-/

namespace Pmon.DebugLink
open StopAndWait List Function

def nextseq (x : ℕ) : ℕ := (x+1)%64

/-- A packet as `putpkt` sends it: an acknowledgement carries no message. -/
inductive Pkt (α : Type) where
  | data (seq : ℕ) (msg : α)
  | ack (seq : ℕ)

inductive Received (α : Type) where
  | pkt (p : Pkt α)
  | error
  | timeout

inductive Pc (α : Type) where
  | idle
  | putSend (msg : α)
  | putWait (msg : α)
  | putReack (msg : α)
  | getWait
  | getReack
  | getAck (msg : α)

/-- One end of the link, with the messages handed to it, completed and received. -/
structure Node (α : Type) where
  txseq : ℕ
  rxseq : ℕ
  lastwasget : Bool
  pc : Pc α
  handed : List α
  completed : ℕ
  got : List α

variable {α : Type} {L : Link α} {d : Bool}

def Node.start : Node α :=
  { txseq := 0, rxseq := 0, lastwasget := false, pc := .idle, handed := [], completed := 0,
    got := [] }

def Node.putmsg (n : Node α) (msg : α) : Option (Node α) :=
  match n.pc with
  | .idle => some {n with pc := .putSend msg, handed := n.handed++[msg]}
  | _ => none

def Node.getmsg (n : Node α) : Option (Node α) :=
  match n.pc with
  | .idle => some {n with pc := .getWait}
  | _ => none

/-- The `putpkt` call the peer stands at; `getmsg` acknowledges a taken message last. -/
def Node.putpkt (n : Node α) : Option (Pkt α × Node α) :=
  match n.pc with
  | .putSend msg => some (.data n.txseq msg,{n with pc := .putWait msg})
  | .putReack msg => some (.ack n.rxseq,{n with pc := .putSend msg})
  | .getReack => some (.ack n.rxseq,{n with pc := .getWait})
  | .getAck msg =>
    some (.ack n.rxseq,{n with pc := .idle, lastwasget := true, got := n.got++[msg]})
  | _ => none

def Node.putmsgLoop (n : Node α) (msg : α) : Received α → Node α
  | .pkt (.ack ts) =>
    if ts=nextseq n.txseq then
      { n with txseq := nextseq n.txseq, lastwasget := false, pc := .idle,
               completed := n.completed+1 }
    else if ts=n.txseq then {n with pc := .putSend msg}
    else n
  | .pkt (.data _ _) => n
  | .error => n
  | .timeout => if n.lastwasget then {n with pc := .putReack msg} else {n with pc := .putSend msg}

def Node.getmsgLoop (n : Node α) : Received α → Node α
  | .pkt (.data ts msg) =>
    if ts=n.rxseq then {n with rxseq := nextseq n.rxseq, pc := .getAck msg} else n
  | .pkt (.ack _) => n
  | .error => {n with pc := .getReack}
  | .timeout => {n with pc := .getReack}

def Node.getpkt (n : Node α) (r : Received α) : Option (Node α) :=
  match n.pc with
  | .putWait msg => some (n.putmsgLoop msg r)
  | .getWait => some (n.getmsgLoop r)
  | _ => none

/-- Both ends, and the packets on the way from each. -/
structure Sys (α : Type) where
  node : Bool → Node α
  chan : Bool → List (Pkt α)

def Sys.start : Sys α := {node := fun _ => Node.start, chan := fun _ => []}

inductive Outcome where
  | packet
  | error
  | timeout

inductive Action (α : Type) where
  | putmsg (s : Bool) (msg : α)
  | getmsg (s : Bool)
  | putpkt (s : Bool)
  | getpkt (s : Bool) (o : Outcome)
  | lose (s : Bool) (i : ℕ)

def Sys.set (sys : Sys α) (s : Bool) (n : Node α) (t : Bool) (c : List (Pkt α)) : Sys α :=
  {node := update sys.node s n, chan := update sys.chan t c}

def Sys.step (sys : Sys α) : Action α → Option (Sys α)
  | .putmsg s msg => ((sys.node s).putmsg msg).map fun n => sys.set s n s (sys.chan s)
  | .getmsg s => (sys.node s).getmsg.map fun n => sys.set s n s (sys.chan s)
  | .putpkt s => (sys.node s).putpkt.map fun pn => sys.set s pn.2 s (sys.chan s++[pn.1])
  | .getpkt s .packet =>
    match sys.chan (!s) with
    | [] => none
    | p::c => ((sys.node s).getpkt (.pkt p)).map fun n => sys.set s n (!s) c
  | .getpkt s .error =>
    match sys.chan (!s) with
    | [] => none
    | _::c => ((sys.node s).getpkt .error).map fun n => sys.set s n (!s) c
  | .getpkt s .timeout => ((sys.node s).getpkt .timeout).map fun n => sys.set s n s (sys.chan s)
  | .lose s i => some (sys.set s (sys.node s) s ((sys.chan s).eraseIdx i))

def Sys.run (sys : Sys α) (acts : List (Action α)) : Option (Sys α) := acts.foldlM Sys.step sys

/-!
## What a step can do

A peer is a sender in one direction and a receiver in the other.
-/

def Pc.outgoing : Pc α → Option α
  | .putSend msg => some msg
  | .putWait msg => some msg
  | .putReack msg => some msg
  | _ => none

def Pc.incoming : Pc α → Option α
  | .getAck msg => some msg
  | _ => none

structure SenderView (α : Type) where
  txseq : ℕ
  handed : List α
  completed : ℕ
  outgoing : Option α

structure ReceiverView (α : Type) where
  rxseq : ℕ
  got : List α
  incoming : Option α

def Node.senderView (n : Node α) : SenderView α :=
  ⟨n.txseq,n.handed,n.completed,n.pc.outgoing⟩

def Node.receiverView (n : Node α) : ReceiverView α := ⟨n.rxseq,n.got,n.pc.incoming⟩

inductive Effect (sys : Sys α) : Bool → Node α → Bool → List (Pkt α) → Prop where
  | quiet {s t : Bool} {n : Node α} {c : List (Pkt α)}
      (hsender : n.senderView=(sys.node s).senderView)
      (hreceiver : n.receiverView=(sys.node s).receiverView)
      (hchan : c.Sublist (sys.chan t)) : Effect sys s n t c
  | submit {s : Bool} {n : Node α} (msg : α) (hidle : (sys.node s).pc.outgoing=none)
      (hsender : n.senderView=⟨(sys.node s).txseq,(sys.node s).handed++[msg],
        (sys.node s).completed,some msg⟩)
      (hreceiver : n.receiverView=(sys.node s).receiverView) : Effect sys s n s (sys.chan s)
  | transmit {s : Bool} {n : Node α} (msg : α) (hmsg : (sys.node s).pc.outgoing=some msg)
      (hsender : n.senderView=(sys.node s).senderView)
      (hreceiver : n.receiverView=(sys.node s).receiverView) :
      Effect sys s n s (sys.chan s++[.data (sys.node s).txseq msg])
  | acknowledge {s : Bool} {n : Node α}
      (hsender : n.senderView=(sys.node s).senderView)
      (hreceiver : n.receiverView=⟨(sys.node s).rxseq,
        (sys.node s).got++(sys.node s).pc.incoming.toList,none⟩) :
      Effect sys s n s (sys.chan s++[.ack (sys.node s).rxseq])
  | confirm {s : Bool} {n : Node α} {c : List (Pkt α)} (msg : α)
      (hmsg : (sys.node s).pc.outgoing=some msg)
      (hhead : sys.chan (!s) = .ack (nextseq (sys.node s).txseq)::c)
      (hsender : n.senderView=⟨nextseq (sys.node s).txseq,(sys.node s).handed,
        (sys.node s).completed+1,none⟩)
      (hreceiver : n.receiverView=(sys.node s).receiverView) : Effect sys s n (!s) c
  | accept {s : Bool} {n : Node α} {c : List (Pkt α)} (msg : α)
      (hidle : (sys.node s).pc.incoming=none)
      (hhead : sys.chan (!s) = .data (sys.node s).rxseq msg::c)
      (hsender : n.senderView=(sys.node s).senderView)
      (hreceiver : n.receiverView=⟨nextseq (sys.node s).rxseq,(sys.node s).got,some msg⟩) :
      Effect sys s n (!s) c

variable {n : Node α}

theorem Node.getpkt_of_not_pkt {n' : Node α} {r : Received α} (h : n.getpkt r=some n')
    (hr : r = .error ∨ r = .timeout) :
    n'.senderView=n.senderView ∧ n'.receiverView=n.receiverView := by
  rcases n with ⟨tx,rx,last,pc,handed,completed,got⟩
  cases pc <;> simp only [Node.getpkt,Option.some.injEq,reduceCtorEq] at h
  case putWait msg =>
    subst h
    rcases hr with rfl | rfl
    · exact ⟨rfl,rfl⟩
    · cases last <;> exact ⟨rfl,rfl⟩
  case getWait =>
    subst h
    rcases hr with rfl | rfl <;> exact ⟨rfl,rfl⟩

variable {sys : Sys α} {c : List (Pkt α)}
variable {s t : Bool}

theorem Effect.of_pkt {p : Pkt α} (hchan : sys.chan (!s)=p::c)
    (h : (sys.node s).getpkt (.pkt p)=some n) : Effect sys s n (!s) c := by
  have hrest : c.Sublist (sys.chan (!s)) := by rw [hchan]; exact sublist_cons_self p c
  unfold Node.getpkt at h
  split at h
  case h_1 msg hpc =>
    rw [Option.some.injEq] at h
    subst h
    cases p with
    | data ts m => exact .quiet rfl rfl hrest
    | ack ts =>
      simp only [Node.putmsgLoop]
      split_ifs with hnext hsame
      · subst hnext
        exact .confirm msg (by rw [hpc]; rfl) hchan rfl (by simp [Node.receiverView,hpc,Pc.incoming])
      · exact .quiet (by simp [Node.senderView,hpc,Pc.outgoing])
          (by simp [Node.receiverView,hpc,Pc.incoming]) hrest
      · exact .quiet rfl rfl hrest
  case h_2 hpc =>
    rw [Option.some.injEq] at h
    subst h
    cases p with
    | ack ts => exact .quiet rfl rfl hrest
    | data ts m =>
      simp only [Node.getmsgLoop]
      split_ifs with hexpected
      · subst hexpected
        exact .accept m (by rw [hpc]; rfl) hchan (by simp [Node.senderView,hpc,Pc.outgoing]) rfl
      · exact .quiet rfl rfl hrest
  case h_3 => exact absurd h (by simp)

theorem Effect.of_putpkt {p : Pkt α} (h : (sys.node s).putpkt=some (p,n)) :
    Effect sys s n s (sys.chan s++[p]) := by
  unfold Node.putpkt at h
  split at h <;>
    simp only [Option.some.injEq,Prod.mk.injEq,reduceCtorEq] at h
  case h_1 msg hpc =>
    obtain ⟨rfl,rfl⟩ := h
    exact .transmit msg (by rw [hpc]; rfl) (by simp [Node.senderView,hpc,Pc.outgoing])
      (by simp [Node.receiverView,hpc,Pc.incoming])
  case h_2 msg hpc =>
    obtain ⟨rfl,rfl⟩ := h
    exact .acknowledge (by simp [Node.senderView,hpc,Pc.outgoing])
      (by simp [Node.receiverView,hpc,Pc.incoming])
  case h_3 hpc =>
    obtain ⟨rfl,rfl⟩ := h
    exact .acknowledge (by simp [Node.senderView,hpc,Pc.outgoing])
      (by simp [Node.receiverView,hpc,Pc.incoming])
  case h_4 msg hpc =>
    obtain ⟨rfl,rfl⟩ := h
    exact .acknowledge (by simp [Node.senderView,hpc,Pc.outgoing])
      (by simp [Node.receiverView,hpc,Pc.incoming])

variable {sys' : Sys α}

theorem Sys.step_effect {a : Action α} (h : sys.step a=some sys') :
    ∃ s n t c, sys'=sys.set s n t c ∧ Effect sys s n t c := by
  cases a with
  | putmsg s msg =>
    simp only [Sys.step,Option.map_eq_some_iff] at h
    obtain ⟨n,hn,rfl⟩ := h
    refine ⟨s,n,s,_,rfl,?_⟩
    unfold Node.putmsg at hn
    split at hn <;> simp only [Option.some.injEq,reduceCtorEq] at hn
    case h_1 hpc =>
      subst hn
      exact .submit msg (by rw [hpc]; rfl) rfl (by simp [Node.receiverView,hpc,Pc.incoming])
  | getmsg s =>
    simp only [Sys.step,Option.map_eq_some_iff] at h
    obtain ⟨n,hn,rfl⟩ := h
    refine ⟨s,n,s,_,rfl,?_⟩
    unfold Node.getmsg at hn
    split at hn <;> simp only [Option.some.injEq,reduceCtorEq] at hn
    case h_1 hpc =>
      subst hn
      exact .quiet (by simp [Node.senderView,hpc,Pc.outgoing])
        (by simp [Node.receiverView,hpc,Pc.incoming]) (List.Sublist.refl _)
  | putpkt s =>
    simp only [Sys.step,Option.map_eq_some_iff] at h
    obtain ⟨⟨p,n⟩,hn,rfl⟩ := h
    exact ⟨s,n,s,_,rfl,.of_putpkt hn⟩
  | getpkt s o =>
    cases o with
    | timeout =>
      simp only [Sys.step,Option.map_eq_some_iff] at h
      obtain ⟨n,hn,rfl⟩ := h
      have hsame := Node.getpkt_of_not_pkt hn (.inr rfl)
      exact ⟨s,n,s,_,rfl,.quiet hsame.1 hsame.2 (List.Sublist.refl _)⟩
    | packet =>
      cases hchan : sys.chan (!s) with
      | nil => simp [Sys.step,hchan] at h
      | cons p c =>
        simp only [Sys.step,hchan,Option.map_eq_some_iff] at h
        obtain ⟨n,hn,rfl⟩ := h
        exact ⟨s,n,!s,c,rfl,.of_pkt hchan hn⟩
    | error =>
      cases hchan : sys.chan (!s) with
      | nil => simp [Sys.step,hchan] at h
      | cons p c =>
        simp only [Sys.step,hchan,Option.map_eq_some_iff] at h
        obtain ⟨n,hn,rfl⟩ := h
        have hsame := Node.getpkt_of_not_pkt hn (.inl rfl)
        exact ⟨s,n,!s,c,rfl,
          .quiet hsame.1 hsame.2 (by rw [hchan]; exact sublist_cons_self p c)⟩
  | lose s i =>
    simp only [Sys.step,Option.some.injEq] at h
    subst h
    exact ⟨s,_,s,_,rfl,.quiet rfl rfl (eraseIdx_sublist _ i)⟩

def Pkt.data? : Pkt α → Option (ℕ × Option α)
  | .data seq msg => some (seq,some msg)
  | .ack _ => none

def Pkt.ack? : Pkt α → Option ℕ
  | .data _ _ => none
  | .ack seq => some seq

def dataOf (c : List (Pkt α)) : List (ℕ × Option α) := c.filterMap Pkt.data?
def acksOf (c : List (Pkt α)) : List ℕ := c.filterMap Pkt.ack?

structure SenderAt (v : SenderView α) (L : Link α) : Prop where
  txseq_eq : v.txseq=L.acked%64
  handed_eq : v.handed=L.sent
  completed_eq : v.completed=L.acked
  outgoing_eq : L.sent.drop L.acked=v.outgoing.toList

structure ReceiverAt (v : ReceiverView α) (L : Link α) : Prop where
  rxseq_eq : v.rxseq=L.taken%64
  length_got : v.got.length=L.passed
  take_eq : L.sent.take L.taken=v.got++v.incoming.toList

def packet (L : Link α) (i : ℕ) : ℕ × Option α := (i%64,L.sent[i]?)

/-- One direction of the link is a stop-and-wait link with numbers modulo 64. -/
structure Tracks (sys : Sys α) (d : Bool) (L : Link α) : Prop where
  sender : SenderAt (sys.node d).senderView L
  receiver : ReceiverAt (sys.node (!d)).receiverView L
  data_eq : dataOf (sys.chan d)=L.data.map (packet L)
  acks_eq : acksOf (sys.chan (!d))=L.acks.map (· % 64)

theorem tracks_start (d : Bool) : Tracks (Sys.start : Sys α) d Link.start :=
  ⟨⟨rfl,rfl,rfl,rfl⟩,⟨rfl,rfl,rfl⟩,rfl,rfl⟩

theorem SenderAt.acked_lt {v : SenderView α} {msg : α} (h : SenderAt v L)
    (hmsg : v.outgoing=some msg) : L.acked<L.sent.length ∧ L.sent[L.acked]?=some msg := by
  have hdrop := h.outgoing_eq
  rw [hmsg] at hdrop
  have hget : (L.sent.drop L.acked)[0]?=some msg := by rw [hdrop]; rfl
  rw [getElem?_drop,Nat.add_zero] at hget
  exact ⟨(List.getElem?_eq_some_iff.mp hget).1,hget⟩

theorem SenderAt.length_eq {v : SenderView α} (h : SenderAt v L) (hidle : v.outgoing=none) :
    L.sent.length=L.acked := by
  have hdrop := h.outgoing_eq
  rw [hidle] at hdrop
  have hle := drop_eq_nil_iff.mp hdrop
  have hge := L.acked_le_passed.trans (L.passed_le_taken.trans L.taken_le_sent)
  omega

section
variable (h : Tracks sys d L)
include h

theorem Tracks.lose (hsender : (sys'.node d).senderView=(sys.node d).senderView)
    (hreceiver : (sys'.node (!d)).receiverView=(sys.node (!d)).receiverView)
    (hdata : (dataOf (sys'.chan d)).Sublist (dataOf (sys.chan d)))
    (hacks : (acksOf (sys'.chan (!d))).Sublist (acksOf (sys.chan (!d)))) :
    ∃ L', Tracks sys' d L' := by
  rw [h.data_eq,sublist_map_iff] at hdata
  rw [h.acks_eq,sublist_map_iff] at hacks
  obtain ⟨data,hsub,hdata⟩ := hdata
  obtain ⟨acks,hsub',hacks⟩ := hacks
  refine ⟨(L.loseData data hsub).loseAcks acks hsub',?_,?_,hdata,hacks⟩
  · rw [hsender]
    exact ⟨h.sender.txseq_eq,h.sender.handed_eq,h.sender.completed_eq,h.sender.outgoing_eq⟩
  · rw [hreceiver]
    exact ⟨h.receiver.rxseq_eq,h.receiver.length_got,h.receiver.take_eq⟩

theorem Tracks.submit (msg : α) (hidle : (sys.node d).pc.outgoing=none)
    (hsender : (sys'.node d).senderView=⟨(sys.node d).txseq,(sys.node d).handed++[msg],
      (sys.node d).completed,some msg⟩)
    (hreceiver : (sys'.node (!d)).receiverView=(sys.node (!d)).receiverView)
    (hchan : sys'.chan=sys.chan) : ∃ L', Tracks sys' d L' := by
  have hlength := h.sender.length_eq hidle
  refine ⟨L.submit msg hlength,?_,?_,?_,?_⟩
  · rw [hsender]
    refine ⟨h.sender.txseq_eq,?_,h.sender.completed_eq,?_⟩
    · exact congrArg (· ++ [msg]) h.sender.handed_eq
    · have hdrop : (L.sent++[msg]).drop L.acked=[msg] := by
        rw [←hlength,drop_left]
      exact hdrop
  · rw [hreceiver]
    refine ⟨h.receiver.rxseq_eq,h.receiver.length_got,?_⟩
    have htake : (L.sent++[msg]).take L.taken=L.sent.take L.taken :=
      take_append_of_le_length L.taken_le_sent
    exact htake.trans h.receiver.take_eq
  · rw [hchan,h.data_eq]
    apply map_congr_left
    intro i hi
    have hbound := (L.data_window i hi).2.2
    have hget : (L.sent++[msg])[i]?=L.sent[i]? := getElem?_append_left hbound
    exact congrArg (Prod.mk (i%64)) hget.symm
  · rw [hchan]
    exact h.acks_eq

theorem Tracks.transmit (msg : α) (hmsg : (sys.node d).pc.outgoing=some msg)
    (hsender : (sys'.node d).senderView=(sys.node d).senderView)
    (hreceiver : (sys'.node (!d)).receiverView=(sys.node (!d)).receiverView)
    (hdata : sys'.chan d=sys.chan d++[.data (sys.node d).txseq msg])
    (hacks : sys'.chan (!d)=sys.chan (!d)) : ∃ L', Tracks sys' d L' := by
  have hlast := h.sender.acked_lt hmsg
  refine ⟨L.transmit hlast.1,?_,?_,?_,?_⟩
  · rw [hsender]
    exact ⟨h.sender.txseq_eq,h.sender.handed_eq,h.sender.completed_eq,h.sender.outgoing_eq⟩
  · rw [hreceiver]
    exact ⟨h.receiver.rxseq_eq,h.receiver.length_got,h.receiver.take_eq⟩
  · have hseq := h.sender.txseq_eq
    have hnew : dataOf [Pkt.data (sys.node d).txseq msg]=[packet L L.acked] := by
      rw [packet,hlast.2,←hseq]
      rfl
    have happend : dataOf (sys'.chan d)=(L.data++[L.acked]).map (packet L) := by
      rw [hdata,dataOf,filterMap_append,map_append,←h.data_eq]
      exact congrArg (dataOf (sys.chan d) ++ ·) hnew
    exact happend
  · rw [hacks]
    exact h.acks_eq

theorem Tracks.acknowledge (hsender : (sys'.node d).senderView=(sys.node d).senderView)
    (hreceiver : (sys'.node (!d)).receiverView=⟨(sys.node (!d)).rxseq,
      (sys.node (!d)).got++(sys.node (!d)).pc.incoming.toList,none⟩)
    (hdata : sys'.chan d=sys.chan d)
    (hacks : sys'.chan (!d)=sys.chan (!d)++[.ack (sys.node (!d)).rxseq]) :
    ∃ L', Tracks sys' d L' := by
  have htake : L.sent.take L.taken
      = (sys.node (!d)).got++(sys.node (!d)).pc.incoming.toList := h.receiver.take_eq
  have hseq : (sys.node (!d)).rxseq=L.taken%64 := h.receiver.rxseq_eq
  refine ⟨L.acknowledge,?_,?_,?_,?_⟩
  · rw [hsender]
    exact ⟨h.sender.txseq_eq,h.sender.handed_eq,h.sender.completed_eq,h.sender.outgoing_eq⟩
  · rw [hreceiver]
    refine ⟨hseq,?_,?_⟩
    · have hlength : (L.sent.take L.taken).length=L.taken := by
        rw [length_take,min_eq_left L.taken_le_sent]
      rw [←htake]
      exact hlength
    · exact htake.trans (append_nil _).symm
  · rw [hdata]
    exact h.data_eq
  · have happend : acksOf (sys'.chan (!d))=(L.acks++[L.taken]).map (· % 64) := by
      rw [hacks,acksOf,filterMap_append,map_append,←h.acks_eq,hseq]
      rfl
    exact happend

theorem Tracks.confirm (msg : α) (hmsg : (sys.node d).pc.outgoing=some msg)
    (hhead : sys.chan (!d) = .ack (nextseq (sys.node d).txseq)::sys'.chan (!d))
    (hsender : (sys'.node d).senderView=⟨nextseq (sys.node d).txseq,(sys.node d).handed,
      (sys.node d).completed+1,none⟩)
    (hreceiver : (sys'.node (!d)).receiverView=(sys.node (!d)).receiverView)
    (hdata : sys'.chan d=sys.chan d) : ∃ L', Tracks sys' d L' := by
  have hseq : (sys.node d).txseq=L.acked%64 := h.sender.txseq_eq
  have hnext : nextseq (sys.node d).txseq=(L.acked+1)%64 := by
    rw [nextseq,hseq,Nat.mod_add_mod]
  have hacks := h.acks_eq
  rw [hhead] at hacks
  -- the head of the acknowledgements is the next number itself, not only modulo 64
  obtain ⟨a,rest,hsplit,ha,hrest⟩ := map_eq_cons_iff.mp hacks.symm
  have hnumber : a=L.acked+1 := by
    apply L.eq_acked_succ_of_mod (k := 64) (by decide)
    · rw [hsplit]
      exact mem_cons_self
    · rw [←hnext]
      exact ha
  subst hnumber
  have hlength := (h.sender.acked_lt hmsg).1
  refine ⟨L.confirm rest hsplit,?_,?_,?_,hrest.symm⟩
  · rw [hsender]
    refine ⟨hnext,h.sender.handed_eq,?_,?_⟩
    · exact congrArg (· + 1) h.sender.completed_eq
    · have hdrop :=
        drop_eq_nil_iff.mpr L.sent_le_acked
      exact hdrop
  · rw [hreceiver]
    exact ⟨h.receiver.rxseq_eq,h.receiver.length_got,h.receiver.take_eq⟩
  · rw [hdata]
    exact h.data_eq

theorem Tracks.accept (msg : α) (hidle : (sys.node (!d)).pc.incoming=none)
    (hhead : sys.chan d = .data (sys.node (!d)).rxseq msg::sys'.chan d)
    (hsender : (sys'.node d).senderView=(sys.node d).senderView)
    (hreceiver : (sys'.node (!d)).receiverView=⟨nextseq (sys.node (!d)).rxseq,
      (sys.node (!d)).got,some msg⟩) (hacks : sys'.chan (!d)=sys.chan (!d)) :
    ∃ L', Tracks sys' d L' := by
  have hseq : (sys.node (!d)).rxseq=L.taken%64 := h.receiver.rxseq_eq
  have hdata := h.data_eq
  rw [hhead] at hdata
  obtain ⟨i,rest,hsplit,hi,hrest⟩ := map_eq_cons_iff.mp hdata.symm
  have hmsg := Prod.mk.inj hi
  have hnumber : i=L.taken := by
    apply L.eq_taken_of_mod (k := 64) (by decide)
    · rw [hsplit]
      exact mem_cons_self
    · rw [hmsg.1,hseq]
  subst hnumber
  refine ⟨L.accept rest hsplit,?_,?_,hrest.symm,?_⟩
  · rw [hsender]
    exact ⟨h.sender.txseq_eq,h.sender.handed_eq,h.sender.completed_eq,h.sender.outgoing_eq⟩
  · rw [hreceiver]
    refine ⟨?_,h.receiver.length_got,?_⟩
    · have hnext : nextseq (sys.node (!d)).rxseq=(L.taken+1)%64 := by
        rw [nextseq,hseq,Nat.mod_add_mod]
      exact hnext
    · have hold : L.sent.take L.taken=(sys.node (!d)).got := by
        have htake := h.receiver.take_eq
        rw [Node.receiverView,hidle] at htake
        exact htake.trans (append_nil _)
      have htake : L.sent.take (L.taken+1)=(sys.node (!d)).got++[msg] := by
        rw [take_add_one,hold,hmsg.2]
        rfl
      exact htake
  · rw [hacks]
    exact h.acks_eq
end

@[simp] theorem Sys.set_node_self (sys : Sys α) (s t : Bool) (n : Node α) (c : List (Pkt α)) :
    (sys.set s n t c).node s=n := update_self ..

@[simp] theorem Sys.set_node_not (sys : Sys α) (s t : Bool) (n : Node α) (c : List (Pkt α)) :
    (sys.set s n t c).node (!s)=sys.node (!s) := update_of_ne (by simp) ..

@[simp] theorem Sys.set_chan_self (sys : Sys α) (s t : Bool) (n : Node α) (c : List (Pkt α)) :
    (sys.set s n t c).chan t=c := update_self ..

@[simp] theorem Sys.set_chan_not (sys : Sys α) (s t : Bool) (n : Node α) (c : List (Pkt α)) :
    (sys.set s n t c).chan (!t)=sys.chan (!t) := update_of_ne (by simp) ..

theorem Sys.set_chan_sublist (h : c.Sublist (sys.chan t)) (u : Bool) :
    ((sys.set s n t c).chan u).Sublist (sys.chan u) := by
  rcases Bool.eq_or_eq_not u t with rfl | rfl
  · rw [Sys.set_chan_self]
    exact h
  · rw [Sys.set_chan_not]

/-- A step that only takes packets from a channel. -/
theorem Tracks.of_sublist {d : Bool} (h : Tracks sys d L) (hchan : c.Sublist (sys.chan t))
    (hsender : ((sys.set s n t c).node d).senderView=(sys.node d).senderView)
    (hreceiver : ((sys.set s n t c).node (!d)).receiverView=(sys.node (!d)).receiverView) :
    ∃ L', Tracks (sys.set s n t c) d L' := by
  have hsub := Sys.set_chan_sublist (s := s) (n := n) hchan
  exact h.lose hsender hreceiver ((hsub d).filterMap _) ((hsub !d).filterMap _)

theorem Tracks.of_effect_sender (h : Tracks sys s L) (he : Effect sys s n t c) :
    ∃ L', Tracks (sys.set s n t c) s L' := by
  cases he with
  | quiet hsender hreceiver hchan =>
    exact h.of_sublist hchan (by simpa using hsender) (by simp)
  | submit msg hidle hsender hreceiver =>
    exact h.submit msg hidle (by simpa using hsender) (by simp) (update_eq_self ..)
  | transmit msg hmsg hsender hreceiver =>
    exact h.transmit msg hmsg (by simpa using hsender) (by simp) (by simp) (by simp)
  | acknowledge hsender hreceiver =>
    exact h.lose (by simpa using hsender) (by simp) (by simp [dataOf,Pkt.data?]) (by simp)
  | confirm msg hmsg hhead hsender hreceiver =>
    exact h.confirm msg hmsg (by simpa using hhead) (by simpa using hsender) (by simp)
      (by simpa using Sys.set_chan_not sys s (!s) n c)
  | accept msg hidle hhead hsender hreceiver =>
    have htail : c.Sublist (sys.chan !s) := by rw [hhead]; exact sublist_cons_self _ c
    exact h.of_sublist htail (by simpa using hsender) (by simp)

theorem Tracks.of_effect_receiver (h : Tracks sys (!s) L) (he : Effect sys s n t c) :
    ∃ L', Tracks (sys.set s n t c) (!s) L' := by
  cases he with
  | quiet hsender hreceiver hchan =>
    exact h.of_sublist hchan (by simp) (by simpa using hreceiver)
  | submit msg hidle hsender hreceiver =>
    exact h.lose (by simp) (by simpa using hreceiver) (by simp) (by simp)
  | transmit msg hmsg hsender hreceiver =>
    exact h.lose (by simp) (by simpa using hreceiver) (by simp) (by simp [acksOf,Pkt.ack?])
  | acknowledge hsender hreceiver =>
    exact h.acknowledge (by simp) (by simpa using hreceiver) (by simp) (by simp)
  | confirm msg hmsg hhead hsender hreceiver =>
    have htail : c.Sublist (sys.chan !s) := by rw [hhead]; exact sublist_cons_self _ c
    exact h.of_sublist htail (by simp) (by simpa using hreceiver)
  | accept msg hidle hhead hsender hreceiver =>
    exact h.accept msg (by simpa using hidle) (by simpa using hhead) (by simp)
      (by simpa using hreceiver) (by simpa using Sys.set_chan_not sys s (!s) n c)

theorem Sys.step_tracks {a : Action α} (h : sys.step a=some sys') (hL : Tracks sys d L) :
    ∃ L', Tracks sys' d L' := by
  obtain ⟨s,n,t,c,rfl,heffect⟩ := Sys.step_effect h
  rcases Bool.eq_or_eq_not d s with rfl | rfl
  · exact hL.of_effect_sender heffect
  · exact hL.of_effect_receiver heffect

theorem Sys.run_tracks {acts : List (Action α)} (h : sys.run acts=some sys')
    (hL : Tracks sys d L) : ∃ L', Tracks sys' d L' := by
  induction acts generalizing sys L with
  | nil =>
    cases h
    exact ⟨L,hL⟩
  | cons a acts ih =>
    simp only [Sys.run,foldlM_cons,Option.bind_eq_bind,Option.bind_eq_some_iff] at h
    obtain ⟨t,hstep,hrun⟩ := h
    obtain ⟨L',hL'⟩ := Sys.step_tracks hstep hL
    exact ih hrun hL'

/-- In every run `getmsg` has returned the first messages of the other peer in order: all whose
`putmsg` has completed, and at most one more. -/
theorem Sys.run_delivers (acts : List (Action α)) (sys : Sys α)
    (h : Sys.start.run acts=some sys) (s : Bool) : (sys.node (!s)).got <+: (sys.node s).handed ∧
      (sys.node s).completed≤(sys.node (!s)).got.length ∧
      (sys.node s).handed.length≤(sys.node s).completed+1 := by
  obtain ⟨L,hL⟩ := Sys.run_tracks h (tracks_start s)
  have hhanded : (sys.node s).handed=L.sent := hL.sender.handed_eq
  have hcompleted : (sys.node s).completed=L.acked := hL.sender.completed_eq
  have hlength : (sys.node (!s)).got.length=L.passed := hL.receiver.length_got
  have htake := hL.receiver.take_eq
  rw [hhanded,hcompleted,hlength]
  refine ⟨?_,L.acked_le_passed,L.sent_le_acked⟩
  exact (prefix_append _ _).trans (htake ▸ take_prefix L.taken L.sent)

/-- A message is lost, then damaged, then taken before its `putmsg` has seen the acknowledgement. -/
def lossyActions : List (Action ℕ) :=
  [.putmsg true 7,.getmsg false,.putpkt true,.lose true 0,.getpkt true .timeout,
    .putpkt true,.getpkt false .error,.putpkt false,.getpkt true .packet,.putpkt true,
    .getpkt false .packet,.putpkt false,.getpkt true .packet,.putmsg false 9,.putpkt false,
    .getmsg true,.getpkt true .packet,.putpkt true]

theorem Sys.run_delivers_lossyActions :
    ∃ sys, Sys.start.run lossyActions=some sys ∧ (sys.node false).got=[7] ∧
      (sys.node true).got=[9] ∧ (sys.node false).completed=0 ∧
      (sys.node true).got <+: (sys.node false).handed := by
  have hrun : (Sys.start.run lossyActions).isSome := by decide +kernel
  obtain ⟨sys,hsys⟩ := Option.isSome_iff_exists.mp hrun
  have hgot : ∀ sys, Sys.start.run lossyActions=some sys →
      (sys.node false).got=[7] ∧ (sys.node true).got=[9] ∧ (sys.node false).completed=0 := by
    intro t ht
    cases ht
    decide +kernel
  have hfacts := hgot sys hsys
  exact ⟨sys,hsys,hfacts.1,hfacts.2.1,hfacts.2.2,
    (Sys.run_delivers lossyActions sys hsys false).1⟩

end Pmon.DebugLink
