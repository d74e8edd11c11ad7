import Pmon.DebugLink

/-!
# Packets on the serial line

A SYN, three header bytes, the message and three checksum bytes, which carry six bits each. The line
strips the eighth bit.
-/

namespace Pmon.DebugPacket
open List Function
open DebugLink (Pkt Received)

def SYN : ℕ := 0x16
def AT : ℕ := 0x40
def DATA : ℕ := 0x00
def ACKPKT : ℕ := 0x20
def MAXMSG : ℕ := 80

def csumBytes (csum : ℕ) : List ℕ :=
  [csum/2^12%64+AT,csum/2^6%64+AT,csum%64+AT]

def frame (type seq : ℕ) (text : List ℕ) : List ℕ :=
  let len := text.length
  let summed := [(type ||| len / 64) + AT,len % 64 + AT,seq + AT] ++ text
  SYN::summed++csumBytes summed.sum

def putpkt (seq : ℕ) (msg : Option (List ℕ)) : List ℕ := match msg with
  | some text => frame DATA seq text
  | none => frame ACKPKT seq []

inductive PktState where
  | start
  | typlen1
  | len2
  | seq
  | msg
  | csum1
  | csum2
  | csum3

structure Parser where
  state : PktState
  type : ℕ
  len : ℕ
  rlen : ℕ
  csum : ℕ
  rsum : ℕ
  seq : ℕ
  rmsg : ℕ → ℕ

inductive Ret where
  | error
  | timeout
  | packet (type seq : ℕ) (rmsg : ℕ → ℕ)

def Parser.finish (p : Parser) : Ret :=
  if p.rsum%2^18≠p.csum then .error
  else .packet p.type p.seq (update p.rmsg p.rlen 0)

def Parser.step (p : Parser) (ch : ℕ) : Parser ⊕ Ret :=
  if ch=SYN then .inl {p with state := .typlen1, csum := 0, rsum := 0, rlen := 0}
  else
    match p.state with
    | .start => .inl p
    | .typlen1 =>
      if ch<AT then .inr .error
      else .inl { p with
        rsum := p.rsum + ch, type := ch &&& ACKPKT, len := ch &&& 0x1f, state := .len2 }
    | .len2 =>
      let len := p.len*64+(ch-AT)
      if ch<AT then .inr .error
      else if MAXMSG≤len then .inr .error
      else .inl {p with rsum := p.rsum+ch, len := len, state := .seq}
    | .seq =>
      if ch<AT then .inr .error
      else .inl { p with
        rsum := p.rsum+ch, seq := ch-AT, state := if p.len=0 then .csum1 else .msg }
    | .msg =>
      .inl { p with
        rsum := p.rsum+ch
        rmsg := update p.rmsg p.rlen ch
        rlen := p.rlen+1
        state := if p.rlen+1=p.len then .csum1 else .msg }
    | .csum1 =>
      if ch<AT then .inr .error
      else .inl {p with csum := p.csum*64+(ch-AT), state := .csum2}
    | .csum2 =>
      if ch<AT then .inr .error
      else .inl {p with csum := p.csum*64+(ch-AT), state := .csum3}
    | .csum3 =>
      if ch<AT then .inr .error
      else .inr {p with csum := p.csum*64+(ch-AT)}.finish

/-- `getpkt` on what `readc` delivers, `none` for a timeout; it may still be reading at the end. -/
def getpkt : Parser → List (Option ℕ) → Option (Ret × List (Option ℕ))
  | _, [] => none
  | _, none::rest => some (.timeout,rest)
  | p, some ch::rest =>
    match p.step ch with
    | .inl q => getpkt q rest
    | .inr r => some (r,rest)

variable {p q : Parser} {ch : ℕ} {rest : List (Option ℕ)}

theorem getpkt_inl (h : p.step ch = .inl q) : getpkt p (some ch::rest)=getpkt q rest := by
  rw [getpkt,h]

theorem getpkt_inr {r : Ret} (h : p.step ch = .inr r) :
    getpkt p (some ch::rest)=some (r,rest) := by
  rw [getpkt,h]

theorem step_syn (p : Parser) :
    p.step SYN = .inl {p with state := .typlen1, csum := 0, rsum := 0, rlen := 0} := if_pos rfl

theorem sextet_ne_syn (n : ℕ) : n+AT≠SYN := by
  unfold AT SYN
  omega

theorem not_sextet_lt (n : ℕ) : ¬ n+AT<AT := by omega

theorem getpkt_header (p : Parser) {type len seq : ℕ} (htype : type=DATA ∨ type=ACKPKT)
    (hlen : len<MAXMSG) :
    getpkt p (some SYN :: some ((type ||| len / 64) + AT) :: some (len % 64 + AT) ::
        some (seq+AT)::rest)=getpkt ⟨if len=0 then .csum1 else .msg,type,len,0,0,
        [(type ||| len / 64) + AT,len % 64 + AT,seq + AT].sum,seq,p.rmsg⟩ rest := by
  -- the first byte holds the type and the upper bits of the length
  have hbits : ((type ||| len / 64) + AT) &&& ACKPKT = type ∧
      ((type ||| len / 64) + AT) &&& 0x1f = len / 64 := by
    have hhigh : len/64=0 ∨ len/64=1 := by
      unfold MAXMSG at hlen
      omega
    rcases htype with rfl | rfl <;> rcases hhigh with h | h <;> rw [h] <;> decide
  have hjoin : len/64*64+len%64=len := by omega
  rw [getpkt_inl (step_syn p)]
  rw [getpkt_inl (by
    rw [Parser.step,if_neg (sextet_ne_syn _)]
    exact if_neg (not_sextet_lt _))]
  rw [getpkt_inl (by
    rw [Parser.step,if_neg (sextet_ne_syn _)]
    dsimp only
    rw [if_neg (not_sextet_lt _),Nat.add_sub_cancel,hbits.2,hjoin,if_neg (not_le.mpr hlen)])]
  rw [getpkt_inl (by
    rw [Parser.step,if_neg (sextet_ne_syn _)]
    dsimp only
    rw [if_neg (not_sextet_lt _),Nat.add_sub_cancel,hbits.1])]
  simp only [sum_cons,sum_nil,Nat.zero_add,Nat.add_assoc,Nat.add_zero]

def store (buf : ℕ → ℕ) : ℕ → List ℕ → ℕ → ℕ
  | _, [] => buf
  | k, c::text => store (update buf k c) (k+1) text

theorem store_of_lt (buf : ℕ → ℕ) {k i : ℕ} (text : List ℕ) (h : i<k) :
    store buf k text i=buf i := by
  induction text generalizing buf k with
  | nil => rfl
  | cons c text ih =>
    rw [store,ih _ (by omega)]
    exact update_of_ne (by omega) ..

theorem store_getElem (buf : ℕ → ℕ) (k : ℕ) (text : List ℕ) {i : ℕ} (h : i<text.length) :
    store buf k text (k+i)=text[i] := by
  induction text generalizing buf k i with
  | nil => cases h
  | cons c text ih =>
    rw [store]
    cases i with
    | zero =>
      exact (store_of_lt _ text (Nat.lt_succ_self k)).trans (update_self ..)
    | succ i =>
      rw [show k+(i+1)=k+1+i by omega]
      exact ih _ _ (Nat.lt_of_succ_lt_succ h)

theorem getpkt_text (text : List ℕ) (hsyn : ∀ c∈text, c≠SYN) {p : Parser}
    (hstate : p.state = if text=[] then .csum1 else .msg) (hlen : p.rlen+text.length=p.len) :
    getpkt p (text.map some++rest)=getpkt { p with
        state := .csum1, rlen := p.len, rsum := p.rsum+text.sum,
        rmsg := store p.rmsg p.rlen text } rest := by
  induction text generalizing p with
  | nil =>
    rw [if_pos rfl] at hstate
    rw [length_nil,Nat.add_zero] at hlen
    obtain ⟨state,type,len,rlen,csum,rsum,seq,rmsg⟩ := p
    dsimp only at hstate hlen
    subst hstate hlen
    rfl
  | cons c text ih =>
    rw [if_neg (cons_ne_nil c text)] at hstate
    rw [length_cons] at hlen
    have hstep : p.step c = .inl { p with
        rsum := p.rsum+c
        rmsg := update p.rmsg p.rlen c
        rlen := p.rlen+1
        state := if p.rlen+1=p.len then .csum1 else .msg } := by
      rw [Parser.step,if_neg (hsyn c mem_cons_self),hstate]
    rw [map_cons,cons_append,getpkt_inl hstep,
      ih (fun d hd => hsyn d (mem_cons_of_mem _ hd)) ?_ (by dsimp only; omega)]
    · rw [sum_cons,store,Nat.add_assoc]
    · -- the last byte of the message is the last of the list
      dsimp only
      cases text with
      | nil => rw [if_pos rfl,if_pos (by simpa using hlen)]
      | cons d text =>
        rw [if_neg (cons_ne_nil d text),if_neg (by rw [length_cons] at hlen; omega)]

theorem getpkt_csum {p : Parser} (hstate : p.state = .csum1) (hcsum : p.csum=0)
    (hsum : p.rsum<2^18) : getpkt p ((csumBytes p.rsum).map some++rest) =
      some (.packet p.type p.seq (update p.rmsg p.rlen 0),rest) := by
  have hjoin : ((0*64+p.rsum/2^12%64)*64+p.rsum/2^6%64)*64+p.rsum%64 =
      p.rsum := by omega
  simp only [csumBytes,map_cons,map_nil,cons_append,nil_append]
  rw [getpkt_inl (by
    rw [Parser.step,if_neg (sextet_ne_syn _),hstate]
    exact if_neg (not_sextet_lt _))]
  rw [getpkt_inl (by
    rw [Parser.step,if_neg (sextet_ne_syn _)]
    exact if_neg (not_sextet_lt _))]
  rw [getpkt_inr (by
    rw [Parser.step,if_neg (sextet_ne_syn _)]
    exact if_neg (not_sextet_lt _))]
  simp only [Nat.add_sub_cancel,hcsum,hjoin,Parser.finish,Nat.mod_eq_of_lt hsum,ne_eq,
    not_true_eq_false,if_false]

def IsString (buf : ℕ → ℕ) (text : List ℕ) : Prop :=
  (∀ (i : ℕ) (h : i<text.length), buf i=text[i]) ∧ buf text.length=0

/-- A message that fits: at most 73 bytes of seven bits, none zero or a SYN. -/
structure Sendable (text : List ℕ) : Prop where
  length_le : text.length≤73
  bytes : ∀ c∈text, 0x01≤c ∧ c≤0x7f ∧ c≠SYN

def received (buf : ℕ → ℕ) (text : List ℕ) : ℕ → ℕ :=
  update (store buf 0 text) text.length 0

theorem received_isString (buf : ℕ → ℕ) (text : List ℕ) : IsString (received buf text) text := by
  refine ⟨fun i hi => ?_,update_self ..⟩
  rw [received,update_of_ne (by omega)]
  simpa using store_getElem buf 0 text hi

theorem getpkt_frame (p : Parser) {type seq : ℕ} (htype : type=DATA ∨ type=ACKPKT)
    (hseq : seq<64) {text : List ℕ} (hsend : Sendable text) (rest : List (Option ℕ)) :
    getpkt p ((frame type seq text).map some++rest) =
      some (.packet type seq (received p.rmsg text),rest) := by
  have hlen := hsend.length_le
  -- the sum of the bytes fits the 18 bits of the checksum
  have hsum : text.sum≤73*0x7f := by
    have hbytes := sum_le_card_nsmul text 0x7f fun c hc => (hsend.bytes c hc).2.1
    rw [smul_eq_mul] at hbytes
    omega
  have hhead : [(type ||| text.length / 64) + AT,text.length % 64 + AT,seq + AT].sum < 1000 := by
    have hor : type ||| text.length / 64 < 2 ^ 6 := by
      refine Nat.or_lt_two_pow ?_ (by omega)
      rcases htype with rfl | rfl <;> decide
    simp only [sum_cons,sum_nil,AT]
    omega
  unfold frame
  dsimp only
  rw [sum_append]
  simp only [cons_append,nil_append,map_cons,map_append,append_assoc]
  rw [getpkt_header p htype (by unfold MAXMSG; omega),
    getpkt_text text (fun c hc => (hsend.bytes c hc).2.2) (by simp only [length_eq_zero_iff])
      (Nat.zero_add _)]
  refine getpkt_csum rfl rfl ?_
  dsimp only
  omega

theorem sendable_nil : Sendable [] := ⟨by decide,by simp⟩

/-- From every state, `getpkt` returns the type, number and message that `putpkt` sent. -/
theorem getpkt_putpkt (p : Parser) {seq : ℕ} (hseq : seq<64) (msg : Option (List ℕ))
    (hmsg : ∀ text∈msg, Sendable text) (rest : List (Option ℕ)) :
    ∃ rmsg, getpkt p ((putpkt seq msg).map some++rest) =
        some (.packet (if msg.isSome then DATA else ACKPKT) seq rmsg,rest) ∧
      IsString rmsg (msg.getD []) := by
  refine ⟨received p.rmsg (msg.getD []),?_,received_isString ..⟩
  cases msg with
  | none => exact getpkt_frame p (.inr rfl) hseq sendable_nil rest
  | some text => exact getpkt_frame p (.inl rfl) hseq (hmsg text rfl) rest

theorem getpkt_putpkt_restart : ∃ rmsg, getpkt ⟨.msg,DATA,9,4,0,300,7, fun _ => 0x41⟩
        ((putpkt 5 (some [0x68,0x69])).map some++[some 0x0d]) =
      some (.packet DATA 5 rmsg,[some 0x0d]) ∧ IsString rmsg [0x68,0x69] :=
  getpkt_putpkt _ (by decide) (some [0x68,0x69])
    (fun text h => by cases h; exact ⟨by decide, by decide⟩) [some 0x0d]

end Pmon.DebugPacket
