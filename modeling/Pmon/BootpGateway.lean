import Pmon.Bootp

/-!
# Gateways from BOOTP replies

`bootprecv` checks gateways and subnet masks against a static mask, set only when a reply gives our
address.
-/

namespace Pmon.Bootp
open Function

def Bootparams.effMask (b : Bootparams) : BitVec 32 :=
  if b.has (.ip .mask) then b.ip .mask else classMask (b.ip .addr)

def Includes (m m' : BitVec 32) : Prop := m' &&& m = m'

instance (m m' : BitVec 32) : Decidable (Includes m m') := inferInstanceAs (Decidable (_=_))

structure Sane (b : Bootparams) : Prop where
  gate : b.has (.ip .gateip)=true → samenet (b.ip .addr) (b.ip .gateip) b.effMask
  mask : b.has (.ip .mask)=true → Includes (b.ip .mask) (classMask (b.ip .addr))

def Recv.Natural (r : Recv) : Prop :=
  r.params.has (.ip .addr)=true → Includes r.nmask (classMask (r.params.ip .addr))

structure SameAddr (b b' : Bootparams) : Prop where
  has : b'.has (.ip .addr)=b.has (.ip .addr)
  ip : b'.ip .addr=b.ip .addr

variable {b b' b'' : Bootparams}

theorem SameAddr.refl (b : Bootparams) : SameAddr b b := ⟨rfl,rfl⟩

theorem SameAddr.trans (h : SameAddr b b') (h' : SameAddr b' b'') : SameAddr b b'' :=
  ⟨h'.has.trans h.has,h'.ip.trans h.ip⟩

theorem setIp_sameAddr (b : Bootparams) {i : Ip} (hi : i ≠ .addr) (a : BitVec 32) :
    SameAddr b (b.setIp i a) :=
  ⟨update_of_ne (by simp [Ne.symm hi]) _ _,update_of_ne hi.symm _ _⟩

theorem setName_sameAddr (b : Bootparams) (n : Name) (text : List UInt8) :
    SameAddr b (b.setName n text) := by
  constructor <;> simp

theorem learnIp_sameAddr (b : Bootparams) {i : Ip} (hi : i ≠ .addr) (a : BitVec 32) :
    SameAddr b (b.learnIp i a) := by
  rw [Bootparams.learnIp]
  split
  · exact setIp_sameAddr b hi a
  · exact .refl b

theorem itemOf_ne_addr (tag : UInt8) : itemOf tag≠some (.ip .addr) := by
  unfold itemOf
  repeat' split
  all_goals simp

theorem vendItem_sameAddr (mem : ℕ → UInt8) (tag : UInt8) (size cp : ℕ) (b : Bootparams) :
    SameAddr b (vendItem mem tag size cp b).1 := by
  have hne := itemOf_ne_addr tag
  rw [vendItem]
  split
  · rename_i i hitem
    split
    · refine setIp_sameAddr b (fun hi => hne ?_) _
      rw [hitem,hi]
    · exact .refl b
  · split
    · exact setName_sameAddr b _ _
    · exact .refl b
  · exact .refl b

theorem vendLoop_sameAddr (mem : ℕ → UInt8) (ep fuel cp : ℕ) (b : Bootparams) :
    SameAddr b (vendLoop mem ep fuel cp b).1 := by
  induction fuel generalizing cp b with
  | zero => exact .refl b
  | succ fuel ih =>
    rw [vendLoop]
    split
    · dsimp only
      split
      · exact .refl b
      · exact (vendItem_sameAddr mem _ _ _ b).trans (ih _ _)
    · exact .refl b

theorem takeVend_sameAddr (p : Reply) (b : Bootparams) : SameAddr b (takeVend p b) := by
  rw [takeVend]
  split
  · exact ((learnIp_sameAddr b (by decide) _).trans (learnIp_sameAddr _ (by decide) _)).trans
      (learnIp_sameAddr _ (by decide) _)
  · split
    · exact vendLoop_sameAddr p.vend vendSize vendSize 4 b
    · exact .refl b

theorem takeBoot_sameAddr (p : Reply) (b : Bootparams) : SameAddr b (takeBoot p b) := by
  have hboot := learnIp_sameAddr b (i := .bootip) (by decide) (addrOf (bytesAt p.mem 20 4))
  rw [takeBoot]
  split
  · exact hboot.trans (setName_sameAddr _ _ _)
  · exact hboot

theorem Recv.Natural.congr {r : Recv} (h : r.Natural) (hb : SameAddr r.params b) :
    Recv.Natural ⟨b,r.nmask⟩ := by
  intro hhas
  rw [hb.has] at hhas
  rw [hb.ip]
  exact h hhas

theorem takeAddr_natural {r : Recv} (h : r.Natural) (p : Reply) : (takeAddr p r).Natural := by
  rw [takeAddr]
  split
  · intro _
    dsimp only [Bootparams.setIp]
    rw [update_self]
    exact BitVec.and_self
  · exact h

theorem Includes.trans {m m' m'' : BitVec 32} (h : Includes m m') (h' : Includes m' m'') :
    Includes m m'' := by
  rw [Includes] at h h' ⊢
  rw [←h',BitVec.and_assoc,h]

theorem samenet.mono {a a' m m' : BitVec 32} (h : samenet a a' m) (hm : Includes m m') :
    samenet a a' m' := by
  rw [Includes,BitVec.and_comm] at hm
  rw [samenet] at h ⊢
  rw [←hm,←BitVec.and_assoc,←BitVec.and_assoc,h]

theorem checkMask_cases (nmask : BitVec 32) (b : Bootparams) :
    b.has (.ip .mask)=true ∧ Includes (b.ip .mask) nmask ∧ checkMask nmask b=b ∨
      (checkMask nmask b).has (.ip .mask)=false ∧ (checkMask nmask b).ip .mask=nmask ∧
        SameAddr b (checkMask nmask b) := by
  rw [checkMask]
  by_cases hbad : b.has (.ip .mask) = true ∧ nmask &&& b.ip .mask ≠ nmask
  · have hclear : (b.clear (.ip .mask)).has (.ip .mask)=false := by simp
    rw [if_pos hbad,if_pos hclear]
    exact .inr ⟨hclear,by simp,by simp,by simp⟩
  · rw [if_neg hbad]
    cases hhas : b.has (.ip .mask) with
    | true =>
      rw [if_neg (by simp)]
      rw [hhas,not_and,not_not] at hbad
      exact .inl ⟨rfl,hbad rfl,rfl⟩
    | false =>
      rw [if_pos rfl]
      exact .inr ⟨hhas,by simp,rfl,by simp⟩

theorem checkMask_sameAddr (nmask : BitVec 32) (b : Bootparams) :
    SameAddr b (checkMask nmask b) := by
  rcases checkMask_cases nmask b with ⟨_,_,hsame⟩ | ⟨_,_,hsame⟩
  · rw [hsame]
    exact .refl b
  · exact hsame

theorem checkGate_spec (b : Bootparams) :
    SameAddr b (checkGate b) ∧ (checkGate b).has (.ip .mask)=b.has (.ip .mask) ∧
      (checkGate b).ip .mask=b.ip .mask ∧ ((checkGate b).has (.ip .gateip)=true →
        samenet (b.ip .addr) ((checkGate b).ip .gateip) (b.ip .mask)) := by
  rw [checkGate]
  split
  · refine ⟨⟨by simp,by simp⟩,by simp,by simp,fun hgate => ?_⟩
    rw [clear_has,update_self] at hgate
    cases hgate
  · rename_i hgood
    refine ⟨.refl b,rfl,rfl,fun hgate => ?_⟩
    by_contra hnet
    exact hgood ⟨hgate,hnet⟩

theorem checkGate_checkMask_sane {nmask : BitVec 32}
    (hnatural : Includes nmask (classMask (b.ip .addr))) :
    Sane (checkGate (checkMask nmask b)) := by
  obtain ⟨haddr,hhas,hmask,hgate⟩ := checkGate_spec (checkMask nmask b)
  rcases checkMask_cases nmask b with ⟨hset,hincludes,hsame⟩ | ⟨hunset,hnmask,hsame⟩
  · rw [hsame] at haddr hhas hmask hgate ⊢
    constructor
    · intro h
      rw [Bootparams.effMask,hhas,if_pos hset,hmask,haddr.ip]
      exact hgate h
    · intro _
      rw [hmask,haddr.ip]
      exact hincludes.trans hnatural
  · constructor
    · intro h
      rw [Bootparams.effMask,hhas,hunset,if_neg (by decide),haddr.ip,hsame.ip]
      have hnet := hgate h
      rw [hnmask,hsame.ip] at hnet
      exact hnet.mono hnatural
    · intro h
      rw [hhas,hunset] at h
      cases h

theorem bootprecv_natural {r : Recv} (h : r.Natural) (xid : BitVec 32) (p : Reply) :
    (bootprecv xid r p).2.Natural ∧
      ((bootprecv xid r p).1=0 → Sane (bootprecv xid r p).2.params) := by
  have haddr := takeAddr_natural h p
  have hsame := (takeBoot_sameAddr p (takeAddr p r).params).trans (takeVend_sameAddr p _)
  have hnatural := haddr.congr hsame
  rw [bootprecv]
  split
  · exact ⟨h,fun hzero => absurd hzero (by simp)⟩
  · dsimp only
    split
    · exact ⟨hnatural,fun hzero => absurd hzero (by simp)⟩
    · rename_i hhas
      have hincludes := hnatural (Bool.eq_true_of_not_eq_false hhas)
      refine ⟨?_,fun _ => checkGate_checkMask_sane hincludes⟩
      exact hnatural.congr ((checkMask_sameAddr _ _).trans (checkGate_spec _).1)

/-- While the static mask includes that of our class, every reply taken leaves sane parameters. -/
theorem bootReplies_sane (xid : BitVec 32) (es : List BootEvent) {r : Recv} (h : r.Natural) :
    ∀ o∈bootReplies xid r es, o.1=0 → Sane o.2.params := by
  induction es generalizing xid r with
  | nil => exact fun o ho => absurd ho List.not_mem_nil
  | cons e es ih =>
    cases e with
    | send => exact ih (xid+1) h
    | recv p =>
      intro o ho
      have hstep := bootprecv_natural h xid p
      rcases List.mem_cons.mp ho with rfl | ho
      · exact hstep.2
      · exact ih xid hstep.1 o ho

/-- A reply of 300 bytes to transaction `xid` that gives us the address 192.168.1.5 and, in its
RFC 1048 area, the gateway 192.168.1.`host`. -/
def gateReply (xid host : UInt8) : Reply where
  mem i :=
    if i=7 then xid
    else if i<16 then 0
    else if i<20 then [192,168,1,5].getD (i-16) 0
    else [99,130,83,99,3,4,192,168,1,host,255].getD (i-236) 0
  rsize := 300

/-- Two requests are sent and the reply to the first comes too late; the reply to the second is
taken, with its address and its gateway. -/
theorem bootReplies_sane_second :
    let r : Recv := ⟨noParams,0⟩
    let es : List BootEvent := [.send,.send,.recv (gateReply 1 9),.recv (gateReply 2 1)]
    r.Natural ∧ (bootReplies 0 r es).map (·.1)=[-1,0] ∧
      (∃ o∈bootReplies 0 r es, o.1=0 ∧ o.2.params.has (.ip .gateip)=true ∧
        o.2.params.ip .gateip=0xc0a80101 ∧ o.2.params.ip .addr=0xc0a80105) ∧
      ∀ o∈bootReplies 0 r es, o.1=0 → Sane o.2.params := by
  intro r es
  have hnatural : r.Natural := fun hhas => absurd hhas (by decide)
  refine ⟨hnatural,by decide +kernel,⟨(bootReplies 0 r es).getLastD (0,r),?_,?_⟩,
    bootReplies_sane 0 es hnatural⟩
  · exact List.mem_cons_of_mem _ List.mem_cons_self
  · decide +kernel

def zeroReply : Reply := ⟨fun _ => 0,300⟩

def otherNet : Ip → Option (BitVec 32)
  | .addr => some 0xc0a80105
  | .gateip => some 0x0a000001
  | _ => none

theorem bootReplies_not_sane :
    ∃ o∈bootReplies 0 ⟨bootGetenv otherNet noParams,0⟩ [.recv zeroReply],
      o.1=0 ∧ ¬Sane o.2.params := by
  refine ⟨bootprecv 0 ⟨bootGetenv otherNet noParams,0⟩ zeroReply,List.mem_cons_self, by decide,
    fun h => ?_⟩
  exact absurd (h.gate (by decide)) (by decide)

end Pmon.Bootp
