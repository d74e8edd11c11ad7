import Mathlib.Tactic

/-!
# BOOTP replies

`bootprecv` takes from a reply what is not known yet. A packet is the memory it was received into;
what lies behind it can be anything.
-/

namespace Pmon.Bootp

inductive Ip where
  | addr
  | mask
  | broadaddr
  | gateip
  | dnsip
  | bootip
  deriving DecidableEq

inductive Name where
  | hostname
  | domainname
  | bootfile
  deriving DecidableEq

/-- The bits of `have`, one for each member. -/
inductive Flag where
  | ip (i : Ip)
  | name (n : Name)
  deriving DecidableEq

@[ext] structure Bootparams where
  has : Flag → Bool
  ip : Ip → BitVec 32
  name : Name → List UInt8

def nameSize : Name → ℕ
  | .hostname => 256
  | .domainname => 256
  | .bootfile => 129

def noParams : Bootparams := ⟨fun _ => false, fun _ => 0, fun n => List.replicate (nameSize n) 0⟩

def Bootparams.setIp (b : Bootparams) (i : Ip) (a : BitVec 32) : Bootparams :=
  {b with has := Function.update b.has (.ip i) true, ip := Function.update b.ip i a}

def Bootparams.setName (b : Bootparams) (n : Name) (text : List UInt8) : Bootparams :=
  {b with has := Function.update b.has (.name n) true, name := Function.update b.name n text}

def Bootparams.clear (b : Bootparams) (f : Flag) : Bootparams :=
  {b with has := Function.update b.has f false}

section
variable (b : Bootparams) (i : Ip) (a : BitVec 32) (n : Name) (text : List UInt8) (f : Flag)

@[simp] theorem setIp_has : (b.setIp i a).has=Function.update b.has (.ip i) true := rfl
@[simp] theorem setIp_ip : (b.setIp i a).ip=Function.update b.ip i a := rfl
@[simp] theorem setIp_name : (b.setIp i a).name=b.name := rfl
@[simp] theorem setName_has : (b.setName n text).has=Function.update b.has (.name n) true := rfl
@[simp] theorem setName_ip : (b.setName n text).ip=b.ip := rfl
@[simp] theorem setName_name : (b.setName n text).name=Function.update b.name n text := rfl
@[simp] theorem clear_has : (b.clear f).has=Function.update b.has f false := rfl
@[simp] theorem clear_ip : (b.clear f).ip=b.ip := rfl
end

def bytesAt (mem : ℕ → UInt8) (pos n : ℕ) : List UInt8 := (List.range n).map fun i => mem (pos+i)

def addrOf (bytes : List UInt8) : BitVec 32 :=
  BitVec.ofNat 32 (bytes.foldl (fun a x => a*256 + x.toNat) 0)

def putName (text array : List UInt8) : List UInt8 := text++0::array.drop (text.length+1)

def strncpy (mem : ℕ → UInt8) (pos n : ℕ) : List UInt8 :=
  let text := (bytesAt mem pos n).takeWhile (· ≠ 0)
  text++List.replicate (n-text.length) 0

def vendSize : ℕ := 64
def tagEnd : UInt8 := 255

def itemOf (tag : UInt8) : Option Flag :=
  if tag=1 then some (.ip .mask)
  else if tag=3 then some (.ip .gateip)
  else if tag=6 then some (.ip .dnsip)
  else if tag=12 then some (.name .hostname)
  else if tag=15 then some (.name .domainname)
  else none

def vendItem (mem : ℕ → UInt8) (tag : UInt8) (size cp : ℕ) (b : Bootparams) : Bootparams × List ℕ :=
  match itemOf tag with
  | some (.ip i) =>
    if size=4 ∧ b.has (.ip i)=false then
      (b.setIp i (addrOf (bytesAt mem cp 4)),List.range' cp 4)
    else (b,[])
  | some (.name n) =>
    if size<nameSize n ∧ b.has (.name n)=false then
      (b.setName n (putName (bytesAt mem cp size) (b.name n)),List.range' cp size)
    else (b,[])
  | none => (b,[])

/-- The loop of `vend_rfc1048`, with the offsets it reads; the length comes before the test of the
tag. -/
def vendLoop (mem : ℕ → UInt8) (ep : ℕ) : ℕ → ℕ → Bootparams → Bootparams × List ℕ
  | 0, _, b => (b,[])
  | fuel+1, cp, b =>
    if cp<ep then
      let tag := mem cp
      let size := (mem (cp+1)).toNat
      if tag=tagEnd then (b,[cp,cp+1])
      else
        let (b,reads) := vendItem mem tag size (cp+2) b
        let (b,rest) := vendLoop mem ep fuel (cp+2+size) b
        (b,cp::(cp+1)::(reads++rest))
    else (b,[])

def vendRfc1048 (mem : ℕ → UInt8) (b : Bootparams) : Bootparams × List ℕ :=
  vendLoop mem vendSize vendSize 4 b

def Bootparams.learnIp (b : Bootparams) (i : Ip) (a : BitVec 32) : Bootparams :=
  if a≠0 ∧ b.has (.ip i)=false then b.setIp i a else b

def vendCmu (mem : ℕ → UInt8) (b : Bootparams) : Bootparams :=
  ((b.learnIp .mask (addrOf (bytesAt mem 8 4))).learnIp .gateip (addrOf (bytesAt mem 12 4))).learnIp
    .dnsip (addrOf (bytesAt mem 16 4))

structure Recv where
  params : Bootparams
  nmask : BitVec 32

structure Reply where
  mem : ℕ → UInt8
  rsize : ℕ

def bootpSize : ℕ := 300
def vendOffset : ℕ := 236

def classMask (addr : BitVec 32) : BitVec 32 :=
  if addr &&& 0x80000000 = 0 then 0xff000000
  else if addr &&& 0xc0000000 = 0x80000000 then 0xffff0000
  else 0xffffff00

def Reply.vend (p : Reply) (i : ℕ) : UInt8 := p.mem (vendOffset+i)

def takeVend (p : Reply) (b : Bootparams) : Bootparams :=
  if bytesAt p.vend 0 4=[67,77,85,0] then vendCmu p.vend b
  else if bytesAt p.vend 0 4=[99,130,83,99] then (vendRfc1048 p.vend b).1
  else b

def takeAddr (p : Reply) (r : Recv) : Recv :=
  let yiaddr := addrOf (bytesAt p.mem 16 4)
  if yiaddr≠0 ∧ r.params.has (.ip .addr)=false then
    ⟨r.params.setIp .addr yiaddr,classMask yiaddr⟩
  else r

def takeBoot (p : Reply) (b : Bootparams) : Bootparams :=
  let b := b.learnIp .bootip (addrOf (bytesAt p.mem 20 4))
  if p.mem 108≠0 ∧ b.has (.name .bootfile)=false then
    b.setName .bootfile (strncpy p.mem 108 (nameSize .bootfile))
  else b

def checkMask (nmask : BitVec 32) (b : Bootparams) : Bootparams :=
  let b := if b.has (.ip .mask) = true ∧ nmask &&& b.ip .mask ≠ nmask then b.clear (.ip .mask) else b
  if b.has (.ip .mask)=false then {b with ip := Function.update b.ip .mask nmask} else b

def samenet (a a' m : BitVec 32) : Prop := a &&& m = a' &&& m

instance (a a' m : BitVec 32) : Decidable (samenet a a' m) := inferInstanceAs (Decidable (_=_))

def checkGate (b : Bootparams) : Bootparams :=
  if b.has (.ip .gateip)=true ∧ ¬samenet (b.ip .addr) (b.ip .gateip) (b.ip .mask) then
    {b with ip := Function.update b.ip .gateip 0}.clear (.ip .gateip)
  else b

def bootprecv (xid : BitVec 32) (r : Recv) (p : Reply) : ℤ × Recv :=
  if p.rsize<bootpSize ∨ addrOf (bytesAt p.mem 4 4)≠xid then (-1,r)
  else
    let r := takeAddr p r
    let b := takeVend p (takeBoot p r.params)
    if b.has (.ip .addr)=false then (-1,⟨b,r.nmask⟩)
    else (0,⟨checkGate (checkMask r.nmask b),r.nmask⟩)

/-- What the loop of `boot_bootp` does next: it sends the request again, with the next transaction
number, or it takes a datagram. -/
inductive BootEvent where
  | send
  | recv (p : Reply)

/-- The values of `bootprecv` at the datagrams of one run of `boot_bootp`, each under the
transaction number of the last request sent. -/
def bootReplies : BitVec 32 → Recv → List BootEvent → List (ℤ × Recv)
  | _, _, [] => []
  | xid, r, .send::es => bootReplies (xid+1) r es
  | xid, r, .recv p::es => bootprecv xid r p::bootReplies xid (bootprecv xid r p).2 es

def bootGetenv (env : Ip → Option (BitVec 32)) (b : Bootparams) : Bootparams :=
  [Ip.addr,.mask,.broadaddr,.gateip].foldl (fun b i =>
    match b.has (.ip i),env i with
    | false,some a => b.setIp i a
    | _,_ => b) b

end Pmon.Bootp
