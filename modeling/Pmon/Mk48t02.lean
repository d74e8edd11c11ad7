import Pmon.NvEnvCrash

/-!
# The environment store in the clock chip (`mk48t02.c`)

A header of magic, checksum, size and state, then packed entries from `ENV_BASE` on. The checksum
covers the entries only; the state tells the next boot what to think of a bad one. 16-bit fields are
written high byte first, and the writes logged. Behind the memory are the clock registers.
-/

namespace Pmon.Mk48t02
open ByteStore PackedRecords EnvEntry

def nvoffMagic : ℕ := 0
def nvoffCsum : ℕ := 2
def nvoffEnvsize : ℕ := 4
def nvoffState : ℕ := 12
def envBase : ℕ := 64
def envTop : ℕ := 0x7f8
def envAvail : ℕ := envTop-envBase
def nvMagic : ℕ := 0xdeaf

inductive NvState where
  | ok
  | uninitialised
  | badchecksum
  | recoverable
  | unrecoverable
  | other (val : UInt8)
  deriving DecidableEq

def NvState.ofByte (c : UInt8) : NvState :=
  if c=0 then .ok
  else if c=1 then .uninitialised
  else if c=2 then .badchecksum
  else if c=3 then .recoverable
  else if c=4 then .unrecoverable
  else .other c

def NvState.toByte : NvState → UInt8
  | .ok => 0
  | .uninitialised => 1
  | .badchecksum => 2
  | .recoverable => 3
  | .unrecoverable => 4
  | .other c => c

def getshort (m : ℕ → UInt8) (offs : ℕ) : ℕ := (m offs).toNat*256+(m (offs+1)).toNat

def sumLoop (m : ℕ → UInt8) : ℕ → ℕ → ℕ → ℕ
  | 0, _, sum => sum
  | fuel+1, i, sum =>
    if i<envTop then sumLoop m fuel (i+2) ((sum+getshort m i)%0x10000) else sum

def calcsum (m : ℕ → UInt8) : ℕ := sumLoop m envAvail envBase nvMagic

def invalid (m : ℕ → UInt8) : NvState :=
  if getshort m nvoffMagic≠nvMagic then .uninitialised
  else if calcsum m≠getshort m nvoffCsum then .badchecksum
  else NvState.ofByte (m nvoffState)

def recoverLoop (m : ℕ → UInt8) : ℕ → ℕ → ℕ → Bool
  | 0, _, _ => true
  | fuel+1, envsize, envp =>
    if 0<envsize then
      let n := (m envp).toNat
      -- sanity test
      if n=0 ∨ envTop<envp+n then false
      -- a name must be printable
      else if nameCheck m (n-1) (envp+1) then recoverLoop m fuel (envsize-n) (envp+n)
      else false
    else true

def makesSense (m : ℕ → UInt8) (envsize : ℕ) : Bool := recoverLoop m envsize envsize envBase

/-- The loop of `nvram_matchenv`, which compares without regard to the end of the entry. -/
def matchLoop (m : ℕ → UInt8) (name : List UInt8) : ℕ → ℕ → ℕ → ℕ
  | 0, _, _ => 0
  | fuel+1, envsize, envp =>
    if 0<envsize then
      let varsize := (m envp).toNat
      if varsize=0 ∨ envTop<envp+varsize then 0
      -- an empty name is an entry in the process of being deleted
      else if m (envp+1)=eqSign then
        matchLoop m name fuel (envsize-varsize) (envp+varsize)
      else if matchLen m (envp+1) name=name.length ∧
          (name.length=varsize-1 ∨ m (envp+1+name.length)=eqSign) then envp
      else matchLoop m name fuel (envsize-varsize) (envp+varsize)
    else 0

def matchenv (m : ℕ → UInt8) (name : List UInt8) : ℕ :=
  let envsize := getshort m nvoffEnvsize
  if envAvail<envsize then 0
  else if 255<name.length then 0
  else matchLoop m name envsize envsize envBase

/-- The memory with the list of single-byte writes to it. -/
structure Nvram where
  mem : ℕ → UInt8
  writes : List (ℕ × UInt8)

namespace Nvram

def poke (s : Nvram) (ws : List (ℕ × UInt8)) : Nvram :=
  {mem := applyWrites ws s.mem, writes := s.writes++ws}

def setbyte (s : Nvram) (offs : ℕ) (val : UInt8) : Nvram := s.poke [(offs,val)]
def setbytes (s : Nvram) (offs : ℕ) (bs : List UInt8) : Nvram := s.poke (writesAt offs bs)

def setshort (s : Nvram) (offs val : ℕ) : Nvram :=
  (s.setbyte offs (UInt8.ofNat (val/256))).setbyte (offs+1) (UInt8.ofNat val)

def setstate (s : Nvram) (state : NvState) : Nvram := s.setbyte nvoffState state.toByte
def updatesum (s : Nvram) : Nvram := (s.setshort nvoffCsum (calcsum s.mem)).setstate .ok

def recover (s : Nvram) : Nvram × Bool :=
  if NvState.ofByte (s.mem nvoffState) = .recoverable then
    if makesSense s.mem (getshort s.mem nvoffEnvsize) then (s.updatesum,true) else (s,false)
  else (s,false)

def moveLoop : ℕ → ℕ → ℕ → Nvram → Nvram
  | 0, _, _, s => s
  | n+1, envp, nenvp, s => moveLoop n (envp+1) (nenvp+1) (s.setbyte envp (s.mem nenvp))

def delenv (s : Nvram) (name : List UInt8) : Nvram × Bool :=
  let envp := matchenv s.mem name
  if envp=0 then (s,false)
  else
    let nenvp := envp+(s.mem envp).toNat
    let envsize := getshort s.mem nvoffEnvsize
    let nbytes := (((envsize : ℤ)-(nenvp-envBase : ℕ))%2^32).toNat
    let s := s.setstate .unrecoverable
    let s := s.setshort nvoffEnvsize ((envsize+0x10000-(nenvp-envp))%0x10000)
    ((moveLoop nbytes envp nenvp s).updatesum,true)

def resetenv (s : Nvram) : Nvram :=
  ((s.setshort nvoffMagic nvMagic).setshort nvoffEnvsize 0).updatesum

/-- What `sbd_setenv` returns; nothing in particular for a long entry. -/
inductive Ret where
  | failed
  | done
  | unspecified

def addEntry (s : Nvram) (name val : List UInt8) (total : ℕ) : Nvram :=
  let envp := envBase+getshort s.mem nvoffEnvsize
  let s := (s.setstate .recoverable).setbyte envp (UInt8.ofNat total)
  let s := s.setbytes (envp+1) name
  let s := if val≠[] then
      (s.setbyte (envp+1+name.length) eqSign).setbytes (envp+1+name.length+1) val
    else s
  let s := s.setshort nvoffEnvsize (envp+total-envBase)
  s.updatesum

def setenv (s : Nvram) (name : CString) (v : CPtr) : Nvram × Ret :=
  if invalid s.mem ≠ .ok then (s,.failed)
  else if name.bytes=[] then (s,.failed)
  else
    let ns := name.bytes.length
    let val := CPtr.bytes v
    let total := if val≠[] then ns+val.length+2 else ns+1
    if 255<total then (s,.unspecified)
    else
      let envp := matchenv s.mem name.bytes
      if envp≠0 ∧ (s.mem envp).toNat=total then
        -- replace in place
        if val≠[] then
          (((s.setstate .recoverable).setbytes (envp+1+ns+1) val).updatesum,.done)
        else (s,.done)
      else
        let s := (s.delenv name.bytes).1
        if (envAvail : ℤ)-getshort s.mem nvoffEnvsize<total then (s,.failed)
        else
          (s.addEntry name.bytes val total,.done)

def unsetenv (s : Nvram) (name : CString) : Nvram × Bool :=
  if invalid s.mem ≠ .ok then (s,false) else s.delenv name.bytes

def rtcinit (s : Nvram) : Nvram := match invalid s.mem with
  | .ok => s
  | .uninitialised => s.resetenv
  | .badchecksum => if s.recover.2 then s.recover.1 else s.resetenv
  | .recoverable => if s.recover.2 then s.recover.1 else s.resetenv
  -- probably an old memory with garbage state
  | .unrecoverable => s.setstate .ok
  | .other _ => s.setstate .ok

end Nvram

def getenv (m : ℕ → UInt8) (name : CString) : Option CString :=
  if invalid m ≠ .ok then none
  else
    let envp := matchenv m name.bytes
    if envp=0 then none
    else
      let ns := name.bytes.length
      let n := (m envp).toNat
      if n=ns+1 then some CString.empty
      else some (cstring (readCells m (envp+ns+2) (n-(ns+2))))

def boot (m : ℕ → UInt8) : ℕ → UInt8 := (Nvram.rtcinit ⟨m,[]⟩).mem

end Pmon.Mk48t02
