import Pmon.EnvStore

/-!
# The environment store in battery-backed memory (`nvenv.c`)

A header of magic, checksum, size and state, then packed entries. The state says whether the
checksum can be repaired at the next boot. Writes are logged in issue order; 16-bit fields low byte
first.
-/

namespace Pmon.NvEnv
open ByteStore PackedRecords EnvEntry

def envoffMagic : ℕ := 0
def envoffCsum : ℕ := 2
def envoffSize : ℕ := 4
def envoffState : ℕ := 6
def envoffBase : ℕ := 10
def envMagic : ℕ := 0xdeaf

inductive EnvState where
  | unknown
  | ok
  | uninitialised
  | recoverable
  | unrecoverable
  | forcereset
  | other (val : UInt8)
  deriving DecidableEq

def EnvState.ofByte (c : UInt8) : EnvState :=
  if c=0 then .ok
  else if c=1 then .uninitialised
  else if c=2 then .recoverable
  else if c=3 then .unrecoverable
  else if c=4 then .forcereset
  else .other c

def EnvState.toByte : EnvState → UInt8
  | .unknown => 0xff
  | .ok => 0
  | .uninitialised => 1
  | .recoverable => 2
  | .unrecoverable => 3
  | .forcereset => 4
  | .other c => c

/-- What the board reports; the 16-bit size field can hold every environment size. -/
structure Board where
  nvOffs : ℕ
  nvSize : ℕ
  forceReset : Bool
  room : envoffBase+2≤nvSize
  small : nvSize≤0xffff

def p6032 (forceReset : Bool) : Board where
  nvOffs := 15
  nvSize := 113
  forceReset := forceReset
  room := by decide
  small := by decide

/-- The memory of the store with its static variables and the list of writes. -/
structure Store where
  nvram : ℕ → UInt8
  envState : EnvState
  envInitState : EnvState
  envOffs : ℕ
  envMaxsize : ℕ
  writes : List (ℕ × UInt8)

namespace Store

def getbyte (s : Store) (offs : ℕ) : UInt8 := s.nvram (s.envOffs+offs)

def poke (s : Store) (ws : List (ℕ × UInt8)) : Store := { s with
    nvram := applyWrites (shiftWrites s.envOffs ws) s.nvram
    writes := s.writes++shiftWrites s.envOffs ws }

def setbyte (s : Store) (offs : ℕ) (val : UInt8) : Store := s.poke [(offs,val)]
def setbytes (s : Store) (offs : ℕ) (bs : List UInt8) : Store := s.poke (writesAt offs bs)

def getshort (s : Store) (offs : ℕ) : ℕ :=
  (s.getbyte (offs+1)).toNat*256+(s.getbyte offs).toNat

def setshort (s : Store) (offs val : ℕ) : Store :=
  (s.setbyte offs (UInt8.ofNat val)).setbyte (offs+1) (UInt8.ofNat (val/256))

def setstate (s : Store) (state : EnvState) : Store :=
  {s.setbyte envoffState state.toByte with envState := state}

def sumLoop (s : Store) : ℕ → ℕ → ℕ → ℕ
  | 0, _, sum => sum
  | fuel+1, i, sum =>
    if i<s.envMaxsize then sumLoop s fuel (i+2) ((sum+s.getshort i)%0x10000) else sum

def calcsum (s : Store) : ℕ := s.sumLoop s.envMaxsize envoffBase envMagic
def updatesum (s : Store) : Store := (s.setshort envoffCsum s.calcsum).setstate .ok

def structLoop (s : Store) (top : ℕ) : ℕ → ℕ → Bool
  | 0, _ => true
  | fuel+1, envp =>
    if envp<top then
      let varsize := (s.getbyte envp).toNat
      if varsize=0 ∨ top<envp+varsize then false
      else if nameCheck s.getbyte (varsize-1) (envp+1) then
        structLoop s top fuel (envp+varsize)
      else false
    else true

def structcheck (s : Store) : Bool :=
  let envsize := s.getshort envoffSize
  if s.envMaxsize-envoffBase<envsize then false
  else s.structLoop (envoffBase+envsize) envsize envoffBase

def reset (s : Store) : Store := ((s.setshort envoffMagic envMagic).setshort envoffSize 0).updatesum

def bootState (b : Board) (s : Store) : EnvState :=
  let init := EnvState.ofByte (s.getbyte envoffState)
  if b.forceReset then .forcereset
  else if s.getshort envoffMagic≠envMagic then .uninitialised
  else if s.envMaxsize-envoffBase<s.getshort envoffSize then .unrecoverable
  -- a bad checksum may be recoverable
  else if s.calcsum≠s.getshort envoffCsum ∧ init ≠ .recoverable then .unrecoverable
  else init

def finalCheck (s : Store) : Store :=
  if s.structcheck then s else {s with envInitState := .unrecoverable}.reset

def recover (s : Store) : Store := match s.envInitState with
  | .ok => s.finalCheck
  | .recoverable => s.updatesum.finalCheck
  | .unrecoverable => s.reset
  | .uninitialised => s.reset
  | .forcereset => s.reset
  -- may be an old environment with uninitialised state
  | .unknown => {s with envInitState := .ok}.updatesum.finalCheck
  | .other _ => {s with envInitState := .ok}.updatesum.finalCheck

def invalid (b : Board) (s : Store) : Store × EnvState :=
  if s.envState ≠ .unknown then (s,s.envState)
  else
    let s := {s with envOffs := b.nvOffs, envMaxsize := b.nvSize}
    -- must be word aligned
    let s := if s.envOffs%2=1 then
      {s with envOffs := s.envOffs+1, envMaxsize := s.envMaxsize-1} else s
    let s := if s.envMaxsize%2=1 then
      {s with envMaxsize := s.envMaxsize-1} else s
    let init := s.bootState b
    let s := recover {s with envInitState := init, envState := init}
    (s,s.envState)

def findLoop (s : Store) (name : List UInt8) (top : ℕ) : ℕ → ℕ → ℕ
  | 0, _ => 0
  | fuel+1, envp =>
    if envp<top then
      let varsize := (s.getbyte envp).toNat
      if varsize=0 ∨ top<envp+varsize then 0
      else if s.getbyte (envp+1)≠eqSign ∧ name.length≤varsize-1 ∧
          matchLen s.getbyte (envp+1) name=name.length ∧
          (name.length=varsize-1 ∨ s.getbyte (envp+1+name.length)=eqSign) then envp
      else findLoop s name top fuel (envp+varsize)
    else 0

def find (s : Store) (name : CPtr) : ℕ :=
  let envsize := s.getshort envoffSize
  if s.envMaxsize-envoffBase<envsize then 0
  else
    match name with
    | none => 0
    | some name =>
      if 255≤name.bytes.length then 0
      else s.findLoop name.bytes (envoffBase+envsize) envsize envoffBase

def moveLoop : ℕ → Store → ℕ → ℕ → Store
  | 0, s, _, _ => s
  | nremain+1, s, envp, nenvp =>
    moveLoop nremain (s.setbyte envp (s.getbyte nenvp)) (envp+1) (nenvp+1)

def delete (s : Store) (name : CPtr) : Store :=
  let envp := s.find name
  if envp=0 then s
  else
    let envsize := s.getshort envoffSize
    let varsize := (s.getbyte envp).toNat
    -- unrecoverable because we are changing the layout
    let s := s.setstate .unrecoverable
    let nremain := envsize-(envp+varsize-envoffBase)
    let s := moveLoop nremain s envp (envp+varsize)
    (s.setshort envoffSize (envp + nremain-envoffBase)).updatesum

def replace (s : Store) (envp : ℕ) (name val : List UInt8) : Store :=
  -- recoverable because we do not move any other variables
  let s := s.setstate .recoverable
  (s.setbytes (envp+1+name.length+1) val).updatesum

def append (s : Store) (name val : List UInt8) : Store :=
  let envsize := s.getshort envoffSize
  -- recoverable because we do not update the size until we finish
  let s := s.setstate .recoverable
  let base := envoffBase+envsize
  let s := s.setbyte base (UInt8.ofNat (entryTotal name val))
  let s := s.setbytes (base+1) name
  let s := if val≠[] then
      (s.setbyte (base+1+name.length) eqSign).setbytes (base+1+name.length+1) val
    else s
  (s.setshort envoffSize (envsize+entryTotal name val)).updatesum

def setenv (b : Board) (s : Store) (name val : CPtr) (overwrite : Bool) :
    Store × Except Errno Unit :=
  match invalid b s with
  | (s,state) =>
    if state ≠ .ok then (s,.error .ENODEV)
    else if name.bytes.length=0 then (s,.error .EINVAL)
    else
      let total := entryTotal name.bytes val.bytes
      -- max variable size
      if 255<total then (s,.error .ENAMETOOLONG)
      else
        let envp := s.find name
        if envp≠0 ∧ overwrite=false then (s,.ok ())
        else
          let oldsize := if envp≠0 then (s.getbyte envp).toNat else 0
          -- same size: replace value in place
          if envp≠0 ∧ oldsize=total then
            (if val.bytes≠[] then s.replace envp name.bytes val.bytes else s,.ok ())
          else if s.envMaxsize-envoffBase<s.getshort envoffSize-oldsize+total then
            (s,.error .ENOSPC)
          else
            let s := if envp≠0 then s.delete name else s
            (s.append name.bytes val.bytes,.ok ())

def getenv (b : Board) (s : Store) (name : CPtr) : Store × Except Errno CString :=
  match invalid b s with
  | (s,state) =>
    if state ≠ .ok then (s,.error .ENODEV)
    else
      let envp := s.find name
      if envp=0 then (s,.error .ENOENT)
      else
        let namelen := name.bytes.length
        let varlen := (s.getbyte envp).toNat
        if namelen+2<varlen then
          (s,.ok (cstring (readCells s.getbyte (envp+(namelen+2)) (varlen-(namelen+2)))))
        else (s,.ok CString.empty)

def unsetenv (b : Board) (s : Store) (name : CPtr) : Store := match invalid b s with
  | (s,state) => if state ≠ .ok then s else s.delete name

def mapLoop (s : Store) (top : ℕ) : ℕ → ℕ → List (CString × CString)
  | 0, _ => []
  | fuel+1, envp =>
    if envp<top then
      let varlen := (s.getbyte envp).toNat
      if varlen=0 ∨ top<envp+varlen then []
      else
        let (buf,val) := copyVar s.getbyte (varlen-1) (envp+1) [] none
        (cstring buf,cstring (val.getD []))::mapLoop s top fuel (envp+varlen)
    else []

def mapenv (b : Board) (s : Store) : Store × List (CString × CString) := match invalid b s with
  | (s,state) =>
    if state ≠ .ok then (s,[])
    else
      let envsize := s.getshort envoffSize
      if s.envMaxsize-envoffBase<envsize then (s,[])
      else (s,s.mapLoop (envoffBase+envsize) envsize envoffBase)

def reboot (s : Store) : Store :=
  {s with envState := .unknown, envInitState := .ok, envOffs := 0, envMaxsize := 0}

end Store

def envStore (b : Board) : EnvStore Store where
  setenv s := s.setenv b
  getenv s := s.getenv b
  unsetenv s := s.unsetenv b
  mapenv s := s.mapenv b

end Pmon.NvEnv
