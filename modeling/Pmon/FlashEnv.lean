import Pmon.EnvStore

/-!
# The environment store in flash memory (`flashenv.c`)

A partition has two magic bytes, packed entries and erased bytes, `0xff`. Deleting an entry clears
the first byte of its name; `env_compress` squeezes it out. The writes are logged in issue order.
-/

namespace Pmon.FlashEnv
open ByteStore PackedRecords EnvEntry

def envoffBase : ℕ := 2
def envoffMagic : ℕ := 0
def envMagic : List UInt8 := [0xde,0xaf]

inductive EnvState where
  | unknown
  | ok
  | uninitialised
  | recoverable
  | unrecoverable
  | missing
  | forcereset
  deriving DecidableEq

inductive PartType where
  | raw
  | boot
  | post
  | env
  | ffs
  | undef
  deriving DecidableEq

structure Part where
  type : PartType
  offs : ℕ
  size : ℕ

structure Board where
  flashenvOpen : Bool
  /-- `flash_parts`; `none` when it does not return `FLASHDEV_OK`. -/
  flashParts : Option (List Part)
  forceReset : Bool
  sector : ℕ → ℕ × ℕ

/-- The flash of the store with its static variables and the list of writes. -/
structure Store where
  flash : ℕ → UInt8
  envState : EnvState
  envInitState : EnvState
  envOffs : ℕ
  envMaxsize : ℕ
  envSize : ℕ
  envFree : ℕ
  writes : List (ℕ × UInt8)
  compressions : ℕ

namespace Store

def getbyte (s : Store) (offs : ℕ) : UInt8 := s.flash (s.envOffs+offs)

def program (s : Store) (ws : List (ℕ × UInt8)) : Store :=
  {s with flash := applyWrites ws s.flash, writes := s.writes++ws}

def setbytes (s : Store) (offs : ℕ) (bs : List UInt8) : Store :=
  s.program (writesAt (s.envOffs+offs) bs)

def setbyte (s : Store) (offs : ℕ) (val : UInt8) : Store := s.setbytes offs [val]

def structLoop (s : Store) (top : ℕ) : ℕ → ℕ → ℕ → Bool × ℕ × ℕ
  | 0, envp, free => (true,envp,free)
  | fuel+1, envp, free =>
    if envp<top then
      let varsize := (s.getbyte envp).toNat
      -- end of allocated area
      if varsize=0xff then (true,envp,free)
      else if varsize≤1 ∨ top<envp+varsize then (false,envp,free)
      else
        let c := s.getbyte (envp+1)
        if c≠0x00 ∧ c≠0xff then
          if c=eqSign then (false,envp,free)
          else if nameCheck s.getbyte (varsize-1) (envp+1) then
            structLoop s top fuel (envp+varsize) free
          else (false,envp,free)
        -- deleted or partially written entry
        else structLoop s top fuel (envp+varsize) (free+varsize)
    else (true,envp,free)

def erasedLoop (s : Store) (top : ℕ) : ℕ → ℕ → Bool
  | 0, _ => true
  | fuel+1, envp =>
    if envp<top then
      let n := min (top-envp) 128
      if (readCells s.getbyte envp n).all (· == 0xff) then erasedLoop s top fuel (envp+n)
      else false
    else true

def structcheck (s : Store) : Store × Bool :=
  let top := s.envMaxsize
  match s.structLoop top (top-envoffBase) envoffBase 0 with
  | (false,_,free) => ({s with envFree := free},false)
  | (true,envp,free) =>
    ({s with envSize := envp-envoffBase, envFree := free+(top-envp)},
      s.erasedLoop top (top-envp) envp)

def erasesector (b : Board) (s : Store) (offs : ℕ) : Store :=
  { s with flash := fun q =>
      if (b.sector offs).1≤q ∧ q<(b.sector offs).1+(b.sector offs).2 then 0xff
      else s.flash q }

def eraseLoop (b : Board) : ℕ → Store → ℕ → Store
  | 0, s, _ => s
  | fuel+1, s, size =>
    if size<s.envMaxsize then
      eraseLoop b fuel (s.erasesector b (s.envOffs+size))
        (size+(b.sector (s.envOffs+size)).2)
    else s

def reset (b : Board) (s : Store) : Store :=
  let s := eraseLoop b s.envMaxsize s 0
  let s := s.setbytes envoffMagic envMagic
  {s with envSize := 0, envFree := s.envMaxsize-envoffBase, envState := .ok}

def bootState (b : Board) (s : Store) : EnvState :=
  if b.forceReset then .forcereset
  else if s.getbyte envoffMagic≠0xde ∨ s.getbyte (envoffMagic+1)≠0xaf then .uninitialised
  else .ok

def recover (b : Board) (s : Store) : Store :=
  match s.envInitState with
  | .ok =>
    match s.structcheck with
    | (s,true) => s
    -- we have to completely reset it
    | (s,false) => reset b {s with envInitState := .unrecoverable}
  | _ => reset b s

def invalid (b : Board) (s : Store) : Store × EnvState :=
  if s.envState ≠ .unknown then (s,s.envState)
  else
    let s := {s with envState := .missing, envInitState := .missing}
    if b.flashenvOpen=false then (s,s.envState)
    else
      match b.flashParts with
      | none => (s,s.envState)
      | some parts =>
        match parts.find? (·.type = .env) with
        | none => (s,s.envState)
        | some part =>
          let s := {s with envOffs := part.offs, envMaxsize := part.size}
          if s.envMaxsize<envoffBase+64 then (s,s.envState)
          else
            -- offset and size should be word aligned
            let s := if s.envOffs%2=1 then
              {s with envOffs := s.envOffs+1, envMaxsize := s.envMaxsize-1} else s
            let s := if s.envMaxsize%2=1 then
              {s with envMaxsize := s.envMaxsize-1} else s
            let init := s.bootState b
            let s := recover b {s with envInitState := init, envState := init}
            (s,s.envState)

def findLoop (s : Store) (name : List UInt8) (top : ℕ) : ℕ → ℕ → ℕ
  | 0, _ => 0
  | fuel+1, envp =>
    if envp<top then
      let varsize := (s.getbyte envp).toNat
      if varsize≤1 ∨ varsize=0xff ∨ top<envp+varsize then 0
      else
        let c := s.getbyte (envp+1)
        if c≠0x00 ∧ c≠0xff ∧ c≠eqSign ∧ name.length≤varsize-1 ∧
            matchLen s.getbyte (envp+1) name=name.length ∧
            (name.length=varsize-1 ∨ s.getbyte (envp+1+name.length)=eqSign) then envp
        else findLoop s name top fuel (envp+varsize)
    else 0

def find (s : Store) (name : CPtr) : ℕ :=
  match name with
  | none => 0
  | some name =>
    if 254≤name.bytes.length then 0
    else s.findLoop name.bytes (envoffBase+s.envSize) s.envSize envoffBase

def delete (s : Store) (envp : ℕ) : Store :=
  let s := {s with envFree := s.envFree+(s.getbyte envp).toNat}
  s.setbyte (envp+1) 0

/-- The copy loop of `env_compress`, or `none` when the sanity clause leaves the function. -/
def compressLoop (s : Store) (top : ℕ) : ℕ → ℕ → List UInt8 → Option (List UInt8)
  | 0, _, cbuf => some cbuf
  | fuel+1, envp, cbuf =>
    if envp<top then
      let varlen := (s.getbyte envp).toNat
      if varlen≤1 ∨ varlen=0xff ∨ top<envp+varlen then none
      else
        let c := s.getbyte (envp+1)
        if c≠0x00 ∧ c≠0xff then
          compressLoop s top fuel (envp+varlen) (cbuf++readCells s.getbyte envp varlen)
        else compressLoop s top fuel (envp+varlen) cbuf
    else some cbuf

def compress (b : Board) (s : Store) : Store :=
  let s := {s with compressions := s.compressions+1}
  match s.compressLoop (envoffBase+s.envSize) s.envSize envoffBase [] with
  | none => s
  | some cbuf =>
    let s := reset b s
    let s := {s with envSize := cbuf.length, envFree := s.envFree-cbuf.length}
    s.setbytes envoffBase cbuf

def append (s : Store) (name val : List UInt8) : Store :=
  let base := envoffBase+s.envSize
  let total := entryTotal name val
  let s := s.setbyte base (UInt8.ofNat total)
  let s := s.setbytes (base+2) name.tail
  let s := if val≠[] then
      (s.setbyte (base+1+name.length) eqSign).setbytes (base+1+name.length+1) val
    else s
  let s := s.setbytes (base+1) (name.take 1)
  {s with envSize := s.envSize+total, envFree := s.envFree-total}

def setenv (b : Board) (s : Store) (name val : CPtr) (overwrite : Bool) :
    Store × Except Errno Unit :=
  match invalid b s with
  | (s,state) =>
    if state ≠ .ok then (s,.error .ENODEV)
    else if name.bytes.length=0 then (s,.error .EINVAL)
    else
      let envp := s.find name
      if envp≠0 ∧ overwrite=false then (s,.ok ())
      else
        let oldlen := if envp≠0 then (s.getbyte envp).toNat else 0
        let total := entryTotal name.bytes val.bytes
        -- max variable size
        if 255≤total then (s,.error .ENAMETOOLONG)
        -- never enough space, even after deleting the old value
        else if s.envFree+oldlen<total then (s,.error .ENOSPC)
        else
          let s := if envp≠0 then s.delete envp else s
          -- not enough room to append at end
          let s := if s.envMaxsize<envoffBase+s.envSize+total then s.compress b else s
          if s.envMaxsize<envoffBase+s.envSize+total then (s,.error .ENOSPC)
          else (s.append name.bytes val.bytes,.ok ())

def getenv (b : Board) (s : Store) (name : CPtr) : Store × Except Errno CString :=
  match invalid b s with
  | (s,state) =>
    if state ≠ .ok then (s,.error .ENODEV)
    else
      let envp := s.find name
      if envp=0 then (s,.error .ENOENT)
      else
        let namelen := name.bytes.length
        let varlen := (s.getbyte envp).toNat
        if namelen+2<varlen then
          (s,.ok (cstring (readCells s.getbyte (envp+(namelen+2)) (varlen-(namelen+2)))))
        else (s,.ok CString.empty)

def unsetenv (b : Board) (s : Store) (name : CPtr) : Store :=
  match invalid b s with
  | (s,state) =>
    if state ≠ .ok then s
    else
      let envp := s.find name
      if envp≠0 then s.delete envp else s

def mapLoop (s : Store) (top : ℕ) : ℕ → ℕ → List (CString × CString)
  | 0, _ => []
  | fuel+1, envp =>
    if envp<top then
      let varlen := (s.getbyte envp).toNat
      if varlen≤1 ∨ varlen=0xff ∨ top<envp+varlen then []
      else
        let c := s.getbyte (envp+1)
        if c=0x00 ∨ c=0xff then mapLoop s top fuel (envp+varlen)
        else
          let (buf,val) := copyVar s.getbyte (varlen-1) (envp+1) [] none
          (cstring buf,cstring (val.getD []))::mapLoop s top fuel (envp+varlen)
    else []

def mapenv (b : Board) (s : Store) : Store × List (CString × CString) :=
  match invalid b s with
  | (s,state) =>
    if state ≠ .ok then (s,[])
    else (s,s.mapLoop (envoffBase+s.envSize) s.envSize envoffBase)

def reboot (s : Store) : Store :=
  { s with
    envState := .unknown, envInitState := .ok, envOffs := 0, envMaxsize := 0
    envSize := 0, envFree := 0 }

end Store
end Pmon.FlashEnv
