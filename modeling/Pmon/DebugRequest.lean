import Pmon.BptTable

/-!
# Requests of the remote debugger

`dbgmode` splits a request into words and `do_req` serves it. A word that is no number leaves what
the variable held.
-/

namespace Pmon.DebugRequest
open LoadFn (K0BASE K2BASE)
open BptTable (Table)

structure Config where
  /-- `__mips >= 3`: registers are 64 bits wide. -/
  mips3 : Bool
  floatingpt : Bool
  r4000 : Bool
  mipseb : Bool

def Config.width (c : Config) : ℕ := if c.mips3 then 64 else 32

theorem Config.le_width (c : Config) : 32≤c.width := by
  unfold Config.width
  split <;> decide

variable {c : Config}

def R_ZERO : ℕ := 0
def R_HI : ℕ := 32
def R_LO : ℕ := 33
def R_STATUS : ℕ := 38
def R_CAUSE : ℕ := 39
def R_EPC : ℕ := 40
def Config.R_F0 (c : Config) : ℕ := if c.r4000 then 63 else 45
def Config.R_FCR (c : Config) : ℕ := c.R_F0+32
def SR_FR : ℕ := 0x04000000
abbrev Regs (c : Config) : Type := ℕ → BitVec c.width

def mapdbgreg (regs : Regs c) (adr : ℕ) : ℕ :=
  if adr<32 then R_ZERO+adr
  else if c.floatingpt ∧ adr<64 then
    let r := c.R_F0+adr-32
    -- the odd registers do not exist
    if c.mips3 ∧ (regs R_STATUS).toNat &&& SR_FR = 0 then r - r % 2 else r
  else if adr=96 then R_EPC
  else if adr=97 then R_CAUSE
  else if adr=98 then R_HI
  else if adr=99 then R_LO
  else if c.floatingpt ∧ adr=100 then c.R_FCR
  else R_ZERO

def isHalf (c : Config) (adr size : ℕ) : Prop :=
  c.floatingpt ∧ c.mips3 ∧ 32≤adr ∧ adr<64 ∧ size=4

instance (c : Config) (adr size : ℕ) : Decidable (isHalf c adr size) :=
  inferInstanceAs (Decidable (_ ∧ _))

/-- The bit position of a half; on a big-endian machine the index is inverted as well. -/
def halfShift (c : Config) (adr : ℕ) : ℕ := let index := if c.mipseb then 1-adr%2 else adr%2
  if c.mipseb then 32*(1-index) else 32*index

def getdbgreg (regs : Regs c) (adr size : ℕ) : BitVec c.width :=
  let v := regs (mapdbgreg regs adr)
  if isHalf c adr size then (v.extractLsb' (halfShift c adr) 32).setWidth c.width else v

def putHalf (v : BitVec c.width) (shift : ℕ) (half : BitVec 32) : BitVec c.width :=
  (v &&& ~~~((BitVec.allOnes 32).setWidth c.width <<< shift)) |||
    (half.setWidth c.width <<< shift)

/-- Write a register and return what it held. The test for zero looks at the number, not the slot.
-/
def putdbgreg (regs : Regs c) (adr size : ℕ) (val : BitVec c.width) : BitVec c.width × Regs c :=
  let r := mapdbgreg regs adr
  if isHalf c adr size then
    ((regs r).extractLsb' (halfShift c adr) 32 |>.setWidth c.width,
      Function.update regs r (putHalf (regs r) (halfShift c adr) (val.setWidth 32)))
  else (regs r, if adr≠0 then Function.update regs r val else regs)

inductive Cell where
  | word
  | half
  | byte

def Cell.size : Cell → ℕ
  | word => 4
  | half => 2
  | byte => 1

def load (c : Config) (cell : Cell) (mem : ℕ → UInt8) (adr : ℕ) : BitVec 32 :=
  let b i := (mem (adr+i)).toBitVec
  match cell with
  | .word => if c.mipseb then b 0++b 1++b 2++b 3 else b 3++b 2++b 1++b 0
  | .half => (if c.mipseb then b 0++b 1 else b 1++b 0 : BitVec 16).signExtend 32
  | .byte => (b 0).signExtend 32

def lane (c : Config) (cell : Cell) (i : ℕ) : ℕ :=
  if c.mipseb then 8*(cell.size-1-i) else 8*i

def store (c : Config) (cell : Cell) (mem : ℕ → UInt8) (adr : ℕ) (v : BitVec 32) : ℕ → UInt8 :=
  fun a =>
    if adr≤a ∧ a<adr+cell.size then ⟨v.extractLsb' (lane c cell (a-adr)) 8⟩ else mem a

def Cell.valid (cell : Cell) (adr : ℕ) : Prop := K0BASE≤adr ∧ adr<K2BASE ∧ adr%cell.size=0

instance (cell : Cell) (adr : ℕ) : Decidable (cell.valid adr) := inferInstanceAs (Decidable (_ ∧ _))

inductive Op where
  | readMem (cell : Cell)
  | writeMem (cell : Cell)
  | readReg
  /-- `t`: read a 64-bit register. -/
  | readReg64
  | writeReg
  /-- `T`: write a 64-bit register. -/
  | writeReg64
  | readRegs
  /-- `u`: read several 64-bit registers. -/
  | readRegs64
  | step
  | cont
  | exit
  | bpt (set : Bool)
  | unknown

def Op.ofChar (c : Config) (ch : Char) : Op := match ch with
  | 'i' => .readMem .word
  | 'd' => .readMem .word
  | 'h' => .readMem .half
  | 'p' => .readMem .byte
  | 't' => if c.mips3 then .readReg64 else .unknown
  | 'r' => .readReg
  | 'u' => if c.mips3 then .readRegs64 else .unknown
  | 'g' => .readRegs
  | 'I' => .writeMem .word
  | 'D' => .writeMem .word
  | 'H' => .writeMem .half
  | 'P' => .writeMem .byte
  | 'T' => if c.mips3 then .writeReg64 else .unknown
  | 'R' => .writeReg
  | 's' => .step
  | 'c' => .cont
  | 'x' => .exit
  | 'B' => .bpt true
  | 'b' => .bpt false
  | _ => .unknown

def EFAULT : ℕ := 14
def EINVAL : ℕ := 22
def hex (n : ℕ) : List Char := Nat.toDigits 16 n

def reply (pid req : List Char) (err val : ℕ) : List Char :=
  pid ++ ' ' :: req++[' ', '0', 'x']++hex err++[' ', '0', 'x']++hex val

structure State (c : Config) where
  mem : ℕ → UInt8
  regs : Regs c
  table : Table

structure Junk (c : Config) where
  adr : BitVec 32
  dat : BitVec c.width
  wild : BitVec c.width
  text : ℕ → List Char

inductive Next where
  | loop
  | step
  | cont
  | exit

structure Served (c : Config) where
  replies : List (List Char)
  state : State c
  next : Next

/-- The replies of `g` and `u`: the pointer moves at a set bit, the reply is sent at every bit. -/
def regsLoop (regs : Regs c) (wild : BitVec c.width) : ℕ → ℕ → ℕ → Option ℕ → List (BitVec c.width)
  | 0, _, _, _ => []
  | n+1, i, adr, rp =>
    let rp := if adr%2=1 then some i else rp
    (match rp with
      | some r => regs r
      | none => wild)::regsLoop regs wild n (i+1) (adr/2) rp

def regsValues (regs : Regs c) (wild : BitVec c.width) (mask : ℕ) : List (BitVec c.width) :=
  regsLoop regs wild 32 0 mask none

def bptKind : Char → Option ℕ
  | 'x' => some BptTable.MIPS_WATCHPOINT_X
  | 'w' => some BptTable.MIPS_WATCHPOINT_W
  | 'r' => some BptTable.MIPS_WATCHPOINT_R
  | 'a' => some (BptTable.MIPS_WATCHPOINT_R ||| BptTable.MIPS_WATCHPOINT_W)
  | 'f' => some 0
  | _ => none

def mipsWatchpointCapabilities (table : Table) (wpnum : BitVec 32) : ℕ :=
  if wpnum.toInt<0 then 0 else ((table.watchpoints[wpnum.toNat]?).map (·.capabilities)).getD 0

structure Request (c : Config) where
  pid : List Char
  req : List Char
  adr : BitVec 32
  dat : BitVec c.width
  sub : Option (List Char)

def Request.answer (r : Request c) (err val : ℕ) : List Char := reply r.pid r.req err val

def Request.done (r : Request c) (err val : ℕ) (s : State c) : Served c :=
  ⟨[r.answer err val],s,.loop⟩

def Request.bad (r : Request c) (s : State c) : Served c := r.done 0xffffffff EINVAL s

def serveRead (r : Request c) (cell : Cell) (s : State c) : Served c :=
  if cell.valid r.adr.toNat then r.done 0 (load c cell s.mem r.adr.toNat).toNat s
  else r.done 0xffffffff EFAULT s

def Cell.reported : Cell → Cell
  | word => word
  | half => byte
  | byte => byte

def serveWrite (r : Request c) (cell : Cell) (s : State c) : Served c :=
  if cell.valid r.adr.toNat then
    r.done 0 (load c cell.reported s.mem r.adr.toNat).toNat
      {s with mem := store c cell s.mem r.adr.toNat (r.dat.setWidth 32)}
  else r.done 0xffffffff EFAULT s

def Request.longDat (r : Request c) : BitVec c.width := (r.dat.setWidth 32).signExtend c.width

def serveBpt (env : BptTable.Env) (r : Request c) (set : Bool) (s : State c) : Served c :=
  match r.sub with
  | none => r.bad s
  | some [] => r.bad s
  | some ('n' :: _) => r.done 0 s.table.watchpoints.length s
  | some ('q' :: _) => r.done 0 (mipsWatchpointCapabilities s.table r.adr) s
  | some ('u' :: _) =>
    if set then r.bad s else r.done 0 0 {s with table := BptTable.clrbpts s.table}
  | some (ch::_) =>
    match bptKind ch with
    | none => r.bad s
    | some kind =>
      let len := (r.dat.setWidth 32 : BitVec 32).toNat
      let (ok,table) := if set then BptTable.setbpt env kind r.adr.toNat len s.table
        else BptTable.clrbpt kind r.adr.toNat len s.table
      if ok then r.done 0 0 {s with table := table} else r.bad {s with table := table}

def Request.setEpc (r : Request c) (s : State c) : State c :=
  if r.adr.toNat≠1 then
    {s with regs := Function.update s.regs R_EPC (r.adr.setWidth c.width)}
  else s

def serve (env : BptTable.Env) (wild : BitVec c.width) (r : Request c) (op : Op) (s : State c) :
    Served c :=
  match op with
  | .readMem cell => serveRead r cell s
  | .writeMem cell => serveWrite r cell s
  | .readReg => r.done 0 ((getdbgreg s.regs r.adr.toNat 4).setWidth 32).toNat s
  | .readReg64 => r.done 0 (getdbgreg s.regs r.adr.toNat 8).toNat s
  | .writeReg =>
    let (old,regs) := putdbgreg s.regs r.adr.toNat 4 r.longDat
    r.done 0 (old.setWidth 32).toNat {s with regs := regs}
  | .writeReg64 =>
    let (old,regs) := putdbgreg s.regs r.adr.toNat 8 r.dat
    r.done 0 old.toNat {s with regs := regs}
  | .readRegs =>
    ⟨(regsValues s.regs wild r.adr.toNat).map fun v => r.answer 0 (v.setWidth 32).toNat,s,.loop⟩
  | .readRegs64 => ⟨(regsValues s.regs wild r.adr.toNat).map fun v => r.answer 0 v.toNat,s,.loop⟩
  | .step => ⟨[],r.setEpc s,.step⟩
  | .cont => ⟨[],r.setEpc s,.cont⟩
  | .exit => ⟨[r.answer 0 0],{s with table := BptTable.clrbpts s.table},.exit⟩
  | .bpt set => serveBpt env r set s
  | .unknown => r.bad s

def request (junk : Junk c) (av : List (List Char)) : Request c where
  pid := av[0]?.getD (junk.text 0)
  req := av[1]?.getD (junk.text 1)
  adr := (av[2]?.bind fun p => Rsa.ator 32 p 0).getD junk.adr
  dat := (av[3]?.bind fun p => Rsa.ator c.width p 0).getD junk.dat
  sub := av[4]?

def doReq (env : BptTable.Env) (junk : Junk c) (av : List (List Char)) (s : State c) : Served c :=
  let r := request junk av
  if av.length<4 then r.bad s
  else
    match r.req with
    | [] => r.bad s
    | [ch] => serve env junk.wild r (Op.ofChar c ch) s
    | _::_::_ => r.bad s

structure Asks (ch : Char) (av : List (List Char)) : Prop where
  length : 4≤av.length
  req : av[1]?=some [ch]

theorem Asks.doReq_eq {env : BptTable.Env} {junk : Junk c} {ch : Char} {av : List (List Char)}
    {s : State c} (h : Asks ch av) :
    doReq env junk av s=serve env junk.wild (request junk av) (Op.ofChar c ch) s := by
  have hword : (request junk av).req=[ch] := by
    rw [request,h.req]
    rfl
  have hlen := h.length
  unfold doReq
  dsimp only
  rw [if_neg (by omega)]
  split
  · rename_i heq
    rw [hword] at heq
    cases heq
  · rename_i d heq
    rw [hword] at heq
    cases heq
    rfl
  · rename_i heq
    rw [hword] at heq
    cases heq

def MAX_AC : ℕ := 100

def argvizeLoop : ℕ → List Char → List (List Char)
  | 0, _ => []
  | n+1, s =>
    match s.dropWhile (· ≤ ' ') with
    | [] => []
    | q::s =>
      if q = '\x27' ∨ q = '\x22' then
        s.takeWhile (· ≠ q)::argvizeLoop n ((s.dropWhile (· ≠ q)).drop 2)
      else (q::s.takeWhile (' ' < ·))::argvizeLoop n ((s.dropWhile (' ' < ·)).drop 1)

def argvize (s : List Char) : List (List Char) := argvizeLoop MAX_AC s

def dbgTurn (env : BptTable.Env) (junk : Junk c) (rxstr : List Char) (s : State c) : Served c :=
  doReq env junk (argvize rxstr) s

def wideConfig : Config := ⟨true,true,true,true⟩
def zeroJunk : Junk c := ⟨0,0,0, fun _ => []⟩
def zeroState : State c := ⟨fun _ => 0, fun _ => 0,BptTable.Table.start BptTable.r4k⟩

end Pmon.DebugRequest
