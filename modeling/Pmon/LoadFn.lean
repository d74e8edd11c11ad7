import Pmon.HexText

/-!
# The record loader

`dl_checkloadaddr` checks the range of a data record before its first byte is stored; the checksum
is compared afterwards.
-/

namespace Pmon.LoadFn

inductive DlCode where
  | cont
  | done
  | badChar
  | badLen
  | badType
  | badSum
  | noSymSpace
  | badAddr
  | ioErr
  | minusOne
  deriving DecidableEq

structure Flags where
  onlySyms : Bool := false
  ignoreSum : Bool := false
  verbose : Bool := false
  /-- `NFLAG`: do not load symbols. -/
  noSyms : Bool := false
  /-- `AFLAG`: do not add the offset to symbols. -/
  absSyms : Bool := false

structure Monitor (σ : Type) where
  ftext : ℕ
  etext : ℕ
  fdata : ℕ
  heaptop : ℕ
  memorysize : ℕ
  /-- Enter a symbol; `none` when there is no space. -/
  newsym : σ → List Char → ℕ → Option σ

structure Loader (σ : Type) where
  mem : ℕ → UInt8
  entry : ℕ
  offset : ℕ
  minaddr : ℕ
  maxaddr : ℕ
  chksum : ℤ
  syms : σ
  console : List String

def u32 (z : ℤ) : ℕ := (z%2^32).toNat

theorem u32_natCast {n : ℕ} (h : n<2^32) : u32 n=n := by
  have hmod : (n : ℤ)%2^32=n := Int.emod_eq_of_lt (by omega) (by exact_mod_cast h)
  rw [u32,hmod,Int.toNat_natCast]

def notByte (z : ℤ) : ℕ := ((-z-1)%256).toNat

theorem notByte_congr {y z : ℤ} (h : y%256=z%256) : notByte y=notByte z := by
  have hlow : (-y-1)%256=(-z-1)%256 := by omega
  rw [notByte,notByte,hlow]

theorem notByte_lt (z : ℤ) : notByte z<256 := by
  have hlow : (-z-1)%256<256 := Int.emod_lt_of_pos _ (by decide)
  rw [notByte]
  omega

def overlap (as ae bs be : ℕ) : Bool := decide (bs<ae) && decide (as<be)
def K0BASE : ℕ := 0x80000000
def K0SIZE : ℕ := 0x20000000
def K2BASE : ℕ := 0xc0000000
def k0ToPhys (va : ℕ) : ℕ := va%K0SIZE

inductive Refusal where
  | mappable
  | promSpace
  | monitorCode
  | monitorData
  | outsideMemory

def Refusal.text : Refusal → String
  | mappable => "\nattempt to load into mappable region"
  | promSpace => "\nattempt to load into PROM space"
  | monitorCode => "\nattempt to overwrite monitor code"
  | monitorData => "\nattempt to overwrite monitor data"
  | outsideMemory => "\nattempt to load outside of memory"

variable {σ : Type}

def Monitor.refusal (M : Monitor σ) (addr : ℕ) (size : ℤ) : Option Refusal :=
  let start := k0ToPhys addr
  let finish := u32 (start+size)
  if addr<K0BASE ∨ K2BASE<u32 (addr+size) then some .mappable
  else if overlap start finish 0x1fc00000 0x20000000 then some .promSpace
  else if overlap start finish (k0ToPhys M.ftext) (k0ToPhys M.etext) then some .monitorCode
  else if overlap start finish (k0ToPhys M.fdata) (k0ToPhys M.heaptop) then some .monitorData
  else if overlap start finish M.memorysize K0SIZE then some .outsideMemory
  else none

def dlCheckloadaddr (M : Monitor σ) (s : Loader σ) (addr : ℕ) (size : ℤ) (verbose : Bool) :
    Bool × Loader σ :=
  match M.refusal addr size with
  | some r => (false, if verbose then {s with console := s.console++[r.text]} else s)
  | none =>
    let finish := u32 (addr+size)
    (true,{ s with
      minaddr := if addr<s.minaddr then addr else s.minaddr
      maxaddr := if s.maxaddr<finish then finish else s.maxaddr })

def hexDigit (c : Char) : Option ℕ :=
  if '0' ≤ c ∧ c ≤ '9' then some (c.toNat - '0'.toNat)
  else if 'a' ≤ c ∧ c ≤ 'f' then some (c.toNat - 'a'.toNat+10)
  else if 'A' ≤ c ∧ c ≤ 'F' then some (c.toNat - 'A'.toNat+10)
  else none

def gethexLoop : ℕ → ℕ → List Char → Option ℕ
  | 0, v, _ => some v
  | _+1, _, [] => none
  | n+1, v, c::p =>
    -- the shift leaves the low four bits clear, so the source's `|=` is a sum
    match hexDigit c with
    | some d => gethexLoop n (v*16%2^32+d) p
    | none => none

def gethex (p : List Char) (n : ℕ) : Option ℕ := gethexLoop n 0 p

/-- The address bytes of a data record; only the last one reports a bad digit as `-1`. -/
def addrBytes : ℕ → List Char → ℕ → ℤ → ℤ × Except DlCode ℕ
  | 0, _, addr, sum => (sum,.ok addr)
  | n+1, p, addr, sum =>
    match gethex p 2 with
    | none => (sum,.error (if n=0 then .minusOne else .badChar))
    | some v => addrBytes n (p.drop 2) ((addr*256+v)%2^32) (sum+v)

def storeBytes : ℕ → List Char → Loader σ → ℕ → Loader σ × Option (List Char)
  | 0, p, s, _ => (s,some p)
  | n+1, p, s, addr =>
    match gethex p 2 with
    | none => (s,none)
    | some v =>
      storeBytes n (p.drop 2)
        {s with mem := Function.update s.mem addr (UInt8.ofNat v), chksum := s.chksum+v}
        ((addr+1)%2^32)

def addrWidth : Option Char → Option ℕ
  | some '3' => some 4
  | some '2' => some 3
  | some '1' => some 2
  | _ => none

def checkSum (flags : Flags) (len : ℕ) (s : Loader σ) (p : List Char) : DlCode × ℕ × Loader σ :=
  match gethex p 2 with
  | none => (.badChar,0,s)
  | some cs =>
    if flags.ignoreSum=false ∧ cs≠notByte s.chksum then (.badSum,0,s) else (.cont,len,s)

def loadData (M : Monitor σ) (flags : Flags) (s : Loader σ) (addr : ℕ) (len : ℤ)
    (p : List Char) : DlCode × ℕ × Loader σ :=
  match dlCheckloadaddr M s addr len flags.verbose with
  | (false,s) => (.badAddr,0,s)
  | (true,s) =>
    match storeBytes len.toNat p s addr with
    | (s,none) => (.badChar,0,s)
    | (s,some p) => checkSum flags len.toNat s p

def s3Datarec (M : Monitor σ) (flags : Flags) (s : Loader σ) (p : List Char) :
    DlCode × ℕ × Loader σ :=
  let s := {s with chksum := 0}
  if flags.onlySyms then (.cont,0,s)
  else
    match gethex (p.drop 2) 2 with
    | none => (.badChar,0,s)
    | some len =>
      let s := {s with chksum := s.chksum+len}
      if len*2≠p.length-4 then (.badLen,0,s)
      else
        match addrWidth p[1]? with
        | none => (.badType,0,s)
        | some n =>
          match addrBytes n (p.drop 4) 0 s.chksum with
          | (sum,.error e) => (e,0,{s with chksum := sum})
          | (sum,.ok addr) =>
            loadData M flags {s with chksum := sum} ((addr+s.offset)%2^32)
              (len-(n+1)) (p.drop (4+2*n))

def symLoop (M : Monitor σ) (flags : Flags) :
    ℕ → List Char → ℤ → Loader σ → Loader σ × Except DlCode (List Char)
  | 0, p, _, s => (s,.ok p)
  | fuel+1, p, len, s =>
    if 2<len then
      match gethex p 8 with
      | none => (s,.error .badChar)
      | some adr =>
        let p := p.drop 8
        if ',' ∈ p then
          let name := p.takeWhile (· ≠ ',')
          let value := if flags.absSyms then adr else (adr+s.offset)%2^32
          match M.newsym s.syms name value with
          | none => (s,.error .noSymSpace)
          | some syms =>
            symLoop M flags fuel (p.drop (name.length+1)) (len-8-name.length)
              {s with syms := syms}
        else (s,.error .badChar)
    else (s,.ok p)

def s3Dlsym (M : Monitor σ) (flags : Flags) (s : Loader σ) (p : List Char) : DlCode × Loader σ :=
  if flags.noSyms then (.cont,s)
  else
    match gethex (p.drop 2) 2 with
    | none => (.badChar,s)
    | some len =>
      -- each round takes nine characters or more of the record
      match symLoop M flags p.length (p.drop 4) len s with
      | (s,.error e) => (e,s)
      | (s,.ok p) =>
        match gethex p 2 with
        | none => (.badChar,s)
        | some _ => (.cont,s)

def s3Endrec (s : Loader σ) (p : List Char) : DlCode × Loader σ :=
  let kind := (p[1]?.getD '\x00').toNat
  match gethex (p.drop 4) (('9'.toNat-kind+2)*2) with
  | some adr => (.done,{s with entry := (adr+s.offset)%2^32})
  | none => (.done,{s with entry := 0xdeadbeef})

def dlS3load (M : Monitor σ) (flags : Flags) (s : Loader σ) (recbuf : List Char) :
    DlCode × ℕ × Loader σ :=
  if recbuf[0]?≠some 'S' then (.badChar,0,s)
  else
    match recbuf[1]? with
    | none => (.badType,0,s)
    | some k =>
      if k = '0' then (.cont,0,s)
      else if '1' ≤ k ∧ k ≤ '3' then s3Datarec M flags s recbuf
      else if k = '4' then
        let (code,s) := s3Dlsym M flags s recbuf
        (code,0,s)
      else if '7' ≤ k ∧ k ≤ '9' then
        let (code,s) := s3Endrec s recbuf
        (code,0,s)
      else (.badType,0,s)

def loadRecords (M : Monitor σ) (flags : Flags) :
    Loader σ → List (List Char) → List (DlCode × ℕ) × Loader σ
  | s, [] => ([],s)
  | s, r::rs =>
    let (code,plen,s) := dlS3load M flags s r
    let (outs,s) := loadRecords M flags s rs
    ((code,plen)::outs,s)

end Pmon.LoadFn
