import Pmon.FastLoad
import Pmon.LoadRange
import Pmon.Rsa

/-!
# The load command

`load` reads its options and hands the lines to the record loader chosen by the first record. The
lines are an input.
-/

namespace Pmon.LoadCmd
open LoadFn FastLoad
open LoadRange (dlInitialise)

inductive Opt where
  | s
  | b
  | e
  /-- `-a`: do not add the offset to symbols. -/
  | a
  | t
  | i
  | f
  | v
  | o (optarg : List Char)
  | line (optarg : List Char)
  | other
  deriving DecidableEq

structure Options where
  keepSyms : Bool := false
  flash : Bool := false
  flags : FastFlags := {}

def getRsa {w : ℕ} (env : Rsa.Env w) (p : List Char) : Option ℕ :=
  (Rsa.getRsaReg env (env.uninit p) p).map fun v => v.toNat%2^32

variable {σ : Type}

def options {w : ℕ} (env : Rsa.Env w) :
    List Opt → Options → FastLoader σ → Option (Options × FastLoader σ)
  | [], opts, l => some (opts,l)
  | .s::rest, opts, l => options env rest {opts with keepSyms := true} l
  | .b::rest, opts, l => options env rest opts l
  | .e::rest, opts, l => options env rest opts l
  | .a::rest, opts, l =>
    options env rest {opts with flags := {opts.flags with absSyms := true}} l
  | .t::rest, opts, l =>
    options env rest {opts with flags := {opts.flags with top := true}} l
  | .i::rest, opts, l =>
    options env rest {opts with flags := {opts.flags with ignoreSum := true}} l
  | .f::rest, opts, l => options env rest {opts with flash := true} l
  | .v::rest, opts, l =>
    options env rest {opts with flags := {opts.flags with verbose := true}} l
  | .o optarg::rest, opts, l =>
    match getRsa env optarg with
    | none => none
    | some v => options env rest opts {l with offset := v}
  | .line _::rest, opts, l => options env rest opts l
  | .other::_, _, _ => none

structure Board (σ : Type) where
  monitor : FastMonitor σ
  clrsyms : σ → σ
  flashbuf : ℕ
  flashsize : ℕ
  etxack : Bool

inductive Dltype where
  | s3
  | fast

structure Step (σ : Type) where
  dltype : Dltype
  flags : FastFlags
  recbuf : List Char
  before : FastLoader σ
  code : DlCode
  after : FastLoader σ

def isTail (c : Char) : Bool := c = ' ' ∨ ('\x09' ≤ c ∧ c ≤ '\x0d') ∨ c = '\x03'
def trim (line : List Char) : List Char := (line.reverse.dropWhile isTail).reverse
def recordBuffer (recbuf : List Char) : Buffer := fun i => UInt8.ofNat (recbuf.getD i '\x00').toNat

def loadRecord (M : FastMonitor σ) (flags : FastFlags) (dltype : Dltype) (recbuf : List Char)
    (s : FastLoader σ) : Step σ :=
  match dltype with
  | .s3 =>
    let (code,_,l) := dlS3load M.toMonitor flags.toFlags s.toLoader recbuf
    ⟨.s3,flags,recbuf,s,code,{s with toLoader := l}⟩
  | .fast =>
    let (code,_,s') := dlFastload M flags (recordBuffer recbuf) recbuf.length s
    ⟨.fast,flags,recbuf,s,code,s'⟩

def dltypeOf (recbuf : List Char) : Option Dltype := match recbuf[0]? with
  | some '/' => some .fast
  | some 'S' => some .s3
  | _ => none

def download (B : Board σ) (flags : FastFlags) :
    List (List Char) → Option Dltype → FastLoader σ → List (Step σ)
  | [], _, _ => []
  | line::lines, dltype, s =>
    let recbuf := trim line
    if recbuf=[] then download B flags lines dltype s
    else
      match dltype.or (dltypeOf recbuf) with
      -- an unknown record type ends the download
      | none => []
      | some dltype =>
        let step := loadRecord B.monitor flags dltype recbuf s
        if step.code = .done then [step]
        else if step.code ≠ .cont ∧ B.etxack then [step]
        else step::download B flags lines (some dltype) step.after

def load {w : ℕ} (env : Rsa.Env w) (B : Board σ) (opts : List Opt) (lines : List (List Char))
    (s : FastLoader σ) : List (Step σ) :=
  match options env opts {} s with
  | none => []
  | some (o,s) =>
    if o.flash then
      if B.flashsize=0 then []
      else
        let flags := {o.flags with noSyms := true}
        let l := dlInitialise B.clrsyms B.flashbuf false s.toLoader
        download B flags lines none {s with toLoader := l}
    else
      let l := dlInitialise B.clrsyms 0 o.keepSyms s.toLoader
      download B o.flags lines none {s with toLoader := l}

end Pmon.LoadCmd
