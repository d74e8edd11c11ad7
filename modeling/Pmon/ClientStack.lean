import Pmon.SetEnvTable

/-!
# The stack of a client program

`initstack` puts two vectors of pointers and their strings below the stack pointer. `envsize` clears
the length of the arguments.
-/

namespace Pmon.ClientStack
open ByteStore EnvEntry SetEnv

def wrap (n : ℕ) : ℕ := n%2^32

def wordBytes (bigEndian : Bool) (w : ℕ) : List UInt8 :=
  let bs := [UInt8.ofNat w, UInt8.ofNat (w/2^8), UInt8.ofNat (w/2^16),
    UInt8.ofNat (w/2^24)]
  if bigEndian then bs.reverse else bs

def store (p : ℕ) (bs : List UInt8) : List (ℕ × UInt8) :=
  (writesAt p bs).map fun w => (wrap w.1,w.2)

def storeWord (bigEndian : Bool) (vsp w : ℕ) : Option (List (ℕ × UInt8)) :=
  if vsp%4=0 then some (store vsp (wordBytes bigEndian w)) else none

def buildArgs (bigEndian : Bool) : List CString → ℕ → ℕ → Option (List (ℕ × UInt8) × ℕ × ℕ)
  | [], vsp, ssp => some ([],vsp,ssp)
  | a::av, vsp, ssp =>
    (storeWord bigEndian vsp ssp).bind fun ws =>
      (buildArgs bigEndian av (wrap (vsp+4)) (wrap (ssp+(a.bytes.length+1)))).map fun r =>
        (ws++store ssp (a.bytes++[0])++r.1,r.2)

def envString (ep : Envpair) : List UInt8 := ep.name.bytes++eqSign::CPtr.bytes ep.value

def envbuild (bigEndian : Bool) : Envvar → ℕ → ℕ → Option (List (ℕ × UInt8))
  | [], vsp, _ => storeWord bigEndian vsp 0
  | none::tbl, vsp, ssp => envbuild bigEndian tbl vsp ssp
  | some ep::tbl, vsp, ssp =>
    (storeWord bigEndian vsp ssp).bind fun ws =>
      (envbuild bigEndian tbl (wrap (vsp+4)) (wrap (ssp+((envString ep).length+1)))).map
        fun r => ws++store ssp (envString ep++[0])++r

def envsizeStep : ℕ × ℕ → Option Envpair → ℕ × ℕ
  | (ec,slen), none => (ec,slen)
  | (ec,slen), some ⟨name,some value⟩ =>
    (ec+1,wrap (slen+(name.bytes.length+1+value.bytes.length+1)))
  | (ec,slen), some ⟨name,none⟩ => (ec+1,wrap (slen+(name.bytes.length+1+1)))

/-- `envsize`: the number of variables and the length of their strings; `slen` is overwritten. -/
def envsize (tbl : Envvar) : ℕ × ℕ := tbl.foldl envsizeStep (0,0)
def argsize (av : List CString) : ℕ := av.foldl (fun slen a => wrap (slen+(a.bytes.length+1))) 0
def veclen (ac ec : ℕ) : ℕ := wrap ((ac+ec+2)*4)
def stacklen (vlen slen : ℕ) : ℕ := wrap (vlen+wrap (slen+3)/4*4+7)/8*8

structure Frame where
  a0 : ℕ
  a1 : ℕ
  a2 : ℕ
  sp : ℕ
  writes : List (ℕ × UInt8)

def initstack (bigEndian : Bool) (tbl : Envvar) (av : List CString) (addenv : Bool)
    (top : BitVec 32) : Option Frame :=
  let ac := av.length
  let slen := argsize av
  let (ec,slen) := if addenv then envsize tbl else (0,slen)
  let vlen := veclen ac ec
  let nsp := wrap (top.toNat+2^32-stacklen vlen slen)
  (buildArgs bigEndian av nsp (wrap (nsp+vlen))).bind fun (args,vsp,ssp) =>
    (storeWord bigEndian vsp 0).bind fun null =>
      (if ec≠0 then envbuild bigEndian tbl (wrap (vsp+4)) ssp
        else storeWord bigEndian (wrap (vsp+4)) 0).map fun env =>
        { a0 := ac, a1 := nsp, a2 := wrap (nsp+(ac+1)*4), sp := wrap (nsp+2^32-32)
          writes := args++null++env }

def Apart (r r' : ℕ × ℕ) : Prop := r.1+r.2≤r'.1 ∨ r'.1+r'.2≤r.1

instance (r r' : ℕ × ℕ) : Decidable (Apart r r') :=
  inferInstanceAs (Decidable (r.1+r.2≤r'.1 ∨ r'.1+r'.2≤r.1))

/-- These pointers with a null pointer behind them, and a terminated string at each. -/
structure Vector (bigEndian : Bool) (m : ℕ → UInt8) (v : ℕ) (ps : List ℕ)
    (strs : List (List UInt8)) : Prop where
  pointers : Holds m v ((ps++[0]).flatMap (wordBytes bigEndian))
  strings : List.Forall₂ (fun p str => Holds m p (str++[0])) ps strs

def regions (ps : List ℕ) (strs : List (List UInt8)) : List (ℕ × ℕ) :=
  List.zipWith (fun p str => (p,str.length+1)) ps strs

structure Prepared (bigEndian : Bool) (m : ℕ → UInt8) (av : List CString) (tbl : Envvar)
    (top : ℕ) (f : Frame) : Prop where
  inside : ∀ w∈f.writes, f.a1≤w.1 ∧ w.1<top
  vectors : ∃ ps es, Vector bigEndian (applyWrites f.writes m) f.a1 ps (av.map CString.bytes) ∧
    Vector bigEndian (applyWrites f.writes m) f.a2 es ((slots tbl).map envString) ∧
    ((f.a1,4*(ps.length+1))::(f.a2,4*(es.length+1)) ::
      (regions ps (av.map CString.bytes)++regions es ((slots tbl).map envString))).Pairwise Apart

end Pmon.ClientStack
