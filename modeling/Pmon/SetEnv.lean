import Pmon.EnvStore

/-!
# The environment commands

A table in memory ignores case, a non-volatile store does not. A standard variable with its default
value is kept in memory only.
-/

namespace Pmon.SetEnv
open EnvEntry

def text (s : String) : CString := cstring (s.toList.map fun c => UInt8.ofNat c.toNat)
def toupper (c : UInt8) : UInt8 := if 0x61≤c ∧ c≤0x7a then c-0x20 else c

def striequ : List UInt8 → List UInt8 → Bool
  | [], t => t.isEmpty
  | _::_, [] => false
  | a::s, b::t => toupper a == toupper b && striequ s t

def isspace (c : UInt8) : Bool := c == 0x20 || decide (0x09≤c ∧ c≤0x0d)

def getword (p : List UInt8) : Option (List UInt8 × List UInt8) :=
  let a := p.dropWhile isspace
  if a=[] then none
  else some (a.takeWhile fun c => !isspace c,a.dropWhile fun c => !isspace c)

def star : UInt8 := 0x2a
def query : UInt8 := 0x3f

def strposnScan (q : List UInt8) : List UInt8 → Option (List UInt8)
  | [] => none
  | c::p => if q.isPrefixOf (c::p) then some (c::p) else strposnScan q p

/-- `strposn`: what is left of `p` from the first `q` on; the empty string is found at the end. -/
def strposn (p q : List UInt8) : Option (List UInt8) := if q=[] then some [] else strposnScan q p

def strpatLoop : ℕ → List UInt8 → List UInt8 → Bool
  | 0, _, _ => false
  | fuel+1, c::p, d :: pat =>
    if d=star then
      let tmp := pat.takeWhile fun t => t != star && t != query
      match strposn (c::p) tmp with
      | none => false
      | some t => strpatLoop fuel (t.drop tmp.length) (pat.drop tmp.length)
    else if d=query ∨ d=c then strpatLoop fuel p pat
    else false
  | _+1, [], [] => true
  | _+1, [], pat => pat == [star]
  | _+1, _::_, [] => false

def strpat (s pat : List UInt8) : Bool :=
  strpatLoop (pat.length+3) (0xde::(s++[0xa4])) (0xde::(pat++[0xa4]))

inductive Chgfunc where
  | chgMoresz
  | chgValidpc
  | chgHeaptop

structure Stdenv where
  name : CString
  init : CString
  values : CPtr
  chgfunc : Option Chgfunc

structure Config where
  r4000 : Bool
  sable : Bool
  inet : Bool
  dhcp : Bool
  floatingpt : Bool
  clientpc : CString
  /-- What `sbd_boardenv` sets unless it is set already. -/
  boardenv : List (CString × CString)

def row (name init : String) : Stdenv := ⟨text name,text init,none,none⟩
def choice (name init values : String) : Stdenv := ⟨text name,text init,some (text values),none⟩

def stdenvHead (cfg : Config) : List Stdenv := [row "brkcmd" "l -r @epc 1",
    choice "datasz" "-b" (if cfg.r4000 then "-b -h -w -d" else "-b -h -w"),
    choice "dlecho" "off" "off on lfeed"] ++
  (if cfg.sable then
    [choice "dlproto" "none" "none XonXoff EtxAck",row "hostport" "tty0"]
  else
    [choice "dlproto" "EtxAck" "none XonXoff EtxAck"] ++
    (if cfg.inet then
      choice "bootp" "no" "no sec pri save" ::
        (if cfg.dhcp then [choice "dhcp" "no" "no sec pri save"] else [])
    else []) ++
    [row "hostport" "tty1"]) ++
  [choice "inalpha" "hex" "hex symbol",choice "inbase" "16" "auto 8 10 16",
    ⟨text "moresz",text "10",none,some .chgMoresz⟩,row "prompt" "PMON> ",
    choice "regstyle" "sw" "hw sw"] ++
  (if cfg.r4000 then [choice "regsize" "32" "32 64"] else []) ++
  [choice "rptcmd" "trace" "off on trace",row "trabort" "^K",choice "ulcr" "cr" "cr lf crlf",
    row "uleof" "%",⟨text "validpc",text "_ftext etext",none,some .chgValidpc⟩]

def stdenvtab (cfg : Config) : List Stdenv :=
  stdenvHead cfg++⟨text "heaptop",cfg.clientpc,none,some .chgHeaptop⟩ ::
    choice "showsym" "yes" "no yes" ::
    (if cfg.floatingpt then
      [choice "fpfmt" "both" "both double single none",choice "fpdis" "yes" "no yes"]
    else [])

def matchvalLoop (value : List UInt8) : ℕ → ℕ → List UInt8 → Option ℕ
  | 0, _, _ => none
  | fuel+1, j, t =>
    match getword t with
    | none => none
    | some (wrd,t) => if striequ wrd value then some j else matchvalLoop value fuel (j+1) t

def matchval (values value : CString) : Option ℕ :=
  matchvalLoop value.bytes (values.bytes.length+1) 0 values.bytes

def getstdenv (cfg : Config) (name : CString) : Option Stdenv :=
  (stdenvtab cfg).find? fun sp => striequ name.bytes sp.name.bytes

structure Envpair where
  name : CString
  value : CPtr
  deriving DecidableEq

def nvar : ℕ := 64

/-- `envvar`; an empty slot has no name. -/
abbrev Envvar := List (Option Envpair)
abbrev Answers := Chgfunc → CString → CPtr → Bool

/-- The loop of `_setenv`: the slot with the name, and the first empty slot before it. -/
def scanSlots (name : CString) : Envvar → ℕ → Option ℕ → Option ℕ × Option ℕ
  | [], _, bp => (none,bp)
  | none::rest, i, bp => scanSlots name rest (i+1) (bp.or (some i))
  | some ep::rest, i, bp =>
    if striequ name.bytes ep.name.bytes then (some i,bp) else scanSlots name rest (i+1) bp

def refuses (cfg : Config) (chg : Answers) (envinited : Bool) (name : CString) (value : CPtr) :
    Bool :=
  match getstdenv cfg name with
  | none => false
  | some sp =>
    sp.chgfunc.any (fun f => !chg f name value) ||
      (envinited && sp.values.any fun vs => (value.bind (matchval vs)).isNone)

def _setenv (cfg : Config) (chg : Answers) (envinited : Bool) (tbl : Envvar) (name : CString)
    (value : CPtr) : Envvar × Bool :=
  if refuses cfg chg envinited name value then (tbl,false)
  else
    match scanSlots name tbl 0 none with
    | (some i,_) =>
      -- the name of the slot stays as it is spelled there
      (tbl.modify i (Option.map fun ep => {ep with value := value}),true)
    | (none,some i) => (tbl.set i (some ⟨name,value⟩),true)
    | (none,none) => (tbl,false)

def _getenv (tbl : Envvar) (name : CString) : CPtr := (tbl.findSome? fun
    | none => none
    | some ep => if striequ name.bytes ep.name.bytes then some ep else none).map
      fun ep => ep.value.getD CString.empty

/-- The table of variables over a board's store. -/
structure Env (σ : Type) where
  envvar : Envvar
  envinited : Bool
  nv : σ

section
variable {σ : Type} (st : EnvStore σ) (cfg : Config)

def getenv (s : Env σ) (name : CString) : CPtr :=
  if s.envinited then _getenv s.envvar name else (getstdenv cfg name).map Stdenv.init

def setenv (chg : Answers) (s : Env σ) (name : CString) (value : CPtr) : Env σ × Bool :=
  match _setenv cfg chg s.envinited s.envvar name value with
  | (tbl,false) => ({s with envvar := tbl},false)
  | (tbl,true) =>
    if (getstdenv cfg name).any fun sp => value.any fun v => striequ v.bytes sp.init.bytes then
      ({s with envvar := tbl, nv := st.unsetenv s.nv (some name)},true)
    else
      match st.setenv s.nv (some name) value true with
      | (nv,.ok _) => ({s with envvar := tbl, nv := nv},true)
      | (nv,.error _) => ({s with envvar := tbl, nv := nv},false)

def unsetenvLoop (chg : Answers) (pat : CString) : ℕ → ℕ → Env σ → ℕ → Env σ × Bool
  | 0, _, s, ndone => (s,decide (0<ndone))
  | k+1, i, s, ndone =>
    match s.envvar[i]? with
    | some (some ep) =>
      if strpat ep.name.bytes pat.bytes then
        match getstdenv cfg ep.name with
        | some sp =>
          -- a standard variable gets its initial value
          match setenv st cfg chg s sp.name (some sp.init) with
          | (s,true) => unsetenvLoop chg pat k (i+1) s (ndone+1)
          | (s,false) => (s,false)
        | none =>
          let s := { s with
            nv := st.unsetenv s.nv (some ep.name), envvar := s.envvar.set i none }
          unsetenvLoop chg pat k (i+1) s (ndone+1)
      else unsetenvLoop chg pat k (i+1) s ndone
    | _ => unsetenvLoop chg pat k (i+1) s ndone

def unsetenv (chg : Answers) (s : Env σ) (pat : CString) : Env σ × Bool :=
  unsetenvLoop st cfg chg pat nvar 0 s 0

def assign (chg : Answers) (tbl : Envvar) (p : CString × CString) : Envvar :=
  (_setenv cfg chg false tbl p.1 (some p.2)).1

def assignDefault (chg : Answers) (tbl : Envvar) (p : CString × CString) : Envvar :=
  if (_getenv tbl p.1).isSome then tbl else assign cfg chg tbl p

def defaults : List (CString × CString) :=
  cfg.boardenv++(stdenvtab cfg).map fun sp => (sp.name,sp.init)

def envinit (chg : Answers) (suppress : Bool) (nv : σ) : Env σ :=
  let tbl : Envvar := List.replicate nvar none
  let (nv,stored) := if suppress then (nv,[]) else st.mapenv nv
  let tbl := stored.foldl (assign cfg chg) tbl
  {envvar := (defaults cfg).foldl (assignDefault cfg chg) tbl, envinited := true, nv := nv}
end
end Pmon.SetEnv
