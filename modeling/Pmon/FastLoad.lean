import Pmon.LoadFn

/-!
# The fast record loader

Groups of four characters: three bytes in base 64, or a command that starts with a slash and may run
on over later groups.
-/

namespace Pmon.FastLoad
open LoadFn

abbrev Buffer : Type := ℕ → UInt8

def etob (b : UInt8) : ℕ :=
  let c := b.toNat%128
  if c = ','.toNat then 62
  else if c = '.'.toNat then 63
  else if '0'.toNat≤c ∧ c ≤ '9'.toNat then c - '0'.toNat+52
  else if 'A'.toNat≤c ∧ c ≤ 'Z'.toNat then c - 'A'.toNat
  else if 'a'.toNat≤c ∧ c ≤ 'z'.toNat then c - 'a'.toNat+26
  else 64

def getb64Loop : ℕ → List UInt8 → Option ℕ
  | v, [] => some v
  | v, c::p => if etob c=64 then none else getb64Loop (v*64%2^32+etob c) p

def getb64 (p : List UInt8) : Option ℕ := getb64Loop 0 p

def sum12 (n v : ℕ) : ℕ := match n with
  | 6 => v/2^24%2^12+v/2^12%2^12+v%2^12
  | 4 => v/2^12%2^12+v%2^12
  | 2 => v%2^12
  | _ => 0

structure Group where
  c0 : UInt8
  c1 : UInt8
  c2 : UInt8
  c3 : UInt8

def Group.chars (g : Group) : List UInt8 := [g.c0,g.c1,g.c2,g.c3]

def groups (recbuf : Buffer) : ℕ → ℕ → List Group
  | _, 0 => []
  | p, n+1 => ⟨recbuf p,recbuf (p+1),recbuf (p+2),recbuf (p+3)⟩::groups recbuf (p+4) n

def slash : UInt8 := 47
def comma : UInt8 := 44

inductive Item where
  | clear
  | compare (zcnt : ℕ)
  | zero (zcnt : ℕ)
  | byte (bdat : ℕ)
  | address (addr : ℕ)
  | finish
  | symbol (name : List UInt8)
  | openSymbol (name : List UInt8)
  | data (bdat : ℕ)
  | bad (code : DlCode)
  deriving DecidableEq

/-- The characters of a name and the groups behind the comma; without a comma there are none. -/
def readName : List Group → List UInt8 → List UInt8 × Option (List Group)
  | [], cur => if comma∈cur then (cur.takeWhile (· ≠ comma),some []) else (cur,none)
  | g::gs, cur =>
    if comma∈cur then (cur.takeWhile (· ≠ comma),some (g::gs))
    else
      let (name,rest) := readName gs g.chars
      (cur++name,rest)

def number (make : ℕ → Item) (p : List UInt8) : Item := match getb64 p with
  | some v => make v
  | none => .bad .badChar

def fetch (g : Group) (gs : List Group) : Item × List Group :=
  if g.c0=slash then
    match Char.ofNat g.c1.toNat with
    | 'K' => (.clear,gs)
    | 'C' => (number .compare [g.c2,g.c3],gs)
    | 'Z' => (number .zero [g.c2,g.c3],gs)
    | 'B' => (number .byte [g.c2,g.c3],gs)
    | 'A' =>
      match gs with
      | [] => (.bad .badLen,[])
      | h::gs => (number .address (g.c2::g.c3::h.chars),gs)
    | 'E' => (.finish,gs)
    | 'S' =>
      match readName gs [g.c2,g.c3] with
      | (name,some gs) => (.symbol name,gs)
      | (name,none) => (.openSymbol name,[])
    | _ => (.bad .badType,gs)
  else
    match getb64 g.chars with
    | some bdat => (.data bdat,gs)
    | none => (.bad .badLen,gs)

structure FastFlags extends Flags where
  top : Bool := false

structure FastMonitor (σ : Type) extends Monitor σ where
  clienttos : ℕ → ℕ

structure FastLoader (σ : Type) extends Loader σ where
  nextaddr : ℕ
  memorysize : ℕ
  sp : ℕ
  a3 : ℕ
  newsyms : List (List Char × ℕ)
  named : List ℕ

variable {σ : Type} {code : DlCode}

def storeNext : List UInt8 → FastLoader σ → FastLoader σ
  | [], s => s
  | b::bs, s =>
    storeNext bs { s with
      mem := Function.update s.mem s.nextaddr b
      nextaddr := (s.nextaddr+1)%2^32 }

def FastLoader.pass (n : ℕ) (s : FastLoader σ) : FastLoader σ :=
  {s with nextaddr := (s.nextaddr+n)%2^32}

def FastLoader.addSum (n : ℕ) (s : FastLoader σ) : FastLoader σ := {s with chksum := s.chksum+n}

inductive Exec (σ : Type) where
  | next (len : ℕ) (status : DlCode) (s : FastLoader σ)
  | leave (len : ℕ) (status : DlCode) (s : FastLoader σ)
  | fail (code : DlCode) (s : FastLoader σ)

def fill (M : FastMonitor σ) (flags : FastFlags) (bs : List UInt8) (len : ℕ) (status : DlCode)
    (s : FastLoader σ) : Exec σ :=
  match dlCheckloadaddr {M.toMonitor with memorysize := s.memorysize} s.toLoader s.nextaddr
      bs.length flags.verbose with
  | (false,l) => .fail .badAddr {s with toLoader := l}
  | (true,l) => .next (len+bs.length) status (storeNext bs {s with toLoader := l})

def cname (name : List UInt8) : List Char :=
  (name.takeWhile (· ≠ 0)).map fun b => Char.ofNat b.toNat

def exec (M : FastMonitor σ) (flags : FastFlags) (len : ℕ) (status : DlCode) (s : FastLoader σ) :
    Item → Exec σ
  | .clear => .next len status {s with chksum := 0}
  | .compare zcnt =>
    let chksum := s.chksum%2^12
    if flags.ignoreSum=false ∧ (zcnt : ℤ)≠chksum then .fail .badSum {s with chksum := chksum}
    else .next len status {s with chksum := 0}
  | .zero zcnt =>
    let s := s.addSum (sum12 2 zcnt)
    if flags.onlySyms then .next len status (s.pass (zcnt*3))
    else fill M flags (List.replicate (zcnt*3) 0) len status s
  | .byte bdat =>
    let s := s.addSum (sum12 2 bdat)
    if flags.onlySyms then .next len status (s.pass 1)
    else fill M flags [UInt8.ofNat bdat] len status s
  | .address addr =>
    let s := s.addSum (sum12 6 addr)
    if flags.top ∧ s.a3=0 then
      let memorysize := u32 (s.memorysize-addr)
      let nextaddr := (memorysize+K0BASE)%2^32
      .next len status { s with
        memorysize := memorysize
        sp := M.clienttos memorysize
        nextaddr := nextaddr
        a3 := nextaddr }
    else .next len status {s with nextaddr := (addr+s.offset)%2^32}
  | .finish => .next len .done {s with entry := s.nextaddr}
  | .symbol name =>
    let s := {s with named := s.named++[name.length+1]}
    if flags.noSyms then .next len status s
    else
      let s := {s with newsyms := s.newsyms++[(cname name,s.nextaddr)]}
      match M.newsym s.syms (cname name) s.nextaddr with
      | none => .fail .noSymSpace s
      | some syms => .next len status {s with syms := syms}
  | .openSymbol name => .fail .badLen {s with named := s.named++[name.length]}
  | .data bdat =>
    let s := s.addSum (sum12 4 bdat)
    -- the `break` here is not in the switch: it leaves the loop
    if flags.onlySyms then .leave len status (s.pass 3)
    else fill M flags [UInt8.ofNat (bdat/2^16), UInt8.ofNat (bdat/2^8), UInt8.ofNat bdat]
      len status s
  | .bad code => .fail code s

def fastLoop (M : FastMonitor σ) (flags : FastFlags) :
    ℕ → List Group → ℕ → DlCode → FastLoader σ → DlCode × ℕ × FastLoader σ
  | _, [], len, status, s => (status,len,s)
  | 0, _::_, len, status, s => (status,len,s)
  | fuel+1, g::gs, len, status, s =>
    let (item,gs) := fetch g gs
    match exec M flags len status s item with
    | .next len status s => fastLoop M flags fuel gs len status s
    | .leave len status s => (status,len,s)
    | .fail code s => (code,0,s)

def dlFastload (M : FastMonitor σ) (flags : FastFlags) (recbuf : Buffer) (recsize : ℤ)
    (s : FastLoader σ) : DlCode × ℕ × FastLoader σ :=
  if recsize.tmod 4≠0 then (.badLen,0,s)
  else
    let n := (recsize/4).toNat
    fastLoop M flags n (groups recbuf 0 n) 0 .cont s

def items : ℕ → List Group → List Item
  | _, [] => []
  | 0, _::_ => []
  | fuel+1, g::gs => (fetch g gs).1::items fuel (fetch g gs).2

def run (M : FastMonitor σ) (flags : FastFlags) :
    List Item → ℕ → DlCode → FastLoader σ → DlCode × ℕ × FastLoader σ
  | [], len, status, s => (status,len,s)
  | item::rest, len, status, s =>
    match exec M flags len status s item with
    | .next len status s => run M flags rest len status s
    | .leave len status s => (status,len,s)
    | .fail code s => (code,0,s)

variable {gs : List Group}

def IsStatus (code : DlCode) : Prop := code = .cont ∨ code = .done
def IsError (code : DlCode) : Prop := ¬ IsStatus code ∧ code ≠ .minusOne
theorem isError_badChar : IsError .badChar := ⟨nofun,nofun⟩
theorem isError_badLen : IsError .badLen := ⟨nofun,nofun⟩

theorem number_bad {f : ℕ → Item} (hf : ∀ v code, f v ≠ .bad code) {p : List UInt8}
    (h : number f p = .bad code) : IsError code := by
  unfold number at h
  split at h
  · exact absurd h (hf _ _)
  · cases h
    exact isError_badChar

theorem fetch_bad {g : Group} (h : (fetch g gs).1 = .bad code) : IsError code := by
  unfold fetch at h
  split at h
  · split at h
    · cases h
    · exact number_bad (f := Item.compare) nofun h
    · exact number_bad (f := Item.zero) nofun h
    · exact number_bad (f := Item.byte) nofun h
    · split at h
      · cases h
        exact isError_badLen
      · exact number_bad (f := Item.address) nofun h
    · cases h
    · split at h <;> cases h
    · cases h
      exact ⟨nofun,nofun⟩
  · split at h <;> cases h
    exact isError_badLen

theorem mem_items_bad {fuel : ℕ} (h : .bad code∈items fuel gs) : IsError code := by
  induction fuel generalizing gs with
  | zero => cases gs <;> cases h
  | succ fuel ih =>
    cases gs with
    | nil => cases h
    | cons g gs =>
      rcases List.mem_cons.mp h with hitem | hrest
      · exact fetch_bad hitem.symm
      · exact ih hrest

def Exec.Sound : Exec σ → Prop
  | .next _ status _ => IsStatus status
  | .leave _ status _ => IsStatus status
  | .fail code _ => IsError code

variable (M : FastMonitor σ) (flags : FastFlags)
variable {status : DlCode} {len : ℕ}

theorem fill_sound {bs : List UInt8} (h : IsStatus status) (s : FastLoader σ) :
    (fill M flags bs len status s).Sound := by
  unfold fill
  split
  · exact ⟨nofun,nofun⟩
  · exact h

theorem exec_sound {item : Item} (hitem : ∀ code, item = .bad code → IsError code)
    (h : IsStatus status) (s : FastLoader σ) : (exec M flags len status s item).Sound := by
  cases item with
  | clear => exact h
  | compare zcnt =>
    unfold exec
    dsimp only
    split
    · exact ⟨nofun,nofun⟩
    · exact h
  | zero zcnt =>
    unfold exec
    dsimp only
    split
    · exact h
    · exact fill_sound M flags h _
  | byte bdat =>
    unfold exec
    dsimp only
    split
    · exact h
    · exact fill_sound M flags h _
  | address addr =>
    unfold exec
    dsimp only
    split <;> exact h
  | finish => exact .inr rfl
  | symbol name =>
    unfold exec
    dsimp only
    split
    · exact h
    · split
      · exact ⟨nofun,nofun⟩
      · exact h
  | openSymbol name => exact isError_badLen
  | data bdat =>
    unfold exec
    dsimp only
    split
    · exact h
    · exact fill_sound M flags h _
  | bad code => exact hitem code rfl

theorem run_code_sound {is : List Item} (his : ∀ code, .bad code∈is → IsError code)
    (h : IsStatus status) (s : FastLoader σ) :
    IsStatus (run M flags is len status s).1 ∨ IsError (run M flags is len status s).1 := by
  induction is generalizing len status s with
  | nil => exact .inl h
  | cons item is ih =>
    have hexec : (exec M flags len status s item).Sound :=
      exec_sound M flags (fun code hcode => his code (hcode ▸ List.mem_cons_self)) h s
    rw [run]
    revert hexec
    cases exec M flags len status s item with
    | next len' status' s' =>
      exact fun hexec => ih (fun code hcode => his code (List.mem_cons_of_mem _ hcode)) hexec s'
    | leave len' status' s' => exact .inl
    | fail code s' => exact .inr

theorem fastLoop_eq_run (fuel : ℕ) (gs : List Group) (len : ℕ) (status : DlCode)
    (s : FastLoader σ) :
    fastLoop M flags fuel gs len status s=run M flags (items fuel gs) len status s := by
  induction fuel generalizing gs len status s with
  | zero => cases gs <;> rfl
  | succ fuel ih =>
    cases gs with
    | nil => rfl
    | cons g gs =>
      rw [fastLoop,items,run]
      dsimp only
      cases exec M flags len status s (fetch g gs).1 with
      | next len status s => exact ih _ _ _ _
      | leave len status s => rfl
      | fail code s => rfl

def recordItems (recbuf : Buffer) (recsize : ℤ) : List Item :=
  items (recsize/4).toNat (groups recbuf 0 (recsize/4).toNat)

theorem dlFastload_eq {recbuf : Buffer} {recsize : ℤ} (h : recsize.tmod 4=0) (s : FastLoader σ) :
    dlFastload M flags recbuf recsize s=run M flags (recordItems recbuf recsize) 0 .cont s := by
  rw [dlFastload,if_neg (not_not.mpr h)]
  exact fastLoop_eq_run M flags _ _ _ _ _

theorem mem_recordItems_bad {recbuf : Buffer} {recsize : ℤ}
    (h : .bad code∈recordItems recbuf recsize) : IsError code := mem_items_bad h

theorem dlFastload_sound (recbuf : Buffer) (recsize : ℤ) (s : FastLoader σ) :
    IsStatus (dlFastload M flags recbuf recsize s).1 ∨
      IsError (dlFastload M flags recbuf recsize s).1 := by
  by_cases hsize : recsize.tmod 4=0
  · rw [dlFastload_eq M flags hsize]
    exact run_code_sound M flags (fun code hcode => mem_recordItems_bad hcode) (.inl rfl) s
  · rw [dlFastload,if_pos hsize]
    exact .inr isError_badLen

end Pmon.FastLoad
