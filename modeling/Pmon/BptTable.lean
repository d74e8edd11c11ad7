import Pmon.Go
import Pmon.LoadFn
import Pmon.Rsa

/-!
# The breakpoint table and the hardware watchpoints

The model keeps the blocks handed out for command strings and every `free` of them. The watchpoint
functions are a parameter.
-/

namespace Pmon.BptTable
open LoadFn (Monitor k0ToPhys overlap K0BASE K2BASE)
open Go (NO_BPT MIPS_WATCHPOINT_VADDR)

def MAX_BPT : ℕ := 64
def MIPS_WATCHPOINT_X : ℕ := 4
def MIPS_WATCHPOINT_R : ℕ := 2
def MIPS_WATCHPOINT_W : ℕ := 1

inductive WpRes where
  | ok
  | none
  | notsup
  | inuse
  | overlap
  | badaddr
  deriving DecidableEq

structure Watchpoint where
  num : ℕ
  capabilities : ℕ
  type : ℕ
  asid : ℤ
  va : ℕ
  pa : ℕ
  len : ℕ
  mask : ℕ

structure WatchFuncs where
  capabilities : List ℕ
  capabilities_lt : ∀ c∈capabilities, c<2^16
  /-- Choose the address bits to ignore, or refuse the watchpoint. -/
  wpSet : Watchpoint → Option ℕ

def granuleSet (mask : ℕ) (wp : Watchpoint) : Option ℕ :=
  if mask<(wp.va%(mask+1)+wp.len+(2^32-1))%2^32 then none else some mask

def r4k : WatchFuncs where
  capabilities := [0x23]
  capabilities_lt := by decide
  wpSet := granuleSet 7

def r4650 : WatchFuncs where
  capabilities := [0x124,0x123]
  capabilities_lt := by decide
  wpSet wp := granuleSet (if wp.num=0 then 3 else 7) wp

def rm7k : WatchFuncs where
  capabilities := [0x57,0x57]
  capabilities_lt := by decide
  wpSet wp := some wp.mask

def r5k : WatchFuncs where
  capabilities := []
  capabilities_lt := by decide
  wpSet _ := none

def WatchFuncs.init (funcs : WatchFuncs) : List Watchpoint :=
  funcs.capabilities.zipIdx.map fun (c,i) => ⟨i,c,0,0,0,0,0,0⟩

def shiftCount : ℕ → ℕ → ℕ
  | 0, _ => 0
  | i+1, mask => if mask=0 then i+1 else shiftCount i (mask/2)

def mipsWatchpointCalcMask (addr len : ℕ) : ℕ :=
  0xffffffff >>> (shiftCount 32 (addr ^^^ (addr + len + (2 ^ 32 - 1)) % 2 ^ 32) % 32)

def mipsWatchpointSetCallback {σ : Type} (M : Monitor σ) (va len : ℕ) : WpRes :=
  let start := k0ToPhys va
  let finish := (start+len)%2^32
  if va<K0BASE ∨ K2BASE<(va+len)%2^32 then .badaddr
  else if overlap start finish (k0ToPhys M.ftext) (k0ToPhys M.etext) then .overlap
  else if overlap start finish (k0ToPhys M.fdata) (k0ToPhys M.heaptop) then .overlap
  -- the area of the network code
  else if overlap start finish M.memorysize ((M.memorysize+512*1024)%2^32) then .overlap
  else .ok

def Watchpoint.arm {σ : Type} (funcs : WatchFuncs) (M : Monitor σ) (wp : Watchpoint) (len : ℕ) :
    WpRes × Watchpoint :=
  let wp := {wp with len := len, mask := mipsWatchpointCalcMask wp.va len}
  match funcs.wpSet wp with
  | none => (.notsup,{wp with len := 0})
  | some mask =>
    let wp := {wp with mask := mask}
    let res := mipsWatchpointSetCallback M (wp.va &&& (0xffffffff ^^^ mask)) ((mask + 1) % 2 ^ 32)
    if res = .ok then (res,wp) else (res,{wp with len := 0})

def watchpointSetLoop {σ : Type} (funcs : WatchFuncs) (M : Monitor σ) (type : ℕ) (asid : ℤ)
    (va pa len : ℕ) : List Watchpoint → WpRes → WpRes × List Watchpoint
  | [], res => (res,[])
  | wp::wps, res =>
    if wp.capabilities &&& type = type then
      if wp.len≠0 then
        let rest := watchpointSetLoop funcs M type asid va pa len wps .inuse
        (rest.1,wp::rest.2)
      else
        let wp := {wp with type := type%2^16, asid := asid, va := va}
        if wp.capabilities &&& MIPS_WATCHPOINT_VADDR ≠ 0 ∨ pa ≠ 0 then
          let armed := {wp with pa := pa}.arm funcs M len
          (armed.1,armed.2::wps)
        else if va/2^30=2 then
          let armed := {wp with pa := k0ToPhys va}.arm funcs M len
          (armed.1,armed.2::wps)
        else (.badaddr,wp::wps)
    else
      let rest := watchpointSetLoop funcs M type asid va pa len wps res
      (rest.1,wp::rest.2)

def mipsWatchpointSet {σ : Type} (funcs : WatchFuncs) (M : Monitor σ) (type : ℕ) (asid : ℤ)
    (va pa len : ℕ) (wps : List Watchpoint) : WpRes × List Watchpoint :=
  if wps.length≤0 then (.none,wps)
  else watchpointSetLoop funcs M type asid va pa len wps .notsup

def mipsWatchpointClear (type : ℕ) (asid : ℤ) (va len : ℕ) : List Watchpoint → List Watchpoint
  | [] => []
  | wp::wps =>
    if wp.type=type ∧ wp.asid=asid ∧ wp.va=va ∧ wp.len=len then {wp with len := 0}::wps
    else wp::mipsWatchpointClear type asid va len wps

def mipsWatchpointReset (wps : List Watchpoint) : List Watchpoint :=
  wps.map fun wp => {wp with len := 0}

structure Slot where
  addr : ℕ
  len : ℕ
  value : ℕ
  wpt : ℕ
  /-- The block of its command string, `none` for a null pointer. -/
  cmdstr : Option ℕ
  /-- Not in the source: there was no command string. -/
  plain : Bool

def Slot.unused : Slot := ⟨NO_BPT,0,0,0,none,true⟩

/-- The breakpoints, the watchpoints, and the blocks of the command strings. -/
structure Table where
  bpt : List Slot
  watchpoints : List Watchpoint
  blocks : List (List Char)
  freed : List ℕ

def Table.start (funcs : WatchFuncs) : Table :=
  ⟨List.replicate MAX_BPT Slot.unused,funcs.init,[],[]⟩

structure Env where
  funcs : WatchFuncs
  monitor : Monitor Unit
  getRsa : List Char → Option (BitVec 32)
  room : ℕ → Bool

def search (p : Slot → Bool) : List Slot → Option (ℕ × Slot)
  | [] => none
  | b::bs => if p b then some (0,b) else (search p bs).map fun (j,c) => (j+1,c)

def Slot.same (wpt adr len : ℕ) (b : Slot) : Bool := b.addr=adr ∧ b.len=len ∧ b.wpt=wpt
def Table.free (s : Table) (p : Option ℕ) : Table := {s with freed := s.freed++p.toList}

def clrbpt (wpt adr len : ℕ) (s : Table) : Bool × Table :=
  match search (Slot.same wpt adr len) s.bpt with
  | none => (false,s)
  | some (j,b) =>
    let wps :=
      if wpt≠0 then mipsWatchpointClear wpt (-1) adr len s.watchpoints else s.watchpoints
    (true,{ s with
      watchpoints := wps
      bpt := s.bpt.set j {b with addr := NO_BPT} }.free b.cmdstr)

def enter (env : Env) (wpt adr len : ℕ) (s : Table) : Option (ℕ × Slot) × Table :=
  let s := (clrbpt wpt adr len s).2
  match search (fun b => b.addr=NO_BPT) s.bpt with
  | none => (none,s)
  | some (j,b) =>
    let b := {b with addr := adr, len := len, wpt := wpt}
    if wpt≠0 then
      let (res,wps) :=
        mipsWatchpointSet env.funcs env.monitor wpt (-1) adr 0 len s.watchpoints
      let s := {s with watchpoints := wps}
      if res ≠ .ok then (none,s) else (some (j,b),{s with bpt := s.bpt.set j b})
    else (some (j,b),{s with bpt := s.bpt.set j b})

def setbpt (env : Env) (wpt adr len : ℕ) (s : Table) : Bool × Table :=
  match enter env wpt adr len s with
  | (none,s) => (false,s)
  | (some (j,b),s) => (true,{s with bpt := s.bpt.set j {b with plain := true}})

structure Pending where
  wpt : ℕ
  len : ℕ
  str : Option (List Char)

def Pending.none : Pending := ⟨0,4,Option.none⟩

inductive OptEnd where
  | done
  | str
  | len
  | bad

def scanOpts : List Char → ℕ → OptEnd × ℕ
  | [], wpt => (.done,wpt)
  | c::cs, wpt =>
    if c = 's' then (.str,wpt)
    else if c = 'l' then (.len,wpt)
    else if c = 'i' ∨ c = 'x' then scanOpts cs (wpt ||| MIPS_WATCHPOINT_X)
    else if c = 'd' ∨ c = 'a' then scanOpts cs (wpt ||| (MIPS_WATCHPOINT_R ||| MIPS_WATCHPOINT_W))
    else if c = 'w' then scanOpts cs (wpt ||| MIPS_WATCHPOINT_W)
    else if c = 'r' then scanOpts cs (wpt ||| MIPS_WATCHPOINT_R)
    else (.bad,wpt)

def attach (env : Env) (left j : ℕ) (b : Slot) (str : Option (List Char)) (s : Table) : Table :=
  match str with
  | some text =>
    if env.room left then
      { s with
        blocks := s.blocks++[text]
        bpt := s.bpt.set j {b with cmdstr := some s.blocks.length, plain := false} }
    else {s with bpt := s.bpt.set j {b with cmdstr := none, plain := false}}
  | none => {s with bpt := s.bpt.set j {b with cmdstr := none, plain := true}}

def setbpArgs (env : Env) : List (List Char) → Pending → Table → ℤ × Table
  | [], _, s => (0,s)
  | ('-' :: cs)::args, p, s =>
    match scanOpts cs p.wpt, args with
    | (.done,wpt), args => setbpArgs env args {p with wpt := wpt} s
    | (.bad,_), _ => (-1,s)
    | (.str,_), [] => (-1,s)
    | (.str,wpt), text::args => setbpArgs env args {p with wpt := wpt, str := some text} s
    | (.len,_), [] => (-1,s)
    | (.len,wpt), text::args =>
      match env.getRsa text with
      | none => (-1,s)
      | some len => setbpArgs env args {p with wpt := wpt, len := len.toNat} s
  | arg::args, p, s =>
    match env.getRsa arg with
    | none => (-1,s)
    | some adr =>
      match enter env p.wpt adr.toNat p.len s with
      | (none,s) => (1,s)
      | (some (j,b),s) =>
        setbpArgs env args Pending.none (attach env args.length j b p.str s)

structure Request where
  wpt : ℕ
  adr : ℕ
  len : ℕ

def requests (env : Env) : List (List Char) → Pending → List Request
  | [], _ => []
  | ('-' :: cs)::args, p =>
    match scanOpts cs p.wpt, args with
    | (.done,wpt), args => requests env args {p with wpt := wpt}
    | (.bad,_), _ => []
    | (.str,_), [] => []
    | (.str,wpt), text::args => requests env args {p with wpt := wpt, str := some text}
    | (.len,_), [] => []
    | (.len,wpt), text::args =>
      match env.getRsa text with
      | none => []
      | some len => requests env args {p with wpt := wpt, len := len.toNat}
  | arg::args, p =>
    match env.getRsa arg with
    | none => []
    | some adr => ⟨p.wpt, adr.toNat,p.len⟩::requests env args Pending.none

def setbp (env : Env) (av : List (List Char)) (s : Table) : ℤ × Table :=
  setbpArgs env av Pending.none s

def clrbpts (s : Table) : Table :=
  { s with
    bpt := s.bpt.map fun b => {b with addr := NO_BPT, wpt := 0}
    watchpoints := s.bpt.foldl (fun wps b =>
      if b.addr≠NO_BPT ∧ b.wpt≠0 then mipsWatchpointClear b.wpt (-1) b.addr b.len wps
      else wps) s.watchpoints
    freed := s.freed++s.bpt.filterMap Slot.cmdstr }

def clrslot (j : ℕ) (s : Table) : Table :=
  match s.bpt[j]? with
  | none => s
  | some b =>
    if b.addr=NO_BPT then s
    else
      let wps :=
        if b.wpt≠0 then mipsWatchpointClear b.wpt (-1) b.addr b.len s.watchpoints
        else s.watchpoints
      { s with
        watchpoints := wps
        bpt := s.bpt.set j {b with addr := NO_BPT, wpt := 0} }.free b.cmdstr

def clrbp : List (List Char) → Table → Option (ℤ × Table)
  | [], s => some (0,s)
  | arg::args, s =>
    if arg=['*'] then clrbp args (clrbpts s)
    else
      match Rsa.ator 32 arg 10 with
      | none => some (-1,s)
      | some i =>
        if i.toInt<MAX_BPT then
          if i.toInt<0 then none else clrbp args (clrslot i.toNat s)
        else clrbp args s

/-- `dl_initialise` on the tables: without `BFLAG` the breakpoints go, the watchpoints always do. -/
def dlInitialise (keepBpts : Bool) (s : Table) : Table :=
  let s := if keepBpts then s else clrbpts s
  {s with watchpoints := mipsWatchpointReset s.watchpoints}

inductive Call where
  | setbp (env : Env) (av : List (List Char))
  | setbpt (env : Env) (wpt adr len : ℕ)
  | clrbpt (wpt adr len : ℕ)
  | clrbp (av : List (List Char))
  | clrbpts
  | dlInitialise (keepBpts : Bool)

def step (s : Table) : Call → Option Table
  | .setbp env av => some (setbp env av s).2
  | .setbpt env wpt adr len => some (setbpt env wpt adr len s).2
  | .clrbpt wpt adr len => some (clrbpt wpt adr len s).2
  | .clrbp av => (clrbp av s).map Prod.snd
  | .clrbpts => some (clrbpts s)
  | .dlInitialise keep => some (dlInitialise keep s)

def run (s : Table) (cs : List Call) : Option Table := cs.foldlM step s

variable {l : List Slot} {I : Table → Prop}

theorem search_eq_some {p : Slot → Bool} {j : ℕ} {b : Slot} (h : search p l=some (j,b)) :
    ∃ l₁ l₂, l=l₁++b::l₂ ∧ j=l₁.length ∧ p b=true ∧ ∀ c∈l₁, p c=false := by
  induction l generalizing j with
  | nil => cases h
  | cons c l ih =>
    rw [search] at h
    split at h
    · rename_i hp
      cases h
      exact ⟨[],l,rfl,rfl,hp,by simp⟩
    · rename_i hp
      cases hs : search p l with
      | none =>
        rw [hs] at h
        cases h
      | some r =>
        obtain ⟨i,d⟩ := r
        rw [hs] at h
        cases h
        obtain ⟨l₁,l₂,rfl,rfl,hd,hbefore⟩ := ih hs
        refine ⟨c::l₁,l₂,rfl,rfl,hd,?_⟩
        intro e he
        rcases List.mem_cons.mp he with rfl | he
        · simpa using hp
        · exact hbefore e he

theorem search_eq_none {p : Slot → Bool} (h : search p l=none) :
    ∀ b∈l, p b=false := by
  induction l with
  | nil => simp
  | cons c l ih =>
    rw [search] at h
    split at h
    · cases h
    · rename_i hp
      rw [Option.map_eq_none_iff] at h
      intro b hb
      rcases List.mem_cons.mp hb with rfl | hb
      · simpa using hp
      · exact ih h b hb

@[simp] theorem set_split (l₁ l₂ : List Slot) (b c : Slot) :
    (l₁++b::l₂).set l₁.length c=l₁++c::l₂ := by
  rw [List.set_append_right _ _ le_rfl,Nat.sub_self,List.set_cons_zero]

theorem exists_split {j : ℕ} {b : Slot} (h : l[j]?=some b) :
    ∃ l₁ l₂, l=l₁++b::l₂ ∧ j=l₁.length := by
  obtain ⟨hj,rfl⟩ := List.getElem?_eq_some_iff.mp h
  refine ⟨l.take j,l.drop (j+1),?_,?_⟩
  · rw [List.cons_getElem_drop_succ,List.take_append_drop]
  · rw [List.length_take,Nat.min_eq_left hj.le]

inductive Cleared (wpt adr len : ℕ) (s : Table) : Table → Prop
  | absent (h : ∀ b∈s.bpt, b.same wpt adr len=false) : Cleared wpt adr len s s
  | found {l₁ l₂ : List Slot} {b : Slot} {wps : List Watchpoint} (hbpt : s.bpt=l₁++b::l₂)
    (hsame : b.addr=adr ∧ b.len=len ∧ b.wpt=wpt)
    (hbefore : ∀ c∈l₁, c.same wpt adr len=false)
    (hwps : wps = if wpt≠0 then mipsWatchpointClear wpt (-1) adr len s.watchpoints
      else s.watchpoints) :
    Cleared wpt adr len s { s with
      watchpoints := wps
      bpt := l₁++{b with addr := NO_BPT}::l₂
      freed := s.freed++b.cmdstr.toList }

theorem clrbpt_cleared (wpt adr len : ℕ) (s : Table) :
    Cleared wpt adr len s (clrbpt wpt adr len s).2 := by
  unfold clrbpt
  cases hs : search (Slot.same wpt adr len) s.bpt with
  | none => exact .absent (search_eq_none hs)
  | some r =>
    obtain ⟨j,b⟩ := r
    obtain ⟨l₁,l₂,hbpt,rfl,hb,hbefore⟩ := search_eq_some hs
    dsimp only [Table.free]
    rw [hbpt,set_split]
    exact .found hbpt (by simpa [Slot.same] using hb) hbefore rfl

inductive Entered (env : Env) (wpt adr len : ℕ) (s : Table) : Option (ℕ × Slot) → Table → Prop
  | full : Entered env wpt adr len s none s
  | refused {res : WpRes} {wps : List Watchpoint} (hwpt : wpt≠0)
    (hset : mipsWatchpointSet env.funcs env.monitor wpt (-1) adr 0 len s.watchpoints=(res,wps))
    (hres : res ≠ .ok) : Entered env wpt adr len s none {s with watchpoints := wps}
  | placed {l₁ l₂ : List Slot} {b : Slot} {wps : List Watchpoint} (hbpt : s.bpt=l₁++b::l₂)
    (hfree : b.addr=NO_BPT) (hused : ∀ c∈l₁, c.addr≠NO_BPT)
    (hwps : wpt=0 ∧ wps=s.watchpoints ∨ wpt≠0 ∧
      mipsWatchpointSet env.funcs env.monitor wpt (-1) adr 0 len s.watchpoints=(.ok,wps)) :
    Entered env wpt adr len s (some (l₁.length,{b with addr := adr, len := len, wpt := wpt}))
      { s with
        watchpoints := wps
        bpt := l₁++{b with addr := adr, len := len, wpt := wpt}::l₂ }

theorem enter_entered (env : Env) (wpt adr len : ℕ) (s : Table) :
    Entered env wpt adr len (clrbpt wpt adr len s).2 (enter env wpt adr len s).1
      (enter env wpt adr len s).2 := by
  unfold enter
  generalize (clrbpt wpt adr len s).2=t
  dsimp only
  cases hs : search (fun b => b.addr=NO_BPT) t.bpt with
  | none => exact .full
  | some r =>
    obtain ⟨j,b⟩ := r
    obtain ⟨l₁,l₂,hbpt,rfl,hb,hbefore⟩ := search_eq_some hs
    have hfree : b.addr=NO_BPT := by simpa using hb
    have hused : ∀ c∈l₁, c.addr≠NO_BPT := fun c hc => by simpa using hbefore c hc
    dsimp only
    by_cases hwpt : wpt=0
    · rw [if_neg (by simpa using hwpt),hbpt,set_split]
      exact .placed hbpt hfree hused (.inl ⟨hwpt,rfl⟩)
    · rw [if_pos hwpt]
      generalize hset : mipsWatchpointSet env.funcs env.monitor wpt (-1) adr 0 len t.watchpoints=r
      obtain ⟨res,wps⟩ := r
      dsimp only
      by_cases hres : res = .ok
      · rw [if_neg (by simpa using hres),hbpt,set_split]
        subst hres
        exact .placed hbpt hfree hused (.inr ⟨hwpt,hset⟩)
      · rw [if_pos hres]
        exact .refused hwpt hset hres

inductive SlotCleared (s : Table) : Table → Prop
  | unused : SlotCleared s s
  | found {l₁ l₂ : List Slot} {b : Slot} {wps : List Watchpoint} (hbpt : s.bpt=l₁++b::l₂)
    (huse : b.addr≠NO_BPT)
    (hwps : wps = if b.wpt≠0 then mipsWatchpointClear b.wpt (-1) b.addr b.len s.watchpoints
      else s.watchpoints) :
    SlotCleared s { s with
      watchpoints := wps
      bpt := l₁++{b with addr := NO_BPT, wpt := 0}::l₂
      freed := s.freed++b.cmdstr.toList }

theorem clrslot_cleared (j : ℕ) (s : Table) : SlotCleared s (clrslot j s) := by
  unfold clrslot
  cases hj : s.bpt[j]? with
  | none => exact .unused
  | some b =>
    obtain ⟨l₁,l₂,hbpt,rfl⟩ := exists_split hj
    dsimp only [Table.free]
    split
    · exact .unused
    · rename_i huse
      rw [hbpt,set_split]
      exact .found hbpt huse rfl

theorem requests_cons (env : Env) {arg : List Char} (harg : ∀ cs, arg = '-' :: cs → False)
    (args : List (List Char)) (p : Pending) {adr : BitVec 32} (hadr : env.getRsa arg=some adr) :
    requests env (arg::args) p =
      ⟨p.wpt, adr.toNat,p.len⟩::requests env args Pending.none := by
  rw [requests.eq_def]
  split
  · contradiction
  · rename_i heq
    cases heq
    exact absurd rfl (harg _)
  · rename_i heq
    cases heq
    simp only [hadr]

theorem setbpArgs_preserves {Q : Request → Prop} (env : Env)
    (hfail : ∀ r s t, Q r → I s → enter env r.wpt r.adr r.len s=(none,t) → I t)
    (hplace : ∀ r s t j b left str, Q r → I s →
      enter env r.wpt r.adr r.len s=(some (j,b),t) → I (attach env left j b str t))
    (args : List (List Char)) (p : Pending) (s : Table) (hI : I s)
    (hQ : ∀ r∈requests env args p, Q r) : I (setbpArgs env args p s).2 := by
  fun_induction setbpArgs env args p s with
  | case2 cs p s wpt args hopt ih | case5 cs p s wpt text args hopt ih =>
    rw [requests.eq_def] at hQ
    simp only [hopt] at hQ
    exact ih hI hQ
  | case8 cs p s wpt text args hopt len hlen ih =>
    rw [requests.eq_def] at hQ
    simp only [hopt,hlen] at hQ
    exact ih hI hQ
  | case10 arg args p s harg adr hadr t henter =>
    rw [requests_cons env harg args p hadr] at hQ
    exact hfail _ _ _ (hQ _ List.mem_cons_self) hI henter
  | case11 arg args p s harg adr hadr j b t henter ih =>
    rw [requests_cons env harg args p hadr] at hQ
    refine ih (hplace _ _ _ _ _ _ _ (hQ _ List.mem_cons_self) hI henter) ?_
    exact fun r hr => hQ r (List.mem_cons_of_mem _ hr)
  | _ => exact hI

def ClrbpOk (Q : Table → Prop) : List (List Char) → Table → Prop
  | [], _ => True
  | arg::args, s =>
    if arg=['*'] then Q s ∧ ClrbpOk Q args (clrbpts s)
    else
      match Rsa.ator 32 arg 10 with
      | none => True
      | some i =>
        0 ≤ i.toInt ∧ ClrbpOk Q args (if i.toInt<MAX_BPT then clrslot i.toNat s else s)

theorem clrbp_preserves {Q : Table → Prop} (hall : ∀ s, Q s → I s → I (clrbpts s))
    (hslot : ∀ j s, I s → I (clrslot j s)) (args : List (List Char)) (s : Table) (hI : I s)
    (hok : ClrbpOk Q args s) : ∃ r t, clrbp args s=some (r,t) ∧ I t := by
  fun_induction clrbp args s with
  | case1 s => exact ⟨_,_,rfl,hI⟩
  | case2 args s ih =>
    rw [ClrbpOk,if_pos rfl] at hok
    exact ih (hall _ hok.1 hI) hok.2
  | case3 arg args s hne hnone => exact ⟨_,_,rfl,hI⟩
  | case4 arg args s hne i hi hlt hneg =>
    rw [ClrbpOk,if_neg hne,hi] at hok
    exact absurd hok.1 (not_le.mpr hneg)
  | case5 arg args s hne i hi hlt hneg ih =>
    rw [ClrbpOk,if_neg hne,hi] at hok
    dsimp only at hok
    rw [if_pos hlt] at hok
    exact ih (hslot _ _ hI) hok.2
  | case6 arg args s hne i hi hlt ih =>
    rw [ClrbpOk,if_neg hne,hi] at hok
    dsimp only at hok
    rw [if_neg hlt] at hok
    exact ih hI hok.2

def Throughout (Ok : Table → Call → Prop) : Table → List Call → Prop
  | _, [] => True
  | s, c::cs => Ok s c ∧ ∀ t, step s c=some t → Throughout Ok t cs

theorem run_preserves {Ok : Table → Call → Prop}
    (hstep : ∀ s c, I s → Ok s c → ∃ t, step s c=some t ∧ I t) {s : Table} {cs : List Call}
    (hI : I s) (hok : Throughout Ok s cs) : ∃ t, run s cs=some t ∧ I t := by
  induction cs generalizing s with
  | nil => exact ⟨s,rfl,hI⟩
  | cons c cs ih =>
    obtain ⟨t,ht,hIt⟩ := hstep s c hI hok.1
    obtain ⟨u,hrun,hIu⟩ := ih hIt (hok.2 t ht)
    refine ⟨u,?_,hIu⟩
    rw [run,List.foldlM_cons,ht]
    exact hrun

def plainEnv : Env where
  funcs := r4k
  monitor := ⟨0x9fc00000,0x9fc20000,0x80000100,0x80008000,0x400000, fun s _ _ => some s⟩
  getRsa arg := if arg=['f'] then some 0x80020000 else none
  room _ := true

end Pmon.BptTable
