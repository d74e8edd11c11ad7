import Pmon.BootTables
import Pmon.ByteStore

/-!
# Reading the symbols of an ELF file

The test of `elfreadsyms` governs the check of the name only, so `newsym` is called for every symbol
that comes as far.
-/

namespace Pmon.ElfSyms
open ByteStore (applyWrites)
open ElfBoot (NetOps Store halfAt wordAt)
open BootTables (Tables Request gettable)
open Tftp (int32)

structure Shdr where
  type : UInt32
  offset : UInt32
  size : UInt32
  link : UInt32
  info : UInt32
  entsize : UInt32

def shtSymtab : UInt32 := 2

structure Sym where
  name : UInt32
  value : UInt32
  info : UInt8
  shndx : UInt16
  deriving DecidableEq

def sizeofSym : ℕ := 16

def Sym.ofBytes (big : Bool) (bytes : List UInt8) : Sym :=
  { name := wordAt big bytes 0
    value := wordAt big bytes 4
    info := bytes.getD 12 0
    shndx := halfAt big bytes 14 }

def Sym.bind (sym : Sym) : ℕ := sym.info.toNat/16
def Sym.type (sym : Sym) : ℕ := sym.info.toNat%16
def Sym.elsewhere (sym : Sym) : Bool := sym.shndx == 0 || sym.shndx == 0xfff2
def Sym.auxiliary (sym : Sym) : Bool := sym.type == 3 || sym.type == 4
def Sym.chosen (sym : Sym) : Bool := sym.bind == 1 || sym.type == 2

structure Entry where
  index : ℕ
  sym : Sym
  deriving DecidableEq

/-- Symbols to be entered: defined, not common, no section or file, and global or a function. -/
def Entry.wanted (e : Entry) : Bool := !e.sym.elsewhere && !e.sym.auxiliary && e.sym.chosen

structure Call where
  entry : Entry
  name : UInt32
  value : UInt32
  deriving DecidableEq

section
variable {σ : Type} (newsym : σ → UInt32 → UInt32 → Bool × σ) (strtab strsize : UInt32)

def symLoop : σ → List Entry → Bool × List Call
  | _, [] => (true,[])
  | s, e::es =>
    if e.sym.elsewhere then symLoop s es
    else if e.sym.auxiliary then symLoop s es
    -- only the check of the name depends on the kind of symbol
    else if e.sym.chosen ∧ strsize≤e.sym.name then (false,[])
    else
      let call : Call := ⟨e,strtab+e.sym.name,e.sym.value⟩
      match newsym s call.name call.value with
      | (false,_) => (false,[call])
      | (true,s) =>
        let (value,calls) := symLoop s es
        (value,call::calls)

/-- The calls are those for the wanted symbols, as far as the loop comes; each has a name in the
table. -/
def ExactCalls (es : List Entry) (r : Bool × List Call) : Prop :=
  (∃ k, r.2.map Call.entry=(es.take k).filter Entry.wanted ∧ (r.1=true → es.length≤k)) ∧
    ∀ c∈r.2, c.name=strtab+c.entry.sym.name ∧ c.entry.sym.name<strsize

def NoStray : σ → List Entry → Prop
  | _, [] => True
  | s, e::es =>
    if e.sym.elsewhere ∨ e.sym.auxiliary then NoStray s es
    else e.sym.chosen=true ∧
      (e.sym.name<strsize →
        (newsym s (strtab+e.sym.name) e.sym.value).1=true →
          NoStray (newsym s (strtab+e.sym.name) e.sym.value).2 es)

variable {newsym strtab strsize} {s : σ} {e : Entry} {es : List Entry}

theorem symLoop_skip (h : e.sym.elsewhere=true ∨ e.sym.auxiliary=true) :
    symLoop newsym strtab strsize s (e::es)=symLoop newsym strtab strsize s es := by
  rw [symLoop]
  rcases h with h | h
  · rw [if_pos h]
  · rw [if_pos h,ite_self]

theorem symLoop_cons (h : ¬(e.sym.elsewhere=true ∨ e.sym.auxiliary=true)) :
    symLoop newsym strtab strsize s (e::es) =
      if e.sym.chosen ∧ strsize≤e.sym.name then (false,[])
      else if (newsym s (strtab+e.sym.name) e.sym.value).1 then
        let r := symLoop newsym strtab strsize (newsym s (strtab+e.sym.name) e.sym.value).2 es
        (r.1,⟨e,strtab+e.sym.name,e.sym.value⟩::r.2)
      else (false,[⟨e,strtab+e.sym.name,e.sym.value⟩]) := by
  obtain ⟨helse,haux⟩ := not_or.mp h
  rw [symLoop,if_neg helse,if_neg haux]
  dsimp only
  match newsym s (strtab+e.sym.name) e.sym.value with
  | (false,t) => rfl
  | (true,t) => rfl

theorem wanted_of_chosen (h : ¬(e.sym.elsewhere=true ∨ e.sym.auxiliary=true))
    (hc : e.sym.chosen=true) : e.wanted=true := by
  obtain ⟨helse,haux⟩ := not_or.mp h
  simp [Entry.wanted,helse,haux,hc]

theorem not_wanted_of_skip (h : e.sym.elsewhere=true ∨ e.sym.auxiliary=true) :
    e.wanted=false := by
  rcases h with h | h <;> simp [Entry.wanted,h]

theorem noStray_of_wanted
    (h : ∀ c∈(symLoop newsym strtab strsize s es).2, c.entry.wanted=true) :
    NoStray newsym strtab strsize s es := by
  induction es generalizing s with
  | nil => trivial
  | cons e es ih =>
    unfold NoStray
    split
    next hskip =>
      rw [symLoop_skip hskip] at h
      exact ih h
    next hkeep =>
      rw [symLoop_cons hkeep] at h
      by_cases hcorrupt : e.sym.chosen=true ∧ strsize≤e.sym.name
      · exact ⟨hcorrupt.1,fun hlt => absurd hlt (UInt32.not_lt.mpr hcorrupt.2)⟩
      · rw [if_neg hcorrupt] at h
        -- `newsym` is called, so the symbol is wanted
        have hwanted : e.wanted=true := by
          split at h
          · exact h _ List.mem_cons_self
          · exact h _ List.mem_cons_self
        have hchosen : e.sym.chosen=true := by
          simp only [Entry.wanted,Bool.and_eq_true] at hwanted
          exact hwanted.2
        refine ⟨hchosen,fun _ hroom => ih fun c hc => ?_⟩
        rw [if_pos hroom] at h
        exact h c (List.mem_cons_of_mem _ hc)

theorem exactCalls_of_noStray (h : NoStray newsym strtab strsize s es) :
    ExactCalls strtab strsize es (symLoop newsym strtab strsize s es) := by
  induction es generalizing s with
  | nil => exact ⟨⟨0,rfl,fun _ => le_rfl⟩,fun c hc => (nomatch hc)⟩
  | cons e es ih =>
    unfold NoStray at h
    by_cases hskip : e.sym.elsewhere=true ∨ e.sym.auxiliary=true
    · rw [if_pos hskip] at h
      rw [symLoop_skip hskip]
      obtain ⟨⟨k,hcalls,hend⟩,hnames⟩ := ih h
      refine ⟨⟨k+1,?_,fun hv => Nat.succ_le_succ (hend hv)⟩,hnames⟩
      rw [List.take_succ_cons,List.filter_cons_of_neg (by simp [not_wanted_of_skip hskip])]
      exact hcalls
    · rw [if_neg hskip] at h
      obtain ⟨hchosen,hrest⟩ := h
      have hwanted := wanted_of_chosen hskip hchosen
      rw [symLoop_cons hskip]
      by_cases hcorrupt : e.sym.chosen=true ∧ strsize≤e.sym.name
      · rw [if_pos hcorrupt]
        exact ⟨⟨0,rfl,nofun⟩,fun c hc => (nomatch hc)⟩
      · have hname : e.sym.name<strsize := UInt32.not_le.mp fun hle => hcorrupt ⟨hchosen,hle⟩
        rw [if_neg hcorrupt]
        by_cases hroom : (newsym s (strtab+e.sym.name) e.sym.value).1=true
        · rw [if_pos hroom]
          obtain ⟨⟨k,hcalls,hend⟩,hnames⟩ := ih (hrest hname hroom)
          refine ⟨⟨k+1,?_,fun hv => Nat.succ_le_succ (hend hv)⟩,fun c hc => ?_⟩
          · rw [List.take_succ_cons,List.filter_cons_of_pos hwanted,←hcalls]
            rfl
          · obtain rfl | hc := List.mem_cons.mp hc
            · exact ⟨rfl,hname⟩
            · exact hnames c hc
        · rw [if_neg hroom]
          refine ⟨⟨1,?_,nofun⟩,fun c hc => ?_⟩
          · rw [List.take_succ_cons,List.take_zero,List.filter_cons_of_pos hwanted]
            rfl
          · rw [List.mem_singleton.mp hc]
            exact ⟨rfl,hname⟩

theorem exactCalls_iff (s : σ) (es : List Entry) :
    ExactCalls strtab strsize es (symLoop newsym strtab strsize s es) ↔
      NoStray newsym strtab strsize s es := by
  refine ⟨fun h => noStray_of_wanted fun c hc => ?_,exactCalls_of_noStray⟩
  obtain ⟨⟨k,hcalls,-⟩,-⟩ := h
  have hmem : c.entry∈(es.take k).filter Entry.wanted := by
    rw [←hcalls]
    exact List.mem_map_of_mem hc
  exact (List.mem_filter.mp hmem).2
end

structure Host where
  big : Bool
  k0 : Bool
  maxaddr : ℕ
  sym : UInt32

structure SymTable where
  strtab : UInt32
  strsize : UInt32
  entries : List Entry
  deriving DecidableEq

structure Outcome where
  value : Bool
  table : Option SymTable
  calls : List Call
  deriving DecidableEq

def storeWrites (st : Store) : List (ℕ × UInt8) :=
  st.bytes.mapIdx fun i b => ((st.addr+i)%2^32,b)

def symAt (big : Bool) (mem : ℕ → UInt8) (sym : UInt32) (i : ℕ) : Sym :=
  .ofBytes big ((List.range sizeofSym).map fun k => mem ((sym.toNat+sizeofSym*i+k)%2^32))

section
variable {φ σ : Type} (ops : NetOps φ) (host : Host)

def table (offs size : UInt32) (s : Tables φ) (mem : ℕ → UInt8) :
    Option (Option UInt32 × Tables φ × (ℕ → UInt8)) :=
  (gettable ops host.k0 s ⟨host.maxaddr,offs,size⟩).map fun r =>
    (r.addr,r.state,applyWrites (r.stores.flatMap storeWrites) mem)

/-- Read both tables in the order of the file. With equal offsets the symbol table is not read. -/
def readTables (sh strh : Shdr) (s : Tables φ) (mem : ℕ → UInt8) : Option (Option SymTable) :=
  if sh.entsize=0 then none
  else
    let nsym := sh.size/sh.entsize-sh.info
    let offs := sh.offset+sh.info*sh.entsize
    let size := nsym*sh.entsize
    match (if offs<strh.offset then table ops host offs size s mem
      else some (some host.sym,s,mem)) with
    | none => none
    | some (none,_,_) => some none
    | some (some sym,s,mem) =>
      match table ops host strh.offset strh.size s mem with
      | none => none
      | some (none,_,_) => some none
      | some (some strtab,s,mem) =>
        match (if strh.offset<offs then table ops host offs size s mem
          else some (some sym,s,mem)) with
        | none => none
        | some (none,_,_) => some none
        | some (some sym,_,mem) =>
          some (some ⟨strtab,strh.size,(List.range (int32 nsym.toNat).toNat).map fun i =>
            ⟨i,symAt host.big mem sym i⟩⟩)

variable (newsym : σ → UInt32 → UInt32 → Bool × σ)

def elfreadsyms (shnum : ℕ) (shtab : ℕ → Shdr) (s : Tables φ) (mem : ℕ → UInt8) (syms : σ) :
    Option Outcome :=
  match ((List.range shnum).map shtab).find? (·.type == shtSymtab) with
  | none => some ⟨false,none,[]⟩
  | some sh =>
    (readTables ops host sh (shtab sh.link.toNat) s mem).map fun
      | none => ⟨false,none,[]⟩
      | some t =>
        let r := symLoop newsym t.strtab t.strsize syms t.entries
        ⟨r.1,some t,r.2⟩

def Outcome.Exact (o : Outcome) : Prop :=
  match o.table with
  | none => o.calls=[]
  | some t => ExactCalls t.strtab t.strsize t.entries (o.value,o.calls)

def Outcome.NoStray (o : Outcome) (syms : σ) : Prop :=
  ∀ t, o.table=some t → ElfSyms.NoStray newsym t.strtab t.strsize syms t.entries

variable {ops host newsym} {shnum : ℕ} {shtab : ℕ → Shdr} {s : Tables φ} {mem : ℕ → UInt8} {syms : σ}

/-- The calls of `newsym` are right exactly if no symbol is stray. -/
theorem elfreadsyms_exact_iff {o : Outcome}
    (h : elfreadsyms ops host newsym shnum shtab s mem syms=some o) :
    o.Exact ↔ o.NoStray newsym syms := by
  have hnone : ∀ v, Outcome.Exact ⟨v,none,[]⟩ ↔ Outcome.NoStray newsym ⟨v,none,[]⟩ syms :=
    fun v => iff_of_true rfl nofun
  unfold elfreadsyms at h
  split at h
  · cases h
    exact hnone false
  · obtain ⟨t,-,rfl⟩ := Option.map_eq_some_iff.mp h
    cases t with
    | none => exact hnone false
    | some t =>
      have hloop := @exactCalls_iff σ newsym t.strtab t.strsize syms t.entries
      exact hloop.trans ⟨fun hs t' ht => Option.some.inj ht ▸ hs, fun hs => hs t rfl⟩
end

def seekable (file : List UInt8) : NetOps ℕ :=
  { netread := fun pos n =>
      let bytes := (file.drop pos).take n.toNat
      some ⟨bytes.length,pos+bytes.length,[⟨0,bytes.length,bytes⟩]⟩
    netlseek := fun _ offs => (offs, offs.toNat) }

def oneSymbol (name info : UInt8) : List UInt8 :=
  [0,0,0,name,0x80,2,0,0,0,0,0,0,info,0,0,1]++[0,97,0,0]

def oneShtab : ℕ → Shdr
  | 0 => ⟨shtSymtab,0,16,1,0,16⟩
  | _ => ⟨3,16,4,0,0,0⟩

def readOne (name info : UInt8) : Option Outcome :=
  elfreadsyms (seekable (oneSymbol name info)) ⟨true,true,0x80020000,0⟩
    (fun s _ _ => (true,s)) 2 oneShtab ⟨0x400000,0⟩ (fun _ => 0) ()

def oneEntry (name : UInt32) (info : UInt8) : Entry := ⟨0,⟨name,0x80020000,info,1⟩⟩

theorem elfreadsyms_exact_iff_global :
    Outcome.Exact ⟨true,some ⟨0x803fffe8,4,[oneEntry 1 0x10]⟩,
      [⟨oneEntry 1 0x10,0x803fffe9,0x80020000⟩]⟩ := by
  have hrun : readOne 1 0x10=some ⟨true,some ⟨0x803fffe8,4,[oneEntry 1 0x10]⟩,
      [⟨oneEntry 1 0x10,0x803fffe9,0x80020000⟩]⟩ := by decide +kernel
  refine (elfreadsyms_exact_iff hrun).mpr fun t ht => ?_
  cases ht
  exact ⟨rfl, fun _ _ => trivial⟩

theorem elfreadsyms_stray : ∃ o, readOne 100 0=some o ∧
    o.calls=[⟨oneEntry 100 0,0x8040004c,0x80020000⟩] ∧ ¬o.Exact := by
  refine ⟨⟨true,some ⟨0x803fffe8,4,[oneEntry 100 0]⟩,
    [⟨oneEntry 100 0,0x8040004c,0x80020000⟩]⟩, by decide +kernel,rfl, fun h => ?_⟩
  have hname := (h.2 _ List.mem_cons_self).2
  exact absurd hname (by decide)

end Pmon.ElfSyms
