import Pmon.LoadFn
import Pmon.Tftp

/-!
# Booting an ELF file

`load_elf` loads the segments in file order: `bootread` reads, `bootclear` clears the rest. The
model returns their stores. Sizes are unsigned in the headers and `int` in both functions.
-/

namespace Pmon.ElfBoot
open LoadFn (Monitor u32 k0ToPhys overlap K0BASE K0SIZE K2BASE)
open Tftp (Copy int32)

structure ReadResult (φ : Type) where
  value : ℤ
  file : φ
  copies : List Copy

structure NetOps (φ : Type) where
  netread : φ → ℤ → Option (ReadResult φ)
  netlseek : φ → ℤ → ℤ × φ

section
variable {φ σ : Type} (ops : NetOps φ) (M : Monitor σ)

def readExact (f : φ) (n : ℕ) : Option (Option (List UInt8) × φ) :=
  (ops.netread f n).map fun r =>
    (if r.value=(n : ℤ) then some (r.copies.flatMap (·.bytes)) else none,r.file)

def seekExact (f : φ) (offs : UInt32) : Bool × φ :=
  let (value,f) := ops.netlseek f (int32 offs.toNat)
  (decide (u32 value = offs.toNat),f)

theorem seekExact_eq (f : φ) (offs : UInt32) :
    seekExact ops f offs=(decide (u32 (ops.netlseek f (int32 offs.toNat)).1 = offs.toNat),
      (ops.netlseek f (int32 offs.toNat)).2) := rfl

def halfAt (big : Bool) (bytes : List UInt8) (off : ℕ) : UInt16 :=
  let b (i : ℕ) := (bytes.getD (off+i) 0).toNat
  .ofNat (if big then b 0*2^8+b 1 else b 1*2^8+b 0)

def wordAt (big : Bool) (bytes : List UInt8) (off : ℕ) : UInt32 :=
  let b (i : ℕ) := (bytes.getD (off+i) 0).toNat
  .ofNat (if big then b 0*2^24+b 1*2^16+b 2*2^8+b 3
    else b 3*2^24+b 2*2^16+b 1*2^8+b 0)

structure Ehdr where
  ident : List UInt8
  machine : UInt16
  entry : UInt32
  phoff : UInt32
  shoff : UInt32
  phentsize : UInt16
  phnum : UInt16
  shnum : UInt16

def sizeofEhdr : ℕ := 52

def Ehdr.ofBytes (big : Bool) (bytes : List UInt8) : Ehdr :=
  { ident := bytes.take 16
    machine := halfAt big bytes 18
    entry := wordAt big bytes 24
    phoff := wordAt big bytes 28
    shoff := wordAt big bytes 32
    phentsize := halfAt big bytes 42
    phnum := halfAt big bytes 44
    shnum := halfAt big bytes 48 }

def Ehdr.magic (ep : Ehdr) : Bool := ep.ident.take 4 == [0x7f,0x45,0x4c,0x46]

def Ehdr.nogood (big : Bool) (ep : Ehdr) : Option String :=
  if ep.ident.getD 4 0≠1 then some "not 32-bit"
  else if ep.ident.getD 5 0≠(if big then 2 else 1) then some "incorrect endianess"
  else if ep.ident.getD 6 0≠1 then some "version not current"
  else if ep.machine≠10 ∧ ep.machine≠8 then some "incorrect machine type"
  else none

structure Phdr where
  type : UInt32
  offset : UInt32
  vaddr : UInt32
  filesz : UInt32
  memsz : UInt32
  deriving DecidableEq

def sizeofPhdr : ℕ := 32
def sizeofShdr : ℕ := 40

def Phdr.ofBytes (big : Bool) (bytes : List UInt8) : Phdr :=
  { type := wordAt big bytes 0
    offset := wordAt big bytes 4
    vaddr := wordAt big bytes 8
    filesz := wordAt big bytes 16
    memsz := wordAt big bytes 20 }

def phtabOfBytes (big : Bool) (phnum : ℕ) (bytes : List UInt8) : List Phdr :=
  (List.range phnum).map fun i => .ofBytes big (bytes.drop (sizeofPhdr*i))

def ptLoad : UInt32 := 1
def ptNull : UInt32 := 0

structure Store where
  addr : ℕ
  count : ℕ
  bytes : List UInt8
  deriving DecidableEq

def Store.ofCopy (addr : ℕ) (c : Copy) : Store := ⟨u32 (addr+c.dst),c.count,c.bytes⟩

def bootread (f : φ) (addr : ℕ) (size : ℤ) : Option (ℤ × φ × List Store) :=
  if (M.refusal addr size).isSome then some (-1,f,[])
  else
    (ops.netread f size).map fun r =>
      (if r.value<size then -1 else size,r.file,r.copies.map (.ofCopy addr))

def bootclear (addr : ℕ) (size : ℤ) : ℤ × List Store :=
  if (M.refusal addr size).isSome then (-1,[])
  else (size, if 0<size then [⟨addr, size.toNat,List.replicate size.toNat 0⟩] else [])

structure Segment where
  ph : Phdr
  copied : List Store
  cleared : List Store
  deriving DecidableEq

def Segment.stores (seg : Segment) : List Store := seg.copied++seg.cleared

def readSegment (f : φ) (ph : Phdr) : Option (Bool × φ × List Store) :=
  if ph.filesz=0 then some (true,f,[])
  else
    match seekExact ops f ph.offset with
    | (false,f) => some (false,f,[])
    | (true,f) =>
      (bootread ops M f ph.vaddr.toNat (int32 ph.filesz.toNat)).map fun (value,f,stores) =>
        (decide (u32 value = ph.filesz.toNat),f,stores)

def clearSegment (ph : Phdr) : List Store :=
  if ph.filesz<ph.memsz then
    (bootclear M (u32 (ph.vaddr.toNat + ph.filesz.toNat))
      (int32 (ph.memsz.toNat - ph.filesz.toNat))).2
  else []

def loadSegment (f : φ) (ph : Phdr) : Option (Bool × φ × Segment) :=
  (readSegment ops M f ph).map fun (loaded,f,stores) =>
    (loaded,f,⟨ph,stores, if loaded then clearSegment M ph else []⟩)

def nearest : List Phdr → ℕ → UInt32 → Option (ℕ × Phdr) → Option (ℕ × Phdr)
  | [], _, _, best => best
  | ph::phtab, i, lowest, best =>
    if ph.type=ptLoad ∧ ph.offset<lowest then nearest phtab (i+1) ph.offset (some (i,ph))
    else nearest phtab (i+1) lowest best

def loadSegments : ℕ → φ → List Phdr → Option (Bool × φ × List Segment)
  | 0, _, _ => none
  | fuel+1, f, phtab =>
    match nearest phtab 0 0xffffffff none with
    | none => some (true,f,[])
    | some (i,ph) =>
      match loadSegment ops M f ph with
      | none => none
      | some (false,f,seg) => some (false,f,[seg])
      | some (true,f,seg) =>
        (loadSegments fuel f (phtab.set i {ph with type := ptNull})).map
          fun (loaded,f,segs) => (loaded,f,seg::segs)

structure BootFlags where
  flash : Bool
  /-- `NFLAG`: do not load symbols. -/
  noSyms : Bool
  onlySyms : Bool

structure Host where
  big : Bool
  mallocPhtab : Bool
  mallocShtab : Bool

inductive Value where
  | notElf
  | invalid
  | entry (addr : UInt32)
  deriving DecidableEq

structure Outcome where
  value : Value
  phtab : List Phdr
  segments : List Segment
  deriving DecidableEq

def readHeader (buf : List UInt8) (f : φ) : Option (Option (List UInt8) × φ) :=
  if buf.length<sizeofEhdr then
    (readExact ops f (sizeofEhdr-buf.length)).map fun (bytes,f) => (bytes.map (buf ++ ·),f)
  else some (some buf,f)

def elfgetshdr (host : Host) (ep : Ehdr) (f : φ) : Option φ :=
  if host.mallocShtab then
    match seekExact ops f ep.shoff with
    | (false,f) => some f
    | (true,f) => (readExact ops f (sizeofShdr * ep.shnum.toNat)).map (·.2)
  else some f

/-- `load_elf` behind the program headers; reading symbols has no effect on the value. -/
def loadImage (host : Host) (flags : BootFlags) (ep : Ehdr) (phtab : List Phdr) (f : φ) :
    Option Outcome :=
  let early := !flags.noSyms && phtab.head?.any (ep.shoff < ·.offset)
  match (if early then elfgetshdr ops host ep f else some f) with
  | none => none
  | some f =>
    if flags.onlySyms then some ⟨.entry ep.entry,phtab,[]⟩
    else
      (loadSegments ops M (phtab.length+1) f phtab).map fun (loaded,_,segs) =>
        ⟨if loaded then .entry ep.entry else .invalid,phtab,segs⟩

def loadPhtab (host : Host) (flags : BootFlags) (ep : Ehdr) (f : φ) : Option Outcome :=
  match seekExact ops f ep.phoff with
  | (false,_) => some ⟨.invalid,[],[]⟩
  | (true,f) =>
    match readExact ops f (sizeofPhdr * ep.phnum.toNat) with
    | none => none
    | some (none,_) => some ⟨.invalid,[],[]⟩
    | some (some bytes,f) =>
      loadImage ops M host flags ep (phtabOfBytes host.big ep.phnum.toNat bytes) f

def loadElf (host : Host) (flags : BootFlags) (buf : List UInt8) (f : φ) : Option Outcome :=
  match readHeader ops buf f with
  | none => none
  | some (none,_) => some ⟨.notElf,[],[]⟩
  | some (some bytes,f) =>
    let ep := Ehdr.ofBytes host.big bytes
    if ep.magic=false then some ⟨.notElf,[],[]⟩
    else if (ep.nogood host.big).isSome then some ⟨.invalid,[],[]⟩
    else if flags.flash then some ⟨.invalid,[],[]⟩
    else if ep.phoff=0 ∨ ep.phnum=0 ∨ ep.phentsize.toNat≠sizeofPhdr then
      some ⟨.invalid,[],[]⟩
    else if host.mallocPhtab=false then some ⟨.invalid,[],[]⟩
    else loadPhtab ops M host flags ep f
end
section
variable {σ : Type} {M : Monitor σ} {addr : ℕ} {size : ℤ}

structure Accepted (M : Monitor σ) (addr : ℕ) (size : ℤ) : Prop where
  base : K0BASE≤addr
  top : u32 (addr+size)≤K2BASE
  prom : u32 (k0ToPhys addr+size)≤0x1fc00000
  code : u32 (k0ToPhys addr+size)≤k0ToPhys M.ftext ∨ k0ToPhys M.etext≤k0ToPhys addr
  data : u32 (k0ToPhys addr+size)≤k0ToPhys M.fdata ∨ k0ToPhys M.heaptop≤k0ToPhys addr
  memory : u32 (k0ToPhys addr+size)≤M.memorysize

theorem k0ToPhys_lt (addr : ℕ) : k0ToPhys addr<K0SIZE := Nat.mod_lt _ (by decide)

theorem overlap_eq_false {as ae bs be : ℕ} : overlap as ae bs be=false ↔ ae≤bs ∨ be≤as := by
  simp [overlap]
  omega

theorem accepted_of_refusal (h : M.refusal addr size=none) : Accepted M addr size := by
  have hphys := k0ToPhys_lt addr
  have hsize : K0SIZE=0x20000000 := rfl
  unfold Monitor.refusal at h
  dsimp only at h
  split at h
  · cases h
  rename_i hseg
  split at h
  · cases h
  rename_i hprom
  split at h
  · cases h
  rename_i hcode
  split at h
  · cases h
  rename_i hdata
  split at h
  · cases h
  rename_i hmem
  rw [Bool.not_eq_true,overlap_eq_false] at hprom hcode hdata hmem
  exact ⟨by omega,by omega,by omega,hcode,hdata,by omega⟩

structure Checked (M : Monitor σ) (a : ℕ) : Prop where
  unmapped : K0BASE≤a ∧ a<K2BASE
  memory : k0ToPhys a<M.memorysize
  prom : ¬(0x1fc00000≤k0ToPhys a ∧ k0ToPhys a<0x20000000)
  code : ¬(k0ToPhys M.ftext≤k0ToPhys a ∧ k0ToPhys a<k0ToPhys M.etext)
  data : ¬(k0ToPhys M.fdata≤k0ToPhys a ∧ k0ToPhys a<k0ToPhys M.heaptop)

theorem Accepted.straight {n : ℕ} (h : Accepted M addr n) (haddr : addr<2^32)
    (hn : n<2^31) :
    k0ToPhys addr+n≤0x1fc00000 ∧ addr+n≤K2BASE ∧ u32 (k0ToPhys addr+n)=k0ToPhys addr+n := by
  have hphys := k0ToPhys_lt addr
  have hprom := h.prom
  have htop := h.top
  unfold u32 k0ToPhys K2BASE K0SIZE at *
  omega

theorem Accepted.checked {n : ℕ} (h : Accepted M addr n) (haddr : addr<2^32)
    (hn : n<2^31) {j : ℕ} (hj : j<n) : Checked M ((addr+j)%2^32) := by
  obtain ⟨hprom,htop,hfinish⟩ := h.straight haddr hn
  have hphys : k0ToPhys ((addr+j)%2^32)=k0ToPhys addr+j := by
    unfold k0ToPhys K0SIZE at *
    omega
  have hbase := h.base
  have hmem := h.memory
  have hcode := h.code
  have hdata := h.data
  rw [hfinish] at hmem hcode hdata
  refine ⟨?_,?_,?_,?_,?_⟩
  · unfold K0BASE K2BASE at *
    omega
  all_goals
    rw [hphys]
    omega
end
section
variable {φ σ : Type} {ops : NetOps φ} {M : Monitor σ}

inductive ReadSegment (ops : NetOps φ) (M : Monitor σ) (ph : Phdr) : Bool → List Store → Prop
  | empty (h : ph.filesz=0) : ReadSegment ops M ph true []
  | seek : ReadSegment ops M ph false []
  | refused {loaded : Bool} (hsize : ph.filesz≠0)
    (hloaded : loaded=true ↔ u32 (-1) = ph.filesz.toNat) : ReadSegment ops M ph loaded []
  | read {f f' : φ} {r : ReadResult φ} {loaded : Bool} (hsize : ph.filesz≠0)
    (hseek : seekExact ops f ph.offset=(true,f'))
    (haccept : Accepted M ph.vaddr.toNat (int32 ph.filesz.toNat))
    (hread : ops.netread f' (int32 ph.filesz.toNat)=some r)
    (hloaded : loaded=true ↔
      u32 (if r.value < int32 ph.filesz.toNat then -1 else int32 ph.filesz.toNat)
        = ph.filesz.toNat) :
    ReadSegment ops M ph loaded (r.copies.map (.ofCopy ph.vaddr.toNat))

theorem readSegment_cases {f f' : φ} {ph : Phdr} {loaded : Bool} {stores : List Store}
    (h : readSegment ops M f ph=some (loaded,f',stores)) : ReadSegment ops M ph loaded stores := by
  unfold readSegment at h
  by_cases hsize : ph.filesz=0
  · rw [if_pos hsize] at h
    cases h
    exact .empty hsize
  rw [if_neg hsize] at h
  generalize hseek : seekExact ops f ph.offset=found at h
  obtain ⟨ok,f₁⟩ := found
  cases ok with
  | false =>
    cases h
    exact .seek
  | true =>
    dsimp only at h
    unfold bootread at h
    by_cases hrefused : (M.refusal ph.vaddr.toNat (int32 ph.filesz.toNat)).isSome
    · simp only [if_pos hrefused,Option.map_some,Option.some.injEq,Prod.mk.injEq] at h
      rw [←h.2.2]
      exact .refused hsize (by rw [←h.1,decide_eq_true_iff])
    · rw [if_neg hrefused,Option.map_map,Option.map_eq_some_iff] at h
      obtain ⟨r,hread,hr⟩ := h
      simp only [Function.comp_apply,Prod.mk.injEq] at hr
      rw [Option.not_isSome_iff_eq_none] at hrefused
      obtain ⟨hloaded,-,hstores⟩ := hr
      subst hstores
      exact .read hsize hseek (accepted_of_refusal hrefused) hread
        (by simp only [←hloaded,decide_eq_true_eq])

inductive Loading (ops : NetOps φ) (M : Monitor σ) (seg : Segment) : Bool → Prop
  | loaded (hread : ReadSegment ops M seg.ph true seg.copied)
    (hclear : seg.cleared=clearSegment M seg.ph) : Loading ops M seg true
  | failed (hread : ReadSegment ops M seg.ph false seg.copied)
    (hclear : seg.cleared=[]) : Loading ops M seg false

theorem loadSegment_loading {f f' : φ} {ph : Phdr} {loaded : Bool} {seg : Segment}
    (h : loadSegment ops M f ph=some (loaded,f',seg)) :
    seg.ph=ph ∧ Loading ops M seg loaded := by
  unfold loadSegment at h
  rw [Option.map_eq_some_iff] at h
  obtain ⟨⟨ok,f₁,stores⟩,hread,heq⟩ := h
  cases heq
  have hcases := readSegment_cases hread
  cases loaded with
  | true => exact ⟨rfl,.loaded hcases rfl⟩
  | false => exact ⟨rfl,.failed hcases rfl⟩

def Phdr.Selectable (ph : Phdr) : Prop := ph.type=ptLoad ∧ ph.offset<0xffffffff

instance (ph : Phdr) : Decidable ph.Selectable :=
  inferInstanceAs (Decidable (ph.type=ptLoad ∧ ph.offset<0xffffffff))

theorem nearest_cases (phtab : List Phdr) (i : ℕ) (lowest : UInt32) (best : Option (ℕ × Phdr)) :
    (∃ k ph, nearest phtab i lowest best=some (i+k,ph) ∧ phtab[k]?=some ph ∧
      ph.type=ptLoad ∧ ph.offset<lowest) ∨
    nearest phtab i lowest best=best ∧
      ∀ ph∈phtab, ¬(ph.type=ptLoad ∧ ph.offset<lowest) := by
  induction phtab generalizing i lowest best with
  | nil => exact Or.inr ⟨rfl,by simp⟩
  | cons ph phtab ih =>
    unfold nearest
    split
    · rename_i hph
      left
      rcases ih (i+1) ph.offset (some (i,ph)) with ⟨k,ph',heq,hget,htype,hlt⟩ | ⟨heq,-⟩
      · exact ⟨k+1,ph',by rw [heq,Nat.add_assoc,Nat.add_comm 1],hget,htype,
          UInt32.lt_trans hlt hph.2⟩
      · exact ⟨0,ph,heq,rfl,hph.1,hph.2⟩
    · rename_i hph
      rcases ih (i+1) lowest best with ⟨k,ph',heq,hget,hload⟩ | ⟨heq,hnone⟩
      · exact Or.inl ⟨k+1,ph',by rw [heq,Nat.add_assoc,Nat.add_comm 1],hget,hload⟩
      · refine Or.inr ⟨heq,?_⟩
        intro ph' hmem
        rcases List.mem_cons.mp hmem with rfl | hmem
        · exact hph
        · exact hnone ph' hmem

theorem loadSegments_loading {fuel : ℕ} {f f' : φ} {phtab : List Phdr} {loaded : Bool}
    {segs : List Segment} (h : loadSegments ops M fuel f phtab=some (loaded,f',segs)) :
    ∀ seg∈segs, Loading ops M seg true ∨ loaded=false ∧ Loading ops M seg false := by
  induction fuel generalizing f phtab segs with
  | zero => cases h
  | succ fuel ih =>
    unfold loadSegments at h
    split at h
    · cases h
      simp
    · split at h
      · cases h
      · rename_i hseg
        cases h
        intro seg hmem
        rw [List.mem_singleton] at hmem
        subst hmem
        exact Or.inr ⟨rfl,(loadSegment_loading hseg).2⟩
      · rename_i hseg
        rw [Option.map_eq_some_iff] at h
        obtain ⟨⟨ok,f₁,rest⟩,hrest,heq⟩ := h
        cases heq
        intro seg hmem
        rcases List.mem_cons.mp hmem with rfl | hmem
        · exact Or.inl (loadSegment_loading hseg).2
        · exact ih hrest seg hmem

theorem loadElf_cases {host : Host} {flags : BootFlags} {buf : List UInt8} {f : φ} {o : Outcome}
    (h : loadElf ops M host flags buf f=some o) :
    o.segments=[] ∧ (flags.onlySyms ∨ ∀ e, o.value ≠ .entry e) ∨
      ∃ f₁ f₂ loaded, loadSegments ops M (o.phtab.length+1) f₁ o.phtab
        = some (loaded,f₂,o.segments) ∧ (loaded=true ↔ ∃ e, o.value = .entry e) := by
  have hstop : ∀ v : Value, (∀ e, v ≠ .entry e) → some (⟨v,[],[]⟩ : Outcome)=some o →
      o.segments=[] ∧ (flags.onlySyms ∨ ∀ e, o.value ≠ .entry e) := by
    intro v hv heq
    cases heq
    exact ⟨rfl,Or.inr hv⟩
  unfold loadElf at h
  split at h
  · cases h
  · exact Or.inl (hstop _ (by simp) h)
  dsimp only at h
  split at h
  · exact Or.inl (hstop _ (by simp) h)
  split at h
  · exact Or.inl (hstop _ (by simp) h)
  split at h
  · exact Or.inl (hstop _ (by simp) h)
  split at h
  · exact Or.inl (hstop _ (by simp) h)
  split at h
  · exact Or.inl (hstop _ (by simp) h)
  unfold loadPhtab at h
  split at h
  · exact Or.inl (hstop _ (by simp) h)
  split at h
  · cases h
  · exact Or.inl (hstop _ (by simp) h)
  unfold loadImage at h
  dsimp only at h
  split at h
  · cases h
  split at h
  · rename_i honly
    cases h
    exact Or.inl ⟨rfl,Or.inl honly⟩
  · rw [Option.map_eq_some_iff] at h
    obtain ⟨⟨loaded,f₂,segs⟩,hsegs,heq⟩ := h
    cases heq
    refine Or.inr ⟨_,f₂,loaded,hsegs,?_⟩
    cases loaded with
    | true => simp
    | false => simp
end

def ramMonitor : Monitor Unit where
  ftext := 0x9fc00000
  etext := 0x9fc40000
  fdata := 0x80001000
  heaptop := 0x80080000
  memorysize := 0x400000
  newsym := fun s _ _ => some s

def leWord (x : UInt32) : List UInt8 :=
  [x.toUInt8,(x >>> 8).toUInt8,(x >>> 16).toUInt8,(x >>> 24).toUInt8]

def oneSegment (vaddr filesz memsz : UInt32) (bytes : List UInt8) : List UInt8 :=
  [0x7f,0x45,0x4c,0x46,1,1,1,0,0,0,0,0,0,0,0,0,2,0,8,0,1,0,0,0]
    ++ leWord vaddr++leWord 52++leWord 0++leWord 0
    ++ [52,0,32,0,1,0,0,0,0,0,0,0]
    ++ leWord 1++leWord 84++leWord vaddr++leWord vaddr++leWord filesz++leWord memsz
    ++ leWord 7++leWord 4++bytes

def leHost : Host := ⟨false,true,true⟩
def optionN : BootFlags := ⟨false,true,false⟩

end Pmon.ElfBoot
