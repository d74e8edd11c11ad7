import Pmon.CeBoot
import Pmon.RecordFeed

/-!
# The chain of loaders

`com_boot` offers a file to one loader after another until one does not return `-1`. `load_ecoff`
compares the wrong way and never reads.
-/

namespace Pmon.BootChain
open List
open ByteStore (Holds readCells applyWrites writesAt)
open LoadFn (Monitor u32)
open Tftp (Copy int32)
open ElfBoot (NetOps Host BootFlags Ehdr halfAt wordAt seekExact bootread)
open CeBoot (device cebinImage CeImage)

inductive Loader where
  | cebin
  | elf
  | ecoff
  | s3
  | fast

def loaders : List Loader := [.cebin,.elf,.ecoff,.s3,.fast]

def Loader.sizeof : Loader → ℕ
  | .cebin => 7
  | .elf => 52
  | .ecoff => 76
  | .s3 => 0
  | .fast => 0

structure State where
  buf : ℕ → UInt8
  n : ℕ
  pos : ℕ

inductive Cpu where
  | r3000
  | r4000
  | other

structure Env (σ : Type) where
  host : Host
  cpu : Cpu
  monitor : Monitor σ
  flags : BootFlags
  seek : ℕ → ℤ → ℤ × ℕ
  stack : UInt32
  symPos : ℕ
  records : Loader → State → Option (ℤ × State)

structure Step where
  loader : Loader
  seen : Option State
  /-- Its value and the state afterwards; `none` if it does not return. -/
  result : Option (ℤ × State)

section
variable {σ : Type} (env : Env σ) (file : List UInt8)

def Env.ops : NetOps ℕ := device file env.seek

def place (n : ℕ) (copies : List Copy) (buf : ℕ → UInt8) : ℕ → UInt8 :=
  copies.foldl (fun buf c => applyWrites (writesAt (n + c.dst.toNat) c.bytes) buf) buf

def fill (size : ℕ) (s : State) : Option (Bool × State) :=
  if s.n<size then
    ((env.ops file).netread s.pos (size-s.n : ℕ)).map fun r =>
      if r.value=((size-s.n : ℕ) : ℤ) then (true,⟨place s.n r.copies s.buf,size,r.file⟩)
      else (false,⟨place s.n r.copies s.buf,s.n,r.file⟩)
  else some (true,s)

def ceSignature : List UInt8 := [0x42,0x30,0x30,0x30,0x46,0x46,0x0a]

def loadCebin (s : State) : Step :=
  if env.host.big then ⟨.cebin,none,some (-1,s)⟩
  else
    match fill env file 7 s with
    | none => ⟨.cebin,none,none⟩
    | some (false,s) => ⟨.cebin,none,some (-1,s)⟩
    | some (true,s) =>
      ⟨.cebin,some s,
        if readCells s.buf 0 7≠ceSignature then some (-1,s)
        else
          (cebinImage (env.ops file) env.monitor (file.length+1) env.flags env.stack s.pos).map
            fun (value,pos) => (value,{s with pos := pos})⟩

def elfResult (s : State) : ElfBoot.Value → ℤ × State
  | .notElf => (-1,s)
  | .invalid => (-2,s)
  | .entry addr => (int32 addr.toNat,{s with pos := env.symPos})

def loadElf (s : State) : Step :=
  match fill env file 52 s with
  | none => ⟨.elf,none,none⟩
  | some (false,s) => ⟨.elf,none,some (-1,s)⟩
  | some (true,s) =>
    ⟨.elf,some s,
      (ElfBoot.loadElf (env.ops file) env.monitor env.host env.flags (readCells s.buf 0 s.n)
        s.pos).map fun o => elfResult env s o.value⟩

def mipsOk (magic : UInt16) : Bool :=
  let ok (eb el : UInt16) : Bool := magic == if env.host.big then eb else el
  match env.cpu with
  | .r3000 => ok 0x160 0x162
  | .r4000 => ok 0x160 0x162 || ok 0x163 0x166 || ok 0x140 0x142
  | .other => false

def badmag (magic : UInt16) : Bool := magic != 0x107 && magic != 0x108 && magic != 0x10b

def txtoff (nscns magic vstamp : UInt16) : UInt32 :=
  if magic=0x10b then 0
  else if vstamp<23 ∨ 0x8000≤vstamp then .ofNat ((76 + nscns.toNat*40+7)/8*8)
  else .ofNat ((76 + nscns.toNat*40+15)/16*16)

def ecoffImage (s : State) : Option (ℤ × State) :=
  let hdr := readCells s.buf 0 76
  let half := halfAt env.host.big hdr
  let word (off : ℕ) : UInt32 := wordAt env.host.big hdr off
  if env.flags.flash then some (-2,s)
  else if env.flags.onlySyms then some (int32 (word 36).toNat,{s with pos := env.symPos})
  else
    match seekExact (env.ops file) s.pos (txtoff (half 2) (half 20) (half 22)) with
    | (false,pos) => some (-1,{s with pos := pos})
    | (true,pos) =>
      match bootread (env.ops file) env.monitor pos (word 40).toNat (int32 (word 24).toNat) with
      | none => none
      | some (value,pos,_) =>
        if value≠int32 (word 24).toNat then some (-1,{s with pos := pos})
        else
          (bootread (env.ops file) env.monitor pos (word 44).toNat (int32 (word 28).toNat)).map
            fun (value,pos,_) =>
              if value≠int32 (word 28).toNat then (-1,{s with pos := pos})
              else (int32 (word 36).toNat,{s with pos := env.symPos})

def fillEcoff (s : State) : Option (Bool × State) :=
  if 76<s.n then
    ((env.ops file).netread s.pos (76-s.n)).map fun r =>
      if u32 r.value=u32 (76-s.n) then (true,⟨place s.n r.copies s.buf,76,r.file⟩)
      else (false,⟨place s.n r.copies s.buf,s.n,r.file⟩)
  else some (true,s)

def loadEcoff (s : State) : Step :=
  match fillEcoff env file s with
  | none => ⟨.ecoff,none,none⟩
  | some (false,s) => ⟨.ecoff,none,some (-1,s)⟩
  | some (true,s) =>
    let hdr := readCells s.buf 0 76
    ⟨.ecoff,some s,
      if !mipsOk env (halfAt env.host.big hdr 0) || badmag (halfAt env.host.big hdr 20) then
        some (-1,s)
      else ecoffImage env file s⟩

/-- `load_s3` and `load_fast`: the first line and the test of its mark. Its newline counts for the
file only. -/
def loadXx (loader : Loader) (recid : UInt8) (s : State) : Step :=
  let f := RecordFeed.firstLine s.buf s.n (file.drop s.pos)
  let n := if (RecordFeed.strnchr s.buf 0 s.n).isSome then s.n else f.nb
  let s : State := ⟨f.buf,n,s.pos+((file.drop s.pos).length-f.rest.length)⟩
  ⟨loader,none, if f.buf 0≠recid then some (-1,s) else env.records loader s⟩

def load : Loader → State → Step
  | .cebin => loadCebin env file
  | .elf => loadElf env file
  | .ecoff => loadEcoff env file
  | .s3 => loadXx env file .s3 83
  | .fast => loadXx env file .fast 47

def chain : List Loader → State → List Step
  | [], _ => []
  | l::ls, s =>
    load env file l s ::
      match (load env file l s).result with
      | some (-1,s) => chain ls s
      | _ => []

structure StepOk (st : Step) : Prop where
  header : ∀ s, st.seen=some s →
    readCells s.buf 0 st.loader.sizeof=file.take st.loader.sizeof
  position : ∀ s, st.result=some (-1,s) → s.pos=s.n

def ChainOk : Prop := ∀ buf, ∀ st ∈ chain env file loaders ⟨buf,0,0⟩, StepOk file st

def IsCe : Prop :=
  env.host.big=false ∧ file.take 7=ceSignature ∧
    CeImage env.monitor env.flags env.stack (file.drop 7)

def elfMagic : List UInt8 := [0x7f,0x45,0x4c,0x46]

def IsElf : Prop :=
  52≤file.length ∧ file.take 4=elfMagic ∧
    ∀ o, ElfBoot.loadElf (env.ops file) env.monitor env.host env.flags (file.take 52) 52=some o →
      o.value ≠ .entry 0xffffffff

variable {file}

structure Held (file : List UInt8) (s : State) : Prop where
  holds : Holds s.buf 0 (file.take s.n)
  pos : s.pos=s.n
  le : s.n≤file.length

inductive Fill (file : List UInt8) (size : ℕ) (s : State) : Bool × State → Prop where
  | full {s' : State} (hn : s'.n=size) (hlen : s.n<size → size-s.n≤(file.drop s.pos).length)
      (hkept : ∀ q, q<s.n ∨ size≤q → s'.buf q=s.buf q)
      (hheld : Held file s → Held file s') : Fill file size s (true,s')
  | short {s' : State} (hn : s'.n=s.n) (hlen : (file.drop s.pos).length<size-s.n)
      (hkept : ∀ q, q<s.n ∨ size≤q → s'.buf q=s.buf q)
      (hpos : s'.pos=s.pos+(file.drop s.pos).length) : Fill file size s (false,s')

theorem Held.read {s : State} (h : Held file s) {size : ℕ} (hn : s.n ≤ size)
    (hlen : size-s.n≤(file.drop s.pos).length) :
    Held file ⟨applyWrites (writesAt s.n ((file.drop s.pos).take (size-s.n))) s.buf,size,
      s.pos+(size-s.n)⟩ := by
  have hle := h.le
  rw [h.pos,length_drop] at hlen
  have hlength : (file.take s.n).length=s.n := by
    rw [length_take,Nat.min_eq_left h.le]
  have hsplit : file.take size=file.take s.n++(file.drop s.n).take (size-s.n) := by
    rw [←take_add,Nat.add_sub_cancel' hn]
  refine ⟨?_,?_,?_⟩
  · rw [hsplit,ByteStore.holds_append,h.pos,hlength,Nat.zero_add]
    refine ⟨h.holds.applyWrites_writesAt _ _ (Or.inl (by rw [hlength,Nat.zero_add])),?_⟩
    exact ByteStore.holds_applyWrites_writesAt _ _ _
  · dsimp only
    rw [h.pos]
    omega
  · dsimp only
    omega

theorem fill_fill {size : ℕ} {s : State} (hn : s.n ≤ size) :
    ∃ r, fill env file size s=some r ∧ Fill file size s r := by
  unfold fill
  by_cases hlt : s.n<size
  · rw [if_pos hlt]
    unfold Env.ops device
    dsimp only
    rw [if_neg (by omega),Option.map_some,Int.toNat_natCast]
    have hkept : ∀ q, q<s.n ∨ size≤q →
        place s.n [⟨0,((file.drop s.pos).take (size-s.n)).length,
          (file.drop s.pos).take (size-s.n)⟩] s.buf q=s.buf q := by
      intro q hq
      refine ByteStore.applyWrites_writesAt_of_outside _ _ _ ?_
      rw [length_take]
      dsimp only
      omega
    by_cases hlen : size-s.n≤(file.drop s.pos).length
    · have hlength : ((file.drop s.pos).take (size-s.n)).length=size-s.n := by
        rw [length_take,Nat.min_eq_left hlen]
      refine ⟨_,rfl,?_⟩
      rw [if_pos (by rw [hlength])]
      refine .full rfl (fun _ => hlen) hkept fun h => ?_
      rw [hlength]
      exact h.read hn hlen
    · have hlength : ((file.drop s.pos).take (size-s.n)).length=(file.drop s.pos).length := by
        rw [length_take,Nat.min_eq_right (by omega)]
      refine ⟨_,rfl,?_⟩
      dsimp only
      rw [if_neg (by omega)]
      exact .short rfl (not_le.mp hlen) hkept (by rw [hlength])
  · rw [if_neg hlt]
    exact ⟨_,rfl,.full (by omega) (fun h => absurd h hlt) (fun _ _ => rfl) id⟩

theorem Held.readCells_eq {s : State} (h : Held file s) : readCells s.buf 0 s.n=file.take s.n :=
  h.holds.readCells_eq (by rw [length_take,Nat.min_eq_left h.le])

theorem held_start (file : List UInt8) (buf : ℕ → UInt8) : Held file ⟨buf,0,0⟩ :=
  ⟨trivial,rfl,Nat.zero_le _⟩

variable {env}

theorem loadCebin_short {s s' : State} (hlittle : env.host.big=false)
    (hr : fill env file 7 s=some (false,s')) :
    loadCebin env file s=⟨.cebin,none,some (-1,s')⟩ := by
  rw [loadCebin,if_neg (by simp [hlittle]),hr]

theorem loadCebin_other {s s' : State} (hlittle : env.host.big=false)
    (hr : fill env file 7 s=some (true,s')) (hsig : readCells s'.buf 0 7≠ceSignature) :
    loadCebin env file s=⟨.cebin,some s',some (-1,s')⟩ := by
  rw [loadCebin,if_neg (by simp [hlittle]),hr]
  dsimp only
  rw [if_pos hsig]

theorem loadCebin_signed {s s' : State} (hlittle : env.host.big=false)
    (hr : fill env file 7 s=some (true,s')) (hsig : readCells s'.buf 0 7=ceSignature) :
    loadCebin env file s=⟨.cebin,some s',
      (cebinImage (env.ops file) env.monitor (file.length+1) env.flags env.stack s'.pos).map
        fun (value,pos) => (value,{s' with pos := pos})⟩ := by
  rw [loadCebin,if_neg (by simp [hlittle]),hr]
  dsimp only
  rw [if_neg (not_not.mpr hsig)]

theorem cebinImage_failed_iff : (∃ p, cebinImage (env.ops file) env.monitor (file.length+1)
      env.flags env.stack 7=some (-1,p)) ↔
    ¬CeImage env.monitor env.flags env.stack (file.drop 7) :=
  CeBoot.cebinImage_failed_iff env.monitor file env.seek env.flags env.stack
    (by rw [length_drop]; omega)

theorem loadCebin_of_isCe (h : IsCe env file) (buf : ℕ → UInt8) :
    StepOk file (loadCebin env file ⟨buf,0,0⟩) ∧
      ∀ s, (loadCebin env file ⟨buf,0,0⟩).result≠some (-1,s) := by
  obtain ⟨hlittle,hsig,himage⟩ := h
  have hlen : 7≤file.length := by
    have := congrArg List.length hsig
    rw [length_take] at this
    simp only [ceSignature,length_cons,length_nil] at this
    omega
  obtain ⟨r,hr,hfill⟩ := @fill_fill _ env file 7 ⟨buf,0,0⟩ (Nat.zero_le 7)
  cases hfill with
  | short _ hshort _ _ =>
    rw [length_drop] at hshort
    dsimp only at hshort
    omega
  | @full s' hn _ _ hheld =>
    have hs := hheld (held_start file buf)
    have hcells : readCells s'.buf 0 7=ceSignature := by
      rw [←hsig,←hn]
      exact hs.readCells_eq
    rw [loadCebin_signed hlittle hr hcells]
    have hnot : ∀ t, Option.map (fun x : ℤ × ℕ => (x.1,{s' with pos := x.2}))
        (cebinImage (env.ops file) env.monitor (file.length+1) env.flags env.stack s'.pos) ≠
          some (-1,t) := by
      intro t ht
      obtain ⟨⟨value,p⟩,hv,hp⟩ := Option.map_eq_some_iff.mp ht
      have hvalue : value = -1 := congrArg Prod.fst hp
      rw [hvalue,hs.pos,hn] at hv
      exact cebinImage_failed_iff.mp ⟨p,hv⟩ himage
    refine ⟨⟨?_,fun t ht => absurd ht (hnot t)⟩,hnot⟩
    intro t ht
    cases ht
    exact hcells.trans hsig.symm

theorem loadCebin_of_other (hlen : 7≤file.length) (hsig : file.take 7≠ceSignature)
    (buf : ℕ → UInt8) : StepOk file (loadCebin env file ⟨buf,0,0⟩) ∧
      ∃ s, (loadCebin env file ⟨buf,0,0⟩).result=some (-1,s) ∧ Held file s ∧ s.n≤7 := by
  by_cases hbig : env.host.big=true
  · rw [loadCebin,if_pos hbig]
    exact ⟨⟨nofun,fun s hs => by cases hs; rfl⟩,_,rfl,held_start file buf,Nat.zero_le 7⟩
  · have hlittle : env.host.big=false := by simpa using hbig
    obtain ⟨r,hr,hfill⟩ := @fill_fill _ env file 7 ⟨buf,0,0⟩ (Nat.zero_le 7)
    cases hfill with
    | short _ hshort _ _ =>
      rw [length_drop] at hshort
      dsimp only at hshort
      omega
    | @full s' hn _ _ hheld =>
      have hs := hheld (held_start file buf)
      have hcells : readCells s'.buf 0 7=file.take 7 := by
        rw [←hn]
        exact hs.readCells_eq
      rw [loadCebin_other hlittle hr (hcells ▸ hsig)]
      refine ⟨⟨fun t ht => ?_,fun t ht => ?_⟩,s',rfl,hs,hn.le⟩
      · cases ht
        exact hcells
      · cases ht
        exact hs.pos

def Lost (file : List UInt8) (s : State) : Prop :=
  0<s.n ∧ s.buf 0=0x42 ∨ (file.drop s.pos).length<52-s.n

theorem loadCebin_of_not_isCe (h : ¬IsCe env file) (buf : ℕ → UInt8) :
    ∃ s, (loadCebin env file ⟨buf,0,0⟩).result=some (-1,s) ∧ s.n≤7 ∧
      (∀ q, 52≤q → s.buf q=buf q) ∧ (Held file s ∨ Lost file s) := by
  by_cases hbig : env.host.big=true
  · rw [loadCebin,if_pos hbig]
    exact ⟨_,rfl,Nat.zero_le 7,fun _ _ => rfl,Or.inl (held_start file buf)⟩
  · have hlittle : env.host.big=false := by simpa using hbig
    obtain ⟨r,hr,hfill⟩ := @fill_fill _ env file 7 ⟨buf,0,0⟩ (Nat.zero_le 7)
    cases hfill with
    | @short s' hn hshort hkept hpos =>
      rw [loadCebin_short hlittle hr]
      refine ⟨s',rfl,by rw [hn]; exact Nat.zero_le 7,fun q hq => hkept q (Or.inr (by omega)),
        Or.inr (Or.inr ?_)⟩
      rw [hpos,hn,length_drop,length_drop]
      omega
    | @full s' hn _ hkept hheld =>
      have hs := hheld (held_start file buf)
      have hcells : readCells s'.buf 0 7=file.take 7 := by
        rw [←hn]
        exact hs.readCells_eq
      have hkept' : ∀ q, 52≤q → s'.buf q=buf q := fun q hq => hkept q (Or.inr (by omega))
      by_cases hsig : file.take 7=ceSignature
      · have himage : ¬CeImage env.monitor env.flags env.stack (file.drop 7) :=
          fun hi => h ⟨hlittle,hsig,hi⟩
        obtain ⟨p,hp⟩ := cebinImage_failed_iff.mpr himage
        rw [loadCebin_signed hlittle hr (hcells.trans hsig),hs.pos,hn,hp]
        refine ⟨_,rfl,le_rfl,hkept',Or.inr (Or.inl ⟨by dsimp only; omega,?_⟩)⟩
        have hfirst := congrArg head? (hcells.trans hsig)
        exact Option.some.inj hfirst
      · rw [loadCebin_other hlittle hr (hcells ▸ hsig)]
        exact ⟨s',rfl,hn.le,hkept',Or.inl hs⟩

theorem magic_ofBytes (big : Bool) (bytes : List UInt8) :
    (Ehdr.ofBytes big bytes).magic=true ↔ bytes.take 4=elfMagic := by
  unfold Ehdr.magic Ehdr.ofBytes
  rw [take_take,beq_iff_eq]
  rfl

theorem loadPhtab_value {host : Host} {flags : BootFlags} {M : Monitor σ} {ops : NetOps ℕ}
    {ep : Ehdr} {pos : ℕ} {o : ElfBoot.Outcome}
    (h : ElfBoot.loadPhtab ops M host flags ep pos=some o) : o.value ≠ .notElf := by
  unfold ElfBoot.loadPhtab at h
  split at h
  · cases h
    exact nofun
  split at h
  · cases h
  · cases h
    exact nofun
  unfold ElfBoot.loadImage at h
  dsimp only at h
  split at h
  · cases h
  split at h
  · cases h
    exact nofun
  · obtain ⟨⟨loaded,f,segs⟩,-,rfl⟩ := Option.map_eq_some_iff.mp h
    cases loaded <;> exact nofun

theorem elfBoot_header {host : Host} {flags : BootFlags} {M : Monitor σ} {ops : NetOps ℕ}
    {bytes : List UInt8} (hlen : 52≤bytes.length) (pos : ℕ) :
    (bytes.take 4≠elfMagic → ElfBoot.loadElf ops M host flags bytes pos=some ⟨.notElf,[],[]⟩) ∧
    (bytes.take 4=elfMagic → ∀ o, ElfBoot.loadElf ops M host flags bytes pos=some o →
      o.value ≠ .notElf) := by
  have hheader : ElfBoot.readHeader ops bytes pos=some (some bytes,pos) := by
    have hfull : ¬bytes.length<ElfBoot.sizeofEhdr := not_lt.mpr hlen
    rw [ElfBoot.readHeader,if_neg hfull]
  unfold ElfBoot.loadElf
  rw [hheader]
  dsimp only
  constructor
  · intro hmagic
    have hfalse : (Ehdr.ofBytes host.big bytes).magic=false := by
      rw [Bool.eq_false_iff]
      exact fun h => hmagic ((magic_ofBytes host.big bytes).mp h)
    rw [if_pos hfalse]
  · intro hmagic o ho
    have htrue := (magic_ofBytes host.big bytes).mpr hmagic
    rw [if_neg (by simp [htrue])] at ho
    split_ifs at ho
    · cases ho
      exact nofun
    · cases ho
      exact nofun
    · cases ho
      exact nofun
    · cases ho
      exact nofun
    · exact loadPhtab_value ho

theorem elfResult_eq_neg_one_iff (s : State) (v : ElfBoot.Value) :
    (elfResult env s v).1 = -1 ↔ v = .notElf ∨ v = .entry 0xffffffff := by
  cases v with
  | notElf => exact iff_of_true rfl (Or.inl rfl)
  | invalid => exact iff_of_false (fun h => by simp [elfResult] at h) (by simp)
  | entry addr =>
    unfold elfResult
    rw [CeBoot.int32_eq_neg_one_iff]
    simp

theorem loadElf_short {s s' : State} (hr : fill env file 52 s=some (false,s')) :
    loadElf env file s=⟨.elf,none,some (-1,s')⟩ := by
  rw [loadElf,hr]

theorem loadElf_full {s s' : State} (hr : fill env file 52 s=some (true,s')) :
    loadElf env file s=⟨.elf,some s',
      (ElfBoot.loadElf (env.ops file) env.monitor env.host env.flags (readCells s'.buf 0 s'.n)
        s'.pos).map fun o => elfResult env s' o.value⟩ := by
  rw [loadElf,hr]

theorem loadElf_of_isElf (h : IsElf env file) {s : State} (hs : Held file s) (hn : s.n≤52) :
    StepOk file (loadElf env file s) ∧ ∀ t, (loadElf env file s).result≠some (-1,t) := by
  obtain ⟨hlen,hmagic,hentry⟩ := h
  obtain ⟨r,hr,hfill⟩ := @fill_fill _ env file 52 s hn
  cases hfill with
  | short _ hshort _ _ =>
    rw [length_drop,hs.pos] at hshort
    omega
  | @full s' hn' _ _ hheld =>
    have hs' := hheld hs
    have hcells : readCells s'.buf 0 s'.n=file.take 52 := by
      rw [hs'.readCells_eq,hn']
    have hheader : 52≤(file.take 52).length := by
      rw [length_take,Nat.min_eq_left hlen]
    have hmagic' : (file.take 52).take 4=elfMagic := by
      rw [take_take]
      exact hmagic
    have hnot : ∀ t, (loadElf env file s).result≠some (-1,t) := by
      intro t ht
      rw [loadElf_full hr,hcells,hs'.pos,hn'] at ht
      obtain ⟨o,ho,hv⟩ := Option.map_eq_some_iff.mp ht
      rcases (elfResult_eq_neg_one_iff s' o.value).mp (congrArg Prod.fst hv) with hvalue | hvalue
      · exact (elfBoot_header hheader 52).2 hmagic' o ho hvalue
      · exact hentry o ho hvalue
    refine ⟨⟨fun t ht => ?_,fun t ht => absurd ht (hnot t)⟩,hnot⟩
    rw [loadElf_full hr] at ht ⊢
    cases ht
    rw [hn'] at hcells
    exact hcells

theorem loadElf_of_not_isElf (h : ¬IsElf env file) {s : State} (hn : s.n≤7)
    (hs : Held file s ∨ Lost file s) :
    ∃ t, (loadElf env file s).result=some (-1,t) ∧ t.n≤52 ∧ ∀ q, 52≤q → t.buf q=s.buf q := by
  obtain ⟨r,hr,hfill⟩ := @fill_fill _ env file 52 s (by omega)
  cases hfill with
  | @short s' hn' _ hkept _ =>
    rw [loadElf_short hr]
    exact ⟨s',rfl,by omega,fun q hq => hkept q (Or.inr hq)⟩
  | @full s' hn' hlen hkept hheld =>
    have hkept' : ∀ q, 52≤q → s'.buf q=s.buf q := fun q hq => hkept q (Or.inr hq)
    have hlength : 52≤(readCells s'.buf 0 s'.n).length := by
      rw [ByteStore.length_readCells,hn']
    rw [loadElf_full hr]
    by_cases hmagic : (readCells s'.buf 0 s'.n).take 4=elfMagic
    · have hs' : Held file s' := by
        rcases hs with hs | ⟨hpos,hbyte⟩ | hshort
        · exact hheld hs
        · -- the first byte is still that of a CE signature
          have hfirst : s'.buf 0=0x7f := by
            have hhead := congrArg head? hmagic
            rw [hn'] at hhead
            exact Option.some.inj hhead
          rw [hkept 0 (Or.inl hpos),hbyte] at hfirst
          exact absurd hfirst (by decide)
        · exact absurd (hlen (by omega)) (not_le.mpr hshort)
      have hcells : readCells s'.buf 0 s'.n=file.take 52 := by
        rw [hs'.readCells_eq,hn']
      have hfile : file.take 4=elfMagic := by
        rw [hcells,take_take] at hmagic
        exact hmagic
      obtain ⟨o,ho,hvalue⟩ : ∃ o, ElfBoot.loadElf (env.ops file) env.monitor env.host env.flags
          (file.take 52) 52=some o ∧ o.value = .entry 0xffffffff := by
        by_contra hnone
        exact h ⟨hn' ▸ hs'.le,hfile,fun o ho hv => hnone ⟨o,ho,hv⟩⟩
      rw [hcells,hs'.pos,hn',ho]
      have hminus : (elfResult env s' o.value).1 = -1 :=
        (elfResult_eq_neg_one_iff s' o.value).mpr (Or.inr hvalue)
      refine ⟨(elfResult env s' o.value).2,congrArg some (Prod.ext hminus rfl),?_,?_⟩
      · rw [hvalue]
        exact hn'.le
      · rw [hvalue]
        exact hkept'
    · rw [(elfBoot_header hlength s'.pos).1 hmagic]
      exact ⟨s',rfl,hn'.le,hkept'⟩

theorem chain_cons_failed {l : Loader} {ls : List Loader} {s t : State}
    (h : (load env file l s).result=some (-1,t)) :
    chain env file (l::ls) s=load env file l s :: chain env file ls t := by
  rw [chain,h]
  rfl

theorem chain_cons_kept {l : Loader} {ls : List Loader} {s : State}
    (h : ∀ t, (load env file l s).result≠some (-1,t)) :
    chain env file (l::ls) s=[load env file l s] := by
  rw [chain]
  congr 1
  split
  · next t ht => exact absurd ht (h t)
  · rfl

theorem loadEcoff_seen {s : State} (hn : s.n≤52) :
    (loadEcoff env file s).loader = .ecoff ∧ (loadEcoff env file s).seen=some s := by
  have hfill : fillEcoff env file s=some (true,s) := by
    rw [fillEcoff,if_neg (by omega)]
  rw [loadEcoff,hfill]
  exact ⟨rfl,rfl⟩

theorem readCells_ne_take {buf : ℕ → UInt8} (h : ∀ b, file[75]?=some b → buf 75≠b) :
    readCells buf 0 76≠file.take 76 := by
  intro heq
  have hlength := congrArg List.length heq
  rw [ByteStore.length_readCells,length_take] at hlength
  have hbyte : file[75]?=some (buf 75) := by
    rw [←getElem?_take_of_lt (by omega : 75<76),←heq]
    rfl
  exact h _ hbyte rfl

theorem not_chainOk (hce : ¬IsCe env file) (helf : ¬IsElf env file) : ¬ChainOk env file := by
  intro h
  -- a buffer that differs from the file where nothing is read
  let buf : ℕ → UInt8 := fun _ => file.getD 75 0+1
  obtain ⟨s,hs,hsn,hsbuf,hstate⟩ := loadCebin_of_not_isCe hce buf
  obtain ⟨t,ht,htn,htbuf⟩ := loadElf_of_not_isElf helf hsn hstate
  have hmem : loadEcoff env file t ∈ chain env file loaders ⟨buf,0,0⟩ := by
    unfold loaders
    rw [chain_cons_failed (l := .cebin) hs,chain_cons_failed (l := .elf) ht]
    exact mem_cons_of_mem _ (mem_cons_of_mem _ mem_cons_self)
  have hheader := (h buf _ hmem).header t (loadEcoff_seen htn).2
  rw [(loadEcoff_seen htn).1] at hheader
  refine readCells_ne_take (fun b hb hbyte => ?_) hheader
  rw [htbuf 75 (by omega),hsbuf 75 (by omega)] at hbyte
  have hsame : file.getD 75 0=b := by
    rw [getD_eq_getElem?_getD,hb,Option.getD_some]
  have hsucc : b+1=b := by
    rw [←hsame]
    exact hbyte.trans hsame.symm
  exact absurd hsucc (by simp)

theorem chainOk_of_isCe (hce : IsCe env file) : ChainOk env file := by
  intro buf st hst
  obtain ⟨hok,hkept⟩ := loadCebin_of_isCe hce buf
  unfold loaders at hst
  rw [chain_cons_kept (l := .cebin) hkept] at hst
  rw [mem_singleton.mp hst]
  exact hok

theorem chainOk_of_isElf (helf : IsElf env file) : ChainOk env file := by
  intro buf st hst
  have hsig : file.take 7≠ceSignature := by
    intro hsig
    have hmagic := helf.2.1
    have hfour : file.take 4=ceSignature.take 4 := by
      rw [←hsig,take_take]
      rfl
    rw [hfour] at hmagic
    exact absurd hmagic (by decide)
  obtain ⟨hok,s,hs,hheld,hsn⟩ := @loadCebin_of_other _ env file (by have := helf.1; omega) hsig buf
  obtain ⟨hok',hkept⟩ := loadElf_of_isElf helf hheld (by omega)
  unfold loaders at hst
  rw [chain_cons_failed (l := .cebin) hs,chain_cons_kept (l := .elf) hkept] at hst
  rcases mem_cons.mp hst with rfl | hst
  · exact hok
  · rw [mem_singleton.mp hst]
    exact hok'

/-- Headers and positions are right exactly for CE images that load and ELF files. -/
theorem chainOk_iff (env : Env σ) (file : List UInt8) :
    ChainOk env file ↔ IsCe env file ∨ IsElf env file := by
  constructor
  · intro h
    by_contra hnone
    obtain ⟨hce,helf⟩ := not_or.mp hnone
    exact not_chainOk hce helf h
  · rintro (hce | helf)
    · exact chainOk_of_isCe hce
    · exact chainOk_of_isElf helf
end

def bareEnv : Env Unit where
  host := ⟨true,true,true⟩
  cpu := .r3000
  monitor := ⟨0,0,0,0,0, fun s _ _ => some s⟩
  flags := ⟨false,false,false⟩
  seek := fun _ offs => (offs, offs.toNat)
  stack := 0
  symPos := 0
  records := fun _ _ => none

def ecoffFile : List UInt8 :=
  [0x01,0x60]++List.replicate 18 0++[0x01,0x07]++List.replicate 78 1

theorem chainOk_ecoff : ¬ChainOk bareEnv ecoffFile :=
  not_chainOk (fun h => absurd h.1 (by decide)) (fun h => absurd h.2.1 (by decide))

end Pmon.BootChain
