import Pmon.ByteStore
import Pmon.ElfBoot

/-!
# When a booted ELF file is complete in memory

`bootclear` may have refused, a `p_filesz` of 2³¹ or more reads no byte, and a segment at the last
file offset is never found. For disjoint segments these are the only reasons.
-/

namespace Pmon.ElfBoot
open List
open LoadFn (Monitor u32 k0ToPhys K0BASE K0SIZE K2BASE)
open Tftp (Copy int32)
open ByteStore (applyWrites applyWrites_of_forall_ne applyWrites_of_mem)
variable {w : ℕ × UInt8} {j : ℕ}

def fileOps (contents : List UInt8) : NetOps ℕ where
  netread pos n :=
    if n<0 then some ⟨-1,pos,[]⟩
    else
      let bytes := (contents.drop pos).take n.toNat
      some ⟨bytes.length,pos+bytes.length,[⟨0,bytes.length,bytes⟩]⟩
  netlseek pos offs := if offs<0 then (-1,pos) else (offs, offs.toNat)

theorem fileOps_netread (contents : List UInt8) (pos : ℕ) (n : ℤ) :
    (fileOps contents).netread pos n = if n<0 then some ⟨-1,pos,[]⟩
      else some ⟨((contents.drop pos).take n.toNat).length,
        pos+((contents.drop pos).take n.toNat).length,
        [⟨0,((contents.drop pos).take n.toNat).length,(contents.drop pos).take n.toNat⟩]⟩ := rfl

theorem fileOps_netlseek (contents : List UInt8) (pos : ℕ) (offs : ℤ) :
    (fileOps contents).netlseek pos offs = if offs<0 then (-1,pos) else (offs, offs.toNat) := rfl

def cell (va : ℕ) : ℕ := if K0BASE≤va ∧ va<K2BASE then k0ToPhys va else 2^32+va

def Store.writes (s : Store) : List (ℕ × UInt8) :=
  s.bytes.mapIdx fun j b => (cell ((s.addr+j)%2^32),b)

def Segment.writes (seg : Segment) : List (ℕ × UInt8) := seg.stores.flatMap Store.writes

def Outcome.memory (o : Outcome) (mem : ℕ → UInt8) : ℕ → UInt8 :=
  applyWrites (o.segments.flatMap Segment.writes) mem

def Phdr.cellAt (ph : Phdr) (j : ℕ) : ℕ := cell ((ph.vaddr.toNat+j)%2^32)
def Phdr.extent (ph : Phdr) : ℕ := max ph.filesz.toNat ph.memsz.toNat

def Phdr.Disjoint (p q : Phdr) : Prop :=
  ∀ i<p.extent, ∀ j<q.extent, p.cellAt i≠q.cellAt j

def loadables (phtab : List Phdr) : List Phdr := phtab.filter (·.type=ptLoad)

structure Complete (contents : List UInt8) (phtab : List Phdr) (mem mem' : ℕ → UInt8) : Prop where
  file : ∀ ph∈loadables phtab, ∀ j < ph.filesz.toNat,
    contents[ph.offset.toNat+j]?=some (mem' (ph.cellAt j))
  bss : ∀ ph∈loadables phtab, ∀ j, ph.filesz.toNat≤j → j < ph.memsz.toNat →
    mem' (ph.cellAt j)=0
  frame : ∀ c, (∀ ph∈loadables phtab, ∀ j<ph.extent, ph.cellAt j≠c) → mem' c=mem c

def Phdr.Clears {σ : Type} (M : Monitor σ) (ph : Phdr) : Prop :=
  ph.memsz.toNat - ph.filesz.toNat<2^31 ∧
    M.refusal (u32 (ph.vaddr.toNat + ph.filesz.toNat)) (ph.memsz.toNat - ph.filesz.toNat)=none

structure Phdr.Sound {σ : Type} (M : Monitor σ) (ph : Phdr) : Prop where
  offset : 0<ph.extent → ph.offset≠0xffffffff
  filesz : ph.filesz.toNat<2^31
  memsz : ph.filesz<ph.memsz → ph.Clears M

theorem filter_set_perm {α : Type} {p : α → Bool} {l : List α} {i : ℕ} {a b : α}
    (hget : l[i]?=some a) (ha : p a=true) (hb : p b=false) :
    (l.filter p).Perm (a::(l.set i b).filter p) := by
  induction l generalizing i with
  | nil => simp at hget
  | cons x l ih =>
    cases i with
    | zero =>
      have hx : x=a := by simpa using hget
      subst hx
      simp [ha,hb]
    | succ i =>
      have hperm := ih (by simpa using hget)
      rw [set_cons_succ,filter_cons,filter_cons]
      split
      · exact (hperm.cons x).trans (List.Perm.swap _ _ _)
      · exact hperm

theorem loadSegments_perm {φ σ : Type} {ops : NetOps φ} {M : Monitor σ} {fuel : ℕ} {f f' : φ}
    {phtab : List Phdr} {segs : List Segment}
    (h : loadSegments ops M fuel f phtab=some (true,f',segs)) :
    (segs.map (·.ph)).Perm (phtab.filter (·.Selectable)) := by
  induction fuel generalizing f phtab segs with
  | zero => cases h
  | succ fuel ih =>
    unfold loadSegments at h
    rcases nearest_cases phtab 0 0xffffffff none with ⟨k,ph,hfound,hget,hsel⟩ | ⟨hnone,hall⟩
    · rw [Nat.zero_add] at hfound
      rw [hfound] at h
      dsimp only at h
      split at h
      · cases h
      · cases h
      · rename_i hseg
        rw [Option.map_eq_some_iff] at h
        obtain ⟨⟨ok,f₁,rest⟩,hrest,heq⟩ := h
        cases heq
        have hset := filter_set_perm (p := fun ph : Phdr => decide ph.Selectable)
          (b := {ph with type := ptNull}) hget (decide_eq_true hsel)
          (decide_eq_false fun hnull => by simp [Phdr.Selectable,ptNull,ptLoad] at hnull)
        rw [map_cons,(loadSegment_loading hseg).1]
        exact ((ih hrest).cons ph).trans hset.symm
    · rw [hnone] at h
      cases h
      rw [filter_eq_nil_iff.mpr]
      · exact List.Perm.nil
      · intro ph hph hsel
        exact hall ph hph (of_decide_eq_true hsel)

section
variable {σ : Type} {M : Monitor σ} {contents : List UInt8} {ph : Phdr}

inductive Writes (M : Monitor σ) (contents : List UInt8) (ph : Phdr) : ℕ × UInt8 → Prop
  | file {j : ℕ} {b : UInt8} (hj : j < ph.filesz.toNat) (hsize : ph.filesz.toNat<2^31)
    (hb : contents[ph.offset.toNat+j]?=some b) : Writes M contents ph (ph.cellAt j,b)
  | bss {j : ℕ} (hlow : ph.filesz.toNat≤j) (hhigh : j < ph.memsz.toNat)
    (hclear : ph.Clears M) : Writes M contents ph (ph.cellAt j,0)

theorem Writes.inside (h : Writes M contents ph w) : ∃ j<ph.extent, w.1=ph.cellAt j := by
  unfold Phdr.extent
  cases h with
  | @file j _ hj _ _ => exact ⟨j,by omega,rfl⟩
  | @bss j _ hhigh _ => exact ⟨j,by omega,rfl⟩

structure FileLoaded (M : Monitor σ) (contents : List UInt8) (ph : Phdr) : Prop where
  accepted : ph.filesz≠0 → ph.filesz.toNat<2^31 → Accepted M ph.vaddr.toNat ph.filesz.toNat
  negative : 2^31 ≤ ph.filesz.toNat → ph.filesz.toNat=0xffffffff ∨
    Accepted M ph.vaddr.toNat (ph.filesz.toNat-2^32)
  long : ph.filesz.toNat<2^31 → ∀ j < ph.filesz.toNat, ∃ b,
    contents[ph.offset.toNat+j]?=some b

theorem fileOps_seek {pos pos' : ℕ} {offs : UInt32} (hoffs : offs<0xffffffff)
    (h : seekExact (fileOps contents) pos offs=(true,pos')) : pos' = offs.toNat := by
  have hlt : offs.toNat<0xffffffff := by simpa using UInt32.lt_iff_toNat_lt.mp hoffs
  rw [seekExact_eq,fileOps_netlseek,Prod.mk.injEq,decide_eq_true_eq] at h
  obtain ⟨hvalue,hpos⟩ := h
  rw [←hpos]
  clear hpos
  by_cases hneg : int32 offs.toNat<0
  · -- the value -1 could only equal the offset that the search leaves out
    rw [if_pos hneg] at hvalue ⊢
    unfold u32 at hvalue
    omega
  · rw [if_neg hneg] at hvalue ⊢
    unfold u32 int32 at *
    omega

theorem fileOps_read {stores : List Store} (h : ReadSegment (fileOps contents) M ph true stores)
    (hoffs : ph.offset<0xffffffff) :
    FileLoaded M contents ph ∧ stores = if 2^31 ≤ ph.filesz.toNat ∨ ph.filesz=0 then []
      else [⟨ph.vaddr.toNat, ph.filesz.toNat,
        (contents.drop ph.offset.toNat).take ph.filesz.toNat⟩] := by
  have hmax : u32 (-1)=0xffffffff := by
    unfold u32
    omega
  have hfilesz := ph.filesz.toNat_lt
  have hvaddr := ph.vaddr.toNat_lt
  cases h with
  | empty hzero =>
    refine ⟨⟨fun hne => absurd hzero hne,?_,?_⟩,by rw [if_pos (Or.inr hzero)]⟩
    · intro hlarge
      rw [hzero] at hlarge
      exact absurd hlarge (by decide)
    · intro _ j hj
      rw [hzero] at hj
      exact absurd hj (Nat.not_lt_zero j)
  | refused hsize hloaded =>
    have hall := hloaded.mp rfl
    rw [hmax] at hall
    exact ⟨⟨fun _ _ => by omega,fun _ => Or.inl hall.symm,fun _ => by omega⟩,
      by rw [if_pos (Or.inl (by omega))]⟩
  | @read f f' r _ hsize hseek haccept hread hloaded =>
    have hpos := fileOps_seek hoffs hseek
    have hvalue := hloaded.mp rfl
    rw [fileOps_netread] at hread
    by_cases hcount : ph.filesz.toNat<2^31
    · rw [Tftp.int32_eq (by omega) (by omega)] at haccept hread hvalue
      rw [if_neg (by omega),Int.toNat_natCast,hpos,Option.some.injEq] at hread
      rw [←hread] at hvalue ⊢
      dsimp only at hvalue ⊢
      set bytes := (contents.drop ph.offset.toNat).take ph.filesz.toNat with hbytes
      have hlen : bytes.length = ph.filesz.toNat := by
        have hle : bytes.length ≤ ph.filesz.toNat := length_take_le _ _
        by_contra hshort
        rw [if_pos (by omega),hmax] at hvalue
        omega
      refine ⟨⟨fun _ _ => haccept,fun hlarge => absurd hlarge (by omega),?_⟩,?_⟩
      · intro _ j hj
        obtain ⟨b,hb⟩ : ∃ b, bytes[j]?=some b := ⟨_,getElem?_eq_getElem (by omega)⟩
        rw [hbytes,getElem?_take_of_lt hj,getElem?_drop] at hb
        exact ⟨b,hb⟩
      · rw [if_neg (not_or.mpr ⟨not_le.mpr hcount,hsize⟩),hlen]
        have hstart : u32 (ph.vaddr.toNat+0) = ph.vaddr.toNat := by
          unfold u32
          omega
        simp only [map_cons,map_nil,Store.ofCopy,hstart]
    · have hneg : int32 ph.filesz.toNat = ph.filesz.toNat-2^32 := by
        unfold int32
        omega
      rw [hneg] at haccept hread
      rw [if_pos (by omega),Option.some.injEq] at hread
      rw [←hread,if_pos (Or.inl (by omega))]
      exact ⟨⟨fun _ hlt => absurd hlt hcount,fun _ => Or.inr haccept,
        fun hlt => absurd hlt hcount⟩,rfl⟩

theorem Store.mem_writes {s : Store} :
    w∈s.writes ↔ ∃ j b, s.bytes[j]?=some b ∧ w=(cell ((s.addr+j)%2^32),b) := by
  unfold Store.writes
  rw [mem_mapIdx]
  constructor
  · rintro ⟨j,hj,rfl⟩
    exact ⟨j,_,getElem?_eq_getElem hj,rfl⟩
  · rintro ⟨j,b,hb,rfl⟩
    obtain ⟨hj,hget⟩ := List.getElem?_eq_some_iff.mp hb
    exact ⟨j,hj,by rw [hget]⟩

theorem mem_writes_copied :
    w∈(if 2^31 ≤ ph.filesz.toNat ∨ ph.filesz=0 then [] else [(⟨ph.vaddr.toNat,
      ph.filesz.toNat,(contents.drop ph.offset.toNat).take ph.filesz.toNat⟩ : Store)]).flatMap
        Store.writes ↔ ∃ j b, j < ph.filesz.toNat ∧ ph.filesz.toNat<2^31 ∧
        contents[ph.offset.toNat+j]?=some b ∧ w=(ph.cellAt j,b) := by
  split
  · rename_i hnone
    constructor
    · simp
    · rintro ⟨j,b,hj,hsize,-⟩
      rcases hnone with hlarge | hzero
      · omega
      · rw [hzero] at hj
        exact absurd hj (Nat.not_lt_zero j)
  · rename_i hsome
    rw [not_or,not_le] at hsome
    rw [flatMap_singleton,Store.mem_writes]
    constructor
    · rintro ⟨j,b,hb,rfl⟩
      have hj : j < ph.filesz.toNat := by
        by_contra hge
        rw [getElem?_take_eq_none (not_lt.mp hge)] at hb
        cases hb
      rw [getElem?_take_of_lt hj,getElem?_drop] at hb
      exact ⟨j,b,hj,hsome.1,hb,rfl⟩
    · rintro ⟨j,b,hj,-,hb,rfl⟩
      refine ⟨j,b,?_,rfl⟩
      rw [getElem?_take_of_lt hj,getElem?_drop]
      exact hb

theorem mem_writes_cleared : w∈(clearSegment M ph).flatMap Store.writes ↔
      ∃ j, ph.filesz.toNat≤j ∧ j < ph.memsz.toNat ∧ ph.Clears M ∧ w=(ph.cellAt j,0) := by
  have hmemsz := ph.memsz.toNat_lt
  unfold clearSegment
  by_cases hmore : ph.filesz<ph.memsz
  swap
  · rw [if_neg hmore]
    rw [UInt32.lt_iff_toNat_lt] at hmore
    constructor
    · simp
    · rintro ⟨j,hlow,hhigh,-⟩
      omega
  rw [if_pos hmore]
  rw [UInt32.lt_iff_toNat_lt] at hmore
  unfold bootclear
  by_cases hcount : ph.memsz.toNat - ph.filesz.toNat<2^31
  · rw [Tftp.int32_eq (by omega) (by omega)]
    by_cases hrefused : M.refusal (u32 (ph.vaddr.toNat + ph.filesz.toNat))
        (ph.memsz.toNat - ph.filesz.toNat)=none
    swap
    · rw [if_pos (Option.isSome_iff_ne_none.mpr hrefused)]
      constructor
      · simp
      · rintro ⟨j,-,-,hclear,-⟩
        exact absurd hclear.2 hrefused
    rw [if_neg (by rw [hrefused]; simp),if_pos (by omega),flatMap_singleton,
      Store.mem_writes]
    have hcell : ∀ k, cell ((u32 (ph.vaddr.toNat + ph.filesz.toNat)+k)%2^32)
        = ph.cellAt (ph.filesz.toNat+k) := by
      intro k
      unfold Phdr.cellAt u32
      congr 1
      omega
    have hcast : (ph.memsz.toNat - ph.filesz.toNat : ℤ).toNat
        = ph.memsz.toNat - ph.filesz.toNat := by omega
    rw [hcast]
    constructor
    · rintro ⟨k,b,hb,rfl⟩
      obtain ⟨hk,hzero⟩ := List.getElem?_eq_some_iff.mp hb
      rw [length_replicate] at hk
      rw [getElem_replicate] at hzero
      rw [hcell,←hzero]
      exact ⟨ph.filesz.toNat+k,by omega,by omega,⟨hcount,hrefused⟩,rfl⟩
    · rintro ⟨j,hlow,hhigh,-,rfl⟩
      refine ⟨j - ph.filesz.toNat,0,?_,?_⟩
      · rw [getElem?_replicate_of_lt (by omega)]
      · rw [hcell,Nat.add_sub_cancel' hlow]
  · have hneg : ¬0 < int32 (ph.memsz.toNat - ph.filesz.toNat) := by
      unfold int32
      omega
    rw [if_neg hneg]
    constructor
    · split
      · simp
      · simp
    · rintro ⟨j,-,-,hclear,-⟩
      exact absurd hclear.1 hcount

theorem mem_writes_iff {seg : Segment} (h : Loading (fileOps contents) M seg true)
    (hoffs : seg.ph.offset<0xffffffff) : w∈seg.writes ↔ Writes M contents seg.ph w := by
  cases h with
  | loaded hread hclear =>
    obtain ⟨-,hstores⟩ := fileOps_read hread hoffs
    unfold Segment.writes Segment.stores
    rw [flatMap_append,mem_append,hstores,hclear,mem_writes_copied,
      mem_writes_cleared]
    constructor
    · rintro (⟨j,b,hj,hsize,hb,rfl⟩ | ⟨j,hlow,hhigh,hclears,rfl⟩)
      · exact .file hj hsize hb
      · exact .bss hlow hhigh hclears
    · intro hw
      cases hw with
      | @file j b hj hsize hb => exact Or.inl ⟨j,b,hj,hsize,hb,rfl⟩
      | @bss j hlow hhigh hclears => exact Or.inr ⟨j,hlow,hhigh,hclears,rfl⟩

theorem Accepted.cell_eq {addr n : ℕ} (h : Accepted M addr n) (haddr : addr<2^32)
    (hn : n<2^31) (hj : j<n) : cell ((addr+j)%2^32)=k0ToPhys addr+j := by
  obtain ⟨hprom,htop,-⟩ := h.straight haddr hn
  have hbase := h.base
  have hmod : (addr+j)%2^32=addr+j := Nat.mod_eq_of_lt (by unfold K2BASE at htop; omega)
  rw [hmod,cell,if_pos (by omega)]
  unfold k0ToPhys K0SIZE at *
  omega

section
variable (h : FileLoaded M contents ph)
include h

theorem FileLoaded.cellAt_eq (hsize : ph.filesz.toNat<2^31) (hj : j < ph.filesz.toNat) :
    ph.cellAt j=k0ToPhys ph.vaddr.toNat+j := by
  have hne : ph.filesz≠0 := by
    intro hzero
    rw [hzero] at hj
    exact absurd hj (Nat.not_lt_zero j)
  exact (h.accepted hne hsize).cell_eq ph.vaddr.toNat_lt hsize hj

theorem FileLoaded.cellAt_ne (hsize : ph.filesz.toNat<2^31) {i : ℕ} (hi : i < ph.filesz.toNat)
    (hj : ph.filesz.toNat≤j) (hmem : j < ph.memsz.toNat)
    (hrest : j = ph.filesz.toNat ∨ ph.Clears M) : ph.cellAt i≠ph.cellAt j := by
  have hvaddr := ph.vaddr.toNat_lt
  have hne : ph.filesz≠0 := by
    intro hzero
    rw [hzero] at hi
    exact absurd hi (Nat.not_lt_zero i)
  have haccept := h.accepted hne hsize
  obtain ⟨hprom,htop,-⟩ := haccept.straight hvaddr hsize
  rw [h.cellAt_eq hsize hi]
  rcases hrest with rfl | hclear
  · unfold Phdr.cellAt cell
    split
    · unfold k0ToPhys K0SIZE K2BASE at *
      omega
    · have hphys := k0ToPhys_lt ph.vaddr.toNat
      unfold K0SIZE at hphys
      omega
  · -- the rest is accepted as well, and starts where the file part ends
    have hstart : u32 (ph.vaddr.toNat + ph.filesz.toNat) = ph.vaddr.toNat + ph.filesz.toNat := by
      unfold u32 K2BASE at *
      omega
    have hclears := accepted_of_refusal hclear.2
    rw [hstart,←Nat.cast_sub (hj.trans hmem.le)] at hclears
    have hcell := hclears.cell_eq (by unfold K2BASE at htop; omega) hclear.1
      (show j - ph.filesz.toNat < ph.memsz.toNat - ph.filesz.toNat by omega)
    have hindex : ph.vaddr.toNat + ph.filesz.toNat+(j - ph.filesz.toNat)
        = ph.vaddr.toNat+j := by omega
    rw [hindex] at hcell
    unfold Phdr.cellAt
    rw [hcell]
    unfold k0ToPhys K0SIZE at *
    omega

theorem FileLoaded.cellAt_zero_ne (hsize : 2^31 ≤ ph.filesz.toNat) (hj : ph.filesz.toNat≤j)
    (hmem : j < ph.memsz.toNat) : ph.cellAt j≠ph.cellAt 0 := by
  have hvaddr := ph.vaddr.toNat_lt
  have hmemsz := ph.memsz.toNat_lt
  rcases h.negative hsize with hall | haccept
  · omega
  have hbase := haccept.base
  have hprom := haccept.prom
  unfold Phdr.cellAt cell
  unfold u32 k0ToPhys K0BASE K0SIZE K2BASE at *
  split
  · split
    · omega
    · omega
  · split
    · omega
    · omega

theorem FileLoaded.unique {v : ℕ × UInt8} (hv : Writes M contents ph v)
    (hw : Writes M contents ph w) (hcell : v.1=w.1) :
    v.2=w.2 := by
  cases hv with
  | @file i a hi hsize ha =>
    cases hw with
    | @file j b hj _ hb =>
      rw [h.cellAt_eq hsize hi,h.cellAt_eq hsize hj] at hcell
      have hij : i=j := by omega
      rw [hij,hb] at ha
      exact (Option.some.inj ha).symm
    | @bss j hlow hhigh hclear =>
      exact absurd hcell (h.cellAt_ne hsize hi hlow hhigh (Or.inr hclear))
  | @bss i hlow hhigh hclear =>
    cases hw with
    | @file j b hj hsize _ =>
      exact absurd hcell.symm (h.cellAt_ne hsize hj hlow hhigh (Or.inr hclear))
    | bss => rfl
end
end

structure Booted {σ : Type} (M : Monitor σ) (contents : List UInt8) (o : Outcome) : Prop where
  loading : ∀ seg∈o.segments, Loading (fileOps contents) M seg true
  mem_iff : ∀ ph, (∃ seg∈o.segments, seg.ph=ph) ↔ ph∈o.phtab ∧ ph.Selectable

theorem loadElf_booted {σ : Type} {M : Monitor σ} {contents : List UInt8} {host : Host}
    {flags : BootFlags} {buf : List UInt8} {pos : ℕ} {o : Outcome} {e : UInt32}
    (h : loadElf (fileOps contents) M host flags buf pos=some o)
    (hload : flags.onlySyms=false) (hentry : o.value = .entry e) : Booted M contents o := by
  rcases loadElf_cases h with ⟨-,honly | hfail⟩ | ⟨f₁,f₂,loaded,hrun,hloaded⟩
  · rw [hload] at honly
    cases honly
  · exact absurd hentry (hfail e)
  · have htrue := hloaded.mpr ⟨e,hentry⟩
    subst htrue
    constructor
    · intro seg hseg
      rcases loadSegments_loading hrun seg hseg with hok | ⟨hfalse,-⟩
      · exact hok
      · cases hfalse
    · intro ph
      have hmem := (loadSegments_perm hrun).mem_iff (a := ph)
      rw [mem_map,mem_filter,decide_eq_true_eq] at hmem
      exact hmem

section
variable {σ : Type} {M : Monitor σ} {contents : List UInt8} {o : Outcome} {ph : Phdr}

theorem mem_loadables {phtab : List Phdr} : ph∈loadables phtab ↔ ph∈phtab ∧ ph.type=ptLoad := by
  simp [loadables]

instance : Std.Symm Phdr.Disjoint := ⟨fun _ _ hxy i hi j hj heq => hxy j hj i hi heq.symm⟩

section
variable (h : Booted M contents o)
include h

theorem Booted.fileLoaded {seg : Segment} (hseg : seg∈o.segments) :
    FileLoaded M contents seg.ph := by
  have hsel := ((h.mem_iff seg.ph).mp ⟨seg,hseg,rfl⟩).2
  cases h.loading seg hseg with
  | loaded hread _ => exact (fileOps_read hread hsel.2).1

theorem Booted.mem_writes : w∈o.segments.flatMap Segment.writes ↔
      ∃ seg∈o.segments, Writes M contents seg.ph w := by
  rw [mem_flatMap]
  refine exists_congr fun seg => and_congr_right fun hseg => ?_
  have hsel := ((h.mem_iff seg.ph).mp ⟨seg,hseg,rfl⟩).2
  exact mem_writes_iff (h.loading seg hseg) hsel.2

theorem Booted.owner (hdisjoint : (loadables o.phtab).Pairwise Phdr.Disjoint)
    (hph : ph∈loadables o.phtab) (hj : j<ph.extent) (hw : w∈o.segments.flatMap Segment.writes)
    (hcell : w.1=ph.cellAt j) :
    ∃ seg∈o.segments, seg.ph=ph ∧ Writes M contents ph w := by
  obtain ⟨seg,hseg,hwrites⟩ := h.mem_writes.mp hw
  by_cases hsame : seg.ph=ph
  · rw [hsame] at hwrites
    exact ⟨seg,hseg,hsame,hwrites⟩
  · have hsel := (h.mem_iff seg.ph).mp ⟨seg,hseg,rfl⟩
    have hmem := mem_loadables.mpr ⟨hsel.1,hsel.2.1⟩
    obtain ⟨i,hi,hwi⟩ := hwrites.inside
    exact absurd (hwi.symm.trans hcell) (hdisjoint.forall hmem hph hsame i hi j hj)

theorem Booted.memory_eq (hdisjoint : (loadables o.phtab).Pairwise Phdr.Disjoint) {seg : Segment}
    (hseg : seg∈o.segments) (hw : Writes M contents seg.ph w) (mem : ℕ → UInt8) :
    o.memory mem w.1=w.2 := by
  have hsel := (h.mem_iff seg.ph).mp ⟨seg,hseg,rfl⟩
  have hmem := mem_loadables.mpr ⟨hsel.1,hsel.2.1⟩
  obtain ⟨j,hj,hcell⟩ := hw.inside
  refine applyWrites_of_mem (h.mem_writes.mpr ⟨seg,hseg,hw⟩) ?_ mem
  intro v hv hvw
  obtain ⟨-,-,-,hwrites⟩ := h.owner hdisjoint hmem hj hv (hvw.trans hcell)
  exact (h.fileLoaded hseg).unique hwrites hw hvw

theorem Booted.complete (hdisjoint : (loadables o.phtab).Pairwise Phdr.Disjoint)
    (hsound : ∀ ph∈loadables o.phtab, ph.Sound M) (mem : ℕ → UInt8) :
    Complete contents o.phtab mem (o.memory mem) := by
  have hfound : ∀ ph∈loadables o.phtab, 0<ph.extent → ∃ seg∈o.segments, seg.ph=ph := by
    intro ph hph hpos
    have hload := mem_loadables.mp hph
    refine (h.mem_iff ph).mpr ⟨hload.1,hload.2,?_⟩
    have hne := (hsound ph hph).offset hpos
    have hlt := ph.offset.toNat_lt
    rw [UInt32.lt_iff_toNat_lt]
    rw [ne_eq,←UInt32.toNat_inj] at hne
    change ph.offset.toNat<4294967295
    change ph.offset.toNat≠4294967295 at hne
    omega
  constructor
  · intro ph hph j hj
    obtain ⟨seg,hseg,rfl⟩ := hfound ph hph (by unfold Phdr.extent; omega)
    have hsize := (hsound seg.ph hph).filesz
    obtain ⟨b,hb⟩ := (h.fileLoaded hseg).long hsize j hj
    have hval := h.memory_eq hdisjoint hseg (.file hj hsize hb) mem
    rw [hb]
    exact congrArg some hval.symm
  · intro ph hph j hlow hhigh
    obtain ⟨seg,hseg,rfl⟩ := hfound ph hph (by unfold Phdr.extent; omega)
    have hclears := (hsound seg.ph hph).memsz (UInt32.lt_iff_toNat_lt.mpr (by omega))
    exact h.memory_eq hdisjoint hseg (.bss hlow hhigh hclears) mem
  · intro c hc
    refine applyWrites_of_forall_ne ?_ mem
    intro w hw heq
    obtain ⟨seg,hseg,hwrites⟩ := h.mem_writes.mp hw
    have hsel := (h.mem_iff seg.ph).mp ⟨seg,hseg,rfl⟩
    obtain ⟨j,hj,hcell⟩ := hwrites.inside
    exact hc seg.ph (mem_loadables.mpr ⟨hsel.1,hsel.2.1⟩) j hj (hcell.symm.trans heq)
end

theorem written_of_complete (hcomplete : ∀ mem, Complete contents o.phtab mem (o.memory mem))
    (hph : ph∈loadables o.phtab) (hj : j<ph.extent) :
    ∃ w∈o.segments.flatMap Segment.writes, w.1=ph.cellAt j := by
  by_contra hnone
  have hkeep : ∀ mem : ℕ → UInt8, o.memory mem (ph.cellAt j)=mem (ph.cellAt j) :=
    applyWrites_of_forall_ne fun w hw heq => hnone ⟨w,hw,heq⟩
  by_cases hfile : j < ph.filesz.toNat
  · have hzero := (hcomplete fun _ => 0).file ph hph j hfile
    have hone := (hcomplete fun _ => 1).file ph hph j hfile
    rw [hkeep] at hzero hone
    rw [hzero] at hone
    cases hone
  · have hone := (hcomplete fun _ => 1).bss ph hph j (not_lt.mp hfile)
      (by unfold Phdr.extent at hj; omega)
    rw [hkeep] at hone
    cases hone

theorem Booted.sound (h : Booted M contents o)
    (hdisjoint : (loadables o.phtab).Pairwise Phdr.Disjoint)
    (hcomplete : ∀ mem, Complete contents o.phtab mem (o.memory mem)) :
    ∀ ph∈loadables o.phtab, ph.Sound M := by
  intro ph hph
  have howner : ∀ j<ph.extent, ∃ seg∈o.segments, seg.ph=ph ∧
      ∃ w, Writes M contents ph w ∧ w.1=ph.cellAt j := by
    intro j hj
    obtain ⟨w,hw,hcell⟩ := written_of_complete hcomplete hph hj
    obtain ⟨seg,hseg,hsame,hwrites⟩ := h.owner hdisjoint hph hj hw hcell
    exact ⟨seg,hseg,hsame,w,hwrites,hcell⟩
  have hfilesz : ph.filesz.toNat<2^31 := by
    by_contra hlarge
    obtain ⟨seg,hseg,rfl,w,hwrites,hcell⟩ := howner 0 (by unfold Phdr.extent; omega)
    cases hwrites with
    | file _ hsize _ => exact hlarge hsize
    | bss hlow hhigh _ =>
      exact (h.fileLoaded hseg).cellAt_zero_ne (not_lt.mp hlarge) hlow hhigh hcell
  constructor
  · intro hpos hmax
    obtain ⟨seg,hseg,rfl,-⟩ := howner 0 hpos
    have hsel := ((h.mem_iff seg.ph).mp ⟨seg,hseg,rfl⟩).2.2
    rw [hmax] at hsel
    exact absurd hsel (by decide)
  · exact hfilesz
  · intro hmore
    rw [UInt32.lt_iff_toNat_lt] at hmore
    obtain ⟨seg,hseg,rfl,w,hwrites,hcell⟩ :=
      howner ph.filesz.toNat (by unfold Phdr.extent; omega)
    cases hwrites with
    | file hj _ _ =>
      exact absurd hcell ((h.fileLoaded hseg).cellAt_ne hfilesz hj le_rfl hmore (Or.inl rfl))
    | bss _ _ hclears => exact hclears
end

/-- If `load_elf` returns the entry and the segments are disjoint, then memory is complete exactly
if every header is sound. -/
theorem loadElf_complete_iff {σ : Type} (M : Monitor σ) (host : Host) (flash : Bool)
    (contents buf : List UInt8) (pos : ℕ) {o : Outcome} {e : UInt32}
    (h : loadElf (fileOps contents) M host ⟨flash,true,false⟩ buf pos=some o)
    (hentry : o.value = .entry e) (hdisjoint : (loadables o.phtab).Pairwise Phdr.Disjoint) :
    (∀ mem, Complete contents o.phtab mem (o.memory mem)) ↔ ∀ ph∈loadables o.phtab, ph.Sound M :=
  have hbooted := loadElf_booted h rfl hentry
  ⟨hbooted.sound hdisjoint,hbooted.complete hdisjoint⟩

theorem loadElf_complete_small :
    ∃ o, loadElf (fileOps (oneSegment 0x80100000 4 8 [1,2,3,4])) ramMonitor leHost optionN [] 0
        = some o ∧ o.value = .entry 0x80100000 ∧
      ∀ mem, Complete (oneSegment 0x80100000 4 8 [1,2,3,4]) o.phtab mem (o.memory mem) := by
  have hrun : loadElf (fileOps (oneSegment 0x80100000 4 8 [1,2,3,4])) ramMonitor leHost
      optionN [] 0=some ⟨.entry 0x80100000,[⟨1,84,0x80100000,4,8⟩],
        [⟨⟨1,84,0x80100000,4,8⟩,[⟨0x80100000,4,[1,2,3,4]⟩],
          [⟨0x80100004,4,[0,0,0,0]⟩]⟩]⟩ := by decide +kernel
  refine ⟨_,hrun,rfl,(loadElf_complete_iff ramMonitor leHost false
    (oneSegment 0x80100000 4 8 [1,2,3,4]) [] 0 hrun rfl (pairwise_singleton _ _)).mpr ?_⟩
  intro ph hph
  have hone := mem_singleton.mp hph
  subst hone
  exact ⟨fun _ => by decide, by decide, fun _ => ⟨by decide, by decide +kernel⟩⟩

theorem loadElf_incomplete_bss :
    ∃ o, loadElf (fileOps (oneSegment 0x80100000 4 0x10000000 [1,2,3,4])) ramMonitor leHost
        optionN [] 0=some o ∧ o.value = .entry 0x80100000 ∧
      (loadables o.phtab).Pairwise Phdr.Disjoint ∧
      ¬Complete (oneSegment 0x80100000 4 0x10000000 [1,2,3,4]) o.phtab (fun _ => 1)
        (o.memory fun _ => 1) := by
  have hrun : loadElf (fileOps (oneSegment 0x80100000 4 0x10000000 [1,2,3,4])) ramMonitor
      leHost optionN [] 0=some ⟨.entry 0x80100000,[⟨1,84,0x80100000,4,0x10000000⟩],
        [⟨⟨1,84,0x80100000,4,0x10000000⟩,[⟨0x80100000,4,[1,2,3,4]⟩],[]⟩]⟩ := by
    decide +kernel
  refine ⟨_,hrun,rfl,pairwise_singleton _ _, fun hcomplete => ?_⟩
  have hzero := hcomplete.bss ⟨1,84,0x80100000,4,0x10000000⟩ (mem_singleton.mpr rfl) 4
    (by decide) (by decide)
  exact absurd hzero (by decide +kernel)

end Pmon.ElfBoot
