import Pmon.ElfBoot

/-!
# Which stores of a network boot are in checked memory

A `p_filesz` of 2³¹ or more is negative: `dl_checkloadaddr` runs backwards, and `bcopy` takes a
large count.
-/

namespace Pmon.ElfBoot
open List
open LoadFn (Monitor u32 k0ToPhys K0BASE K0SIZE K2BASE)
open Tftp (Copy Tftpfile Event int32)
variable {tfp : Tftpfile} {copies : List Copy}

def tftpOps : NetOps (Tftpfile × List Event) where
  netread f n :=
    (Tftp.tftpread f.1 n f.2).map fun (o,copies) => ⟨o.value,(o.state,o.events),copies⟩
  netlseek f offs := let (value,tfp) := Tftp.tftplseek f.1 offs 0
    (value,(tfp,f.2))

structure Delivers (dst n : ℤ) (copies : List Copy) : Prop where
  within : 0≤n → ∀ c∈copies, dst≤c.dst ∧ c.dst+c.count≤dst+n
  backwards : n<0 → copies=[] ∨ ∃ bytes, copies=[⟨dst,(n%2^32).toNat,bytes⟩]

theorem Delivers.nil (dst n : ℤ) : Delivers dst n [] := ⟨by simp,fun _ => Or.inl rfl⟩

variable {es : List Event} {o : Tftp.Outcome Tftpfile Event} {fuel : ℕ} {dst nread : ℤ}

theorem Delivers.copy {n m : ℤ} (hm : 0<n ∧ 0 < m ∧ m≤n ∨ n<0 ∧ m=n) (hsize : n<2^31)
    (h : Delivers (dst+m) (n-m) copies) (hrest : m=n → copies=[]) :
    Delivers dst n (tfp.copy dst m::copies) := by
  constructor
  · intro hn c hc
    have hcount : ((m%2^32).toNat : ℤ)=m := by omega
    rcases mem_cons.mp hc with rfl | hc
    · refine ⟨le_rfl,?_⟩
      change dst+((m%2^32).toNat : ℤ)≤dst+n
      omega
    · have hin := h.within (by omega) c hc
      omega
  · intro hn
    have hmn : m=n := by omega
    rw [hrest hmn,←hmn]
    exact Or.inr ⟨_,rfl⟩

theorem tftpreadLoop_zero (h : Tftp.tftpreadLoop nread fuel tfp 0 dst es=some (o,copies)) :
    copies=[] := by
  cases fuel with
  | zero => cases h
  | succ fuel =>
    unfold Tftp.tftpreadLoop at h
    simp only [ne_eq,not_true_eq_false,false_and,if_false,Option.some.injEq,Prod.mk.injEq] at h
    exact h.2.symm

theorem tftpreadLoop_round {nb : ℤ}
    (h : Tftp.tftpreadLoop nread (fuel+1) tfp nb dst es=some (o,copies)) :
    copies=[] ∨ nb≠0 ∧ ∃ rest, copies=(tfp.drain nb dst).1++rest ∧
      (rest=[] ∨ ∃ tfp' es', Tftp.tftpreadLoop nread fuel tfp' (nb-(tfp.drain nb dst).2.2)
        (dst+(tfp.drain nb dst).2.2) es'=some (o,rest)) := by
  unfold Tftp.tftpreadLoop at h
  split at h
  swap
  · cases h
    exact Or.inl rfl
  rename_i hgo
  refine Or.inr ⟨hgo.1,?_⟩
  dsimp only at h
  split at h
  · split at h
    · cases h
    · split at h
      · cases h
        exact ⟨[],(append_nil _).symm,Or.inl rfl⟩
      · rw [Option.map_eq_some_iff] at h
        obtain ⟨⟨o',rest⟩,hloop,heq⟩ := h
        cases heq
        exact ⟨rest,rfl,Or.inr ⟨_,_,hloop⟩⟩
  · rw [Option.map_eq_some_iff] at h
    obtain ⟨⟨o',rest⟩,hloop,heq⟩ := h
    cases heq
    exact ⟨rest,rfl,Or.inr ⟨_,_,hloop⟩⟩

theorem tftpreadLoop_delivers {nb : ℤ} (hnb : nb<2^31)
    (h : Tftp.tftpreadLoop nread fuel tfp nb dst es=some (o,copies)) :
    Delivers dst nb copies := by
  induction fuel generalizing tfp nb dst es copies with
  | zero => cases h
  | succ fuel ih =>
    rcases tftpreadLoop_round h with rfl | ⟨hne,rest,rfl,hrest⟩
    · exact .nil _ _
    unfold Tftpfile.drain at hrest ⊢
    by_cases hin : tfp.start≤tfp.foffs ∧ tfp.foffs<tfp.stop
    · simp only [if_pos hin,cons_append,nil_append] at hrest ⊢
      generalize hm : min (tfp.stop-tfp.foffs) nb=m at hrest
      have hcases : 0<nb ∧ 0 < m ∧ m≤nb ∨ nb<0 ∧ m=nb := by omega
      rcases hrest with rfl | ⟨tfp',es',hloop⟩
      · exact .copy hcases hnb (.nil _ _) fun _ => rfl
      · refine .copy hcases hnb (ih (by omega) hloop) fun hall => ?_
        rw [hall,sub_self] at hloop
        exact tftpreadLoop_zero hloop
    · simp only [if_neg hin,nil_append,sub_zero,add_zero] at hrest ⊢
      rcases hrest with rfl | ⟨tfp',es',hloop⟩
      · exact .nil _ _
      · exact ih hnb hloop

theorem tftpOps_delivers {f : Tftpfile × List Event} {n : ℤ} (hn : n<2^31)
    {r : ReadResult (Tftpfile × List Event)} (h : tftpOps.netread f n=some r) :
    Delivers 0 n r.copies := by
  have hmap := Option.map_eq_some_iff.mp h
  obtain ⟨⟨o,copies⟩,hread,rfl⟩ := hmap
  unfold Tftp.tftpread at hread
  split at hread
  · cases hread
    exact .nil _ _
  · exact tftpreadLoop_delivers hn hread

section
variable {φ σ : Type} {ops : NetOps φ} {M : Monitor σ}

def Store.Safe (M : Monitor σ) (s : Store) : Prop :=
  ∀ j<s.count, Checked M ((s.addr+j)%2^32)

theorem int32_toNat_of_lt {x : UInt32} (h : x.toNat<2^31) : int32 x.toNat = x.toNat :=
  Tftp.int32_eq (by omega) (by omega)

theorem int32_toNat_of_le {x : UInt32} (h : 2^31 ≤ x.toNat) :
    int32 x.toNat = x.toNat-2^32 := by
  have hlt := x.toNat_lt
  unfold int32
  omega

theorem clearSegment_safe (ph : Phdr) : ∀ s∈clearSegment M ph, s.Safe M := by
  unfold clearSegment
  split
  swap
  · simp
  unfold bootclear
  split
  · simp
  rename_i hrefused
  rw [Option.not_isSome_iff_eq_none] at hrefused
  have haccept := accepted_of_refusal hrefused
  generalize hsize : int32 (ph.memsz.toNat - ph.filesz.toNat)=size at haccept ⊢
  dsimp only
  split
  swap
  · simp
  rename_i hpos
  intro s hs
  rw [mem_singleton] at hs
  subst hs
  have hlt : size<2^31 := by
    unfold int32 at hsize
    omega
  obtain ⟨n,rfl⟩ := Int.eq_ofNat_of_zero_le hpos.le
  intro j hj
  rw [Int.toNat_natCast] at hj
  refine haccept.checked ?_ (by omega) hj
  unfold u32
  omega

theorem copied_safe {addr n : ℕ} (h : Accepted M addr n) (haddr : addr<2^32) (hn : n<2^31)
    (hcopies : Delivers 0 n copies) : ∀ s∈copies.map (Store.ofCopy addr), s.Safe M := by
  intro s hs j hj
  obtain ⟨c,hc,rfl⟩ := mem_map.mp hs
  obtain ⟨hlow,hhigh⟩ := hcopies.within (by omega) c hc
  change j<c.count at hj
  obtain ⟨k,hk⟩ := Int.eq_ofNat_of_zero_le hlow
  have hstart : (Store.ofCopy addr c).addr=(addr+k)%2^32 := by
    change u32 (addr+c.dst)=_
    rw [hk]
    unfold u32
    omega
  have hsum : ((addr+k)%2^32+j)%2^32=(addr+(k+j))%2^32 := by omega
  rw [hstart,hsum]
  exact h.checked haddr hn (by omega)

theorem not_safe_of_large {s : Store} (haddr : K0BASE ≤ s.addr) (hlt : s.addr<2^32)
    (hcount : 2^31 ≤ s.count) : ¬s.Safe M := by
  intro hsafe
  have hfirst := (hsafe 0 (by omega)).unmapped
  have hlast := (hsafe (K2BASE-s.addr) (by unfold K0BASE K2BASE at *; omega)).unmapped
  unfold K0BASE K2BASE at *
  omega
end

theorem readSegment_safe_iff {σ : Type} {M : Monitor σ} {ph : Phdr} {loaded : Bool}
    {stores : List Store} (h : ReadSegment tftpOps M ph loaded stores) :
    (∀ s∈stores, s.Safe M) ↔ (stores≠[] → ph.filesz.toNat<2^31) := by
  have hvaddr := ph.vaddr.toNat_lt
  have hfilesz := ph.filesz.toNat_lt
  cases h with
  | empty => simp
  | seek => simp
  | refused => simp
  | @read f f' r _ _ _ haccept hread _ =>
    by_cases hcount : ph.filesz.toNat<2^31
    · rw [int32_toNat_of_lt hcount] at haccept hread
      have hsafe := copied_safe haccept hvaddr hcount (tftpOps_delivers (by omega) hread)
      exact ⟨fun _ _ => hcount,fun _ => hsafe⟩
    · have hneg := int32_toNat_of_le (not_lt.mp hcount)
      have hbase := haccept.base
      rw [hneg] at hread
      constructor
      · intro hsafe hne
        rcases (tftpOps_delivers (by omega) hread).backwards (by omega) with hnil | ⟨bytes,hone⟩
        · rw [hnil] at hne
          exact absurd rfl hne
        · rw [hone] at hsafe
          -- the copy starts at `p_vaddr` and has the unsigned size
          have hlarge := hsafe _ (mem_singleton.mpr rfl)
          have hstart : u32 (ph.vaddr.toNat+0) = ph.vaddr.toNat := by
            unfold u32
            omega
          refine absurd hlarge (not_safe_of_large ?_ ?_ ?_)
          · change K0BASE≤u32 (ph.vaddr.toNat+0)
            rw [hstart]
            exact hbase
          · change u32 (ph.vaddr.toNat+0)<2^32
            rw [hstart]
            exact hvaddr
          · change 2^31≤(((ph.filesz.toNat : ℤ)-2^32)%2^32).toNat
            omega
      · intro himp s hs
        exact absurd (himp (ne_nil_of_mem hs)) hcount

/-- All bytes that `load_elf` stores over TFTP are checked memory exactly if every segment copied
has a `p_filesz` below 2³¹. -/
theorem loadElf_stores_checked_iff {σ : Type} (M : Monitor σ) (host : Host) (flags : BootFlags)
    (buf : List UInt8) (tfp : Tftpfile) (es : List Event) {o : Outcome}
    (h : loadElf tftpOps M host flags buf (tfp,es)=some o) :
    (∀ seg∈o.segments, ∀ s∈seg.stores, ∀ j<s.count, Checked M ((s.addr+j)%2^32)) ↔
      ∀ seg∈o.segments, seg.copied≠[] → seg.ph.filesz.toNat<2^31 := by
  have hloading : ∀ seg∈o.segments, (∃ loaded, ReadSegment tftpOps M seg.ph loaded seg.copied) ∧
        ∀ s∈seg.cleared, s.Safe M := by
    intro seg hseg
    rcases loadElf_cases h with ⟨hnil,-⟩ | ⟨f₁,f₂,loaded,hrun,-⟩
    · rw [hnil] at hseg
      cases hseg
    · rcases loadSegments_loading hrun seg hseg with hload | ⟨-,hload⟩
      · cases hload with
        | loaded hread hclear =>
          rw [hclear]
          exact ⟨⟨true,hread⟩,clearSegment_safe seg.ph⟩
      · cases hload with
        | failed hread hclear =>
          rw [hclear]
          exact ⟨⟨false,hread⟩, by simp⟩
  have hseg : ∀ seg∈o.segments, ((∀ s∈seg.stores, s.Safe M) ↔
      (seg.copied≠[] → seg.ph.filesz.toNat<2^31)) := by
    intro seg hmem
    obtain ⟨⟨loaded,hread⟩,hcleared⟩ := hloading seg hmem
    rw [←readSegment_safe_iff hread]
    constructor
    · intro hall s hs
      exact hall s (mem_append_left _ hs)
    · intro hcopied s hs
      rcases mem_append.mp hs with hs | hs
      · exact hcopied s hs
      · exact hcleared s hs
  exact ⟨fun hall seg hmem => (hseg seg hmem).mp (hall seg hmem),
    fun hall seg hmem => (hseg seg hmem).mpr (hall seg hmem)⟩

def firstBlock (file : List UInt8) : Tftpfile :=
  {Tftp.newHandle 69 .rdonly 1 with stop := file.length, buf := file}

theorem loadElf_stores_checked_small : ∃ o, loadElf tftpOps ramMonitor leHost optionN []
        (firstBlock (oneSegment 0x80100000 4 8 [1,2,3,4,0]),[])=some o ∧
      o.segments.map (·.stores)=[[⟨0x80100000,4,[1,2,3,4]⟩,⟨0x80100004,4,[0,0,0,0]⟩]] ∧
      ∀ seg∈o.segments, ∀ s∈seg.stores, ∀ j<s.count,
        Checked ramMonitor ((s.addr+j)%2^32) := by
  refine ⟨⟨.entry 0x80100000,[⟨1,84,0x80100000,4,8⟩],[⟨⟨1,84,0x80100000,4,8⟩,
    [⟨0x80100000,4,[1,2,3,4]⟩],[⟨0x80100004,4,[0,0,0,0]⟩]⟩]⟩,
    by decide +kernel, by decide +kernel,?_⟩
  exact (loadElf_stores_checked_iff ramMonitor leHost optionN [] (firstBlock
    (oneSegment 0x80100000 4 8 [1,2,3,4,0])) [] (by decide +kernel)).mpr (by decide +kernel)

theorem loadElf_stores_negativeSize : ∃ o, loadElf tftpOps ramMonitor leHost optionN []
        (firstBlock (oneSegment 0x80100000 0xfffff000 0 [1,2,3,4]),[])=some o ∧
      o.value = .entry 0x80100000 ∧ ∃ seg∈o.segments, ∃ s∈seg.stores, ∃ j<s.count,
        ¬Checked ramMonitor ((s.addr+j)%2^32) := by
  refine ⟨⟨.entry 0x80100000,[⟨1,84,0x80100000,0xfffff000,0⟩],
    [⟨⟨1,84,0x80100000,0xfffff000,0⟩,[⟨0x80100000,0xfffff000,[1,2,3,4]⟩],[]⟩]⟩,
    by decide +kernel,rfl,_,mem_singleton.mpr rfl,_,mem_singleton.mpr rfl,
    0x40000000, by decide,?_⟩
  intro hchecked
  exact absurd hchecked.unmapped.2 (by decide)

end Pmon.ElfBoot
