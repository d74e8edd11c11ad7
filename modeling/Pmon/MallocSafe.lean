import Pmon.MallocRing

/-!
# Blocks in use

The blocks in use, the free blocks and the static header share no byte, and are all the memory that
was obtained.
-/

namespace Pmon.Malloc
open LinkedRing List Function

def Block.units (b : Block) : ℕ := nunits b.nbytes

def CoreByte (cores : List (ℕ × ℕ)) (x : ℕ) : Prop :=
  ∃ core∈cores, core.1≤x ∧ x<core.1+8*core.2

/-- Memory for `n` units at `cp`, in the address space and not given before. -/
structure Fresh (base : ℕ) (s : State) (n cp : ℕ) : Prop where
  above : base+8≤cp
  below : cp+8*n≤2^32
  apart : ∀ x, cp≤x → x<cp+8*n → ¬ CoreByte s.cores x

def Client (base : ℕ) (s : State) (x : ℕ) : Prop :=
  (∃ b∈s.live, b.addr+8≤x ∧ x<b.addr+8*s.heap.size b.addr) ∨
    (¬ CoreByte s.cores x ∧ ¬ (base≤x ∧ x<base+8))

def Allowed (base : ℕ) (s : State) : Op → Prop
  | .malloc nbytes answers =>
    nbytes<2^31 ∧
      ∀ cp, answers.head?=some (some cp) → Fresh base s (rnunits (nunits nbytes)) cp
  | .free b => b∈s.live
  | .store ptr size =>
    ∀ a, (∀ x, a≤x → x<a+8 → ¬ Client base s x) →
      ptr a=s.heap.ptr a ∧ size a=s.heap.size a

def Allows (base : ℕ) : State → List Op → Prop
  | _, [] => True
  | s, op::ops =>
    Allowed base s op ∧ ∀ s', step base s op=some s' → Allows base s' ops

/-- The blocks in use do not meet each other or the free list, and no unit is lost. -/
structure Inv (base : ℕ) (s : State) (c : List ℕ) : Prop where
  ring : Ring base s.heap c
  request : ∀ b∈s.live, b.nbytes<2^31
  header : ∀ b∈s.live, s.heap.size b.addr=b.units
  disjoint : s.live.Pairwise fun b b' =>
    b.addr+8*b.units≤b'.addr ∨ b'.addr+8*b'.units≤b.addr
  apart : ∀ b∈s.live, ∀ x, b.addr≤x → x<b.addr+8*b.units → ¬ FreeByte s.heap c x
  units : (s.live.map Block.units).sum+freeUnits s.heap c=s.units
  freeCore : ∀ x, FreeByte s.heap c x → CoreByte s.cores x
  liveCore : ∀ b∈s.live, ∀ x, b.addr≤x → x<b.addr+8*b.units → CoreByte s.cores x
  coreAbove : ∀ x, CoreByte s.cores x → base+8≤x

theorem nunits_pos (nbytes : ℕ) : 0<nunits nbytes := by
  unfold nunits
  omega

theorem le_nunits {nbytes : ℕ} (h : nbytes<2^31) : nbytes+8≤8*nunits nbytes := by
  unfold nunits
  rw [Nat.mod_eq_of_lt (by omega)]
  omega

theorem nunits_le_rnunits (nbytes : ℕ) : nunits nbytes≤rnunits (nunits nbytes) := by
  have hle : nunits nbytes≤2^29 := by
    unfold nunits
    omega
  unfold rnunits
  rw [Nat.mod_eq_of_lt (by omega)]
  omega

theorem Block.units_pos (b : Block) : 0<b.units := nunits_pos _
section
variable {base fuel nu : ℕ} {h : Heap} {c : List ℕ}

inductive Outcome (base : ℕ) (h : Heap) (c : List ℕ) (nu : ℕ) (answers : List (Option ℕ)) :
    Result → Prop
  | taken {h' : Heap} {a : ℕ} {c' : List ℕ} (ht : Taken base h h' a nu c c') :
    Outcome base h c nu answers ⟨some (a+8),h',[]⟩
  | full : Outcome base h c nu answers ⟨none,h,[]⟩
  | grown {h' h'' : Heap} {a cp : ℕ} {c' c'' : List ℕ}
    (hcp : answers.head?=some (some cp))
    (hi : Inserted base {h with size := update h.size cp (rnunits nu)} h' cp c c')
    (ht : Taken base h' h'' a nu c' c'') :
    Outcome base h c nu answers ⟨some (a+8),h'',[(cp,rnunits nu)]⟩

theorem Ring.congr {h' : Heap} (hr : Ring base h c)
    (heq : ∀ a∈c, h'.ptr a=h.ptr a ∧ h'.size a=h.size a)
    (hallocp : h'.allocp=h.allocp) : Ring base h' c where
  head := hr.head
  path := hr.path.congr fun a ha => (heq a ha).1
  sorted := hr.sorted.imp_of_mem fun {a b} ha _ hab => by
    rw [(heq a ha).2]
    exact hab
  size_eq_zero := fun a ha => by
    rw [(heq a ha).2]
    exact hr.size_eq_zero a ha
  allocp_mem := hallocp ▸ hr.allocp_mem

theorem Ring.nodup (hr : Ring base h c) : c.Nodup := hr.sorted.imp fun {a b} hab => by omega

theorem Ring.search (nu : ℕ) (hr : Ring base h c) (hfuel : c.length≤fuel) :
    ∃ q∈c, LinkedRing.walk h.ptr (stopsAt h nu) fuel h.allocp=some q := by
  obtain ⟨l,rfl⟩ := hr.eq_cons
  obtain ⟨x,hx,hnext⟩ := hr.path.exists_pred hr.allocp_mem
  have hstop : stopsAt h nu x=true := by simp [stopsAt,hnext]
  obtain ⟨q,hq,hwalk,_⟩ := hr.walk hfuel ⟨x,hx,hstop⟩
  exact ⟨q,hq,hwalk⟩

theorem Ring.search_large (hr : Ring base h c) (hfuel : c.length≤fuel)
    (hlarge : ∃ a∈c, nu≤h.size a) :
    ∃ q∈c, LinkedRing.walk h.ptr (stopsAt h nu) fuel h.allocp=some q ∧
      nu≤h.size (h.ptr q) := by
  obtain ⟨l,rfl⟩ := hr.eq_cons
  obtain ⟨a,ha,hsize⟩ := hlarge
  obtain ⟨q,hq,hwalk,hgood⟩ := hr.path.walk_ring_good (n := fuel)
    (g := fun z => decide (nu≤h.size z)) hr.nodup hr.allocp_mem (by simpa using hfuel)
    ⟨a,ha,by simpa using hsize⟩
  exact ⟨q,hq,hwalk,by simpa using hgood⟩

theorem Ring.morecore {cp : ℕ} (hr : Ring base h c) (hfuel : c.length≤fuel)
    (hbase : base<cp) (hpos : 0<rnunits nu)
    (hapart : ∀ x, cp≤x → x<cp+8*rnunits nu → ¬ FreeByte h c x) :
    ∃ h' c', morecore fuel h nu cp=some h' ∧
      Inserted base {h with size := update h.size cp (rnunits nu)} h' cp c c' := by
  have hne : ∀ a∈c, a≠cp := by
    rintro a ha rfl
    have hsize := mt (hr.size_eq_zero a ha).1 hbase.ne'
    exact hapart a le_rfl (by omega) ⟨a,ha,le_rfl,by omega⟩
  have hsame : ∀ a∈c, update h.size cp (rnunits nu) a=h.size a :=
    fun a ha => update_of_ne (hne a ha) _ _
  have hr' : Ring base {h with size := update h.size cp (rnunits nu)} c :=
    hr.congr (fun a ha => ⟨rfl,hsame a ha⟩) rfl
  refine hr'.free hfuel hbase ?_ ?_
  · simpa using hpos
  · intro x hx hx'
    rw [freeByte_congr hsame]
    exact hapart x hx (by simpa using hx')

theorem Ring.mallocLoop {answers : List (Option ℕ)} (hr : Ring base h c)
    (hfuel : c.length+1≤fuel) (hnu : 0<nu) (hle : nu≤rnunits nu)
    (hfresh : ∀ cp, answers.head?=some (some cp) → base<cp ∧
      ∀ x, cp≤x → x<cp+8*rnunits nu → ¬ FreeByte h c x) :
    ∃ r, mallocLoop fuel nu answers h h.allocp=some r ∧ Outcome base h c nu answers r := by
  obtain ⟨q,hq,hwalk⟩ := hr.search nu (by omega : c.length≤fuel)
  by_cases hlarge : nu≤h.size (h.ptr q)
  · obtain ⟨c',ht⟩ := hr.take hq hnu hlarge
    refine ⟨_,?_,.taken ht⟩
    unfold Malloc.mallocLoop
    rw [hwalk]
    simp only [hlarge,if_true]
  · match answers, hfresh with
    | [], _ =>
      refine ⟨_,?_,.full⟩
      unfold Malloc.mallocLoop
      rw [hwalk]
      simp only [hlarge,if_false]
    | none::_, _ =>
      refine ⟨_,?_,.full⟩
      unfold Malloc.mallocLoop
      rw [hwalk]
      simp only [hlarge,if_false]
    | some cp::rest, hfresh =>
      obtain ⟨hbase,hapart⟩ := hfresh cp rfl
      obtain ⟨h',c',hmore,hi⟩ := hr.morecore (by omega : c.length≤fuel) hbase (by omega) hapart
      -- the new block is large enough, so that the second search finds one
      obtain ⟨a,ha,hsize⟩ := hi.large
      have hlength := hi.length
      have hfound : ∃ a∈c', nu≤h'.size a := ⟨a,ha,hle.trans (by simpa using hsize)⟩
      obtain ⟨q',hq',hwalk',hlarge'⟩ := hi.ring.search_large (by omega : c'.length≤fuel) hfound
      obtain ⟨c'',ht⟩ := hi.ring.take hq' hnu hlarge'
      refine ⟨_,?_,.grown rfl hi ht⟩
      unfold Malloc.mallocLoop
      rw [hwalk]
      simp only [hlarge,if_false,hmore]
      unfold Malloc.mallocLoop
      rw [hwalk']
      simp only [hlarge',if_true,Option.map_some]
end
section
variable {base : ℕ} {s s' : State} {c : List ℕ}

theorem coreByte_cons {core : ℕ × ℕ} {cores : List (ℕ × ℕ)} {x : ℕ} :
    CoreByte (core::cores) x ↔ (core.1≤x ∧ x<core.1+8*core.2) ∨ CoreByte cores x := by
  simp [CoreByte]

theorem Inv.fuel_le (hi : Inv base s c) : c.length+1 ≤ s.fuel := by
  have hlen := hi.ring.length_le
  have hunits := hi.units
  unfold State.fuel
  omega

variable {b : Block} {h' : Heap} {c' : List ℕ}
section
variable (hi : Inv base s c)
include hi

theorem Inv.addr_not_mem (hb : b∈s.live) : b.addr∉c := by
  intro hmem
  have hpos := b.units_pos
  have hhead := hi.header b hb
  refine hi.apart b hb b.addr le_rfl (by omega) ⟨b.addr,hmem,le_rfl,?_⟩
  omega

theorem Inv.taken {a nbytes : ℕ} (hreq : nbytes<2^31)
    (ht : Taken base s.heap h' a (nunits nbytes) c c') :
    Inv base {s with heap := h', live := ⟨a,nbytes⟩::s.live} c' := by
  have hfree : ∀ x, FreeByte h' c' x → FreeByte s.heap c x := fun x hx =>
    (ht.bytes x).2 (.inl hx)
  have hnew : ∀ x, a≤x → x<a+8*nunits nbytes → FreeByte s.heap c x :=
    fun x hx hx' => (ht.bytes x).2 (.inr ⟨hx,hx'⟩)
  -- a block with a byte in common would hold a byte of the ring
  have hdisj : ∀ b∈s.live, a+8*nunits nbytes≤b.addr ∨ b.addr+8*b.units≤a := by
    intro b hb
    by_contra hover
    have hpos := b.units_pos
    have hnpos := nunits_pos nbytes
    exact hi.apart b hb (max a b.addr) (by omega) (by omega)
      (hnew _ (by omega) (by omega))
  refine ⟨ht.ring,?_,?_,?_,?_,?_,fun x hx => hi.freeCore x (hfree x hx),?_,hi.coreAbove⟩
  · intro b hb
    rcases mem_cons.1 hb with rfl | hb
    · exact hreq
    · exact hi.request b hb
  · intro b hb
    rcases mem_cons.1 hb with rfl | hb
    · exact ht.header
    · have hne : b.addr≠a := fun he => by
        have hpos := b.units_pos
        have hnpos := nunits_pos nbytes
        have := hdisj b hb
        omega
      exact (ht.frame b.addr (hi.addr_not_mem hb) hne).trans (hi.header b hb)
  · exact pairwise_cons.2 ⟨hdisj,hi.disjoint⟩
  · intro b hb x hx hx'
    rcases mem_cons.1 hb with rfl | hb
    · exact ht.apart x hx hx'
    · exact fun hfx => hi.apart b hb x hx hx' (hfree x hfx)
  · have hunits := hi.units
    have htaken := ht.units
    have hblock : (Block.mk a nbytes).units=nunits nbytes := rfl
    rw [map_cons,sum_cons,hblock]
    change _+freeUnits h' c'=s.units
    omega
  · intro b hb x hx hx'
    rcases mem_cons.1 hb with rfl | hb
    · exact hi.freeCore x (hnew x hx hx')
    · exact hi.liveCore b hb x hx hx'

theorem Inv.grown {cp nu : ℕ} (hfresh : Fresh base s (rnunits nu) cp) (hpos : 0<rnunits nu)
    (hin : Inserted base {s.heap with size := update s.heap.size cp (rnunits nu)}
      h' cp c c') :
    Inv base {s with heap := h', cores := (cp,rnunits nu)::s.cores} c' := by
  have hne : ∀ a, CoreByte s.cores a → a≠cp := fun a ha he =>
    hfresh.apart cp le_rfl (by omega) (he ▸ ha)
  have hring : ∀ a∈c, update s.heap.size cp (rnunits nu) a=s.heap.size a := by
    intro a ha
    by_cases hab : a=base
    · exact update_of_ne (by have := hfresh.above; omega) _ _
    · have hsize := mt (hi.ring.size_eq_zero a ha).1 hab
      exact update_of_ne
        (hne a (hi.freeCore a ⟨a,ha,le_rfl,by omega⟩)) _ _
  have hbytes : ∀ x, FreeByte h' c' x ↔
      FreeByte s.heap c x ∨ (cp≤x ∧ x<cp+8*rnunits nu) := fun x => by
    rw [hin.bytes x,freeByte_congr hring]
    simp only [update_self]
  have haddr : ∀ b∈s.live, b.addr≠cp := fun b hb => by
    have hb' := b.units_pos
    exact hne b.addr (hi.liveCore b hb b.addr le_rfl (by omega))
  refine ⟨hin.ring,hi.request,?_,hi.disjoint,?_,?_,?_,?_,?_⟩
  · intro b hb
    rw [hin.frame b.addr (hi.addr_not_mem hb) (haddr b hb)]
    simp only [update_of_ne (haddr b hb)]
    exact hi.header b hb
  · intro b hb x hx hx' hfx
    rcases (hbytes x).1 hfx with hfx | ⟨hcp,hcp'⟩
    · exact hi.apart b hb x hx hx' hfx
    · exact hfresh.apart x hcp hcp' (hi.liveCore b hb x hx hx')
  · have hunits := hi.units
    have hadd := hin.units
    have hold : freeUnits { s.heap with
        size := update s.heap.size cp (rnunits nu) } c=freeUnits s.heap c :=
      freeUnits_congr hring
    rw [hold] at hadd
    simp only [update_self] at hadd
    simp only [State.units,map_cons,sum_cons] at hunits ⊢
    omega
  · intro x hfx
    rw [coreByte_cons]
    rcases (hbytes x).1 hfx with hfx | hcp
    · exact .inr (hi.freeCore x hfx)
    · exact .inl hcp
  · exact fun b hb x hx hx' => coreByte_cons.2 (.inr (hi.liveCore b hb x hx hx'))
  · intro x hx
    rcases coreByte_cons.1 hx with hcp | hx
    · have := hfresh.above
      omega
    · exact hi.coreAbove x hx

theorem Inv.disjoint_erase {b' : Block} (hb : b∈s.live) (hb' : b'∈s.live.erase b) :
    b.addr+8*b.units≤b'.addr ∨ b'.addr+8*b'.units≤b.addr :=
  (pairwise_cons.1
    (((perm_cons_erase hb).pairwise_iff fun h => h.symm).1 hi.disjoint)).1 b' hb'

theorem Inv.freed (hb : b∈s.live) (hin : Inserted base s.heap h' b.addr c c') :
    Inv base {s with heap := h', live := s.live.erase b} c' := by
  have hperm := perm_cons_erase hb
  have hmem : ∀ b'∈s.live.erase b, b'∈s.live := fun b' => mem_of_mem_erase
  have hne : ∀ b'∈s.live.erase b, b'.addr≠b.addr := fun b' hb' => by
    have := hi.disjoint_erase hb hb'
    have := b.units_pos
    have := b'.units_pos
    omega
  have hbytes : ∀ x, FreeByte h' c' x ↔
      FreeByte s.heap c x ∨ (b.addr≤x ∧ x<b.addr+8*b.units) := fun x => by
    rw [hin.bytes x,hi.header b hb]
  refine ⟨hin.ring,fun b' hb' => hi.request b' (hmem b' hb'),?_,
    hi.disjoint.sublist erase_sublist,?_,?_,?_,
    fun b' hb' => hi.liveCore b' (hmem b' hb'),hi.coreAbove⟩
  · intro b' hb'
    rw [hin.frame b'.addr (hi.addr_not_mem (hmem b' hb')) (hne b' hb')]
    exact hi.header b' (hmem b' hb')
  · intro b' hb' x hx hx' hfx
    rcases (hbytes x).1 hfx with hfx | hin
    · exact hi.apart b' (hmem b' hb') x hx hx' hfx
    · have := hi.disjoint_erase hb hb'
      omega
  · have hunits := hi.units
    have hadd := hin.units
    rw [hi.header b hb] at hadd
    rw [(hperm.map Block.units).sum_eq,map_cons,sum_cons] at hunits
    change (map Block.units (s.live.erase b)).sum+freeUnits h' c'=s.units
    omega
  · intro x hfx
    rcases (hbytes x).1 hfx with hfx | hin
    · exact hi.freeCore x hfx
    · exact hi.liveCore b hb x hin.1 hin.2

theorem Inv.stored {ptr size : ℕ → ℕ} (hstore : Allowed base s (.store ptr size)) :
    Inv base {s with heap := {s.heap with ptr, size}} c := by
  -- a byte that the allocator holds is none of the callers'
  have hclient : ∀ x, (CoreByte s.cores x ∨ base≤x ∧ x<base+8) →
      (∀ b∈s.live, ¬ (b.addr+8≤x ∧ x<b.addr+8*s.heap.size b.addr)) →
      ¬ Client base s x := by
    rintro x hx hlive (⟨b,hb,hxb⟩ | ⟨hcore,hbase⟩)
    · exact hlive b hb hxb
    · exact hx.elim hcore hbase
  have hring : ∀ a∈c, ptr a=s.heap.ptr a ∧ size a=s.heap.size a := by
    intro a ha
    refine hstore a fun x hx hx' => ?_
    by_cases hab : a=base
    · refine hclient x (.inr (by omega)) fun b hb hxb => ?_
      have hcore := hi.liveCore b hb x (by omega) (by rw [←hi.header b hb]; omega)
      have := hi.coreAbove x hcore
      omega
    · have hsize := mt (hi.ring.size_eq_zero a ha).1 hab
      have hfree : FreeByte s.heap c x := ⟨a,ha,hx,by omega⟩
      refine hclient x (.inl (hi.freeCore x hfree)) fun b hb hxb => ?_
      exact hi.apart b hb x (by omega) (by rw [←hi.header b hb]; omega) hfree
  have hlive : ∀ b∈s.live, size b.addr=s.heap.size b.addr := by
    intro b hb
    have hpos := b.units_pos
    refine (hstore b.addr fun x hx hx' => ?_).2
    refine hclient x (.inl (hi.liveCore b hb x hx (by omega))) fun b' hb' hxb => ?_
    rw [hi.header b' hb'] at hxb
    by_cases heq : b'=b
    · subst heq
      omega
    · have := hi.disjoint_erase hb ((mem_erase_of_ne heq).2 hb')
      omega
  have hsame : ∀ a∈c, ({s.heap with ptr, size} : Heap).size a=s.heap.size a :=
    fun a ha => (hring a ha).2
  refine ⟨hi.ring.congr hring rfl,hi.request,?_,hi.disjoint,?_,?_,?_,hi.liveCore,
    hi.coreAbove⟩
  · exact fun b hb => (hlive b hb).trans (hi.header b hb)
  · intro b hb x hx hx'
    rw [freeByte_congr hsame]
    exact hi.apart b hb x hx hx'
  · rw [freeUnits_congr hsame]
    exact hi.units
  · intro x hx
    exact hi.freeCore x ((freeByte_congr hsame).1 hx)
end
end
section
variable {base : ℕ} {s s' : State} {c : List ℕ}

structure Initial (s : State) : Prop where
  allocp : s.heap.allocp=0
  live : s.live=[]
  cores : s.cores=[]

theorem Initial.start (h : Initial s) :
    Inv base {s with heap := Malloc.start base s.heap} [base] := by
  have hsize : (Malloc.start base s.heap).size base=0 := by simp [Malloc.start]
  refine ⟨⟨rfl,?_,pairwise_singleton _ _,?_,?_⟩,?_,?_,?_,?_,?_,?_,?_,?_⟩
  · simp [Malloc.start]
  · intro a ha
    obtain rfl : a=base := by simpa using ha
    simp [hsize]
  · simp [Malloc.start]
  · simp [h.live]
  · simp [h.live]
  · simp [h.live]
  · simp [h.live]
  · simp [h.live,State.units,h.cores,freeUnits,hsize]
  · intro x hx
    simp [FreeByte,hsize] at hx
    omega
  · simp [h.live]
  · simp [h.cores,CoreByte]

theorem Inv.malloc {nbytes : ℕ} {answers : List (Option ℕ)} (hi : Inv base s c)
    (hreq : nbytes<2^31) (hfresh : ∀ cp, answers.head?=some (some cp) →
      Fresh base s (rnunits (nunits nbytes)) cp) :
    ∃ r c', mallocLoop s.fuel (nunits nbytes) answers s.heap s.heap.allocp=some r ∧ Inv base
        { heap := r.heap
          live := (r.block.map fun ap => (⟨ap-8,nbytes⟩ : Block)).toList++s.live
          cores := r.cores++s.cores } c' := by
  have hle := nunits_le_rnunits nbytes
  have hpos := nunits_pos nbytes
  have hapart : ∀ cp, answers.head?=some (some cp) → base<cp ∧
      ∀ x, cp≤x → x<cp+8*rnunits (nunits nbytes) → ¬ FreeByte s.heap c x := by
    intro cp hcp
    have hf := hfresh cp hcp
    have := hf.above
    exact ⟨by omega,fun x hx hx' hfx => hf.apart x hx hx' (hi.freeCore x hfx)⟩
  obtain ⟨r,hr,hout⟩ := hi.ring.mallocLoop hi.fuel_le hpos hle hapart
  cases hout with
  | taken ht => exact ⟨_,_,hr,hi.taken hreq ht⟩
  | full => exact ⟨_,_,hr,hi⟩
  | grown hcp hin ht =>
    exact ⟨_,_,hr,(hi.grown (hfresh _ hcp) (by omega) hin).taken hreq ht⟩

def Holds (base : ℕ) (s : State) : Prop := Initial s ∨ ∃ c, Inv base s c

theorem Inv.allocp_ne_zero (hi : Inv base s c) (hbase : 0<base) : s.heap.allocp≠0 := by
  have := hi.ring.base_le hi.ring.allocp_mem
  omega

theorem step_holds (hbase : 0<base) {op : Op} (hs : Holds base s) (hop : Allowed base s op) :
    ∃ s', step base s op=some s' ∧ Holds base s' := by
  cases op with
  | malloc nbytes answers =>
    obtain ⟨hreq,hfresh⟩ := hop
    rcases hs with hs | ⟨c,hi⟩
    · have hfresh' : ∀ cp, answers.head?=some (some cp) →
          Fresh base {s with heap := start base s.heap} (rnunits (nunits nbytes)) cp :=
        fun cp hcp => ⟨(hfresh cp hcp).above,(hfresh cp hcp).below,(hfresh cp hcp).apart⟩
      have hstart : Inv base {s with heap := start base s.heap} [base] := hs.start
      obtain ⟨r,c',hr,hi'⟩ := hstart.malloc hreq hfresh'
      refine ⟨_,?_,.inr ⟨c',hi'⟩⟩
      unfold step Malloc.malloc
      simp only [hs.allocp,if_true]
      exact congrArg (Option.map _) hr
    · obtain ⟨r,c',hr,hi'⟩ := hi.malloc hreq hfresh
      refine ⟨_,?_,.inr ⟨c',hi'⟩⟩
      unfold step Malloc.malloc
      simp only [hi.allocp_ne_zero hbase,if_false]
      exact congrArg (Option.map _) hr
  | free b =>
    have hb : b∈s.live := hop
    rcases hs with hs | ⟨c,hi⟩
    · rw [hs.live] at hb
      simp at hb
    · have hpos := b.units_pos
      have hhead := hi.header b hb
      have hcore := hi.liveCore b hb b.addr le_rfl (by omega)
      have habove := hi.coreAbove _ hcore
      obtain ⟨h',c',hfree,hin⟩ := hi.ring.free
        ((Nat.le_succ _).trans hi.fuel_le) (by omega : base<b.addr) (by omega)
        (by rw [hhead]; exact hi.apart b hb)
      refine ⟨_,?_,.inr ⟨c',hi.freed hb hin⟩⟩
      unfold step
      simp only [hfree,Option.map_some]
  | store ptr size =>
    refine ⟨_,rfl,?_⟩
    rcases hs with hs | ⟨c,hi⟩
    · exact .inl ⟨hs.allocp,hs.live,hs.cores⟩
    · exact .inr ⟨c,hi.stored hop⟩

theorem run_holds (hbase : 0<base) {ops : List Op} (hs : Holds base s)
    (hops : Allows base s ops) : ∃ s', run base s ops=some s' ∧ Holds base s' := by
  induction ops generalizing s with
  | nil => exact ⟨s,rfl,hs⟩
  | cons op ops ih =>
    obtain ⟨s₁,hstep,hs₁⟩ := step_holds hbase hs hops.1
    obtain ⟨s',hrun,hs'⟩ := ih hs₁ (hops.2 s₁ hstep)
    exact ⟨s',by rw [run,hstep]; exact hrun,hs'⟩

def State.blockEnd (s : State) (b : Block) : ℕ := b.addr+8*s.heap.size b.addr

/-- What a caller relies on. -/
structure Sound (base : ℕ) (s : State) : Prop where
  disjoint : s.live.Pairwise fun b b' => s.blockEnd b≤b'.addr ∨ s.blockEnd b'≤b.addr
  large : ∀ b∈s.live, b.addr+8+b.nbytes ≤ s.blockEnd b
  free : Initial s ∨ ∃ c, Ring base s.heap c ∧ (∀ b∈s.live, ∀ x, b.addr≤x → x<s.blockEnd b →
      ¬ FreeByte s.heap c x ∧ ¬ (base≤x ∧ x<base+8)) ∧
    (s.live.map fun b => s.heap.size b.addr).sum+freeUnits s.heap c=s.units

theorem Inv.sound (hi : Inv base s c) : Sound base s where
  disjoint := hi.disjoint.imp_of_mem fun {b b'} hb hb' hbb => by
    rw [State.blockEnd,State.blockEnd,hi.header b hb,hi.header b' hb']
    exact hbb
  large := fun b hb => by
    have := le_nunits (hi.request b hb)
    rw [State.blockEnd,hi.header b hb,Block.units]
    omega
  free := by
    refine .inr ⟨c,hi.ring,fun b hb x hx hx' => ?_,?_⟩
    · rw [State.blockEnd,hi.header b hb] at hx'
      have := hi.coreAbove x (hi.liveCore b hb x hx hx')
      exact ⟨hi.apart b hb x hx hx',by omega⟩
    · rw [map_congr_left hi.header]
      exact hi.units

theorem Holds.sound (hs : Holds base s) : Sound base s := by
  rcases hs with hs | ⟨c,hi⟩
  · exact ⟨by simp [hs.live],by simp [hs.live],.inl hs⟩
  · exact hi.sound

/-- Every sequence of calls ends with blocks and ring in order. -/
theorem run_sound (hbase : 0<base) {ops : List Op} (hs : Initial s)
    (hops : Allows base s ops) : ∃ s', run base s ops=some s' ∧ Sound base s' := by
  obtain ⟨s',hrun,hs'⟩ := run_holds hbase (.inl hs) hops
  exact ⟨s',hrun,hs'.sound⟩
end
def sampleState : State := ⟨⟨fun _ => 7, fun _ => 9,0⟩,[],[]⟩
def sampleOps : List Op := [.malloc 100 [some 0x80010000],.malloc 20 [],.free ⟨0x80010390,100⟩]

theorem sampleOps_allows : Allows 0x80008000 sampleState sampleOps := by
  have hfirst : (step 0x80008000 sampleState (.malloc 100 [some 0x80010000])).map State.live =
      some [⟨0x80010390,100⟩] := by decide +kernel
  have hsecond : ((step 0x80008000 sampleState (.malloc 100 [some 0x80010000])).bind
      fun s => step 0x80008000 s (.malloc 20 [])).map State.live =
      some [⟨0x80010370,20⟩,⟨0x80010390,100⟩] := by decide +kernel
  refine ⟨⟨by norm_num,?_⟩,fun s₁ h₁ => ⟨⟨by norm_num,by simp⟩,fun s₂ h₂ => ⟨?_,?_⟩⟩⟩
  · intro cp hcp
    obtain rfl : 0x80010000=cp := by simpa using hcp
    exact ⟨by norm_num,by decide,by simp [sampleState,CoreByte]⟩
  · rw [h₁,Option.bind_some,h₂,Option.map_some,Option.some.injEq] at hsecond
    change _∈s₂.live
    rw [hsecond]
    decide
  · exact fun _ _ => trivial

theorem run_sound_sample :
    ∃ s', run 0x80008000 sampleState sampleOps=some s' ∧ Sound 0x80008000 s' :=
  run_sound (by norm_num) ⟨rfl,rfl,rfl⟩ sampleOps_allows
end Pmon.Malloc
