import Pmon.MallocSafe

/-!
# Sizes of blocks and `realloc`

A size counts the header, so `allocsize` is eight bytes more than a block has. The bytes in blocks
are kept apart from the headers.
-/

namespace Pmon.Malloc
open List

def allocsize (h : Heap) (ap : ℕ) : ℕ := 8*h.size (ap-8)

def memcpy (mem : ℕ → UInt8) (dst src n : ℕ) : ℕ → UInt8 := fun x =>
  if dst≤x ∧ x<dst+n then mem (src+(x-dst)) else mem x

/-- The bytes that `realloc` copies. -/
def copyLength (sz size : ℕ) : ℕ := if sz>size then size else sz

/-- `realloc` of the block `b`: the address returned, the allocator and the memory. -/
def realloc (base : ℕ) (s : State) (mem : ℕ → UInt8) (b : Block) (size : ℕ)
    (answers : List (Option ℕ)) : Option (Option ℕ × State × (ℕ → UInt8)) :=
  match malloc base s.fuel s.heap size answers with
  | none => none
  | some r =>
    let s : State :=
      { heap := r.heap
        live := (r.block.map fun ap => (⟨ap-8,size⟩ : Block)).toList++s.live
        cores := r.cores++s.cores }
    match r.block with
    | none => some (none,s,mem)
    | some p =>
      let sz := allocsize s.heap (b.addr+8)
      (step base s (.free b)).map fun s =>
        (some p,s,memcpy mem p (b.addr+8) (copyLength sz size))

variable {base : ℕ} {s : State} {b : Block}

theorem Holds.header (h : Holds base s) (hb : b∈s.live) : s.heap.size b.addr=b.units := by
  rcases h with h | ⟨c,hi⟩
  · rw [h.live] at hb
    exact absurd hb not_mem_nil
  · exact hi.header b hb

theorem Holds.disjoint_erase (h : Holds base s) (hb : b∈s.live) {b' : Block}
    (hb' : b'∈s.live.erase b) :
    b.addr+8*b.units≤b'.addr ∨ b'.addr+8*b'.units≤b.addr := by
  rcases h with h | ⟨c,hi⟩
  · rw [h.live] at hb
    exact absurd hb not_mem_nil
  · exact hi.disjoint_erase hb hb'

theorem Holds.allocsize_eq (h : Holds base s) (hb : b∈s.live) :
    allocsize s.heap (b.addr+8)=8*b.units := by
  rw [allocsize,Nat.add_sub_cancel,h.header hb]

theorem Holds.blockEnd_eq (h : Holds base s) (hb : b∈s.live) :
    s.blockEnd b=b.addr+8*b.units := by
  rw [State.blockEnd,h.header hb]

theorem Ring.unique {h : Heap} {c c' : List ℕ} (hr : Ring base h c) (hr' : Ring base h c') :
    c=c' := by
  obtain ⟨t,rfl⟩ := hr.eq_cons
  obtain ⟨t',rfl⟩ := hr'.eq_cons
  rw [hr.path.2.unique hr'.path.2 (nodup_cons.mp hr.nodup).1 (nodup_cons.mp hr'.nodup).1
    (hr.path.1.symm.trans hr'.path.1)]

/-- The bytes that `allocsize` counts, from the block on, are in no other block, in use or free,
and in no header. -/
def OwnBytes (base : ℕ) (s : State) (b : Block) : Prop :=
  ∀ x, b.addr+8≤x → x<b.addr+8+allocsize s.heap (b.addr+8) →
    (∀ b'∈s.live.erase b, ¬ (b'.addr≤x ∧ x<s.blockEnd b')) ∧
    ∀ c, Ring base s.heap c → ∀ a∈c, ¬ (a≤x ∧ x<a+8*max 1 (s.heap.size a))

/-- A header other than that of `b`: of a block in use, of a free one or the static one. -/
def Header (base : ℕ) (s : State) (b : Block) (a : ℕ) : Prop :=
  (∃ b'∈s.live.erase b, b'.addr=a) ∨ ∃ c, Ring base s.heap c ∧ a∈c

/-- A free block or the static header lies below a block in use or behind its end. -/
theorem Holds.free_apart (h : Holds base s) (hb : b∈s.live) {c : List ℕ}
    (hc : Ring base s.heap c) {a : ℕ} (ha : a∈c) :
    a+8*max 1 (s.heap.size a)≤b.addr ∨ s.blockEnd b≤a := by
  have hend := h.blockEnd_eq hb
  have hunits := b.units_pos
  rcases h with h | ⟨c',hi⟩
  · rw [h.live] at hb
    exact absurd hb not_mem_nil
  obtain rfl := hc.unique hi.ring
  by_cases hzero : s.heap.size a=0
  · have habove := hi.coreAbove _ (hi.liveCore b hb b.addr le_rfl (by omega))
    have hbase := (hc.size_eq_zero a ha).mp hzero
    omega
  · by_contra hcross
    refine hi.apart b hb (max a b.addr) (le_max_right _ _) (by omega) ⟨a,ha,le_max_left _ _,?_⟩
    omega

/-- The bytes of `allocsize` are the block's own exactly when no header overlaps the eight bytes
behind its end. -/
theorem Holds.ownBytes_iff (h : Holds base s) (hb : b∈s.live) :
    OwnBytes base s b ↔
      ∀ a, Header base s b a → a+8 ≤ s.blockEnd b ∨ s.blockEnd b+8≤a := by
  have hend := h.blockEnd_eq hb
  have hunits := b.units_pos
  rw [OwnBytes,h.allocsize_eq hb]
  constructor
  · intro hown a ha
    by_contra hover
    have hx := hown (max a (s.blockEnd b)) (by omega) (by omega)
    rcases ha with ⟨b',hb',rfl⟩ | ⟨c,hc,ha⟩
    · have hpos := b'.units_pos
      have := h.blockEnd_eq (mem_of_mem_erase hb')
      exact hx.1 b' hb' ⟨le_max_left _ _,by omega⟩
    · exact hx.2 c hc a ha ⟨le_max_left _ _,by omega⟩
  · intro hnone x hlow hhigh
    refine ⟨fun b' hb' hin => ?_,fun c hc a ha hin => ?_⟩
    · have := hnone _ (.inl ⟨b',hb',rfl⟩)
      have := h.disjoint_erase hb hb'
      rw [h.blockEnd_eq (mem_of_mem_erase hb')] at hin
      omega
    · have := hnone _ (.inr ⟨c,hc,ha⟩)
      have := h.free_apart hb hc ha
      omega

/-- The call returns 0 and leaves the block, or returns a block with the old content, of which it
has read no byte beyond the old block. -/
def Moved (base : ℕ) (s : State) (mem : ℕ → UInt8) (b : Block) (size : ℕ)
    (answers : List (Option ℕ)) : Prop :=
  ∃ r s' mem', realloc base s mem b size answers=some (r,s',mem') ∧
    (r=none → b∈s'.live ∧ mem'=mem) ∧
    ∀ p, r=some p → ⟨p-8,size⟩∈s'.live ∧
      (∀ i < min b.nbytes size, mem' (p+i)=mem (b.addr+8+i)) ∧
      b.addr+8+copyLength (allocsize s.heap (b.addr+8)) size ≤ s.blockEnd b

/-- No free block is large enough, and `sbrk` refuses. -/
def Refused (base : ℕ) (s : State) (size : ℕ) (answers : List (Option ℕ)) : Prop :=
  (malloc base s.fuel s.heap size answers).bind Result.block=none

/-- `realloc` of a block in use does what it should, up to the bytes that it reads. -/
theorem Holds.moved_iff (hbase : 0<base) (hs : Holds base s) (hb : b∈s.live) (mem : ℕ → UInt8)
    {size : ℕ} {answers : List (Option ℕ)} (hreq : Allowed base s (.malloc size answers)) :
    Moved base s mem b size answers ↔
      Refused base s size answers ∨ size+8≤allocsize s.heap (b.addr+8) := by
  obtain ⟨s₁,hstep,hs₁⟩ := step_holds hbase hs hreq
  obtain ⟨r,hr,rfl⟩ := Option.map_eq_some_iff.mp hstep
  unfold Moved realloc Refused
  rw [hr]
  obtain ⟨block,heap,cores⟩ := r
  cases block with
  | none =>
    exact iff_of_true ⟨none,_,mem,rfl,fun _ => ⟨hb,rfl⟩,fun p hp => by cases hp⟩ (.inl rfl)
  | some p =>
    have hb₁ : b∈(⟨p-8,size⟩ : Block)::s.live := mem_cons_of_mem _ hb
    obtain ⟨s₂,hfree,-⟩ := step_holds hbase hs₁ (show Allowed base _ (.free b) from hb₁)
    dsimp only at hfree ⊢
    rw [hfree]
    have hsize₁ : allocsize heap (b.addr+8)=8*b.units := hs₁.allocsize_eq hb₁
    obtain ⟨h₂,hfree₂,rfl⟩ := Option.map_eq_some_iff.mp hfree
    have hlarge : b.nbytes+8≤8*b.units := by
      have := hs.sound.large b hb
      rw [hs.blockEnd_eq hb] at this
      omega
    have hread : b.addr+8+copyLength (allocsize s.heap (b.addr+8)) size ≤ s.blockEnd b ↔
        size+8≤allocsize s.heap (b.addr+8) := by
      rw [hs.allocsize_eq hb,hs.blockEnd_eq hb]
      unfold copyLength
      split <;> omega
    have hlive : (⟨p-8,size⟩ : Block)∈((⟨p-8,size⟩ : Block)::s.live).erase b := by
      have hne : (⟨p-8,size⟩ : Block)≠b := fun heq => by
        have := hs₁.disjoint_erase hb₁ (show b∈((⟨p-8,size⟩ : Block)::s.live).erase b by
          rw [heq,erase_cons_head]
          exact hb)
        have := b.units_pos
        omega
      exact (mem_erase_of_ne hne).mpr mem_cons_self
    have hmoved : ∀ i < min b.nbytes size,
        memcpy mem p (b.addr+8) (copyLength (allocsize heap (b.addr+8)) size) (p+i)=
          mem (b.addr+8+i) := fun i hi => by
      have hcopy : i<copyLength (allocsize heap (b.addr+8)) size := by
        rw [hsize₁]
        unfold copyLength
        split <;> omega
      rw [memcpy,if_pos ⟨Nat.le_add_right _ _,by omega⟩,Nat.add_sub_cancel_left]
    simp only [Option.map_some,Option.some.injEq,Option.bind_some,reduceCtorEq,false_or]
    constructor
    · rintro ⟨r,s',mem',hres,-,hsome⟩
      obtain ⟨rfl,-⟩ := Prod.mk.inj hres
      exact hread.mp (hsome p rfl).2.2
    · intro hsmall
      refine ⟨some p,_,_,rfl,(fun h => by cases h),fun q hq => ?_⟩
      obtain rfl : p=q := Option.some.inj hq
      exact ⟨hlive,hmoved,hread.mpr hsmall⟩

/-- For a block in use and a request, after any run: the bytes of `allocsize` are the block's own
and `realloc` reads none but those exactly when no header stands behind the block and the new block
is at least a header smaller than `allocsize`, or none is to be had. -/
theorem realloc_moves_iff (hbase : 0<base) {ops : List Op} {s₀ : State} (hs₀ : Initial s₀)
    (hops : Allows base s₀ ops) (hrun : run base s₀ ops=some s) (hb : b∈s.live)
    (mem : ℕ → UInt8) {size : ℕ} {answers : List (Option ℕ)}
    (hreq : Allowed base s (.malloc size answers)) :
    OwnBytes base s b ∧ Moved base s mem b size answers ↔
      (∀ a, Header base s b a → a+8 ≤ s.blockEnd b ∨ s.blockEnd b+8≤a) ∧
        (Refused base s size answers ∨ size+8≤allocsize s.heap (b.addr+8)) := by
  obtain ⟨s',hrun',hs⟩ := run_holds hbase (.inl hs₀) hops
  obtain rfl : s=s' := Option.some.inj (hrun.symm.trans hrun')
  rw [hs.ownBytes_iff hb,hs.moved_iff hbase hb mem hreq]

def twoOps : List Op := [.malloc 8 [some 0x80010000],.malloc 8 []]

theorem twoOps_allows : Allows 0x80008000 sampleState twoOps := by
  refine ⟨⟨by norm_num,fun cp hcp => ?_⟩,fun s₁ _ => ⟨⟨by norm_num,by simp⟩,fun _ _ => trivial⟩⟩
  obtain rfl : 0x80010000=cp := by simpa using hcp
  exact ⟨by norm_num,by decide,by simp [sampleState,CoreByte]⟩

/-- The state after two calls `malloc (8)`: what of it the examples need. -/
theorem run_twoOps : ∃ s, run 0x80008000 sampleState twoOps=some s ∧
    s.live=[⟨0x800103e0,8⟩,⟨0x800103f0,8⟩] ∧ s.heap.size 0x800103f0=2 ∧
    s.heap.size 0x800103e0=2 ∧ Ring 0x80008000 s.heap [0x80008000,0x80010000] := by
  have hview : (run 0x80008000 sampleState twoOps).map (fun s => (s.live,
      [s.heap.size 0x800103f0,s.heap.size 0x800103e0,s.heap.ptr 0x80008000,s.heap.ptr 0x80010000,
        s.heap.size 0x80008000,s.heap.size 0x80010000,s.heap.allocp]))=
      some ([⟨0x800103e0,8⟩,⟨0x800103f0,8⟩],[2,2,0x80010000,0x80008000,0,124,0x80008000]) := by
    decide +kernel
  obtain ⟨s,hrun,hview⟩ := Option.map_eq_some_iff.mp hview
  simp only [Prod.mk.injEq,cons.injEq,and_true] at hview
  obtain ⟨hlive,hhigh,hlow,hptr,hptr',hbase,hfree,hallocp⟩ := hview
  refine ⟨s,hrun,hlive,hhigh,hlow,⟨rfl,⟨hptr,hptr',trivial⟩,?_,?_,?_⟩⟩
  · simp [hbase]
  · simp [hbase,hfree]
  · simp [hallocp]

/-- The upper of the two blocks ends where the memory does, and can be made as small as it is. -/
theorem realloc_moves_iff_upper : ∃ s, run 0x80008000 sampleState twoOps=some s ∧
    OwnBytes 0x80008000 s ⟨0x800103f0,8⟩ ∧
      Moved 0x80008000 s (fun x => x.toUInt8) ⟨0x800103f0,8⟩ 8 [] := by
  obtain ⟨s,hrun,hlive,hhigh,-,hring⟩ := run_twoOps
  have hmem : (⟨0x800103f0,8⟩ : Block)∈s.live := by rw [hlive]; decide
  refine ⟨s,hrun,(realloc_moves_iff (by norm_num) ⟨rfl,rfl,rfl⟩ twoOps_allows hrun hmem _
    ⟨by norm_num,by simp⟩).mpr ⟨fun a ha => ?_,.inr ?_⟩⟩
  · rw [State.blockEnd,hhigh]
    rcases ha with ⟨b',hb',rfl⟩ | ⟨c,hc,ha⟩
    · rw [hlive] at hb'
      have : b'=⟨0x800103e0,8⟩ := by simpa using hb'
      rw [this]
      decide
    · rw [hc.unique hring] at ha
      rcases mem_pair.mp ha with rfl | rfl <;> decide
  · rw [allocsize,Nat.add_sub_cancel,hhigh]

/-- The bytes that `allocsize` counts for the lower block run over the header of the upper one. -/
theorem allocsize_overlaps : ∃ s, run 0x80008000 sampleState twoOps=some s ∧
    ⟨0x800103e0,8⟩∈s.live ∧ allocsize s.heap 0x800103e8=16 ∧
      ¬ OwnBytes 0x80008000 s ⟨0x800103e0,8⟩ := by
  obtain ⟨s,hrun,hlive,hhigh,hlow,-⟩ := run_twoOps
  have hsize : allocsize s.heap 0x800103e8=16 := by rw [allocsize,hlow]
  refine ⟨s,hrun,by rw [hlive]; decide,hsize,fun hown => ?_⟩
  refine (hown 0x800103f0 (by decide) (by rw [hsize]; decide)).1 ⟨0x800103f0,8⟩ ?_ ⟨le_rfl,?_⟩
  · rw [hlive]
    decide
  · rw [State.blockEnd,hhigh]
    decide

end Pmon.Malloc
