import Pmon.BootpVendor

/-!
# Bytes that a vendor area is read from

The loop of `vend_rfc1048` tests for the end of the area once for each item.
-/

namespace Pmon.Bootp
open List

def visits (mem : ℕ → UInt8) (ep : ℕ) : ℕ → ℕ → Bootparams → List (ℕ × Bootparams)
  | 0, _, _ => []
  | fuel+1, cp, b =>
    if cp<ep then
      (cp,b) ::
        if mem cp=tagEnd then []
        else
          let size := (mem (cp+1)).toNat
          visits mem ep fuel (cp+2+size) (vendItem mem (mem cp) size (cp+2) b).1
    else []

def Taken (tag : UInt8) (size : ℕ) (b : Bootparams) : Prop :=
  ∃ f, itemOf tag=some f ∧ f.fits size=true ∧ b.has f=false

def RoundInside (mem : ℕ → UInt8) (ep : ℕ) (v : ℕ × Bootparams) : Prop :=
  v.1+2≤ep ∧ (mem v.1≠tagEnd → Taken (mem v.1) (mem (v.1+1)).toNat v.2 →
    v.1+2+(mem (v.1+1)).toNat≤ep)

structure Bounded (mem : ℕ → UInt8) (b : Bootparams) : Prop where
  reads : ∀ i∈(vendRfc1048 mem b).2, i<vendSize
  params : ∀ mem' : ℕ → UInt8, (∀ i, i<vendSize → mem' i=mem i) →
    (vendRfc1048 mem' b).1=(vendRfc1048 mem b).1

variable {mem mem' : ℕ → UInt8} {ep : ℕ} {b : Bootparams}

theorem vendItem_snd (mem : ℕ → UInt8) (tag : UInt8) (size cp : ℕ) (b : Bootparams) :
    Taken tag size b ∧ (vendItem mem tag size cp b).2=range' cp size ∨
      ¬Taken tag size b ∧ (vendItem mem tag size cp b).2=[] := by
  rw [vendItem,Taken]
  cases itemOf tag with
  | none => exact .inr ⟨by simp,rfl⟩
  | some f =>
    cases f with
    | ip i =>
      dsimp only
      split
      · rename_i h
        obtain ⟨rfl,hhas⟩ := h
        exact .inl ⟨⟨_,rfl,rfl,hhas⟩,rfl⟩
      · rename_i h
        refine .inr ⟨?_,rfl⟩
        rintro ⟨g,hg,hfits,hhas⟩
        cases hg
        exact h ⟨of_decide_eq_true hfits,hhas⟩
    | name n =>
      dsimp only
      split
      · rename_i h
        exact .inl ⟨⟨_,rfl,decide_eq_true h.1,h.2⟩,rfl⟩
      · rename_i h
        refine .inr ⟨?_,rfl⟩
        rintro ⟨g,hg,hfits,hhas⟩
        cases hg
        exact h ⟨of_decide_eq_true hfits,hhas⟩

variable {cp size : ℕ}

theorem forall_mem_range'_lt (hcp : cp≤ep) : (∀ i∈range' cp size, i<ep) ↔ cp+size≤ep := by
  simp only [mem_range'_1]
  constructor
  · intro h
    by_contra hlt
    exact absurd (h ep ⟨hcp,by omega⟩) (lt_irrefl ep)
  · intro h i hi
    omega

theorem vendItem_reads_iff {tag : UInt8} (hcp : cp≤ep) :
    (∀ i∈(vendItem mem tag size cp b).2, i<ep) ↔ (Taken tag size b → cp+size≤ep) := by
  rcases vendItem_snd mem tag size cp b with ⟨htaken,hreads⟩ | ⟨htaken,hreads⟩
  · rw [hreads,forall_mem_range'_lt hcp]
    exact ⟨fun h _ => h,fun h => h htaken⟩
  · rw [hreads]
    exact iff_of_true (fun i hi => absurd hi not_mem_nil) (fun h => absurd h htaken)

theorem vendLoop_reads_iff (mem : ℕ → UInt8) (ep fuel cp : ℕ) (b : Bootparams) :
    (∀ i∈(vendLoop mem ep fuel cp b).2, i<ep) ↔
      ∀ v∈visits mem ep fuel cp b, RoundInside mem ep v := by
  induction fuel generalizing cp b with
  | zero =>
    exact iff_of_true (fun i hi => absurd hi not_mem_nil)
      (fun v hv => absurd hv not_mem_nil)
  | succ fuel ih =>
    rw [vendLoop,visits]
    split
    · rename_i hcp
      dsimp only
      split
      · rename_i htag
        simp only [forall_mem_cons,RoundInside,htag]
        simp only [not_mem_nil,false_implies,implies_true,and_true,ne_eq,not_true_eq_false]
        omega
      · rename_i htag
        rw [forall_mem_cons,forall_mem_cons,forall_mem_append,forall_mem_cons,ih,RoundInside]
        constructor
        · rintro ⟨_,hlen,hitem,hrest⟩
          exact ⟨⟨hlen,fun _ => (vendItem_reads_iff hlen).mp hitem⟩,hrest⟩
        · rintro ⟨⟨hlen,hitem⟩,hrest⟩
          have hlen' := hlen
          exact ⟨hcp,hlen',(vendItem_reads_iff hlen').mpr (hitem htag),hrest⟩
    · exact iff_of_true (fun i hi => absurd hi not_mem_nil)
        (fun v hv => absurd hv not_mem_nil)

theorem bytesAt_congr (h : ∀ i, i<ep → mem' i=mem i) (hle : cp+size≤ep) :
    bytesAt mem' cp size=bytesAt mem cp size := by
  refine map_congr_left fun i hi => h _ ?_
  have := List.mem_range.mp hi
  omega

theorem takeItem_of_not_taken {x : Item} (h : ¬Taken x.tag x.value.length b) :
    takeItem b x=b := by
  rw [takeItem]
  cases hitem : itemOf x.tag with
  | none => rfl
  | some f => exact if_neg fun hfits => h ⟨f,hitem,hfits.1,hfits.2⟩

theorem vendItem_congr {tag : UInt8} (h : ∀ i, i<ep → mem' i=mem i)
    (hinside : Taken tag size b → cp+size≤ep) :
    (vendItem mem' tag size cp b).1=(vendItem mem tag size cp b).1 := by
  rw [vendItem_fst,vendItem_fst]
  by_cases htaken : Taken tag size b
  · rw [bytesAt_congr h (hinside htaken)]
  · rw [takeItem_of_not_taken,takeItem_of_not_taken]
    · rw [length_bytesAt]
      exact htaken
    · rw [length_bytesAt]
      exact htaken

theorem vendLoop_congr {fuel : ℕ} (h : ∀ i, i<ep → mem' i=mem i)
    (hinside : ∀ v∈visits mem ep fuel cp b, RoundInside mem ep v) :
    (vendLoop mem' ep fuel cp b).1=(vendLoop mem ep fuel cp b).1 := by
  induction fuel generalizing cp b with
  | zero => rfl
  | succ fuel ih =>
    rw [visits] at hinside
    rw [vendLoop,vendLoop]
    split
    · rename_i hcp
      rw [if_pos hcp,forall_mem_cons] at hinside
      obtain ⟨⟨hlen,hitem⟩,hrest⟩ := hinside
      have hlen' := hlen
      rw [h cp hcp,h (cp+1) (by omega)]
      dsimp only
      split
      · rfl
      · rename_i htag
        rw [if_neg htag] at hrest
        rw [vendItem_congr h (hitem htag)]
        exact ih hrest
    · rfl

/-- `vend_rfc1048` keeps to the area exactly when no tag is in its last byte and every item taken
ends in it. -/
theorem vendRfc1048_bounded_iff (mem : ℕ → UInt8) (b : Bootparams) :
    Bounded mem b ↔ ∀ v∈visits mem vendSize vendSize 4 b, RoundInside mem vendSize v := by
  constructor
  · exact fun h => (vendLoop_reads_iff mem vendSize vendSize 4 b).mp h.reads
  · exact fun h => ⟨(vendLoop_reads_iff mem vendSize vendSize 4 b).mpr h,
      fun mem' hmem => vendLoop_congr hmem h⟩

def overhang : ℕ → UInt8 :=
  areaOf ([99,130,83,99,2,55]++List.replicate 55 0++[1,4,255,255,0,0])

theorem vendRfc1048_not_bounded : ¬Bounded overhang noParams := by
  intro h
  have hread : 64∈(vendRfc1048 overhang noParams).2 := by decide +kernel
  exact absurd (h.reads 64 hread) (by decide)

end Pmon.Bootp
