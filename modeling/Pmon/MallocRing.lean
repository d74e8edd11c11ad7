import Pmon.Malloc

/-!
# The ring of free blocks

The headers in the order of their links, the static one first: in address order, with a gap behind
every block.
-/

namespace Pmon.Malloc
open LinkedRing List Function

/-- The free list is a circle in the order of addresses, from the empty block `base`. -/
structure Ring (base : ℕ) (h : Heap) (c : List ℕ) : Prop where
  head : c.headD 0=base
  path : Path h.ptr c base
  sorted : c.Pairwise fun a b => a+8*h.size a<b
  size_eq_zero : ∀ a∈c, h.size a=0 ↔ a=base
  allocp_mem : h.allocp∈c

def FreeByte (h : Heap) (c : List ℕ) (x : ℕ) : Prop :=
  ∃ a∈c, a≤x ∧ x<a+8*h.size a

def freeUnits (h : Heap) (c : List ℕ) : ℕ := (c.map h.size).sum

section
variable {base p q : ℕ} {h h' : Heap} {c c' pre post : List ℕ}

@[simp] theorem freeByte_nil (h : Heap) (x : ℕ) : ¬ FreeByte h [] x := by simp [FreeByte]

theorem freeByte_cons {a x : ℕ} :
    FreeByte h (a::c) x ↔ (a≤x ∧ x<a+8*h.size a) ∨ FreeByte h c x := by
  simp [FreeByte]

theorem freeByte_append {x : ℕ} : FreeByte h (c++c') x ↔ FreeByte h c x ∨ FreeByte h c' x := by
  simp [FreeByte,or_and_right,exists_or]

theorem freeByte_congr {x : ℕ} (heq : ∀ a∈c, h'.size a=h.size a) :
    FreeByte h' c x ↔ FreeByte h c x := by
  constructor
  · rintro ⟨a,ha,hx⟩
    exact ⟨a,ha,heq a ha ▸ hx⟩
  · rintro ⟨a,ha,hx⟩
    exact ⟨a,ha,(heq a ha).symm ▸ hx⟩

@[simp] theorem freeUnits_cons (h : Heap) (a : ℕ) (c : List ℕ) :
    freeUnits h (a::c)=h.size a+freeUnits h c := by simp [freeUnits]

@[simp] theorem freeUnits_append (h : Heap) (c c' : List ℕ) :
    freeUnits h (c++c')=freeUnits h c+freeUnits h c' := by simp [freeUnits]

theorem freeUnits_congr (heq : ∀ a∈c, h'.size a=h.size a) : freeUnits h' c=freeUnits h c := by
  unfold freeUnits
  rw [map_congr_left heq]

theorem headD_replace {a : ℕ} {x y : List ℕ} :
    (pre++q::x).headD a=(pre++q::y).headD a := by
  cases pre <;> rfl
end
namespace Ring
variable {base p q : ℕ} {h h' : Heap} {c pre post : List ℕ}

theorem base_mem (hr : Ring base h c) : base∈c := by
  have hne := ne_nil_of_mem hr.allocp_mem
  obtain ⟨a,t,rfl⟩ := exists_cons_of_ne_nil hne
  obtain rfl : a=base := hr.head
  exact mem_cons_self

theorem eq_cons (hr : Ring base h c) : ∃ l, c=base::l := by
  obtain ⟨a,t,rfl⟩ := exists_cons_of_ne_nil (ne_nil_of_mem hr.allocp_mem)
  obtain rfl : a=base := hr.head
  exact ⟨t,rfl⟩

theorem base_size (hr : Ring base h c) : h.size base=0 :=
  (hr.size_eq_zero base hr.base_mem).2 rfl

variable {a b : ℕ}

theorem base_lt (hr : Ring base h c) (ha : a∈c) (hne : a≠base) : base<a := by
  obtain ⟨l,rfl⟩ := hr.eq_cons
  have hl := (mem_cons.1 ha).resolve_left hne
  have := (pairwise_cons.1 hr.sorted).1 a hl
  omega

theorem base_le (hr : Ring base h c) (ha : a∈c) : base≤a := by
  by_cases hne : a=base
  · exact hne.ge
  · exact (hr.base_lt ha hne).le

theorem length_le (hr : Ring base h c) : c.length≤freeUnits h c+1 := by
  obtain ⟨l,rfl⟩ := hr.eq_cons
  have hnotin : base∉l := fun hb => by
    have := (pairwise_cons.1 hr.sorted).1 base hb
    omega
  have hpos : ∀ a∈l, 1≤h.size a := fun a ha => by
    have hne : a≠base := fun he => hnotin (he ▸ ha)
    have := mt (hr.size_eq_zero a (mem_cons_of_mem _ ha)).1 hne
    omega
  have hsum := card_nsmul_le_sum (l.map h.size) 1 (by simpa using hpos)
  simp only [length_map,smul_eq_mul,mul_one] at hsum
  rw [length_cons,freeUnits_cons]
  unfold freeUnits
  omega

theorem walk {stop : ℕ → Bool} {n : ℕ} (hr : Ring base h c) (hn : c.length≤n)
    (hstop : ∃ x∈c, stop x=true) :
    ∃ x∈c, LinkedRing.walk h.ptr stop n h.allocp=some x ∧ stop x=true := by
  obtain ⟨l,rfl⟩ := hr.eq_cons
  exact hr.path.walk_ring hr.allocp_mem (by simpa using hn) hstop

section
variable (hr : Ring base h (pre++q::post))
include hr

theorem split_ptr : h.ptr q=post.headD base :=
  ((path_append _ _ _ _).1 hr.path).2.1

theorem split_path : Path h.ptr post base :=
  ((path_append _ _ _ _).1 hr.path).2.2

theorem split_below (ha : a∈pre) (hb : b∈q::post) :
    a+8*h.size a<b :=
  (pairwise_append.1 hr.sorted).2.2 a ha b hb

theorem split_sorted :
    (q::post).Pairwise fun a b => a+8*h.size a<b :=
  (pairwise_append.1 hr.sorted).2.1

theorem split_above (hb : b∈post) : q+8*h.size q<b :=
  (pairwise_cons.1 hr.split_sorted).1 b hb

theorem split_ne_base (hb : b∈post) : b≠base := by
  rintro rfl
  have hle : b≤q := hr.base_le (by simp)
  have hlt := hr.split_above hb
  omega

theorem split_pos (hb : b∈post) : 0<h.size b := by
  have hmem : b∈pre++q::post := by simp [hb]
  have := mt (hr.size_eq_zero b hmem).1 (hr.split_ne_base hb)
  omega

theorem replace {x : List ℕ} (hpre : ∀ a∈pre, h'.ptr a=h.ptr a ∧ h'.size a=h.size a)
    (hpath : Path h'.ptr (q::x) base)
    (hsorted : (q::x).Pairwise fun a b => a+8*h'.size a<b) (hpos : ∀ a∈x, 0<h'.size a)
    (hq : h'.size q=0 ↔ q=base) (hallocp : h'.allocp=q) : Ring base h' (pre++q::x) where
  head := by rw [headD_replace]; exact hr.head
  path := by
    refine (path_append _ _ _ _).2 ⟨?_,hpath⟩
    exact ((path_append _ _ _ _).1 hr.path).1.congr fun a ha => (hpre a ha).1
  sorted := by
    refine pairwise_append.2 ⟨?_,hsorted,?_⟩
    · refine (pairwise_append.1 hr.sorted).1.imp_of_mem fun {a b} ha _ hab => ?_
      rw [(hpre a ha).2]
      exact hab
    · intro a ha b hb
      have haq := hr.split_below ha mem_cons_self
      have hqb : q≤b := by
        rcases mem_cons.1 hb with rfl | hb
        · exact le_rfl
        · have := (pairwise_cons.1 hsorted).1 b hb
          omega
      rw [(hpre a ha).2]
      omega
  size_eq_zero := by
    intro a ha
    rcases mem_append.1 ha with ha | ha
    · rw [(hpre a ha).2]
      exact hr.size_eq_zero a (mem_append_left _ ha)
    · rcases mem_cons.1 ha with rfl | ha
      · exact hq
      · -- a block of the new part is above `q`, hence not the static header
        have hqa := (pairwise_cons.1 hsorted).1 a ha
        have hbase : base≤q := hr.base_le (by simp)
        have := hpos a ha
        constructor <;> intro h0 <;> omega
  allocp_mem := by simp [hallocp]
end
end Ring
section
variable {base p q : ℕ} {h h' : Heap} {c pre post : List ℕ}

structure Place (h : Heap) (p q : ℕ) (post : List ℕ) : Prop where
  pos : 0<h.size p
  lower : q+8*h.size q≤p
  lt : q<p
  upper : ∀ b∈post, p+8*h.size p≤b

theorem Ring.place (hr : Ring base h (pre++q::post)) (hbase : base<p) (hpos : 0<h.size p)
    (hapart : ∀ x, p≤x → x<p+8*h.size p → ¬ FreeByte h (pre++q::post) x)
    (hleaves : leavesAt h p q=true) : Place h p q post := by
  have hptr := hr.split_ptr
  have hq : q∈pre++q::post := by simp
  simp only [leavesAt,Bool.or_eq_true,Bool.and_eq_true,decide_eq_true_eq] at hleaves
  have hlt : q<p := by
    rcases hleaves with hin | ⟨hend,hout⟩
    · exact hin.1
    · cases post with
      | nil => rw [hptr,headD_nil] at hend hout; omega
      | cons n post =>
        have := hr.split_above (b := n) mem_cons_self
        rw [hptr,headD_cons] at hend
        omega
  have hbelow : ∀ b∈post, p<b := by
    cases post with
    | nil => simp
    | cons n post =>
      rw [hptr,headD_cons] at hleaves
      have hn := hr.split_above (b := n) mem_cons_self
      have hpn : p<n := by omega
      intro b hb
      rcases mem_cons.1 hb with rfl | hb
      · exact hpn
      · have hsorted := (pairwise_cons.1 hr.split_sorted).2
        have := (pairwise_cons.1 hsorted).1 b hb
        omega
  refine ⟨hpos,?_,hlt,fun b hb => ?_⟩
  · -- the first byte of the block is not a byte of `q`
    by_contra hover
    exact hapart p le_rfl (by omega) ⟨q,hq,by omega,by omega⟩
  · by_contra hover
    have hpb := hbelow b hb
    exact hapart b hpb.le (by omega)
      ⟨b,by simp [hb],le_rfl,by have := hr.split_pos hb; omega⟩

structure Joined (base : ℕ) (h h' : Heap) (p : ℕ) (post post' : List ℕ) : Prop where
  path : Path h'.ptr (p::post') base
  sorted : (p::post').Pairwise fun a b => a+8*h'.size a<b
  pos : ∀ a∈p::post', 0<h'.size a
  units : freeUnits h' (p::post')=freeUnits h post+h.size p
  bytes : ∀ x, FreeByte h' (p::post') x ↔
    FreeByte h post x ∨ (p≤x ∧ x<p+8*h.size p)
  le : h.size p≤h'.size p
  length : post'.length≤post.length
  frame : ∀ a, a≠p → h'.ptr a=h.ptr a ∧ h'.size a=h.size a

theorem Ring.joinUpper (hr : Ring base h (pre++q::post)) (hp : Place h p q post) :
    ∃ post', Joined base h (joinUpper h p q) p post post' := by
  have hptr := hr.split_ptr
  have hpath := hr.split_path
  have hpos : ∀ a∈post, 0<h.size a := fun a ha => hr.split_pos ha
  have hsorted := (pairwise_cons.1 hr.split_sorted).2
  have hnotin : ∀ a∈post, a≠p := fun a ha he => by
    have := hp.upper a ha
    have := hp.pos
    omega
  unfold Malloc.joinUpper
  split_ifs with hjoin
  · -- the successor is a block of the ring, since `base` is below `p`
    cases post with
    | nil =>
      rw [hptr,headD_nil] at hjoin
      have hbq : base≤q := hr.base_le (by simp)
      have := hp.lt
      omega
    | cons n post =>
      rw [hptr,headD_cons] at hjoin ⊢
      have hnotin' : ∀ a∈post, a≠p := fun a ha => hnotin a (mem_cons_of_mem _ ha)
      have hsize : ∀ a∈post,
          update h.size p (h.size p+h.size n) a=h.size a :=
        fun a ha => update_of_ne (hnotin' a ha) _ _
      refine ⟨post,?_,?_,?_,?_,?_,?_,?_,?_⟩
      · refine ⟨?_,hpath.2.congr fun a ha => update_of_ne (hnotin' a ha) _ _⟩
        simpa using hpath.1
      · refine pairwise_cons.2 ⟨fun b hb => ?_,?_⟩
        · have := (pairwise_cons.1 hsorted).1 b hb
          simp only [update_self]
          omega
        · refine (pairwise_cons.1 hsorted).2.imp_of_mem fun {a b} ha _ hab => ?_
          simpa only [hsize a ha] using hab
      · intro a ha
        rcases mem_cons.1 ha with rfl | ha
        · simp only [update_self]
          have := hp.pos
          omega
        · simpa only [hsize a ha] using hpos a (mem_cons_of_mem _ ha)
      · rw [freeUnits_cons,freeUnits_cons,freeUnits_congr hsize]
        simp only [update_self]
        omega
      · intro x
        rw [freeByte_cons,freeByte_cons,freeByte_congr hsize]
        simp only [update_self]
        have : (p≤x ∧ x<p+8*(h.size p+h.size n)) ↔
            (n≤x ∧ x<n+8*h.size n) ∨ (p≤x ∧ x<p+8*h.size p) := by omega
        rw [this,or_assoc,or_assoc,or_comm (b := FreeByte h post x)]
      · simp
      · simp
      · intro a ha
        exact ⟨update_of_ne ha _ _,update_of_ne ha _ _⟩
  · refine ⟨post,?_,?_,?_,?_,?_,le_rfl,le_rfl,?_⟩
    · refine ⟨?_,hpath.congr fun a ha => update_of_ne (hnotin a ha) _ _⟩
      simpa using hptr
    · refine pairwise_cons.2 ⟨fun b hb => ?_,hsorted⟩
      -- the successor is not adjacent, and the others lie above it
      cases post with
      | nil => simp at hb
      | cons n post =>
        rw [hptr,headD_cons] at hjoin
        have hn := hp.upper n mem_cons_self
        rcases mem_cons.1 hb with rfl | hb
        · simp only
          omega
        · have := (pairwise_cons.1 hsorted).1 b hb
          simp only
          omega
    · intro a ha
      rcases mem_cons.1 ha with rfl | ha
      · exact hp.pos
      · exact hpos a ha
    · rw [freeUnits_cons,Nat.add_comm]
      rfl
    · intro x
      rw [freeByte_cons,or_comm]
      rfl
    · intro a ha
      exact ⟨update_of_ne ha _ _,rfl⟩

structure Inserted (base : ℕ) (h h' : Heap) (p : ℕ) (c c' : List ℕ) : Prop where
  ring : Ring base h' c'
  units : freeUnits h' c'=freeUnits h c+h.size p
  bytes : ∀ x, FreeByte h' c' x ↔ FreeByte h c x ∨ (p≤x ∧ x<p+8*h.size p)
  large : ∃ a∈c', h.size p≤h'.size a
  length : c'.length≤c.length+1
  frame : ∀ a, a∉c → a≠p → h'.size a=h.size a

theorem Ring.pre_ne {a : ℕ} (hr : Ring base h (pre++q::post)) (hp : Place h p q post)
    (ha : a∈pre) : a≠p ∧ a≠q := by
  have := hr.split_below ha mem_cons_self
  have := hp.lt
  omega

variable {post' : List ℕ}

theorem Joined.upper {b : ℕ} (hj : Joined base h h' p post post') (hb : b∈post') :
    p+8*h'.size p<b :=
  (pairwise_cons.1 hj.sorted).1 b hb

section
variable (hr : Ring base h (pre++q::post)) (hp : Place h p q post)
include hr hp

theorem Ring.growLower {g : Heap} (hj : Joined base h h' p post post')
    (hjoin : q+8*h.size q=p)
    (hsize : g.size=update h'.size q (h'.size q+h'.size p))
    (hptr : g.ptr=update h'.ptr q (h'.ptr p)) (hallocp : g.allocp=q) :
    Inserted base h g p (pre++q::post) (pre++q::post') := by
  have hpos := hj.pos p mem_cons_self
  have hpostne : ∀ a∈post', a≠q := fun a ha => by
    have := hj.upper ha
    omega
  have hq : g.size q=h.size q+h'.size p := by
    rw [hsize,update_self,(hj.frame q hp.lt.ne).2]
  have hother : ∀ a, a≠q → g.ptr a=h'.ptr a ∧ g.size a=h'.size a := fun a ha => by
    rw [hptr,hsize,update_of_ne ha,update_of_ne ha]
    exact ⟨rfl,rfl⟩
  have hpre : ∀ a∈pre, g.ptr a=h.ptr a ∧ g.size a=h.size a := fun a ha => by
    obtain ⟨hap,haq⟩ := hr.pre_ne hp ha
    rw [(hother a haq).1,(hother a haq).2]
    exact hj.frame a hap
  have hpost : ∀ a∈post', g.size a=h'.size a := fun a ha => (hother a (hpostne a ha)).2
  -- the static header has no units, so it is not `q`
  have hqbase : q≠base := fun he => by
    have := (hr.size_eq_zero q (by simp)).2 he
    have := hp.lt
    omega
  refine ⟨hr.replace hpre ?_ ?_ ?_ ?_ hallocp,?_,?_,⟨q,by simp,?_⟩,?_,?_⟩
  · refine ⟨?_,hj.path.2.congr fun a ha => (hother a (hpostne a ha)).1⟩
    rw [hptr,update_self]
    exact hj.path.1
  · refine pairwise_cons.2 ⟨fun b hb => ?_,?_⟩
    · have := hj.upper hb
      omega
    · refine (pairwise_cons.1 hj.sorted).2.imp_of_mem fun {a b} ha _ hab => ?_
      rw [hpost a ha]
      exact hab
  · intro a ha
    rw [hpost a ha]
    exact hj.pos a (mem_cons_of_mem _ ha)
  · constructor
    · omega
    · exact fun he => absurd he hqbase
  · have hunits := hj.units
    rw [freeUnits_cons] at hunits
    rw [freeUnits_append,freeUnits_cons,freeUnits_append,freeUnits_cons,hq,
      freeUnits_congr fun a ha => (hpre a ha).2,freeUnits_congr hpost]
    omega
  · intro x
    have hbytes := hj.bytes x
    rw [freeByte_cons] at hbytes
    have hgrown : (q≤x ∧ x<q+8*(h.size q+h'.size p)) ↔
        (q≤x ∧ x<q+8*h.size q) ∨ (p≤x ∧ x<p+8*h'.size p) := by omega
    rw [freeByte_append,freeByte_cons,freeByte_append,freeByte_cons,hq,hgrown,
      freeByte_congr fun a ha => (hpre a ha).2,freeByte_congr hpost]
    simp only [or_assoc]
    rw [hbytes]
  · have := hj.le
    omega
  · have := hj.length
    simp only [length_append,length_cons]
    omega
  · intro a ha hap
    have haq : a≠q := fun he => ha (by simp [he])
    rw [(hother a haq).2]
    exact (hj.frame a hap).2

theorem Ring.linkLower {g : Heap} (hj : Joined base h h' p post post') (hgap : q+8*h.size q≠p)
    (hsize : g.size=h'.size) (hptr : g.ptr=update h'.ptr q p) (hallocp : g.allocp=q) :
    Inserted base h g p (pre++q::post) (pre++q::p::post') := by
  have hq : g.size q=h.size q := by rw [hsize,(hj.frame q hp.lt.ne).2]
  have hpre : ∀ a∈pre, g.ptr a=h.ptr a ∧ g.size a=h.size a := fun a ha => by
    obtain ⟨hap,haq⟩ := hr.pre_ne hp ha
    rw [hptr,hsize,update_of_ne haq]
    exact hj.frame a hap
  have hne : ∀ a∈p::post', a≠q := fun a ha => by
    have := hp.lt
    rcases mem_cons.1 ha with rfl | ha
    · omega
    · have := hj.upper ha
      omega
  have hrest : ∀ a∈p::post', g.size a=h'.size a := fun a _ => by rw [hsize]
  refine ⟨hr.replace hpre ?_ ?_ ?_ ?_ hallocp,?_,?_,⟨p,by simp,?_⟩,?_,?_⟩
  · rw [hptr]
    exact ⟨by simp,hj.path.congr fun a ha => update_of_ne (hne a ha) _ _⟩
  · rw [hsize]
    refine pairwise_cons.2 ⟨fun b hb => ?_,hj.sorted⟩
    have := hp.lower
    rw [←hsize,hq]
    rcases mem_cons.1 hb with rfl | hb
    · omega
    · have := hj.upper hb
      omega
  · rw [hsize]
    exact hj.pos
  · rw [hq]
    exact hr.size_eq_zero q (by simp)
  · rw [freeUnits_append,freeUnits_append,freeUnits_cons g,freeUnits_cons h,hq,
      freeUnits_congr hrest,hj.units,freeUnits_congr fun a ha => (hpre a ha).2]
    omega
  · intro x
    have hbytes := hj.bytes x
    rw [←freeByte_congr hrest] at hbytes
    rw [freeByte_append,freeByte_cons (a := q),hbytes,hq,freeByte_append,freeByte_cons,
      freeByte_congr fun a ha => (hpre a ha).2]
    simp only [or_assoc]
  · rw [hsize]
    exact hj.le
  · have := hj.length
    simp only [length_append,length_cons]
    omega
  · intro a _ hap
    rw [hsize]
    exact (hj.frame a hap).2

theorem Ring.insert :
    ∃ c', Inserted base h (insert h p q) p (pre++q::post) c' := by
  obtain ⟨post',hj⟩ := hr.joinUpper hp
  have hq := (hj.frame q hp.lt.ne).2
  unfold Malloc.insert joinLower
  split_ifs with hjoin
  · rw [hq] at hjoin
    exact ⟨_,hr.growLower hp hj hjoin rfl rfl rfl⟩
  · rw [hq] at hjoin
    exact ⟨_,hr.linkLower hp hj hjoin rfl rfl rfl⟩
end

theorem Ring.exists_leavesAt (hr : Ring base h c) (hbase : base<p) (hp : p∉c) :
    ∃ q∈c, leavesAt h p q=true := by
  obtain ⟨l,rfl⟩ := hr.eq_cons
  -- the last header below `p`
  have hsplit : ∃ pre q post, base::l=pre++q::post ∧ q<p ∧ ∀ b∈post, p<b := by
    have hsorted : (base::l).Pairwise (· < ·) :=
      hr.sorted.imp fun hab => by omega
    clear hr
    induction l generalizing base with
    | nil => exact ⟨[],base,[],rfl,hbase,by simp⟩
    | cons n l ih =>
      have hnp : n≠p := fun he => hp (by simp [he])
      rcases Nat.lt_or_gt_of_ne hnp with hlt | hgt
      · obtain ⟨pre,q,post,heq,hq,hpost⟩ :=
          ih hlt (fun hm => hp (mem_cons_of_mem _ hm)) (pairwise_cons.1 hsorted).2
        exact ⟨base::pre,q,post,by rw [heq,cons_append],hq,hpost⟩
      · refine ⟨[],base,n::l,rfl,hbase,fun b hb => ?_⟩
        rcases mem_cons.1 hb with rfl | hb
        · exact hgt
        · exact hgt.trans
            ((pairwise_cons.1 (pairwise_cons.1 hsorted).2).1 b hb)
  obtain ⟨pre,q,post,heq,hq,hpost⟩ := hsplit
  rw [heq] at hr ⊢
  have hptr := hr.split_ptr
  refine ⟨q,by simp,?_⟩
  cases post with
  | nil =>
    have : h.ptr q≤q := by
      rw [hptr]
      exact hr.base_le (by simp)
    simp [leavesAt,hq,this]
  | cons n post =>
    have : p<h.ptr q := by
      rw [hptr]
      exact hpost n mem_cons_self
    simp [leavesAt,hq,this]

theorem Ring.free {fuel : ℕ} (hr : Ring base h c) (hfuel : c.length≤fuel)
    (hbase : base<p) (hpos : 0<h.size p)
    (hapart : ∀ x, p≤x → x<p+8*h.size p → ¬ FreeByte h c x) :
    ∃ h' c', free fuel h (p+8)=some h' ∧ Inserted base h h' p c c' := by
  have hnotin : p∉c := fun hm => hapart p le_rfl (by omega) ⟨p,hm,le_rfl,by omega⟩
  obtain ⟨q,hq,hwalk,hleaves⟩ := hr.walk hfuel (hr.exists_leavesAt hbase hnotin)
  obtain ⟨pre,post,rfl⟩ := append_of_mem hq
  obtain ⟨c',hins⟩ := hr.insert (hr.place hbase hpos hapart hleaves)
  refine ⟨_,c',?_,hins⟩
  simp only [Malloc.free,Nat.add_sub_cancel,hwalk,Option.map_some]
end
section
variable {base nu q : ℕ} {h : Heap} {c pre post : List ℕ}

structure Taken (base : ℕ) (h h' : Heap) (a nu : ℕ) (c c' : List ℕ) : Prop where
  ring : Ring base h' c'
  units : freeUnits h' c'+nu=freeUnits h c
  bytes : ∀ x, FreeByte h c x ↔ FreeByte h' c' x ∨ (a≤x ∧ x<a+8*nu)
  apart : ∀ x, a≤x → x<a+8*nu → ¬ FreeByte h' c' x
  header : h'.size a=nu
  frame : ∀ b, b∉c → b≠a → h'.size b=h.size b

theorem Ring.not_freeByte {p x : ℕ} (hr : Ring base h (pre++q::p::post)) (hp : p≤x)
    (hx : x<p+8*h.size p) : ¬ FreeByte h (pre++q::post) x := by
  rintro ⟨a,ha,hax,hxa⟩
  have hsorted := (pairwise_cons.1 hr.split_sorted).2
  rcases mem_append.1 ha with ha | ha
  · have := hr.split_below (b := p) ha (by simp)
    omega
  · rcases mem_cons.1 ha with rfl | ha
    · have := hr.split_above (b := p) (by simp)
      omega
    · have := (pairwise_cons.1 hsorted).1 a ha
      omega

theorem Ring.unlink {p : ℕ} {g : Heap} (hr : Ring base h (pre++q::p::post))
    (hsize : g.size=h.size) (hptr : g.ptr=update h.ptr q (h.ptr p))
    (hallocp : g.allocp=q) :
    Taken base h g p (h.size p) (pre++q::p::post) (pre++q::post) := by
  have hpath := hr.split_path
  have hcongr : ∀ {l : List ℕ}, ∀ a∈l, g.size a=h.size a := fun a _ => by rw [hsize]
  have hne : ∀ a∈pre++post, a≠q := fun a ha => by
    rcases mem_append.1 ha with ha | ha
    · have := hr.split_below (b := q) ha (by simp)
      omega
    · have := hr.split_above (b := a) (by simp [ha])
      omega
  have hother : ∀ a∈pre++post, g.ptr a=h.ptr a := fun a ha => by
    rw [hptr,update_of_ne (hne a ha)]
  refine ⟨hr.replace ?_ ?_ ?_ ?_ ?_ hallocp,?_,?_,?_,by rw [hsize],?_⟩
  · exact fun a ha => ⟨hother a (by simp [ha]),hcongr a ha⟩
  · refine ⟨?_,hpath.2.congr fun a ha => hother a (by simp [ha])⟩
    rw [hptr,update_self]
    exact hpath.1
  · rw [hsize]
    exact hr.split_sorted.sublist (by simp)
  · intro a ha
    rw [hsize]
    exact hr.split_pos (by simp [ha])
  · rw [hsize]
    exact hr.size_eq_zero q (by simp)
  · rw [freeUnits_congr hcongr]
    simp only [freeUnits_append,freeUnits_cons]
    omega
  · intro x
    rw [freeByte_congr hcongr]
    simp only [freeByte_append,freeByte_cons,or_assoc]
    rw [or_comm (a := FreeByte h post x)]
  · intro x hp hx
    rw [freeByte_congr hcongr]
    exact hr.not_freeByte hp hx
  · intro b _ _
    rw [hsize]

theorem Ring.shrink {p : ℕ} {g : Heap} (hr : Ring base h (pre++q::p::post))
    (hnu : 0<nu) (hlt : nu<h.size p)
    (hsize : g.size=update (update h.size p (h.size p-nu))
      (p+8*(h.size p-nu)) nu) (hptr : g.ptr=h.ptr) (hallocp : g.allocp=q) :
    Taken base h g (p+8*(h.size p-nu)) nu (pre++q::p::post)
      (pre++q::p::post) := by
  have hsorted := pairwise_cons.1 (pairwise_cons.1 hr.split_sorted).2
  have hqp := hr.split_above (b := p) (by simp)
  have hp : g.size p=h.size p-nu := by
    rw [hsize,update_of_ne (by omega),update_self]
  have hother : ∀ a, a≠p → a≠p+8*(h.size p-nu) → g.size a=h.size a :=
    fun a hap hat => by rw [hsize,update_of_ne hat,update_of_ne hap]
  have hpre : ∀ a∈pre, g.size a=h.size a := fun a ha => by
    have := hr.split_below (b := p) ha (by simp)
    exact hother a (by omega) (by omega)
  have hq : g.size q=h.size q := hother q (by omega) (by omega)
  have hpost : ∀ a∈post, g.size a=h.size a := fun a ha => by
    have := hsorted.1 a ha
    exact hother a (by omega) (by omega)
  have hbytes : ∀ x, FreeByte g (pre++q::p::post) x ↔
      FreeByte h (pre++q::post) x ∨ (p≤x ∧ x<p+8*(h.size p-nu)) := fun x => by
    simp only [freeByte_append,freeByte_cons,hq,hp,freeByte_congr hpre,
      freeByte_congr hpost,or_assoc]
    rw [or_comm (b := FreeByte h post x)]
  refine ⟨hr.replace ?_ ?_ ?_ ?_ ?_ hallocp,?_,?_,?_,?_,?_⟩
  · exact fun a ha => ⟨by rw [hptr],hpre a ha⟩
  · rw [hptr]
    exact ((path_append _ _ _ _).1 hr.path).2
  · refine pairwise_cons.2 ⟨fun b hb => ?_,pairwise_cons.2 ⟨fun b hb => ?_,?_⟩⟩
    · rw [hq]
      exact hr.split_above hb
    · have := hsorted.1 b hb
      omega
    · refine hsorted.2.imp_of_mem fun {a b} ha _ hab => ?_
      rw [hpost a ha]
      exact hab
  · intro a ha
    rcases mem_cons.1 ha with rfl | ha
    · omega
    · rw [hpost a ha]
      exact hr.split_pos (by simp [ha])
  · rw [hq]
    exact hr.size_eq_zero q (by simp)
  · simp only [freeUnits_append,freeUnits_cons,hq,hp,freeUnits_congr hpre,
      freeUnits_congr hpost]
    omega
  · intro x
    have hsplit : (p≤x ∧ x<p+8*h.size p) ↔ (p≤x ∧ x<p+8*(h.size p-nu)) ∨
        (p+8*(h.size p-nu)≤x ∧ x<p+8*(h.size p-nu)+8*nu) := by omega
    rw [hbytes,or_assoc,←hsplit]
    simp only [freeByte_append,freeByte_cons,or_assoc]
    rw [or_comm (b := FreeByte h post x)]
  · intro x hx hx'
    rw [hbytes,not_or]
    exact ⟨hr.not_freeByte (by omega) (by omega),by omega⟩
  · rw [hsize,update_self]
  · intro b hb hba
    exact hother b (fun he => hb (by simp [he])) hba

theorem Ring.take (hr : Ring base h c) (hq : q∈c) (hnu : 0<nu) (hsize : nu≤h.size (h.ptr q)) :
    ∃ c', Taken base h (take h nu q).2 (take h nu q).1 nu c c' := by
  obtain ⟨pre,post,rfl⟩ := append_of_mem hq
  have hptr := hr.split_ptr
  cases post with
  | nil =>
    -- the static header has no units to give
    rw [hptr,headD_nil,hr.base_size] at hsize
    omega
  | cons p post =>
    rw [headD_cons] at hptr
    unfold Malloc.take
    simp only [hptr]
    rw [hptr] at hsize
    split_ifs with heq
    · subst heq
      exact ⟨_,hr.unlink rfl rfl rfl⟩
    · exact ⟨_,hr.shrink hnu (by omega) rfl rfl rfl⟩
end
end Pmon.Malloc
