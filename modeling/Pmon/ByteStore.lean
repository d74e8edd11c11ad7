import Mathlib.Tactic
import Mathlib.Logic.Function.Basic
import Mathlib.Data.List.Basic

/-!
# Addressed cells and logs of cell writes

A store is a function from addresses to cells, a device operation a list of writes, so cutting the
power is a prefix of it.
-/

namespace Pmon.ByteStore
open List Function
variable {α : Type*} {m m' : ℕ → α} {n p : ℕ} {bs xs ys : List α}

def Holds (m : ℕ → α) : ℕ → List α → Prop
  | _, [] => True
  | p, b::bs => m p=b ∧ Holds m (p+1) bs

@[simp] theorem holds_nil (m : ℕ → α) (p : ℕ) : Holds m p [] := trivial

@[simp] theorem holds_cons (m : ℕ → α) (p : ℕ) (b : α) (bs : List α) :
    Holds m p (b::bs) ↔ m p=b ∧ Holds m (p+1) bs := Iff.rfl

theorem holds_append (m : ℕ → α) (p : ℕ) (xs ys : List α) :
    Holds m p (xs++ys) ↔ Holds m p xs ∧ Holds m (p+xs.length) ys := by
  induction xs generalizing p with
  | nil => simp
  | cons x xs ih =>
    simp only [cons_append,holds_cons,ih,length_cons,and_assoc]
    rw [show p+1+xs.length=p+(xs.length+1) by omega]

theorem holds_congr (h : ∀ q, p≤q → q<p+bs.length → m' q=m q) (hm : Holds m p bs) :
    Holds m' p bs := by
  induction bs generalizing p with
  | nil => trivial
  | cons b bs ih =>
    simp only [length_cons] at h
    refine ⟨?_,ih (fun q hq hq' => h q (by omega) (by omega)) hm.2⟩
    rw [h p le_rfl (by omega)]
    exact hm.1

theorem Holds.getElem (h : Holds m p bs) {i : ℕ} (hi : i<bs.length) : m (p+i)=bs[i] := by
  induction bs generalizing p i with
  | nil => simp at hi
  | cons b bs ih =>
    cases i with
    | zero => simpa using h.1
    | succ i =>
      have ht := ih h.2 (i := i) (by simpa using hi)
      simpa [Nat.add_assoc,Nat.add_comm 1 i] using ht

theorem Holds.drop (h : Holds m p bs) (hn : n≤bs.length) : Holds m (p+n) (bs.drop n) := by
  have hsplit := h
  rw [←take_append_drop n bs,holds_append] at hsplit
  have hlen : (bs.take n).length=n := by
    rw [length_take]
    omega
  rw [hlen] at hsplit
  exact hsplit.2

theorem holds_of_getElem (h : ∀ i (hi : i<bs.length), m (p+i)=bs[i]) : Holds m p bs := by
  induction bs generalizing p with
  | nil => trivial
  | cons b bs ih =>
    refine ⟨h 0 (Nat.zero_lt_succ _),ih fun i hi => ?_⟩
    have ht := h (i+1) (by simpa using hi)
    simpa [Nat.add_assoc,Nat.add_comm 1 i] using ht

theorem Holds.unique (hx : Holds m p xs) (hy : Holds m p ys) (hl : xs.length=ys.length) :
    xs=ys := by
  apply ext_getElem hl
  intro i hi hi'
  rw [←hx.getElem hi,←hy.getElem hi']

theorem holds_replicate (m : ℕ → α) (p n : ℕ) (b : α) :
    Holds m p (List.replicate n b) ↔ ∀ q, p≤q → q<p+n → m q=b := by
  induction n generalizing p with
  | zero => simp only [replicate_zero,holds_nil,true_iff]; intros; omega
  | succ n ih =>
    simp only [replicate_succ,holds_cons,ih]
    constructor
    · rintro ⟨h0,h⟩ q hq hq'
      rcases Nat.eq_or_lt_of_le hq with rfl | hlt
      · exact h0
      · exact h q hlt (by omega)
    · intro h
      exact ⟨h p le_rfl (by omega),fun q hq hq' => h q (by omega) (by omega)⟩

def readCells (m : ℕ → α) : ℕ → ℕ → List α
  | _, 0 => []
  | p, n+1 => m p::readCells m (p+1) n

@[simp] theorem length_readCells (m : ℕ → α) (p n : ℕ) : (readCells m p n).length=n := by
  induction n generalizing p with
  | zero => rfl
  | succ n ih => simp [readCells,ih]

theorem holds_readCells (m : ℕ → α) (p n : ℕ) : Holds m p (readCells m p n) := by
  induction n generalizing p with
  | zero => trivial
  | succ n ih => exact ⟨rfl,ih _⟩

theorem Holds.readCells_eq (h : Holds m p bs) (hn : n=bs.length) : readCells m p n=bs :=
  (holds_readCells m p n).unique h (by simp [hn])

theorem readCells_congr (h : ∀ q, p≤q → q<p+n → m' q=m q) :
    readCells m' p n=readCells m p n := by
  induction n generalizing p with
  | zero => rfl
  | succ n ih =>
    rw [readCells,readCells,h p le_rfl (by omega),ih fun q hq hq' => h q (by omega) (by omega)]

theorem readCells_add (m : ℕ → α) (p a b : ℕ) :
    readCells m p (a+b)=readCells m p a++readCells m (p+a) b := by
  induction a generalizing p with
  | zero => rw [Nat.zero_add,Nat.add_zero]; rfl
  | succ a ih =>
    rw [Nat.add_right_comm,readCells,ih,readCells,cons_append,Nat.add_assoc p 1 a,
      Nat.add_comm 1 a]

@[simp] theorem getElem_readCells (m : ℕ → α) (p n : ℕ) {i : ℕ}
    (hi : i<(readCells m p n).length) : (readCells m p n)[i]=m (p+i) :=
  ((holds_readCells m p n).getElem hi).symm

def applyWrites (ws : List (ℕ × α)) (m : ℕ → α) : ℕ → α :=
  ws.foldl (fun m w => Function.update m w.1 w.2) m

@[simp] theorem applyWrites_nil (m : ℕ → α) : applyWrites [] m=m := rfl

@[simp] theorem applyWrites_cons (w : ℕ × α) (ws : List (ℕ × α)) (m : ℕ → α) :
    applyWrites (w::ws) m=applyWrites ws (Function.update m w.1 w.2) := rfl

theorem applyWrites_append (ws vs : List (ℕ × α)) (m : ℕ → α) :
    applyWrites (ws++vs) m=applyWrites vs (applyWrites ws m) := by
  simp [applyWrites]

variable {k q : ℕ}

theorem applyWrites_of_forall_ne {ws : List (ℕ × α)} (h : ∀ w∈ws, w.1≠q) (m : ℕ → α) :
    applyWrites ws m q=m q := by
  induction ws generalizing m with
  | nil => rfl
  | cons w ws ih =>
    rw [applyWrites_cons,ih fun v hv => h v (mem_cons_of_mem _ hv)]
    exact update_of_ne (h w mem_cons_self).symm _ _

theorem applyWrites_of_mem {ws : List (ℕ × α)} {b : α} (hmem : (q,b)∈ws)
    (hsame : ∀ w∈ws, w.1=q → w.2=b) (m : ℕ → α) : applyWrites ws m q=b := by
  induction ws generalizing m with
  | nil => cases hmem
  | cons w ws ih =>
    have hrest : ∀ v∈ws, v.1=q → v.2=b := fun v hv => hsame v (mem_cons_of_mem _ hv)
    rw [applyWrites_cons]
    by_cases hlater : (q,b)∈ws
    · exact ih hlater hrest _
    · have hw : w=(q,b) := ((mem_cons.mp hmem).resolve_right hlater).symm
      -- no later write names the cell: it would write the same value
      rw [applyWrites_of_forall_ne,hw,update_self]
      intro v hv hvq
      apply hlater
      rw [←hvq,←hrest v hv hvq]
      exact hv

theorem applyWrites_congr {P : ℕ → Prop} (h : ∀ q, P q → m' q=m q) (ws : List (ℕ × α)) (hq : P q)
    : applyWrites ws m' q=applyWrites ws m q := by
  induction ws generalizing m m' with
  | nil => exact h q hq
  | cons w ws ih =>
    rw [applyWrites_cons,applyWrites_cons]
    refine ih fun r hr => ?_
    by_cases hw : r=w.1
    · rw [hw,update_self,update_self]
    · rw [update_of_ne hw,update_of_ne hw,h r hr]

def writesAt : ℕ → List α → List (ℕ × α)
  | _, [] => []
  | p, b::bs => (p,b)::writesAt (p+1) bs

@[simp] theorem writesAt_nil (p : ℕ) : writesAt p ([] : List α)=[] := rfl

@[simp] theorem writesAt_cons (p : ℕ) (b : α) (bs : List α) :
    writesAt p (b::bs)=(p,b)::writesAt (p+1) bs := rfl

@[simp] theorem length_writesAt (p : ℕ) (bs : List α) : (writesAt p bs).length=bs.length := by
  induction bs generalizing p with
  | nil => rfl
  | cons b bs ih => simp [ih]

theorem mem_writesAt {w : ℕ × α} (h : w∈writesAt p bs) : p≤w.1 ∧ w.1<p+bs.length := by
  induction bs generalizing p with
  | nil => simp at h
  | cons b bs ih =>
    rcases mem_cons.mp h with rfl | h
    · simp
    · have := ih h
      simp only [length_cons]
      omega

theorem take_writesAt (p : ℕ) (bs : List α) (k : ℕ) :
    (writesAt p bs).take k=writesAt p (bs.take k) := by
  induction bs generalizing p k with
  | nil => simp
  | cons b bs ih => cases k with
    | zero => simp
    | succ k => simp [ih]

theorem writesAt_append (p : ℕ) (xs ys : List α) :
    writesAt p (xs++ys)=writesAt p xs++writesAt (p+xs.length) ys := by
  induction xs generalizing p with
  | nil => rfl
  | cons x xs ih =>
    simp only [cons_append,writesAt_cons,ih,length_cons]
    rw [show p+1+xs.length=p+(xs.length+1) by omega]

theorem applyWrites_writesAt_of_outside (p : ℕ) (bs : List α) (m : ℕ → α)
    (h : q<p ∨ p+bs.length≤q) : applyWrites (writesAt p bs) m q=m q := by
  apply applyWrites_of_forall_ne
  intro w hw
  have := mem_writesAt hw
  omega

theorem holds_applyWrites_writesAt (p : ℕ) (bs : List α) (m : ℕ → α) :
    Holds (applyWrites (writesAt p bs) m) p bs := by
  induction bs generalizing p m with
  | nil => trivial
  | cons b bs ih =>
    refine ⟨?_,ih _ _⟩
    rw [writesAt_cons,applyWrites_cons,applyWrites_writesAt_of_outside _ _ _ (by omega)]
    exact update_self _ _ _

theorem Holds.applyWrites_writesAt (h : Holds m p bs) (q : ℕ) (cs : List α)
    (hd : p+bs.length≤q ∨ q+cs.length≤p) : Holds (applyWrites (writesAt q cs) m) p bs := by
  refine holds_congr (fun r hr hr' => ?_) h
  exact applyWrites_writesAt_of_outside _ _ _ (by omega)

def shiftWrites (o : ℕ) (ws : List (ℕ × α)) : List (ℕ × α) := ws.map fun w => (o+w.1,w.2)
@[simp] theorem shiftWrites_nil (o : ℕ) : shiftWrites o ([] : List (ℕ × α))=[] := rfl

@[simp] theorem shiftWrites_append (o : ℕ) (ws vs : List (ℕ × α)) :
    shiftWrites o (ws++vs)=shiftWrites o ws++shiftWrites o vs := map_append

theorem take_shiftWrites (o k : ℕ) (ws : List (ℕ × α)) :
    (shiftWrites o ws).take k=shiftWrites o (ws.take k) := map_take.symm

theorem shiftWrites_writesAt (o p : ℕ) (bs : List α) :
    shiftWrites o (writesAt p bs)=writesAt (o+p) bs := by
  induction bs generalizing p with
  | nil => rfl
  | cons b bs ih => simpa [shiftWrites,Nat.add_assoc] using ih (p+1)

theorem applyWrites_shiftWrites (o : ℕ) (ws : List (ℕ × α)) (m : ℕ → α) :
    (fun q => applyWrites (shiftWrites o ws) m (o+q))=applyWrites ws fun q => m (o+q) := by
  induction ws generalizing m with
  | nil => rfl
  | cons w ws ih =>
    rw [shiftWrites,map_cons,←shiftWrites,applyWrites_cons,ih,applyWrites_cons]
    congr 1
    funext q
    simp [update_apply]

theorem Holds.overwrite {front old bs : List α} (h : Holds m p (front++old))
    (hle : bs.length≤old.length) : Holds (applyWrites (writesAt (p+front.length) bs) m) p
      (front++(bs++old.drop bs.length)) := by
  rw [holds_append] at h
  rw [holds_append,holds_append]
  exact ⟨h.1.applyWrites_writesAt _ _ (Or.inl le_rfl),holds_applyWrites_writesAt _ _ _,
    (h.2.drop hle).applyWrites_writesAt _ _ (Or.inr le_rfl)⟩

theorem Holds.update (h : Holds m p bs) (b : α) (hd : q<p ∨ p+bs.length≤q) :
    Holds (Function.update m q b) p bs := by
  refine holds_congr (fun r hr hr' => ?_) h
  exact update_of_ne (by omega) _ _

structure Patched (m m' : ℕ → α) (p : ℕ) (bs : List α) : Prop where
  holds : Holds m' p bs
  outside : ∀ q, q<p ∨ p+bs.length≤q → m' q=m q

theorem Patched.nil (m : ℕ → α) (p : ℕ) : Patched m m p [] := ⟨trivial,fun _ _ => rfl⟩

theorem Patched.append {m₁ m₂ : ℕ → α} (h₁ : Patched m m₁ p xs)
    (h₂ : Patched m₁ m₂ (p+xs.length) ys) : Patched m m₂ p (xs++ys) := by
  constructor
  · rw [holds_append]
    refine ⟨holds_congr (fun q hq hq' => ?_) h₁.holds,h₂.holds⟩
    exact h₂.outside q (by omega)
  · intro q hq
    rw [length_append] at hq
    rw [h₂.outside q (by omega),h₁.outside q (by omega)]

theorem Patched.prepend {m₁ m₂ : ℕ → α} (h₁ : Patched m m₁ (p+xs.length) ys)
    (h₂ : Patched m₁ m₂ p xs) : Patched m m₂ p (xs++ys) := by
  constructor
  · rw [holds_append]
    refine ⟨h₂.holds,holds_congr (fun q hq hq' => ?_) h₁.holds⟩
    exact h₂.outside q (by omega)
  · intro q hq
    rw [length_append] at hq
    rw [h₂.outside q (by omega),h₁.outside q (by omega)]

theorem Patched.inner (h : Patched m m' p (xs++bs++ys)) (hk : xs.length=k) (hx : Holds m p xs)
    (hy : Holds m (p+k+bs.length) ys) : Patched m m' (p+k) bs := by
  subst hk
  have hall := h.holds
  rw [holds_append,holds_append,length_append,←Nat.add_assoc] at hall
  constructor
  · exact hall.1.2
  · intro q hq
    by_cases hin : p≤q ∧ q<p+(xs++bs++ys).length
    · simp only [length_append] at hin
      rcases hq with hq | hq
      · have hi : q-p<xs.length := by omega
        rw [show q=p+(q-p) by omega,hall.1.1.getElem hi,hx.getElem hi]
      · have hi : q-(p+xs.length+bs.length)<ys.length := by omega
        rw [show q=p+xs.length+bs.length+(q-(p+xs.length+bs.length)) by omega,
          hall.2.getElem hi,hy.getElem hi]
    · exact h.outside q (by omega)

theorem patched_applyWrites (m : ℕ → α) (p : ℕ) (bs : List α) :
    Patched m (applyWrites (writesAt p bs) m) p bs :=
  ⟨holds_applyWrites_writesAt p bs m,fun _ => applyWrites_writesAt_of_outside p bs m⟩

theorem Patched.unique {m₁ m₂ : ℕ → α} (h₁ : Patched m m₁ p bs) (h₂ : Patched m m₂ p bs) :
    m₁=m₂ := by
  funext q
  by_cases hin : p≤q ∧ q<p+bs.length
  · have hi : q-p<bs.length := by omega
    rw [show q=p+(q-p) by omega,h₁.holds.getElem hi,h₂.holds.getElem hi]
  · rw [h₁.outside q (by omega),h₂.outside q (by omega)]

theorem Patched.eq_applyWrites (h : Patched m m' p bs) : m'=applyWrites (writesAt p bs) m :=
  h.unique (patched_applyWrites m p bs)

theorem patched_self (h : Holds m p bs) : Patched m m p bs := ⟨h,fun _ _ => rfl⟩

theorem Patched.write {buf data : List α} (h : Patched m m' p buf)
    (hfit : k+data.length≤buf.length) : Patched m (applyWrites (writesAt (p+k) data) m') p
      (buf.take k++data++buf.drop (k+data.length)) := by
  have hlen : (buf.take k).length=k := by
    rw [length_take]
    omega
  have hall : (buf.take k++data++buf.drop (k+data.length)).length=buf.length := by
    simp only [length_append,hlen,length_drop]
    omega
  have hbuf := h.holds
  constructor
  · rw [holds_append,holds_append,length_append,hlen,←Nat.add_assoc]
    refine ⟨⟨?_,holds_applyWrites_writesAt _ _ _⟩,?_⟩
    · rw [←take_append_drop k buf,holds_append] at hbuf
      exact hbuf.1.applyWrites_writesAt _ _ (by rw [hlen]; omega)
    · have hrest := hbuf.drop hfit
      rw [←Nat.add_assoc] at hrest
      exact hrest.applyWrites_writesAt _ _ (by omega)
  · intro q hq
    rw [hall] at hq
    rw [applyWrites_writesAt_of_outside _ _ _ (by omega)]
    exact h.outside q hq

def beyond (n : ℕ) (w m : ℕ → α) : ℕ → α := fun a => if a<n then m a else w a
theorem beyond_of_lt {a : ℕ} (h : a<n) (w m : ℕ → α) : beyond n w m a=m a := if_pos h

theorem beyond_of_le {a : ℕ} (h : n≤a) (w m : ℕ → α) : beyond n w m a=w a :=
  if_neg (not_lt.mpr h)

theorem readCells_beyond (h : p+k≤n) (w m : ℕ → α) :
    readCells (beyond n w m) p k=readCells m p k :=
  readCells_congr fun _ _ hq => beyond_of_lt (hq.trans_le h) w m

theorem beyond_congr {w : ℕ → α} (hbelow : ∀ a<n, m' a=m a) (habove : ∀ a, n≤a → m' a=w a) :
    m'=beyond n w m := by
  funext a
  by_cases ha : a<n
  · rw [beyond_of_lt ha,hbelow a ha]
  · rw [beyond_of_le (not_lt.mp ha),habove a (not_lt.mp ha)]

theorem applyWrites_beyond {ws : List (ℕ × α)} (h : ∀ v∈ws, v.1<n) (w m : ℕ → α) :
    applyWrites ws (beyond n w m)=beyond n w (applyWrites ws m) := by
  apply beyond_congr
  · intro a ha
    exact applyWrites_congr (P := (· < n)) (fun q hq => beyond_of_lt hq w m) ws ha
  · intro a ha
    rw [applyWrites_of_forall_ne fun v hv hva => absurd (h v hv) (by omega),beyond_of_le ha]

end Pmon.ByteStore
