import Pmon.SymNearest

/-!
# Listing the symbols

`nextsym` walks a sorted list or, without one, the hash chains. `symcur` is the rest of a chain from
the symbol on, empty for a null pointer.
-/

namespace Pmon.SymTable
open List HashChains CompareSort

/-- The statics of `nextsym`. -/
structure Cursor where
  symlst : Option (List ℕ)
  symcur : List ℕ
  symno : ℕ

/-- The loop of `nextsym` over the chains. -/
def chainLoop (s : Symbols) : ℕ → Cursor → Option ℕ × Cursor
  | 0, c => (none,c)
  | fuel+1, c =>
    if h : c.symno<NHASH then
      match s.symhash ⟨c.symno,h⟩ with
      | [] => chainLoop s fuel {c with symcur := [], symno := c.symno+1}
      | p::l => (some p,{c with symcur := p::l, symno := c.symno+1})
    else (none,c)

def nextsym (s : Symbols) (c : Cursor) : Option ℕ × Cursor := match c.symlst with
  | some l =>
    if c.symno≥s.nsyms then (none,c) else (l[c.symno]?,{c with symno := c.symno+1})
  | none =>
    match c.symcur with
    | _::p::l => (some p,{c with symcur := p::l})
    | _ => chainLoop s (NHASH+1) c

def firstsym (qsort : Sorter ℕ) (sort : Order) (room : Bool) (s : Symbols) (c : Cursor) :
    Option ℕ × Cursor :=
  if s.nsyms=0 then (none,c) else nextsym s ⟨(getsort qsort sort room s).1,[],0⟩

/-- The symbols of at most `n` calls, up to the first that returns 0. -/
def visits (s : Symbols) : ℕ → Option ℕ × Cursor → List ℕ
  | 0, _ => []
  | _+1, (none,_) => []
  | n+1, (some p,c) => p::visits s n (nextsym s c)

/-- The symbols in the chains from `i` on. -/
def chainsFrom (s : Symbols) (i : ℕ) : List ℕ := ((List.finRange NHASH).drop i).flatMap s.symhash

variable {s : Symbols}

theorem chainsFrom_of_lt {i : ℕ} (h : i<NHASH) :
    chainsFrom s i=s.symhash ⟨i,h⟩++chainsFrom s (i+1) := by
  have hlen : i<(List.finRange NHASH).length := by rwa [length_finRange]
  rw [chainsFrom,drop_eq_getElem_cons hlen,flatMap_cons,getElem_finRange]
  rfl

theorem chainsFrom_of_ge {i : ℕ} (h : NHASH ≤ i) : chainsFrom s i=[] := by
  rw [chainsFrom,drop_of_length_le (by rwa [length_finRange]),flatMap_nil]

/-- The next symbol is the first of those ahead, and the others stay ahead. -/
def Steps (s : Symbols) (ahead : List ℕ) (r : Option ℕ × Cursor) : Prop :=
  r.1=ahead.head? ∧ r.2.symlst=none ∧
    ∀ p l, ahead=p::l → l=r.2.symcur.tail++chainsFrom s r.2.symno

theorem chainLoop_steps {fuel : ℕ} {c : Cursor} (hlst : c.symlst=none)
    (hfuel : NHASH<fuel+c.symno) : Steps s (chainsFrom s c.symno) (chainLoop s fuel c) := by
  induction fuel generalizing c with
  | zero =>
    rw [chainsFrom_of_ge (by omega)]
    exact ⟨rfl,hlst,fun p l h => by cases h⟩
  | succ fuel ih =>
    rw [chainLoop]
    by_cases hno : c.symno<NHASH
    · rw [dif_pos hno,chainsFrom_of_lt hno]
      cases s.symhash ⟨c.symno,hno⟩ with
      | nil => exact ih hlst (by dsimp only; omega)
      | cons p l => exact ⟨rfl,hlst,fun q m h => (cons.inj h).2.symm⟩
    · rw [dif_neg hno,chainsFrom_of_ge (by omega)]
      exact ⟨rfl,hlst,fun p l h => by cases h⟩

theorem nextsym_steps {c : Cursor} (hlst : c.symlst=none) :
    Steps s (c.symcur.tail++chainsFrom s c.symno) (nextsym s c) := by
  obtain ⟨symlst,symcur,symno⟩ := c
  subst hlst
  rw [nextsym]
  rcases symcur with _ | ⟨_,_ | ⟨p,l⟩⟩
  · exact chainLoop_steps rfl (by omega)
  · exact chainLoop_steps rfl (by omega)
  · exact ⟨rfl,rfl,fun q m h => (cons.inj h).2.symm⟩

theorem visits_eq {n : ℕ} {ahead : List ℕ} {r : Option ℕ × Cursor} (h : Steps s ahead r)
    (hn : ahead.length<n) : visits s n r=ahead := by
  induction n generalizing ahead r with
  | zero => omega
  | succ n ih =>
    obtain ⟨hhead,hlst,hrest⟩ := h
    obtain ⟨p,c⟩ := r
    cases ahead with
    | nil =>
      obtain rfl : p=none := hhead
      rfl
    | cons q l =>
      obtain rfl : p=some q := hhead
      have hl : l=c.symcur.tail++chainsFrom s c.symno := hrest q l rfl
      rw [visits,ih (hl ▸ nextsym_steps hlst) (Nat.lt_of_succ_lt_succ hn)]

theorem visits_sorted {l : List ℕ} (hlen : l.length=s.nsyms) {n : ℕ} {c : Cursor}
    (hlst : c.symlst=some l) (hn : s.nsyms<n+c.symno) :
    visits s n (nextsym s c)=l.drop c.symno := by
  induction n generalizing c with
  | zero => exact (drop_of_length_le (by omega)).symm
  | succ n ih =>
    rw [nextsym,hlst]
    dsimp only
    split
    · exact (drop_of_length_le (by omega)).symm
    · have hlt : c.symno<l.length := by omega
      rw [getElem?_eq_getElem hlt,visits,ih rfl (by dsimp only; omega)]
      exact (drop_eq_getElem_cons hlt).symm

/-- No symbol is in the chains twice, and each is in a block allocated before. -/
def Fresh (s : Symbols) : Prop := (items s.symhash).Nodup ∧ ∀ p∈items s.symhash, p<s.blocks

theorem Fresh.step {qsort : Sorter ℕ} (h : Fresh s) (c : Call) : Fresh (SymTable.step qsort s c).1 := by
  cases c with
  | newsym past room name value =>
    change Fresh (newsym past room name value s).2
    unfold newsym
    split
    · split <;> exact h
    · cases room with
      | false => exact h
      | true =>
        have hperm := items_push s.symhash (chain name) s.blocks
        have hnew : s.blocks∉items s.symhash := fun hmem => (h.2 _ hmem).false
        refine ⟨hperm.nodup_iff.mpr (nodup_cons.mpr ⟨hnew,h.1⟩),fun p hp => ?_⟩
        rcases mem_cons.mp (hperm.mem_iff.mp hp) with rfl | hp
        · exact Nat.lt_succ_self _
        · exact Nat.lt_succ_of_lt (h.2 p hp)
  | clrsyms =>
    have hempty : items (SymTable.step qsort s .clrsyms).1.symhash=[] := items_empty
    rw [Fresh,hempty]
    exact ⟨nodup_nil,fun p hp => absurd hp not_mem_nil⟩
  | sym2adr past name => exact h
  | getsymbyvalue addr room =>
    change Fresh (getsymbyvalue qsort addr room s).2
    rw [getsymbyvalue_snd,getsort_snd]
    exact h
  | firstsym sort room =>
    change Fresh (getsort qsort sort room s).2
    rw [getsort_snd]
    exact h

theorem run_fresh (qsort : Sorter ℕ) (cs : List Call) : Fresh (run qsort cs).1 := by
  induction cs using reverseRecOn with
  | nil =>
    have hempty : items Symbols.start.symhash=[] := items_empty
    exact ⟨hempty ▸ nodup_nil,fun p hp => absurd (hempty ▸ hp) not_mem_nil⟩
  | append_singleton cs c ih =>
    rw [run_concat]
    exact ih.step c

/-- Without a sorted list the calls return each symbol of the chains once, and then 0. -/
theorem nextsym_visits (qsort : Sorter ℕ) (cs : List Call) (sort : Order) (room : Bool) (c : Cursor)
    (hnone : (getsort qsort sort room (run qsort cs).1).1=none) {n : ℕ}
    (hn : (run qsort cs).1.nsyms<n) :
    visits (run qsort cs).1 n (firstsym qsort sort room (run qsort cs).1 c) =
      items (run qsort cs).1.symhash ∧ (items (run qsort cs).1.symhash).Nodup := by
  refine ⟨?_,(run_fresh qsort cs).1⟩
  have hlen := (run_listed qsort cs).nsyms
  generalize (run qsort cs).1=s at hnone hn hlen ⊢
  rw [firstsym,hnone]
  by_cases hempty : s.nsyms=0
  · rw [if_pos hempty,List.eq_nil_of_length_eq_zero (hlen.symm.trans hempty)]
    cases n with
    | zero => rfl
    | succ n => rfl
  · rw [if_neg hempty]
    exact visits_eq (nextsym_steps rfl) (hlen ▸ hn)

theorem nextsym_visits_one : visits (run insertion [.newsym zeroPast true nameA 3]).1 2
    (firstsym insertion .alpha false (run insertion [.newsym zeroPast true nameA 3]).1 ⟨none,[],0⟩) =
      items (run insertion [.newsym zeroPast true nameA 3]).1.symhash :=
  (nextsym_visits insertion [.newsym zeroPast true nameA 3] .alpha false ⟨none,[],0⟩ rfl
    (by decide)).1

/-- The symbols that `firstsym` and `nsyms` calls of `nextsym` return. -/
def listing (qsort : Sorter ℕ) (sort : Order) (room : Bool) (c : Cursor) (s : Symbols) : List ℕ :=
  visits s (s.nsyms+1) (firstsym qsort sort room s c)

/-- After any calls every symbol is listed once, and in order when a list can be had. -/
theorem run_listing (qsort : Sorter ℕ) (cs : List Call) (sort : Order) (room : Bool) (c : Cursor) :
    (listing qsort sort room c (run qsort cs).1).Perm (items (run qsort cs).1.symhash) ∧
      (listing qsort sort room c (run qsort cs).1).Nodup ∧
      ((getsort qsort sort room (run qsort cs).1).1=none ∨
        (listing qsort sort room c (run qsort cs).1).Pairwise
          fun p q => compar (run qsort cs).1 sort p q≤0) := by
  have hlisted := run_listed qsort cs
  have hfresh := run_fresh qsort cs
  generalize (run qsort cs).1=s at hlisted hfresh ⊢
  have hnsyms := hlisted.nsyms
  rw [listing,firstsym]
  by_cases hempty : s.nsyms=0
  · rw [if_pos hempty,List.eq_nil_of_length_eq_zero (hnsyms.symm.trans hempty)]
    exact ⟨.nil,nodup_nil,.inr .nil⟩
  rw [if_neg hempty]
  cases hsort : (getsort qsort sort room s).1 with
  | none =>
    have hvisits := visits_eq (nextsym_steps (s := s) (c := ⟨none,[],0⟩) rfl)
      (show (items s.symhash).length<s.nsyms+1 by omega)
    rw [hvisits]
    exact ⟨.refl _,hfresh.1,.inl rfl⟩
  | some l =>
    have hsorted := hlisted.getsort_fst qsort sort room l hsort
    have hlen : l.length=s.nsyms := hsorted.perm.length_eq.trans hnsyms.symm
    rw [visits_sorted hlen (c := ⟨some l,[],0⟩) rfl (Nat.lt_succ_self _)]
    exact ⟨hsorted.perm,hsorted.perm.nodup_iff.mpr hfresh.1,.inr hsorted.sorted⟩

end Pmon.SymTable
