import Pmon.SymTable

/-!
# The symbol nearest to an address

`getsymbyvalue` searches the sorted list, or all chains when there is no room for the list.
-/

namespace Pmon.SymTable
open List
open CompareSort (Sorter)
open HashChains (items)

abbrev Symbols.value (s : Symbols) (p : ℕ) : BitVec 32 := (s.sym p).value

def Nearest (value : ℕ → BitVec 32) (addr : BitVec 32) (l : List ℕ) : Option ℕ → Prop
  | none => ∀ q∈l, addr<value q
  | some p => p∈l ∧ value p≤addr ∧ ∀ q∈l, value q≤addr → value q≤value p

section
variable {value : ℕ → BitVec 32} {addr : BitVec 32} {l : List ℕ}

theorem Nearest.perm {l' : List ℕ} {r : Option ℕ} (h : Nearest value addr l r)
    (hperm : l.Perm l') : Nearest value addr l' r := by
  cases r with
  | none => exact fun q hq => h q (hperm.mem_iff.2 hq)
  | some p =>
    exact ⟨hperm.mem_iff.1 h.1,h.2.1,fun q hq => h.2.2 q (hperm.mem_iff.2 hq)⟩

theorem Nearest.map_eq {r r' : Option ℕ} (h : Nearest value addr l r)
    (h' : Nearest value addr l r') : r.map value=r'.map value := by
  match r, r' with
  | none, none => rfl
  | none, some q => exact absurd (h q h'.1) (BitVec.not_lt.2 h'.2.1)
  | some p, none => exact absurd (h' p h.1) (BitVec.not_lt.2 h.2.1)
  | some p, some q =>
    exact congrArg some (BitVec.le_antisymm (h'.2.2 p h.1 h.2.1) (h.2.2 q h'.1 h'.2.1))

variable {best : Option ℕ}

theorem Nearest.better {p : ℕ} (h : Nearest value addr l best) (hp : value p≤addr)
    (hbetter : ∀ b∈best, value b<value p) : Nearest value addr (p::l) (some p) := by
  refine ⟨mem_cons_self,hp,fun q hq hqa => ?_⟩
  rcases mem_cons.1 hq with rfl | hq
  · exact BitVec.le_refl _
  · cases best with
    | none => exact absurd hqa (BitVec.not_le.2 (h q hq))
    | some b => exact BitVec.le_trans (h.2.2 q hq hqa) (BitVec.le_of_lt (hbetter b rfl))

theorem Nearest.worse {p : ℕ} (h : Nearest value addr l best)
    (hp : value p≤addr → ∃ b∈best, value p≤value b) : Nearest value addr (p::l) best := by
  cases best with
  | none =>
    refine forall_mem_cons.2 ⟨BitVec.not_le.1 fun hpa => ?_,h⟩
    obtain ⟨b,hb,-⟩ := hp hpa
    cases hb
  | some b =>
    refine ⟨mem_cons_of_mem _ h.1,h.2.1,forall_mem_cons.2 ⟨fun hpa => ?_,h.2.2⟩⟩
    obtain ⟨b',hb,hle⟩ := hp hpa
    obtain rfl : b=b' := Option.some.inj hb
    exact hle

theorem bestLoop_nearest {s : Symbols} (h : Nearest s.value addr l best) (ps : List ℕ) :
    Nearest s.value addr (ps++l) (bestLoop s addr ps best) := by
  induction ps generalizing l best with
  | nil => exact h
  | cons p ps ih =>
    rw [bestLoop]
    split
    case isTrue heq =>
      refine ⟨by simp,BitVec.le_of_eq heq,fun q _ hq => ?_⟩
      exact BitVec.le_trans hq (BitVec.le_of_eq heq.symm)
    case isFalse hne =>
      refine (ih (l := p::l) ?_).perm perm_middle
      split
      case isTrue hbetter =>
        refine h.better (BitVec.le_of_lt hbetter.1) fun b hb => ?_
        obtain rfl : best=some b := hb
        simpa using hbetter.2
      case isFalse hworse =>
        refine h.worse fun hpa => ?_
        have hlt : (s.sym p).value<addr := by
          change (s.sym p).value≤addr at hpa
          bv_omega
        cases best with
        | none => exact absurd ⟨hlt,rfl⟩ hworse
        | some b => exact ⟨b,rfl,BitVec.not_lt.1 fun hb => hworse ⟨hlt,by simpa using hb⟩⟩

theorem bisect_spec {len : ℕ} (hmono : ∀ i j, i≤j → j<len → value i≤value j) {n lo hi : ℕ}
    (hle : lo≤hi) (hlen : hi<len) (hfuel : hi-lo≤n) (hlo : value lo≤addr)
    (hhi : ∀ j, hi<j → j<len → addr≤value hi ∨ addr<value j) :
    bisect value addr n lo hi<len ∧ value (bisect value addr n lo hi)≤addr ∧
      ∀ j<len, value j≤addr → value j≤value (bisect value addr n lo hi) := by
  have hdone : ∀ {hi}, hi<len → value hi≤addr →
      (∀ j, hi<j → j<len → addr≤value hi ∨ addr<value j) →
      hi<len ∧ value hi≤addr ∧ ∀ j<len, value j≤addr → value j≤value hi := by
    intro hi hlen hend hhi
    refine ⟨hlen,hend,fun j hj hja => ?_⟩
    by_cases hjh : j≤hi
    · exact hmono j hi hjh hlen
    · rcases hhi j (not_le.1 hjh) hj with h | h
      · exact BitVec.le_trans hja h
      · exact absurd hja (BitVec.not_le.2 h)
  induction n generalizing lo hi with
  | zero =>
    obtain rfl : lo=hi := by omega
    exact hdone hlen hlo hhi
  | succ n ih =>
    rw [bisect]
    split
    case isFalse hend => exact hdone hlen (BitVec.not_lt.1 hend) hhi
    case isTrue habove =>
      have hne : lo≠hi := by
        rintro rfl
        exact absurd hlo (BitVec.not_le.2 habove)
      have hbehind : ∀ j, hi≤j → j<len → addr<value j := fun j hj hj' => by
        have := hmono hi j hj hj'
        bv_omega
      dsimp only
      split
      case isTrue hmid =>
        refine ih (by omega) (by omega) (by omega) hlo fun j hj hj' => ?_
        rcases hmid with hmid | hmid
        · exact .inr (hbehind j (by omega) hj')
        · exact .inl hmid
      case isFalse hmid =>
        rw [not_or,BitVec.not_le] at hmid
        exact ih (by omega) hlen (by omega) (BitVec.le_of_lt hmid.2) hhi

theorem bisect_add {n lo hi : ℕ} (hle : lo≤hi) (hfuel : hi-lo≤n) (hlo : value lo≤addr)
    (k : ℕ) : bisect value addr (n+k) lo hi=bisect value addr n lo hi := by
  induction n generalizing lo hi with
  | zero =>
    obtain rfl : lo=hi := by omega
    cases k with
    | zero => rfl
    | succ k => exact if_neg (BitVec.not_lt.2 hlo)
  | succ n ih =>
    rw [Nat.add_right_comm,bisect,bisect]
    split
    case isFalse => rfl
    case isTrue habove =>
      have hne : lo≠hi := by
        rintro rfl
        exact absurd hlo (BitVec.not_le.2 habove)
      dsimp only
      split
      case isTrue => exact ih (by omega) (by omega) hlo
      case isFalse hmid =>
        rw [not_or,BitVec.not_le] at hmid
        exact ih (by omega) (by omega) (BitVec.le_of_lt hmid.2)
end
section
variable {s : Symbols} {qsort : Sorter ℕ}

theorem Listed.step (h : Listed s) (c : Call) : Listed (step qsort s c).1 := by
  cases c with
  | newsym past room name value =>
    change Listed (newsym past room name value s).2
    unfold newsym
    split
    · split
      · exact h.redefine _ value
      · exact h
    · split
      · exact h.add name value
      · exact (h.flushsort .alpha).flushsort .numeric
  | clrsyms =>
    refine ⟨congrArg List.length HashChains.items_empty.symm,fun type l hl => ?_⟩
    rw [SymTable.step,clrsyms,symsort_flushed] at hl
    cases hl
  | sym2adr past name => exact h
  | getsymbyvalue addr room =>
    change Listed (getsymbyvalue qsort addr room s).2
    rw [getsymbyvalue_snd]
    exact h.getsort qsort .numeric room
  | firstsym sort room => exact h.getsort qsort sort room

theorem run_listed (qsort : Sorter ℕ) (cs : List Call) : Listed (run qsort cs).1 := by
  induction cs using reverseRecOn with
  | nil => exact ⟨congrArg List.length HashChains.items_empty.symm,nofun⟩
  | append_singleton cs c ih =>
    rw [run_concat]
    exact ih.step c

theorem Listed.getsort_fst (h : Listed s) (qsort : Sorter ℕ) (type : Order) (room : Bool) :
    ∀ syms∈(SymTable.getsort qsort type room s).1, SortedList s type syms := by
  intro syms hsyms
  unfold SymTable.getsort at hsyms
  split at hsyms
  · cases hsyms
  · split at hsyms
    case h_1 l hl => exact h.sorted type syms (hl.trans hsyms)
    case h_2 =>
      split at hsyms
      · obtain rfl := Option.some.inj hsyms
        exact h.sort qsort type (List.Perm.refl _)
      · split at hsyms
        · cases hsyms
        · rename_i l hl
          obtain rfl := Option.some.inj hsyms
          have hsorted := (h.flushsort type.other).sort qsort type (h.sorted _ l hl).perm
          exact ⟨hsorted.perm,hsorted.sorted⟩

def Symbols.valueAt (s : Symbols) (syms : List ℕ) (i : ℕ) : BitVec 32 := s.value (syms.getD i 0)

theorem SortedList.mono {syms : List ℕ} (h : SortedList s .numeric syms) (i j : ℕ) (hij : i≤j)
    (hj : j<syms.length) : s.valueAt syms i ≤ s.valueAt syms j := by
  rcases hij.eq_or_lt with rfl | hlt
  · exact BitVec.le_refl _
  · have hpair := pairwise_iff_getElem.1 h.sorted i j (hlt.trans hj) hj hlt
    have hget : ∀ k (hk : k<syms.length), syms.getD k 0=syms.get ⟨k,hk⟩ := by
      intro k hk
      simp [hk]
    rw [Symbols.valueAt,Symbols.valueAt,hget i (hlt.trans hj),hget j hj]
    exact (valcmp_le_zero_iff s _ _).1 hpair

theorem SortedList.nearest {syms : List ℕ} (h : SortedList s .numeric syms) (hlen : 0<syms.length)
    (addr : BitVec 32) : Nearest s.value addr syms (if addr<s.valueAt syms 0 then none
        else syms[bisect (s.valueAt syms) addr syms.length 0 (syms.length-1)]?) := by
  have hindex : ∀ q∈syms, ∃ i<syms.length, s.value q=s.valueAt syms i := by
    intro q hq
    obtain ⟨i,hi,rfl⟩ := mem_iff_getElem.1 hq
    exact ⟨i,hi,by simp [Symbols.valueAt,hi]⟩
  split
  case isTrue hlow =>
    intro q hq
    obtain ⟨i,hi,hvalue⟩ := hindex q hq
    have hmono := h.mono 0 i (Nat.zero_le _) hi
    rw [hvalue]
    bv_omega
  case isFalse hlow =>
    obtain ⟨hlt,hle,hbest⟩ := bisect_spec (n := syms.length) h.mono (Nat.zero_le _)
      (Nat.sub_lt hlen one_pos) (by omega) (BitVec.not_lt.1 hlow) fun j hj hj' => by omega
    generalize bisect (s.valueAt syms) addr syms.length 0 (syms.length-1)=r at hlt hle hbest ⊢
    have hr : s.valueAt syms r=s.value syms[r] := by simp [Symbols.valueAt,hlt]
    rw [hr] at hle hbest
    rw [getElem?_eq_getElem hlt]
    refine ⟨getElem_mem hlt,hle,fun q hq hqa => ?_⟩
    obtain ⟨i,hi,hvalue⟩ := hindex q hq
    rw [hvalue] at hqa ⊢
    exact hbest i hi hqa

theorem Listed.getsymbyvalue_nearest (h : Listed s) (hn : s.nsyms≠0) (qsort : Sorter ℕ)
    (addr : BitVec 32) (room : Bool) : Nearest s.value addr (items s.symhash)
      (getsymbyvalue qsort addr room s).1 := by
  have hsnd := getsort_snd qsort .numeric room s
  have hfst := h.getsort_fst qsort .numeric room
  unfold getsymbyvalue
  rw [if_neg hn]
  generalize SymTable.getsort qsort .numeric room s=r at hsnd hfst ⊢
  obtain ⟨o,t⟩ := r
  dsimp only at hsnd hfst
  rw [hsnd]
  cases o with
  | none =>
    have hnone : Nearest s.value addr [] none := nofun
    have hloop := bestLoop_nearest (s := {s with symsort := t.symsort}) hnone (items s.symhash)
    rwa [append_nil] at hloop
  | some syms =>
    have hsorted := hfst syms rfl
    have hlen := hsorted.perm.length_eq.trans h.nsyms.symm
    have hnear := (hsorted.nearest (by omega) addr).perm hsorted.perm
    rw [hlen] at hnear
    rw [apply_ite Prod.fst]
    exact hnear

/-- `getsymbyvalue` finds a symbol with the greatest value not above the address, or none; with or
without the list, and the search ends after `nsyms` turns. -/
theorem getsymbyvalue_finds (qsort : Sorter ℕ) (cs : List Call) (addr : BitVec 32)
    (hn : (run qsort cs).1.nsyms≠0) (room : Bool) :
    let s := (run qsort cs).1
    let r := (getsymbyvalue qsort addr room s).1
    Nearest s.value addr (items s.symhash) r ∧
      r.map s.value=(bestLoop s addr (items s.symhash) none).map s.value ∧
      ∀ syms∈(getsort qsort .numeric room s).1, ∀ k, s.valueAt syms 0≤addr →
        bisect (s.valueAt syms) addr (s.nsyms+k) 0 (s.nsyms-1) =
          bisect (s.valueAt syms) addr s.nsyms 0 (s.nsyms-1) := by
  have hlisted := run_listed qsort cs
  have hnear := hlisted.getsymbyvalue_nearest hn qsort addr room
  have hnone : Nearest (run qsort cs).1.value addr [] none := nofun
  have hchains := bestLoop_nearest hnone (items (run qsort cs).1.symhash)
  rw [append_nil] at hchains
  exact ⟨hnear,hnear.map_eq hchains,
    fun syms _ k hlow => bisect_add (Nat.zero_le _) (by omega) hlow k⟩

theorem getsymbyvalue_finds_a :
    let s := (run CompareSort.insertion [.newsym zeroPast true nameA 1]).1
    Nearest s.value 5 (items s.symhash) (getsymbyvalue CompareSort.insertion 5 true s).1 :=
  (getsymbyvalue_finds CompareSort.insertion [.newsym zeroPast true nameA 1] 5 (by decide) true).1
end
end Pmon.SymTable
