import Pmon.SetEnv

/-!
# The command history

The ring `hist` has 201 slots. A slot is named by its distance behind the next entry.
-/

namespace Pmon.History
open List Function
open SetEnv (isspace)

def HISTMAX : ℕ := 200
def incmod (x : ℕ) : ℕ := if x+1>HISTMAX then 0 else x+1
def decmod (x : ℕ) : ℕ := if x=0 then HISTMAX else x-1

/-- `hist`, `histi`, `histo` and `histno`, which is a C `int`: that it wraps after 2^31 commands is
left out. -/
structure Hist where
  hist : ℕ → Option (List UInt8)
  histi : ℕ
  histo : ℕ
  histno : ℤ

def Hist.init : Hist := ⟨fun _ => none,0,0,1⟩

def Hist.addhist (s : Hist) (p : List UInt8) : Hist :=
  if p.all isspace then s
  else if s.hist (decmod s.histi)=some p then s
  else
    let s := if incmod s.histi=s.histo then
        {s with hist := update s.hist s.histo none, histo := incmod s.histo}
      else s
    { s with
      hist := update s.hist s.histi (some p)
      histi := incmod s.histi
      histno := s.histno+1 }

def Hist.gethistn (s : Hist) (n : ℤ) : Option (List UInt8) :=
  if n<s.histno-HISTMAX ∨ n>s.histno then none
  else s.hist (decmod^[(s.histno-n).toNat] s.histi)

def Hist.search (s : Hist) (p : List UInt8) : ℕ → ℕ → Option (List UInt8)
  | 0, _ => none
  | n+1, i =>
    if i=decmod s.histo then none
    else
      match s.hist i with
      | none => none
      | some c => if p.isPrefixOf c then some c else search s p n (decmod i)

def Hist.gethists (s : Hist) (p : List UInt8) : Option (List UInt8) :=
  s.search p (HISTMAX+1) (decmod s.histi)

def record (log : List (List UInt8)) (p : List UInt8) : List (List UInt8) :=
  if p.all isspace ∨ log.head?=some p then log else p::log

def Hist.after (cs : List (List UInt8)) : Hist := cs.foldl Hist.addhist Hist.init
def recorded (cs : List (List UInt8)) : List (List UInt8) := cs.foldl record []
def behind (i d : ℕ) : ℕ := (i+201-d)%201

/-- The ring holds the last 200 commands of the log, newest first. -/
structure Ring (s : Hist) (log : List (List UInt8)) : Prop where
  histno : s.histno=log.length+1
  histi : s.histi<201
  gap : s.hist s.histi=none
  slot : ∀ d<200, s.hist (behind s.histi (d+1))=log[d]?
  histo : s.histo=behind s.histi (min log.length 200)

variable {s : Hist} {log : List (List UInt8)} {i d : ℕ}

theorem decmod_behind (hi : i<201) (hd : d≤200) : decmod (behind i d)=behind i (d+1) := by
  unfold decmod behind HISTMAX
  split <;> omega

theorem behind_zero (hi : i<201) : behind i 0=i := by
  rw [behind]
  omega

theorem decmod_iterate (hi : i<201) (hd : d≤200) : decmod^[d] i=behind i d := by
  induction d with
  | zero => exact (behind_zero hi).symm
  | succ d ih => rw [iterate_succ_apply',ih (by omega),decmod_behind hi (by omega)]

theorem incmod_eq (hi : i<201) : incmod i=behind i 200 := by
  unfold incmod behind HISTMAX
  split <;> omega

theorem behind_incmod (hi : i<201) (hd : d≤200) : behind (incmod i) (d+1)=behind i d := by
  unfold incmod behind HISTMAX
  split <;> omega

theorem behind_inj {e : ℕ} (hd : d≤200) (he : e≤200) (h : behind i d=behind i e) : d=e := by
  unfold behind at h
  omega

theorem incmod_lt (i : ℕ) : incmod i<201 := by
  unfold incmod HISTMAX
  split <;> omega

theorem Ring.init : Ring Hist.init [] := ⟨rfl,by decide,rfl,fun d _ => rfl,rfl⟩

theorem Ring.push (h : Ring s log) (p : List UInt8) {hist : ℕ → Option (List UInt8)} {histo : ℕ}
    (hgap : hist (behind s.histi 200)=none)
    (hslot : ∀ d, 1≤d → d<200 → hist (behind s.histi d)=s.hist (behind s.histi d))
    (hhisto : histo=behind s.histi (min log.length 199)) :
    Ring ⟨update hist s.histi (some p),incmod s.histi,histo,s.histno+1⟩
      (p::log) := by
  have hi := h.histi
  have hne : ∀ {d}, 1≤d → d≤200 → behind s.histi d≠s.histi := fun h1 h2 heq => by
    have := behind_inj h2 (Nat.zero_le _) (heq.trans (behind_zero hi).symm)
    omega
  refine ⟨?_,incmod_lt _,?_,fun d hd => ?_,?_⟩
  · rw [h.histno,length_cons]
    push_cast
    ring
  · dsimp only
    rw [incmod_eq hi,update_of_ne (hne (by omega) le_rfl),hgap]
  · dsimp only
    rw [behind_incmod hi (by omega)]
    cases d with
    | zero => rw [behind_zero hi,update_self]; rfl
    | succ d =>
      rw [update_of_ne (hne (by omega) (by omega)),hslot _ (by omega) hd,
        h.slot d (by omega),getElem?_cons_succ]
  · dsimp only
    rw [hhisto,length_cons,show min (log.length+1) 200 = min log.length 199+1 by omega,
      behind_incmod hi (by omega)]

theorem Ring.addhist (h : Ring s log) (p : List UInt8) : Ring (s.addhist p) (record log p) := by
  have hi := h.histi
  have hlast : s.hist (decmod s.histi)=log.head? := by
    have := decmod_behind hi (Nat.zero_le 200)
    rw [behind_zero hi] at this
    rw [this,h.slot 0 (by decide),head?_eq_getElem?]
  rw [Hist.addhist,record,hlast]
  by_cases hblank : p.all isspace
  · rw [if_pos hblank,if_pos (Or.inl hblank)]
    exact h
  by_cases hsame : log.head?=some p
  · rw [if_neg hblank,if_pos hsame,if_pos (Or.inr hsame)]
    exact h
  rw [if_neg hblank,if_neg hsame,if_neg (not_or.mpr ⟨hblank,hsame⟩)]
  have hoffs : min log.length 200≤200 := Nat.min_le_right _ _
  by_cases hfull : incmod s.histi=s.histo
  · -- the oldest entry is dropped
    rw [if_pos hfull]
    have hlen := behind_inj le_rfl hoffs ((incmod_eq hi).symm.trans (hfull.trans h.histo))
    have histo : s.histo=behind s.histi 200 := hfull.symm.trans (incmod_eq hi)
    refine h.push p ?_ (fun d h1 h2 => ?_) ?_
    · dsimp only
      rw [histo,update_self]
    · have hne : behind s.histi d≠behind s.histi 200 := fun heq => by
        have := behind_inj (by omega) le_rfl heq
        omega
      dsimp only
      rw [histo,update_of_ne hne]
    · dsimp only
      rw [show min log.length 199=199 by omega,histo]
      unfold incmod behind HISTMAX
      split <;> omega
  · rw [if_neg hfull]
    have hlen : log.length<200 := by
      by_contra hge
      rw [h.histo,show min log.length 200=200 by omega,incmod_eq hi] at hfull
      exact hfull rfl
    refine h.push p ?_ (fun d _ _ => rfl) ?_
    · rw [h.slot 199 (by decide),getElem?_eq_none (by omega)]
    · rw [h.histo,show min log.length 200 = min log.length 199 by omega]

theorem Ring.search (h : Ring s log) (p : List UInt8) {n : ℕ} (hd : d≤200) (hn : 201≤n+d) :
    s.search p n (behind s.histi (d+1))=((log.take 200).drop d).find? (p.isPrefixOf ·) := by
  induction n generalizing d with
  | zero => omega
  | succ n ih =>
    have hi := h.histi
    rw [Hist.search,h.histo,decmod_behind hi (Nat.min_le_right _ _)]
    by_cases hend : min log.length 200≤d
    · rw [drop_of_length_le (by rw [length_take]; omega),find?_nil]
      by_cases heq : behind s.histi (d+1)=behind s.histi (min log.length 200+1)
      · rw [if_pos heq]
      · rw [if_neg heq]
        rcases Nat.lt_or_ge d 200 with hlt | hge
        · rw [h.slot d hlt,getElem?_eq_none (by omega)]
        · have hgap : behind s.histi (d+1)=s.histi := by
            rw [behind]
            omega
          rw [hgap,h.gap]
    · rw [if_neg fun heq => ?_,h.slot d (by omega)]
      · have hlen : d<(log.take 200).length := by rw [length_take]; omega
        rw [drop_eq_getElem_cons hlen,find?_cons,getElem_take,
          getElem?_eq_getElem (by omega),decmod_behind hi (by omega)]
        dsimp only
        cases p.isPrefixOf log[d] with
        | true => rfl
        | false => exact ih (by omega) (by omega)
      · have : d = min log.length 200 := by
          unfold behind at heq
          omega
        omega

theorem Ring.run (cs : List (List UInt8)) : Ring (Hist.after cs) (recorded cs) := by
  have hrun : ∀ {s log}, Ring s log → Ring (cs.foldl Hist.addhist s) (cs.foldl record log) := by
    induction cs with
    | nil => exact fun h => h
    | cons p cs ih => exact fun h => ih (h.addhist p)
  exact hrun Ring.init

/-- The history answers as the list of the recorded commands does. -/
theorem history_refines (cs : List (List UInt8)) :
    (∀ n≤(Hist.after cs).histno, (Hist.after cs).gethistn n =
      if (Hist.after cs).histno-200≤n ∧ 1≤n then (recorded cs).reverse[(n-1).toNat]?
      else none) ∧
    ∀ p, (Hist.after cs).gethists p=((recorded cs).take 200).find? (p.isPrefixOf ·) := by
  have h := Ring.run cs
  generalize Hist.after cs=s at h ⊢
  generalize recorded cs=log at h ⊢
  have hi := h.histi
  have hno := h.histno
  refine ⟨fun n hn => ?_, fun p => ?_⟩
  · have hmax : ((HISTMAX : ℕ) : ℤ)=200 := rfl
    rw [Hist.gethistn,hmax]
    by_cases hold : s.histno-200≤n
    · rw [if_neg (by omega),decmod_iterate hi (by omega)]
      cases hd : (s.histno-n).toNat with
      | zero =>
        rw [behind_zero hi,h.gap,getElem?_eq_none (by rw [length_reverse]; omega),ite_self]
      | succ d =>
        rw [h.slot d (by omega)]
        by_cases hpos : 1≤n
        · rw [if_pos ⟨hold,hpos⟩,getElem?_reverse (by omega)]
          congr 1
          omega
        · rw [if_neg (by omega),getElem?_eq_none (by omega)]
    · rw [if_pos (by omega),if_neg (by omega)]
  · have hfirst := decmod_behind hi (Nat.zero_le 200)
    rw [behind_zero hi] at hfirst
    rw [Hist.gethists,hfirst,h.search p (Nat.zero_le _) (by decide),drop_zero]

end Pmon.History
