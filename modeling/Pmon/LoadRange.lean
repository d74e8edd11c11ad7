import Pmon.ElfBoot

/-!
# The span of a download

Every accepting call of `dl_checkloadaddr` widens the span. Each call sees its own `heaptop` and
`memorysize`.
-/

namespace Pmon.LoadRange
open LoadFn ElfBoot List
variable {σ : Type}

/-- `dl_initialise` on the loader: symbols go without `SFLAG`, and the span is emptied. -/
def dlInitialise (clrsyms : σ → σ) (offset : ℕ) (keepSyms : Bool) (s : Loader σ) : Loader σ :=
  { s with
    syms := if keepSyms then s.syms else clrsyms s.syms
    minaddr := 2^32-1
    maxaddr := 0
    chksum := 0
    offset := offset }

structure Call (σ : Type) where
  monitor : Monitor σ
  addr : ℕ
  size : ℕ
  verbose : Bool
  addr_lt : addr<2^32
  size_lt : size<2^31

def Call.check (c : Call σ) (s : Loader σ) : Bool × Loader σ :=
  dlCheckloadaddr c.monitor s c.addr c.size c.verbose

def checkAll (s : Loader σ) : List (Call σ) → List (Call σ) × Loader σ
  | [] => ([],s)
  | c::cs =>
    let r := c.check s
    let rest := checkAll r.2 cs
    (if r.1 then c::rest.1 else rest.1,rest.2)

variable {c : Call σ} {s : Loader σ}

theorem Call.check_accepts (h : (c.check s).1=true) :
    Accepted c.monitor c.addr c.size ∧ (c.check s).2.minaddr = min s.minaddr c.addr ∧
      (c.check s).2.maxaddr=max s.maxaddr (c.addr+c.size) := by
  unfold Call.check dlCheckloadaddr at h ⊢
  cases hr : c.monitor.refusal c.addr c.size with
  | some r =>
    rw [hr] at h
    cases h
  | none =>
    have haccept := accepted_of_refusal hr
    have hend : u32 (c.addr+c.size)=c.addr+c.size := by
      have htop := (haccept.straight c.addr_lt c.size_lt).2.1
      unfold u32 K2BASE at *
      omega
    refine ⟨haccept,?_,?_⟩
    · dsimp only
      split <;> omega
    · dsimp only
      rw [hend]
      split <;> omega

theorem Call.check_refuses (h : (c.check s).1=false) :
    (c.check s).2.minaddr=s.minaddr ∧ (c.check s).2.maxaddr=s.maxaddr := by
  unfold Call.check dlCheckloadaddr at h ⊢
  cases hr : c.monitor.refusal c.addr c.size with
  | some r =>
    dsimp only
    split <;> exact ⟨rfl,rfl⟩
  | none =>
    rw [hr] at h
    cases h

theorem Call.check_checked (h : (c.check s).1=true) :
    c.addr+c.size≤2^32 ∧ ∀ a, c.addr≤a → a<c.addr+c.size → Checked c.monitor a := by
  have haccept := (Call.check_accepts h).1
  have htop := (haccept.straight c.addr_lt c.size_lt).2.1
  unfold K2BASE at htop
  refine ⟨by omega,?_⟩
  intro a hlow hhigh
  have hbyte := haccept.checked c.addr_lt c.size_lt (show a-c.addr<c.size by omega)
  rwa [show (c.addr+(a-c.addr))%2^32=a by omega] at hbyte

theorem checkAll_span (cs : List (Call σ)) (s : Loader σ) :
    (checkAll s cs).2.minaddr=(checkAll s cs).1.foldl (fun m c => min m c.addr) s.minaddr ∧
      (checkAll s cs).2.maxaddr =
        (checkAll s cs).1.foldl (fun m c => max m (c.addr+c.size)) s.maxaddr := by
  induction cs generalizing s with
  | nil => exact ⟨rfl,rfl⟩
  | cons c cs ih =>
    obtain ⟨hmin,hmax⟩ := ih (c.check s).2
    unfold checkAll
    dsimp only
    rw [hmin,hmax]
    cases hok : (c.check s).1 with
    | true =>
      obtain ⟨-,hlow,hhigh⟩ := Call.check_accepts hok
      rw [hlow,hhigh]
      exact ⟨rfl,rfl⟩
    | false =>
      obtain ⟨hlow,hhigh⟩ := Call.check_refuses hok
      rw [hlow,hhigh]
      exact ⟨rfl,rfl⟩

theorem foldl_min_isLeast {α β : Type} [LinearOrder β] (f : α → β) (l : List α) (m : β) :
    IsLeast (insert m {b | ∃ a∈l, b=f a}) (l.foldl (fun m a => min m (f a)) m) := by
  induction l generalizing m with
  | nil =>
    refine ⟨Set.mem_insert _ _,?_⟩
    rintro b (rfl | ⟨a,ha,-⟩)
    · exact le_rfl
    · cases ha
  | cons a l ih =>
    obtain ⟨hmem,hle⟩ := ih (min m (f a))
    have hfirst : l.foldl (fun m a => min m (f a)) (min m (f a)) ≤ min m (f a) :=
      hle (Set.mem_insert _ _)
    refine ⟨?_,?_⟩
    · rcases hmem with heq | ⟨b,hb,heq⟩
      · rw [foldl_cons,heq]
        rcases min_choice m (f a) with hm | hm <;> rw [hm]
        · exact Set.mem_insert _ _
        · exact Set.mem_insert_of_mem _ ⟨a,mem_cons_self,rfl⟩
      · exact Set.mem_insert_of_mem _ ⟨b,mem_cons_of_mem _ hb,heq⟩
    · rintro b (rfl | ⟨d,hd,rfl⟩)
      · exact hfirst.trans (min_le_left _ _)
      · rcases mem_cons.mp hd with rfl | hd
        · exact hfirst.trans (min_le_right _ _)
        · exact hle (Set.mem_insert_of_mem _ ⟨d,hd,rfl⟩)

theorem foldl_max_isGreatest {α : Type} (f : α → ℕ) (l : List α) (m : ℕ) :
    IsGreatest (insert m {b | ∃ a∈l, b=f a}) (l.foldl (fun m a => max m (f a)) m) :=
  foldl_min_isLeast (β := ℕᵒᵈ) f l m

theorem checkAll_accepted (cs : List (Call σ)) (s : Loader σ) :
    ∀ c∈(checkAll s cs).1, Accepted c.monitor c.addr c.size := by
  induction cs generalizing s with
  | nil => exact fun c hc => absurd hc not_mem_nil
  | cons d cs ih =>
    intro c hc
    unfold checkAll at hc
    dsimp only at hc
    cases hok : (d.check s).1 with
    | true =>
      rw [if_pos hok] at hc
      rcases mem_cons.mp hc with rfl | hc
      · exact (Call.check_accepts hok).1
      · exact ih _ c hc
    | false =>
      rw [hok] at hc
      exact ih _ c hc

/-- The range of a call that returns 1 does not wrap and is checked memory; the span is that of the
accepted calls. -/
theorem dlCheckloadaddr_sound (clrsyms : σ → σ) (offset : ℕ) (keepSyms : Bool) (s : Loader σ)
    (cs : List (Call σ)) (c : Call σ) :
    let r := checkAll (dlInitialise clrsyms offset keepSyms s) cs
    ((c.check r.2).1=true → c.addr+c.size≤2^32 ∧
        ∀ a, c.addr≤a → a<c.addr+c.size → Checked c.monitor a) ∧
    (r.1=[] → r.2.minaddr=2^32-1 ∧ r.2.maxaddr=0) ∧
    (r.1≠[] → IsLeast {a | ∃ d∈r.1, a=d.addr} r.2.minaddr ∧
      IsGreatest {a | ∃ d∈r.1, a=d.addr+d.size} r.2.maxaddr) := by
  intro r
  obtain ⟨hmin,hmax⟩ := checkAll_span cs (dlInitialise clrsyms offset keepSyms s)
  have haccepted := checkAll_accepted cs (dlInitialise clrsyms offset keepSyms s)
  refine ⟨Call.check_checked,?_,?_⟩
  · intro hnone
    change r.2.minaddr=r.1.foldl _ (2^32-1) at hmin
    change r.2.maxaddr=r.1.foldl _ 0 at hmax
    rw [hnone] at hmin hmax
    exact ⟨hmin,hmax⟩
  · intro hsome
    obtain ⟨d,hd⟩ := exists_mem_of_ne_nil _ hsome
    have hbase := (haccepted d hd).base
    have hleast := foldl_min_isLeast (fun c : Call σ => c.addr) r.1 (2^32-1)
    have hgreatest := foldl_max_isGreatest (fun c : Call σ => c.addr+c.size) r.1 0
    change r.2.minaddr=_ at hmin
    change r.2.maxaddr=_ at hmax
    rw [hmin,hmax]
    -- the initial values of the span are never its result once a call is accepted
    have htop : ∀ d∈r.1, d.addr<2^32-1 := by
      intro d hd
      have hend := ((haccepted d hd).straight d.addr_lt d.size_lt).2.1
      unfold K2BASE at hend
      omega
    unfold K0BASE at hbase
    refine ⟨⟨?_, fun a ha => hleast.2 (Set.mem_insert_of_mem _ ha)⟩,
      ⟨?_, fun a ha => hgreatest.2 (Set.mem_insert_of_mem _ ha)⟩⟩
    · rcases hleast.1 with heq | hmem
      · have hle := hleast.2 (Set.mem_insert_of_mem _ ⟨d,hd,rfl⟩)
        rw [heq] at hle
        exact absurd (htop d hd) (Nat.not_lt.mpr hle)
      · exact hmem
    · rcases hgreatest.1 with heq | hmem
      · have hle := hgreatest.2 (Set.mem_insert_of_mem _ ⟨d,hd,rfl⟩)
        rw [heq] at hle
        omega
      · exact hmem

end Pmon.LoadRange
