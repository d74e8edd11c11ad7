import Pmon.BptTable
import Pmon.GoBreakpoints

/-!
# Removing breakpoints that are not planted

`main` calls `rm_bpts` whether breakpoints are planted or not; a word that holds the break code is
taken for a planted one.
-/

namespace Pmon.BptTable
open Go (NO_BPT BPT_CODE rmBpts)
variable {s t : Table}

inductive Edit where
  | call (c : Call)
  | store (adr value : ℕ)

def edit (s : Table × (ℕ → ℕ)) : Edit → Option (Table × (ℕ → ℕ))
  | .call c => (step s.1 c).map fun t => (t,s.2)
  | .store adr value => some (s.1,Function.update s.2 adr value)

def edits (s : Table × (ℕ → ℕ)) (es : List Edit) : Option (Table × (ℕ → ℕ)) := es.foldlM edit s

def Slot.bps (blocks : List (List Char)) (b : Slot) : Go.Bps :=
  { addr := b.addr, len := b.len, value := b.value, wpt := b.wpt,
    cmdstr := (b.cmdstr.bind fun p => blocks[p]?).map String.ofList }

def unplanted {κ : Type} (s : Table × (ℕ → ℕ)) (epc : ℕ) (regs : κ) : Go.State κ :=
  {Go.start s.2 epc regs with bpt := s.1.bpt.map (Slot.bps s.1.blocks)}

def values (s : Table) : List ℕ := s.bpt.map Slot.value

theorem values_of_split {l₁ l₂ : List Slot} {b c : Slot} (hbpt : s.bpt=l₁++b::l₂)
    (htbpt : t.bpt=l₁++c::l₂) (hvalue : c.value=b.value) :
    values t=values s := by
  simp [values,hbpt,htbpt,hvalue]

variable {adr len wpt : ℕ}

theorem values_of_cleared (h : Cleared wpt adr len s t) :
    values t=values s := by
  cases h with
  | absent => rfl
  | found hbpt => exact values_of_split hbpt rfl rfl

theorem values_of_entered {env : Env} {r : Option (ℕ × Slot)} (h : Entered env wpt adr len s r t) :
    values t=values s := by
  cases h with
  | full => rfl
  | refused => rfl
  | placed hbpt => exact values_of_split hbpt rfl rfl

theorem values_enter (env : Env) (wpt adr len : ℕ) (s : Table) :
    values (enter env wpt adr len s).2=values s :=
  (values_of_entered (enter_entered env wpt adr len s)).trans
    (values_of_cleared (clrbpt_cleared wpt adr len s))

theorem values_attach {env : Env} {j : ℕ} {b : Slot} (h : Entered env wpt adr len s (some (j,b)) t)
    (left : ℕ) (str : Option (List Char)) :
    values (attach env left j b str t)=values t := by
  cases h with
  | placed =>
    unfold attach
    simp only [set_split]
    cases str with
    | none => exact values_of_split rfl rfl rfl
    | some text =>
      dsimp only
      split <;> exact values_of_split rfl rfl rfl

theorem values_setbp (env : Env) (av : List (List Char)) (s : Table) :
    values (setbp env av s).2=values s := by
  refine setbpArgs_preserves (I := fun t => values t=values s) (Q := fun _ => True) env ?_ ?_ av
    _ s rfl fun _ _ => trivial
  · intro r t u _ ht henter
    have hspec := values_enter env r.wpt r.adr r.len t
    rw [henter] at hspec
    exact hspec.trans ht
  · intro r t u j b left str _ ht henter
    have hspec := enter_entered env r.wpt r.adr r.len t
    have hvalues := values_enter env r.wpt r.adr r.len t
    rw [henter] at hspec hvalues
    exact (values_attach hspec left str).trans (hvalues.trans ht)

theorem values_setbpt (env : Env) (wpt adr len : ℕ) (s : Table) :
    values (setbpt env wpt adr len s).2=values s := by
  have hspec := enter_entered env wpt adr len s
  have hvalues := values_enter env wpt adr len s
  unfold setbpt
  generalize enter env wpt adr len s=r at hspec hvalues
  obtain ⟨placed,t⟩ := r
  cases hspec with
  | full => exact hvalues
  | refused => exact hvalues
  | placed =>
    refine Eq.trans ?_ hvalues
    simp [values]

theorem values_clrbpts (s : Table) : values (clrbpts s)=values s := by
  simp only [values,clrbpts,List.map_map]
  rfl

theorem values_of_slotCleared (h : SlotCleared s t) : values t=values s := by
  cases h with
  | unused => rfl
  | found hbpt => exact values_of_split hbpt rfl rfl

theorem clrbpOk_of_some {av : List (List Char)} {r : ℤ × Table} (h : clrbp av s=some r) :
    ClrbpOk (fun _ => True) av s := by
  fun_induction clrbp av s with
  | case1 s => trivial
  | case2 args s ih =>
    rw [ClrbpOk,if_pos rfl]
    exact ⟨trivial,ih h⟩
  | case3 arg args s hne hnone =>
    rw [ClrbpOk,if_neg hne,hnone]
    trivial
  | case4 => cases h
  | case5 arg args s hne i hi hlt hneg ih =>
    rw [ClrbpOk,if_neg hne,hi]
    dsimp only
    rw [if_pos hlt]
    exact ⟨not_lt.mp hneg,ih h⟩
  | case6 arg args s hne i hi hlt ih =>
    rw [ClrbpOk,if_neg hne,hi]
    dsimp only
    rw [if_neg hlt]
    exact ⟨le_trans (by decide) (not_lt.mp hlt),ih h⟩

theorem values_step {c : Call} (h : step s c=some t) : values t=values s := by
  cases c with
  | setbp env av =>
    cases h
    exact values_setbp env av s
  | setbpt env wpt adr len =>
    cases h
    exact values_setbpt env wpt adr len s
  | clrbpt wpt adr len =>
    cases h
    exact values_of_cleared (clrbpt_cleared wpt adr len s)
  | clrbp av =>
    obtain ⟨r,hr,rfl⟩ := Option.map_eq_some_iff.mp h
    obtain ⟨n,u,hu,hvalues⟩ := clrbp_preserves (I := fun t => values t=values s)
      (fun t _ ht => (values_clrbpts t).trans ht)
      (fun j t ht => (values_of_slotCleared (clrslot_cleared j t)).trans ht)
      av s rfl (clrbpOk_of_some hr)
    rw [hr] at hu
    cases hu
    exact hvalues
  | clrbpts =>
    cases h
    exact values_clrbpts s
  | dlInitialise keepBpts =>
    cases h
    cases keepBpts with
    | true => rfl
    | false => exact values_clrbpts s

theorem values_edits {es : List Edit} {s t : Table × (ℕ → ℕ)} (h : edits s es=some t) :
    values t.1=values s.1 := by
  induction es generalizing s with
  | nil =>
    cases h
    rfl
  | cons e es ih =>
    rw [edits,List.foldlM_cons] at h
    cases e with
    | call c =>
      cases hstep : step s.1 c with
      | none =>
        rw [edit,hstep] at h
        cases h
      | some u =>
        rw [edit,hstep] at h
        exact (ih h).trans (values_step hstep)
    | store adr value => exact ih (s := (s.1,Function.update s.2 adr value)) h

theorem mem_breakList_unplanted {κ : Type} (s : Table × (ℕ → ℕ)) (epc : ℕ) (regs : κ)
    (e : ℕ × ℕ) :
    e∈Go.breakList (unplanted s epc regs)++Go.traceList (unplanted s epc regs) ↔
      ∃ b∈s.1.bpt, b.addr≠NO_BPT ∧ b.wpt=0 ∧ (b.addr,b.value)=e := by
  have htrace : Go.traceList (unplanted s epc regs)=[] := Go.traceList_eq_nil rfl rfl
  rw [htrace,List.append_nil,Go.breakList,Go.remembered_cons,
    Go.remembered_singleton_unused (b := (unplanted s epc regs).bptTmp) rfl,List.nil_append]
  simp [Go.remembered,unplanted,Slot.bps,and_assoc]

/-- With nothing planted, `rm_bpts` changes no memory exactly when every listed break instruction
was one before the events. -/
theorem rmBpts_unplanted_iff {κ : Type} (s t : Table × (ℕ → ℕ)) (es : List Edit)
    (hedits : edits s es=some t) (epc : ℕ) (regs : κ) :
    (rmBpts (unplanted t epc regs)).mem.word=t.2 ↔
      ∀ (j : ℕ) (b c : Slot), t.1.bpt[j]?=some b → s.1.bpt[j]?=some c →
        b.addr≠NO_BPT → b.wpt=0 → t.2 b.addr=BPT_CODE → c.value=BPT_CODE := by
  have hvalues := values_edits hedits
  have hsame : ∀ (j : ℕ) (b c : Slot), t.1.bpt[j]?=some b → s.1.bpt[j]?=some c →
      b.value=c.value := by
    intro j b c hb hc
    have hget := congrArg (·[j]?) hvalues
    simpa [values,hb,hc] using hget
  have hmem : (unplanted t epc regs).mem.word=t.2 := rfl
  rw [Go.rmBpts_mem]
  change _=(unplanted t epc regs).mem.word ↔ _
  rw [CodePatch.restoreAll_word_eq_iff,hmem]
  constructor
  · intro h j b c hb hc huse hsoft hcode
    have hentry := (mem_breakList_unplanted t epc regs (b.addr,b.value)).mpr
      ⟨b,List.mem_of_getElem? hb,huse,hsoft,rfl⟩
    rw [←hsame j b c hb hc]
    exact h _ hentry hcode
  · intro h e he hcode
    obtain ⟨b,hb,huse,hsoft,rfl⟩ := (mem_breakList_unplanted t epc regs e).mp he
    obtain ⟨j,hj⟩ := List.mem_iff_getElem?.mp hb
    have hlen : s.1.bpt.length=t.1.bpt.length := by
      simpa [values] using (congrArg List.length hvalues).symm
    have hlt : j<s.1.bpt.length := by
      rw [hlen]
      exact (List.getElem?_eq_some_iff.mp hj).1
    have hc := List.getElem?_eq_getElem hlt
    rw [hsame j b _ hj hc]
    exact h j b _ hj hc huse hsoft hcode

def setPlain : Edit := .call (.setbp plainEnv [['f']])

theorem rmBpts_unplanted_nop :
    ∃ t, edits (Table.start r4k, fun _ => 0) [setPlain,.store 0x80030000 BPT_CODE]=some t ∧
      (rmBpts (unplanted t 0x80020000 ())).mem.word=t.2 := by
  refine ⟨_,rfl,(rmBpts_unplanted_iff (Table.start r4k, fun _ => 0) _
    [setPlain,.store 0x80030000 BPT_CODE] rfl 0x80020000 ()).mpr ?_⟩
  intro j b c hb _ huse _ hcode
  have haddr : ∀ b∈(setbp plainEnv [['f']] (Table.start r4k)).2.bpt,
      b.addr=0x80020000 ∨ b.addr=NO_BPT := by decide
  rcases haddr b (List.mem_of_getElem? hb) with heq | heq
  · rw [heq] at hcode
    exact absurd hcode (by decide)
  · exact absurd heq huse

theorem rmBpts_unplanted_break :
    ∃ t, edits (Table.start r4k, fun _ => 0) [setPlain,.store 0x80020000 BPT_CODE]=some t ∧
      (rmBpts (unplanted t 0x80020000 ())).mem.word 0x80020000=0 ∧ t.2 0x80020000=BPT_CODE := by
  exact ⟨_,rfl, by decide, by decide⟩

end Pmon.BptTable
