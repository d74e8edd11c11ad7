import Pmon.EnvEntry

/-!
# The environment in a serial EEPROM (`eeprom.c`)

`envcopy` mirrors the chip. A store to it waits until another word is stored to, and then the whole
word is written. The chip is seen as bytes, the low one of a word first.
-/

namespace Pmon.Eeprom
open List Function EnvEntry

/-- `NVOFF_CSUM`; the words before and behind are the magic value, the size and the state. -/
def nvoffCsum : ℕ := 2
def nvoffEnvsize : ℕ := 4
def nvoffState : ℕ := 6
def nvoffEnvbase : ℕ := 10
def nvoffEnvtop : ℕ := 512
def envAvail : ℕ := nvoffEnvtop-nvoffEnvbase

/-- The copy, the chip and `env_laststore`, `none` for -1; the contents of the chip behind each
`eeput`, the latest first; `nv_state` once the copy is loaded. -/
structure State where
  copy : ℕ → UInt8
  chip : ℕ → UInt8
  laststore : Option ℕ
  log : List (ℕ → UInt8)
  nvState : UInt8

def getshort (m : ℕ → UInt8) (offs : ℕ) : ℕ := (m offs).toNat+256*(m (offs+1)).toNat

/-- The loop of `nvram_calcsum`, over an `unsigned short`. -/
def sumLoop (m : ℕ → UInt8) : ℕ → ℕ → ℕ → ℕ
  | 0, _, sum => sum
  | n+1, i, sum => sumLoop m n (i+2) ((sum+getshort m i)%0x10000)

def calcsum (m : ℕ → UInt8) : ℕ := sumLoop m (envAvail/2) nvoffEnvbase 0xdeaf

def matchLoop (m : ℕ → UInt8) (name : List UInt8) (top : ℕ) : ℕ → ℕ → ℕ
  | 0, _ => 0
  | fuel+1, envp =>
    if envp<top then
      let varsize := (m envp).toNat
      if varsize=0 ∨ top<envp+varsize then 0
      else if m (envp+1)≠eqSign ∧ name.length≤varsize-1 ∧
          matchLen m (envp+1) name=name.length ∧
          (name.length=varsize-1 ∨ m (envp+1+name.length)=eqSign) then envp
      else matchLoop m name top fuel (envp+varsize)
    else 0

/-- `nvram_matchenv`: the address of an entry, 0 without one. -/
def matchenv (m : ℕ → UInt8) (name : List UInt8) : ℕ :=
  if envAvail<getshort m nvoffEnvsize ∨ 255≤name.length then 0
  else
    matchLoop m name (nvoffEnvbase+getshort m nvoffEnvsize) (getshort m nvoffEnvsize) nvoffEnvbase

namespace State

/-- `eeput` of the word stored to last. -/
def eeput (s : State) : State :=
  let chip := fun i => if s.laststore=some (i/2) then s.copy i else s.chip i
  {s with chip, log := chip::s.log}

/-- `nvram_flush` for a word, `none` for an offset of -1. -/
def flush (s : State) (w : Option ℕ) : State :=
  { if w≠s.laststore ∧ s.laststore≠none then s.eeput else s with laststore := w }

def setshort (s : State) (offs val : ℕ) : State :=
  if getshort s.copy offs=val then s
  else
    let s := s.flush (some (offs/2))
    let copy := update s.copy offs (UInt8.ofNat val)
    {s with copy := update copy (offs+1) (UInt8.ofNat (val/256))}

def setbyte (s : State) (offs : ℕ) (val : UInt8) : State :=
  if s.copy offs=val then s
  else
    let s := s.flush (some (offs/2))
    {s with copy := update s.copy offs val}

/-- A loop of `nvram_setbyte` over consecutive offsets. -/
def setbytes (s : State) : ℕ → List UInt8 → State
  | _, [] => s
  | offs, b::bs => (s.setbyte offs b).setbytes (offs+1) bs

def setstate (s : State) (state : UInt8) : State :=
  {s with nvState := state}.setbyte nvoffState state

def updatesum (s : State) : State :=
  ((s.setshort nvoffCsum (calcsum s.copy)).setstate 0).flush none

/-- The loop of `nvram_delenv` that moves the later entries down. -/
def moveLoop : ℕ → ℕ → ℕ → State → State
  | 0, _, _, s => s
  | n+1, envp, nenvp, s => moveLoop n (envp+1) (nenvp+1) (s.setbyte envp (s.copy nenvp))

def delenv (s : State) (name : List UInt8) : State × Bool :=
  let envp := matchenv s.copy name
  if envp=0 then (s,false)
  else
    let nenvp := envp+(s.copy envp).toNat
    let nremain := getshort s.copy nvoffEnvsize-(nenvp-nvoffEnvbase)
    let s := moveLoop nremain envp nenvp (s.setstate 3)
    ((s.setshort nvoffEnvsize (envp + nremain-nvoffEnvbase)).updatesum,true)

/-- An entry behind the others, the end of `sbd_setenv`. -/
def append (s : State) (name val : List UInt8) (total : ℕ) : State :=
  let envp := nvoffEnvbase+getshort s.copy nvoffEnvsize
  let s := ((s.setstate 2).setbyte envp (UInt8.ofNat total)).setbytes (envp+1) name
  let s := if val≠[] then s.setbytes (envp+1+name.length) (eqSign::val) else s
  (s.setshort nvoffEnvsize (envp+total-nvoffEnvbase)).updatesum

/-- `sbd_setenv`; `val` is empty for a null pointer. -/
def setenv (s : State) (name val : List UInt8) : State × Bool :=
  let total := 1+name.length + if val≠[] then 1+val.length else 0
  if s.nvState≠0 ∨ name=[] ∨ 255<total then (s,false)
  else
    let envp := matchenv s.copy name
    if envp≠0 ∧ (s.copy envp).toNat=total then
      if val≠[] then
        (((s.setstate 2).setbytes (envp+1+name.length+1) val).updatesum,true)
      else (s,true)
    else
      let s := if envp≠0 then (s.delenv name).1 else s
      if envAvail<getshort s.copy nvoffEnvsize+total then (s,false)
      else (s.append name val total,true)

def unsetenv (s : State) (name : List UInt8) : State × Bool :=
  if s.nvState≠0 then (s,false) else s.delenv name

end State

inductive Call where
  | setenv (name val : List UInt8)
  | unsetenv (name : List UInt8)

def Call.name : Call → List UInt8
  | .setenv name _ => name
  | .unsetenv name => name

def Call.exec (s : State) : Call → State
  | .setenv name val => (s.setenv name val).1
  | .unsetenv name => (s.unsetenv name).1

/-- The contents agree outside the word of the state. -/
def SameArea (c m : ℕ → UInt8) : Prop := ∀ i, i/2≠3 → c i=m i

/-- One elementary update: at its end chip and copy agree, and the chip was never marked good while
it held some of the old values and some of the new ones. -/
structure Elementary (s s' : State) : Prop where
  agree : s'.chip=s'.copy
  ordered : ∃ log, s'.log=log++s.log ∧
    ∀ c∈log, c nvoffState≠0 ∨ SameArea c s.copy ∨ SameArea c s'.copy

variable {s₀ s : State}

theorem flush_copy (s : State) (w : Option ℕ) : (s.flush w).copy=s.copy := by
  unfold State.flush
  split <;> rfl

theorem flush_chip (s : State) (w : Option ℕ) (i : ℕ) : (s.flush w).chip i =
    if s.laststore=some (i/2) ∧ w≠s.laststore then s.copy i else s.chip i := by
  unfold State.flush
  split
  · rename_i hput
    simp only [State.eeput,hput.1,and_true,ne_eq,not_false_eq_true]
  · rename_i hput
    rw [if_neg fun hc => hput ⟨hc.2,by rw [hc.1]; exact Option.some_ne_none _⟩]

theorem flush_log (s : State) (w : Option ℕ) : (s.flush w).log =
    if w≠s.laststore ∧ s.laststore≠none then (s.flush w).chip::s.log else s.log := by
  unfold State.flush
  split <;> rfl

theorem setbyte_of_ne {offs : ℕ} {val : UInt8} (h : s.copy offs≠val) : s.setbyte offs val =
    {s.flush (some (offs/2)) with copy := update s.copy offs val} := by
  rw [State.setbyte,if_neg h]
  dsimp only
  rw [flush_copy]

/-- Only the word stored to last may differ. -/
def Pending (s : State) : Prop := ∀ i, s.laststore≠some (i/2) → s.chip i=s.copy i

theorem Pending.flush (h : Pending s) {w : Option ℕ} {i : ℕ} (hi : w≠some (i/2)) :
    (s.flush w).chip i=s.copy i := by
  rw [flush_chip]
  by_cases hlast : s.laststore=some (i/2)
  · rw [if_pos ⟨hlast,hlast ▸ hi⟩]
  · rw [if_neg fun hc => hlast hc.1,h i hlast]

/-- Between the mark at the start of an update and the end of it. -/
structure Busy (s₀ s : State) : Prop where
  pending : Pending s
  marked : s.copy nvoffState≠0
  started : s.chip nvoffState≠0 ∨ s.laststore=some 3 ∧ SameArea s.copy s₀.copy
  ordered : ∃ log, s.log=log++s₀.log ∧ ∀ c∈log, c nvoffState≠0 ∨ SameArea c s₀.copy

namespace Busy

theorem logged (h : Busy s₀ s) {w : Option ℕ}
    (hchip : w≠s.laststore → (s.flush w).chip nvoffState≠0) :
    ∃ log, (s.flush w).log=log++s₀.log ∧
      ∀ c∈log, c nvoffState≠0 ∨ SameArea c s₀.copy := by
  obtain ⟨log,hlog,hgood⟩ := h.ordered
  rw [flush_log]
  split
  · rename_i hput
    exact ⟨_::log,by rw [hlog]; rfl,forall_mem_cons.mpr ⟨.inl (hchip hput.1),hgood⟩⟩
  · exact ⟨log,hlog,hgood⟩

/-- A store to another word than that of the state. -/
theorem store (h : Busy s₀ s) {w : ℕ} (hw : w≠3) {copy : ℕ → UInt8}
    (hcopy : ∀ i, i/2≠w → copy i=s.copy i) : Busy s₀ {s.flush (some w) with copy} := by
  have hchip : (s.flush (some w)).chip nvoffState≠0 := by
    rw [flush_chip]
    split
    · exact h.marked
    · rename_i hput
      refine h.started.resolve_right fun hs => hput ⟨hs.1,fun heq => hw ?_⟩
      exact Option.some.inj (heq.trans hs.1)
  refine ⟨fun i hi => ?_,?_,.inl hchip,h.logged fun _ => hchip⟩
  · have hi : some w≠some (i/2) := hi
    exact (h.pending.flush hi).trans (hcopy i fun heq => hi (by rw [heq])).symm
  · dsimp only
    rw [hcopy _ (Ne.symm hw)]
    exact h.marked

theorem setbyte (h : Busy s₀ s) {offs : ℕ} (hoffs : offs/2≠3) (val : UInt8) :
    Busy s₀ (s.setbyte offs val) := by
  unfold State.setbyte
  split
  · exact h
  · refine h.store hoffs fun i hi => ?_
    rw [update_of_ne (fun heq => hi (by rw [heq])),flush_copy]

theorem setshort (h : Busy s₀ s) {offs : ℕ} (heven : offs%2=0) (hoffs : offs/2≠3)
    (val : ℕ) : Busy s₀ (s.setshort offs val) := by
  unfold State.setshort
  split
  · exact h
  · refine h.store hoffs fun i hi => ?_
    rw [update_of_ne (fun heq => hi (by omega)),update_of_ne (fun heq => hi (by rw [heq])),
      flush_copy]

theorem setbytes (h : Busy s₀ s) {offs : ℕ} (hoffs : nvoffEnvbase≤offs) (bs : List UInt8) :
    Busy s₀ (s.setbytes offs bs) := by
  have hbase : nvoffEnvbase=10 := rfl
  induction bs generalizing s offs with
  | nil => exact h
  | cons b bs ih => exact ih (h.setbyte (by omega) b) (by omega)

theorem moveLoop (h : Busy s₀ s) {envp : ℕ} (henvp : nvoffEnvbase≤envp) (n nenvp : ℕ) :
    Busy s₀ (State.moveLoop n envp nenvp s) := by
  have hbase : nvoffEnvbase=10 := rfl
  induction n generalizing s envp nenvp with
  | zero => exact h
  | succ n ih => exact ih (h.setbyte (by omega) _) (by omega) _

/-- The state, and then the last word. -/
theorem finish (h : Busy s₀ s) : Elementary s₀ ((s.setbyte nvoffState 0).flush none) := by
  obtain ⟨log,hlog,hgood⟩ := h.logged (w := some 3) fun hput => by
    rw [flush_chip,if_neg fun hc => hput hc.1.symm]
    exact h.started.resolve_right fun hs => hput hs.1.symm
  have hset := setbyte_of_ne h.marked
  have hlast : (s.setbyte nvoffState 0).laststore=some 3 := by
    rw [hset]
    rfl
  have hpending : Pending (s.setbyte nvoffState 0) := fun i hi => by
    rw [hlast] at hi
    rw [hset]
    dsimp only
    rw [update_of_ne fun heq => hi (by rw [heq]; rfl)]
    exact h.pending.flush hi
  have hnone : none≠(s.setbyte nvoffState 0).laststore := by
    rw [hlast]
    exact (Option.some_ne_none _).symm
  have hagree : ((s.setbyte nvoffState 0).flush none).chip=(s.setbyte nvoffState 0).copy :=
    funext fun i => hpending.flush (Option.some_ne_none _).symm
  refine ⟨by rw [hagree,flush_copy],(s.setbyte nvoffState 0).copy::log,?_,
    forall_mem_cons.mpr ⟨.inr (.inr fun i _ => by rw [flush_copy]),fun c hc => ?_⟩⟩
  · rw [flush_log,if_pos ⟨hnone,hnone.symm⟩,hagree,cons_append,←hlog]
    congr 1
    rw [hset]
    rfl
  · exact (hgood c hc).imp id .inl

theorem updatesum (h : Busy s₀ s) : Elementary s₀ s.updatesum := by
  have hsum : Busy s₀ (s.setshort nvoffCsum (calcsum s.copy)) :=
    h.setshort (by decide) (by decide) _
  have hbusy : Busy s₀ {s.setshort nvoffCsum (calcsum s.copy) with nvState := 0} :=
    ⟨hsum.pending,hsum.marked,hsum.started,hsum.ordered⟩
  exact hbusy.finish

/-- The mark at the start of an update. -/
theorem start (h : s.chip=s.copy) {state : UInt8} (hstate : state≠0) :
    Busy s (s.setstate state) := by
  unfold State.setstate
  by_cases hsame : s.copy nvoffState=state
  · have hmark : s.copy nvoffState≠0 := fun hzero => hstate (hsame.symm.trans hzero)
    rw [State.setbyte,if_pos hsame]
    exact ⟨fun i _ => congrFun h i,hmark,.inl (h ▸ hmark),[],rfl,
      fun c hc => absurd hc not_mem_nil⟩
  · generalize ht : ({s with nvState := state} : State)=t
    obtain ⟨hchip,hcopy,hlog⟩ : t.chip=s.copy ∧ t.copy=s.copy ∧ t.log=s.log := by
      rw [←ht]
      exact ⟨h,rfl,rfl⟩
    have hflush : (t.flush (some 3)).chip=s.copy := funext fun i => by
      rw [flush_chip,hcopy,hchip,ite_self]
    have hother : ∀ i, i/2≠3 → update t.copy nvoffState state i=s.copy i := fun i hi => by
      rw [update_of_ne (fun heq => hi (by rw [heq]; rfl)),hcopy]
    rw [setbyte_of_ne (hcopy ▸ hsame)]
    refine ⟨fun i hi => ?_,?_,.inr ⟨rfl,hother⟩,?_⟩
    · have hi : some 3≠some (i/2) := hi
      exact (congrFun hflush i).trans (hother i fun heq => hi (by rw [heq])).symm
    · exact fun hzero => hstate ((update_self nvoffState state t.copy).symm.trans hzero)
    · have hlogged := flush_log t (some 3)
      rw [hflush,hlog] at hlogged
      split at hlogged
      · exact ⟨[s.copy],hlogged,forall_mem_singleton.mpr (.inr fun i _ => rfl)⟩
      · exact ⟨[],hlogged,fun c hc => absurd hc not_mem_nil⟩

end Busy

theorem matchLoop_eq_zero_or (m : ℕ → UInt8) (name : List UInt8) (top n envp : ℕ) :
    matchLoop m name top n envp=0 ∨ envp ≤ matchLoop m name top n envp := by
  induction n generalizing envp with
  | zero => exact .inl rfl
  | succ n ih =>
    rw [matchLoop]
    dsimp only
    split
    · split
      · exact .inl rfl
      · split
        · exact .inr le_rfl
        · exact (ih _).imp id fun hle => (Nat.le_add_right _ _).trans hle
    · exact .inl rfl

theorem le_matchenv {m : ℕ → UInt8} {name : List UInt8} (h : matchenv m name≠0) :
    nvoffEnvbase ≤ matchenv m name := by
  unfold matchenv at h ⊢
  split at h
  · exact absurd rfl h
  · rename_i hsize
    rw [if_neg hsize]
    exact (matchLoop_eq_zero_or ..).resolve_left h

theorem Elementary.delenv (h : s.chip=s.copy) (name : List UInt8) :
    (s.delenv name).1=s ∨ Elementary s (s.delenv name).1 := by
  unfold State.delenv
  by_cases hfound : matchenv s.copy name=0
  · rw [if_pos hfound]
    exact .inl rfl
  · rw [if_neg hfound]
    have hstart : Busy s (s.setstate 3) := Busy.start h (by decide)
    have hbase := le_matchenv hfound
    dsimp only
    generalize matchenv s.copy name=envp at hbase ⊢
    generalize getshort s.copy nvoffEnvsize-(envp+(s.copy envp).toNat-nvoffEnvbase)=n
    have hmoved : Busy s (State.moveLoop n envp (envp+(s.copy envp).toNat) (s.setstate 3)) :=
      hstart.moveLoop hbase _ _
    have hsize : Busy s (State.setshort _ nvoffEnvsize (envp+n-nvoffEnvbase)) :=
      hmoved.setshort (by decide) (by decide) _
    exact .inr hsize.updatesum

theorem Elementary.append (h : s.chip=s.copy) (name val : List UInt8) (total : ℕ) :
    Elementary s (s.append name val total) := by
  have hbase : nvoffEnvbase=10 := rfl
  have hstart : Busy s (s.setstate 2) := Busy.start h (by decide)
  unfold State.append
  generalize hend : nvoffEnvbase+getshort s.copy nvoffEnvsize=envp
  have hname : Busy s (((s.setstate 2).setbyte envp (UInt8.ofNat total)).setbytes (envp+1) name) :=
    (hstart.setbyte (by omega) _).setbytes (by omega) name
  dsimp only
  split
  · exact ((hname.setbytes (by omega) _).setshort (by decide) (by decide) _).updatesum
  · exact (hname.setshort (by decide) (by decide) _).updatesum

/-- A call makes no update, or one, or deletes an entry and may then append one. -/
def Ordered (s : State) (call : Call) : Prop :=
  call.exec s=s ∨ Elementary s (call.exec s) ∨
    Elementary s (s.delenv call.name).1 ∧ (call.exec s=(s.delenv call.name).1 ∨
      Elementary (s.delenv call.name).1 (call.exec s))

theorem Ordered.agree {call : Call} (h : s.chip=s.copy) (hcall : Ordered s call) :
    (call.exec s).chip=(call.exec s).copy := by
  rcases hcall with heq | hone | ⟨hdel,heq | htwo⟩
  · rw [heq,h]
  · exact hone.agree
  · rw [heq,hdel.agree]
  · exact htwo.agree

theorem setenv_ordered (h : s.chip=s.copy) (name val : List UInt8) :
    Ordered s (.setenv name val) := by
  unfold Ordered Call.exec Call.name State.setenv
  dsimp only
  generalize 1+name.length+(if val≠[] then 1+val.length else 0)=total
  split
  · exact .inl rfl
  split
  · rename_i hfound
    split
    · have hbase : nvoffEnvbase ≤ matchenv s.copy name := le_matchenv hfound.1
      have hstart : Busy s (s.setstate 2) := Busy.start h (by decide)
      exact .inr (.inl (hstart.setbytes (by omega) _).updatesum)
    · exact .inl rfl
  · by_cases hold : matchenv s.copy name≠0
    · rw [if_pos hold]
      rcases Elementary.delenv h name with hsame | hdel
      · rw [hsame]
        split
        · exact .inl rfl
        · exact .inr (.inl (Elementary.append h ..))
      · refine .inr (.inr ⟨hdel,?_⟩)
        split
        · exact .inl rfl
        · exact .inr (Elementary.append hdel.agree ..)
    · rw [if_neg hold]
      split
      · exact .inl rfl
      · exact .inr (.inl (Elementary.append h ..))

/-- After every sequence of calls chip and copy agree, and the next call writes in order. -/
theorem run_ordered (h : s.chip=s.copy) (calls : List Call) (call : Call) :
    (calls.foldl Call.exec s).chip=(calls.foldl Call.exec s).copy ∧
      Ordered (calls.foldl Call.exec s) call := by
  have hcall : ∀ {s : State}, s.chip=s.copy → ∀ call, Ordered s call := fun {s} h call => by
    cases call with
    | setenv name val => exact setenv_ordered h name val
    | unsetenv name =>
      by_cases hstate : s.nvState≠0
      · exact .inl (congrArg Prod.fst (if_pos hstate))
      · have hexec : (Call.unsetenv name).exec s=(s.delenv name).1 :=
          congrArg Prod.fst (if_neg hstate)
        rw [Ordered,hexec]
        exact (Elementary.delenv h name).imp id .inl
  have hagree : (calls.foldl Call.exec s).chip=(calls.foldl Call.exec s).copy := by
    induction calls generalizing s with
    | nil => exact h
    | cons call calls ih => exact ih ((hcall h call).agree h)
  exact ⟨hagree,hcall hagree call⟩

theorem run_ordered_blank : Ordered ⟨fun _ => 0, fun _ => 0,none,[],0⟩ (.setenv [0x61] [0x62]) :=
  (run_ordered rfl [] _).2

end Pmon.Eeprom
