import Mathlib.Data.Nat.Bitwise
import Pmon.BptTable

/-!
# The watch registers

`wp_set` of a family keeps in static variables what `wp_insert` will load. The RM7000 has two
registers and one mask. `_mips_watchpoint_set` asks its callback only when `wp_set` has stored its
values.
-/

namespace Pmon.BptTable
open Go (MIPS_WATCHPOINT_VADDR)
open LoadFn (Monitor k0ToPhys)

def WATCH_PA : ℕ := 0xffffffffc
def WATCH_ST : ℕ := 2^63
def WATCH_LD : ℕ := 2^62
def WATCH_IN : ℕ := 2^61
def WATCHMASK_MASK : ℕ := 0xfffffffc
def WATCHMASK_W2 : ℕ := 2
def WATCHMASK_W1 : ℕ := 1
def WATCHLO_PA : ℕ := 0xfffffff8
def WATCHLO_R : ℕ := 2
def WATCHLO_W : ℕ := 1
def Watchpoint.flag (wp : Watchpoint) (kind bit : ℕ) : ℕ := if wp.type &&& kind ≠ 0 then bit else 0

structure Private where
  reg : ℕ
  mask : ℕ
  type : ℕ

def Private.clear : Private := ⟨0,0,0⟩

structure WatchRegs where
  watchlo : ℕ
  watchhi : ℕ
  watchmask : ℕ
  deriving DecidableEq

def rm7kwpSet (wp : Watchpoint) : Private where
  reg := wp.pa &&& (0xffffffff ^^^ wp.mask) &&& WATCH_PA |||
    wp.flag MIPS_WATCHPOINT_X WATCH_IN ||| wp.flag MIPS_WATCHPOINT_R WATCH_LD |||
    wp.flag MIPS_WATCHPOINT_W WATCH_ST
  mask := wp.mask &&& WATCHMASK_MASK
  type := wp.type

def Private.masked (p : Private) (mask : ℕ) : ℕ :=
  if p.mask ≠ 0 then p.reg &&& (0xffffffffffffffff ^^^ mask) else p.reg

def rm7kwpInsert (w1 w2 : Private) (r : WatchRegs) : WatchRegs :=
  if w1.type=0 ∧ w2.type=0 then r
  else
    let mask := w1.mask ||| w2.mask
    { watchlo := w1.masked mask
      watchhi := w2.masked mask
      watchmask := mask ||| (if w1.mask ≠ 0 then WATCHMASK_W1 else 0) |||
        (if w2.mask≠0 then WATCHMASK_W2 else 0) }

section
variable {wp : Watchpoint} {word i : ℕ}

def Watchpoint.Covers (wp : Watchpoint) (word : ℕ) : Prop :=
  ∀ i, 2 ≤ i → i<36 → wp.mask.testBit i=false → word.testBit i=wp.pa.testBit i

def Matches (watchmask n reg word : ℕ) : Prop :=
  ∀ i, 2 ≤ i → i<36 → (watchmask.testBit n && watchmask.testBit i)=false →
    word.testBit i=reg.testBit i

def Watchpoint.Words (wp : Watchpoint) : Prop := wp.pa<2^32 ∧ wp.mask<2^32

theorem testBit_of_lt {n : ℕ} (h : n<2^32) (hi : 32 ≤ i) : n.testBit i=false :=
  Nat.testBit_lt_two_pow (h.trans_le (Nat.pow_le_pow_right two_pos hi))

theorem flag_testBit (wp : Watchpoint) (kind : ℕ) {bit : ℕ} (h : bit.testBit i=false) :
    (wp.flag kind bit).testBit i=false := by
  unfold Watchpoint.flag
  split
  · exact h
  · exact Nat.zero_testBit i

theorem rm7kwpSet_reg_testBit (h : wp.Words) (hi : 2 ≤ i) (hi' : i<36) :
    (rm7kwpSet wp).reg.testBit i=(wp.pa.testBit i && !wp.mask.testBit i) := by
  have hpa : WATCH_PA.testBit i=true := by
    revert i
    decide
  have hflags : WATCH_IN.testBit i=false ∧ WATCH_LD.testBit i=false ∧
      WATCH_ST.testBit i=false := by
    refine ⟨Nat.testBit_two_pow_of_ne ?_,Nat.testBit_two_pow_of_ne ?_,
      Nat.testBit_two_pow_of_ne ?_⟩ <;> omega
  rw [rm7kwpSet,Nat.testBit_or,Nat.testBit_or,Nat.testBit_or,flag_testBit wp _ hflags.1,
    flag_testBit wp _ hflags.2.1,flag_testBit wp _ hflags.2.2,Nat.testBit_and,Nat.testBit_and,
    Nat.testBit_xor,hpa]
  by_cases h32 : i<32
  · have hones : Nat.testBit 0xffffffff i=true := by
      rw [show 0xffffffff=2^32-1 from rfl,Nat.testBit_two_pow_sub_one]
      exact decide_eq_true h32
    rw [hones]
    simp
  · simp [testBit_of_lt h.1 (not_lt.1 h32)]

theorem rm7kwpSet_mask_testBit (h : wp.Words) (hi : 2 ≤ i) :
    (rm7kwpSet wp).mask.testBit i=wp.mask.testBit i := by
  rw [rm7kwpSet,Nat.testBit_and]
  by_cases h32 : i<32
  · have hones : WATCHMASK_MASK.testBit i=true := by
      revert i
      decide
    rw [hones,Bool.and_true]
  · rw [testBit_of_lt h.2 (not_lt.1 h32),Bool.false_and]

theorem masked_testBit {mask : ℕ} (h : wp.Words) (hcovers : wp.Covers word)
    (hmask : (rm7kwpSet wp).mask.testBit i=true → mask.testBit i=true) (hi : 2 ≤ i)
    (hi' : i<36) (hcare : (decide ((rm7kwpSet wp).mask≠0) && mask.testBit i)=false) :
    word.testBit i=((rm7kwpSet wp).masked mask).testBit i := by
  rw [rm7kwpSet_mask_testBit h hi] at hmask
  have hown : wp.mask.testBit i=false := by
    rw [←rm7kwpSet_mask_testBit h hi,Bool.eq_false_iff]
    intro hbit
    have hne : (rm7kwpSet wp).mask≠0 := by
      intro h0
      rw [h0,Nat.zero_testBit] at hbit
      cases hbit
    rw [rm7kwpSet_mask_testBit h hi] at hbit
    rw [hmask hbit,decide_eq_true hne] at hcare
    cases hcare
  have hreg : (rm7kwpSet wp).reg.testBit i=word.testBit i := by
    rw [rm7kwpSet_reg_testBit h hi hi',hown,hcovers i hi hi' hown,Bool.not_false,Bool.and_true]
  unfold Private.masked
  split
  case isFalse => exact hreg.symm
  case isTrue hne =>
    rw [decide_eq_true hne,Bool.true_and] at hcare
    have hones : Nat.testBit 0xffffffffffffffff i=true := by
      rw [show 0xffffffffffffffff=2^64-1 from rfl,Nat.testBit_two_pow_sub_one]
      exact decide_eq_true (by omega)
    rw [Nat.testBit_and,Nat.testBit_xor,hones,hcare,hreg]
    simp

def privateOf (wp : Option Watchpoint) : Private := wp.elim .clear rm7kwpSet
theorem privateOf_some (wp : Watchpoint) : privateOf (some wp)=rm7kwpSet wp := rfl

theorem privateOf_mask_testBit (o : Option Watchpoint) {n : ℕ} (hn : n<2) :
    (privateOf o).mask.testBit n=false := by
  have hlow : WATCHMASK_MASK.testBit n=false := by
    revert n
    decide
  cases o with
  | none => exact Nat.zero_testBit n
  | some wp => exact (Nat.testBit_and _ _ _).trans (by rw [hlow,Bool.and_false])

theorem rm7kwpInsert_watchmask (o1 o2 : Option Watchpoint) (r : WatchRegs)
    (hused : (privateOf o1).type≠0 ∨ (privateOf o2).type≠0) (i : ℕ) :
    (rm7kwpInsert (privateOf o1) (privateOf o2) r).watchmask.testBit i =
      ((privateOf o1).mask.testBit i || (privateOf o2).mask.testBit i ||
        decide ((privateOf o1).mask≠0 ∧ i=0) || decide ((privateOf o2).mask≠0 ∧ i=1)) := by
  have hbit : ∀ (c : Prop) [Decidable c] (n : ℕ),
      (if c then 2^n else 0).testBit i=decide (c ∧ i=n) := by
    intro c _ n
    by_cases hc : c
    · simp [hc,Nat.testBit_two_pow,eq_comm]
    · simp [hc]
  rw [rm7kwpInsert,if_neg (by tauto),Nat.testBit_or,Nat.testBit_or,Nat.testBit_or,
    ←hbit _ 0,←hbit _ 1]
  rfl

/-- Each register matches every word that its own watchpoint covers. -/
theorem rm7kwpInsert_matches (o1 o2 : Option Watchpoint) (r : WatchRegs)
    (h1 : ∀ wp∈o1, wp.Words) (h2 : ∀ wp∈o2, wp.Words)
    (hused : (privateOf o1).type≠0 ∨ (privateOf o2).type≠0) :
    let regs := rm7kwpInsert (privateOf o1) (privateOf o2) r
    (∀ wp∈o1, ∀ word, wp.Covers word → Matches regs.watchmask 0 regs.watchlo word) ∧
      ∀ wp∈o2, ∀ word, wp.Covers word → Matches regs.watchmask 1 regs.watchhi word := by
  have hmask := rm7kwpInsert_watchmask o1 o2 r hused
  have hshared : ∀ i, 2 ≤ i → (rm7kwpInsert (privateOf o1) (privateOf o2) r).watchmask.testBit i =
      ((privateOf o1).mask ||| (privateOf o2).mask).testBit i := by
    intro i hi
    have hne : i≠0 ∧ i≠1 := by omega
    rw [hmask i,Nat.testBit_or]
    simp [hne.1,hne.2]
  constructor <;> intro wp hwp word hcovers i hi hi' hcare
  · rw [hshared i hi,hmask 0,privateOf_mask_testBit o1 two_pos,privateOf_mask_testBit o2 two_pos]
      at hcare
    rw [rm7kwpInsert,if_neg (by tauto)]
    obtain rfl : o1=some wp := hwp
    rw [privateOf_some] at hcare ⊢
    refine masked_testBit (h1 wp rfl) hcovers (fun hbit => ?_) hi hi' (by simpa using hcare)
    rw [Nat.testBit_or]
    exact Bool.or_eq_true_iff.2 (.inl hbit)
  · rw [hshared i hi,hmask 1,privateOf_mask_testBit o1 one_lt_two,
      privateOf_mask_testBit o2 one_lt_two] at hcare
    rw [rm7kwpInsert,if_neg (by tauto)]
    obtain rfl : o2=some wp := hwp
    rw [privateOf_some] at hcare ⊢
    refine masked_testBit (h2 wp rfl) hcovers (fun hbit => ?_) hi hi' (by simpa using hcare)
    rw [Nat.testBit_or]
    exact Bool.or_eq_true_iff.2 (.inr hbit)

def rm7kWatchpoint (num type pa len mask : ℕ) : Watchpoint :=
  ⟨num,0x57,type,-1,0x80000000+pa,pa,len,mask⟩

theorem rm7kwpInsert_matches_two :
    let w1 := rm7kWatchpoint 0 MIPS_WATCHPOINT_W 0x1234 4 3
    let w2 := rm7kWatchpoint 1 MIPS_WATCHPOINT_R 0x2000 256 0xff
    let regs := rm7kwpInsert (rm7kwpSet w1) (rm7kwpSet w2) ⟨0,0,0⟩
    Matches regs.watchmask 0 regs.watchlo 0x1234 ∧ Matches regs.watchmask 1 regs.watchhi 0x20fc := by
  have h := rm7kwpInsert_matches (some (rm7kWatchpoint 0 MIPS_WATCHPOINT_W 0x1234 4 3))
    (some (rm7kWatchpoint 1 MIPS_WATCHPOINT_R 0x2000 256 0xff)) ⟨0,0,0⟩
    (by rintro _ ⟨⟩; exact ⟨by decide, by decide⟩) (by rintro _ ⟨⟩; exact ⟨by decide, by decide⟩)
    (.inl (by decide))
  exact ⟨h.1 _ rfl _ fun _ _ _ _ => rfl,h.2 _ rfl _ (by unfold Watchpoint.Covers; decide)⟩
end

inductive Family where
  | r4k
  | rm7k

namespace Family

def funcs : Family → WatchFuncs
  | .r4k => BptTable.r4k
  | .rm7k => BptTable.rm7k

def wpSet : Family → Watchpoint → Private
  | .r4k, wp => ⟨wp.pa &&& WATCHLO_PA ||| wp.flag MIPS_WATCHPOINT_R WATCHLO_R |||
      wp.flag MIPS_WATCHPOINT_W WATCHLO_W,0,wp.type⟩
  | .rm7k, wp => rm7kwpSet wp

def wpClear : Family → Private → Private
  | .r4k, p => {p with reg := 0}
  | .rm7k, p => if p.type≠0 then .clear else p

def wpInsert : Family → (ℕ → Private) → WatchRegs → WatchRegs
  | .r4k, p, r => if (p 0).reg≠0 then {r with watchlo := (p 0).reg} else r
  | .rm7k, p, r => rm7kwpInsert (p 0) (p 1) r

end Family

structure Watch where
  watchpoints : List Watchpoint
  priv : ℕ → Private

section
variable (f : Family) (callback : ℤ → ℕ → ℕ → WpRes) (type : ℕ) (asid : ℤ) (va pa len : ℕ)

def Watchpoint.verdict (wp : Watchpoint) : WpRes :=
  callback wp.asid (wp.va &&& (0xffffffff ^^^ wp.mask)) ((wp.mask + 1) % 2 ^ 32)

def Watchpoint.armPriv (wp : Watchpoint) (p : ℕ → Private) : WpRes × Watchpoint × (ℕ → Private) :=
  let wp := {wp with len := len, mask := mipsWatchpointCalcMask wp.va len}
  match f.funcs.wpSet wp with
  | none => (.notsup,{wp with len := 0},p)
  | some mask =>
    let wp := {wp with mask := mask}
    let p := Function.update p wp.num (f.wpSet wp)
    let res := wp.verdict callback
    if res = .ok then (res,wp,p) else (res,{wp with len := 0},p)

def watchpointSetPriv : List Watchpoint → WpRes → (ℕ → Private) → WpRes × Watch
  | [], res, p => (res,⟨[],p⟩)
  | wp::wps, res, p =>
    if wp.capabilities &&& type = type then
      if wp.len≠0 then
        let rest := watchpointSetPriv wps .inuse p
        (rest.1,⟨wp::rest.2.watchpoints,rest.2.priv⟩)
      else
        let wp := {wp with type := type%2^16, asid := asid, va := va}
        if wp.capabilities &&& MIPS_WATCHPOINT_VADDR ≠ 0 ∨ pa ≠ 0 then
          let armed := {wp with pa := pa}.armPriv f callback len p
          (armed.1,⟨armed.2.1::wps,armed.2.2⟩)
        else if va/2^30=2 then
          let armed := {wp with pa := k0ToPhys va}.armPriv f callback len p
          (armed.1,⟨armed.2.1::wps,armed.2.2⟩)
        else (.badaddr,⟨wp::wps,p⟩)
    else
      let rest := watchpointSetPriv wps res p
      (rest.1,⟨wp::rest.2.watchpoints,rest.2.priv⟩)

def Watch.set (s : Watch) : WpRes × Watch :=
  if s.watchpoints.length≤0 then (.none,s)
  else watchpointSetPriv f callback type asid va pa len s.watchpoints .notsup s.priv

def watchpointClearPriv (p : ℕ → Private) : List Watchpoint → Watch
  | [] => ⟨[],p⟩
  | wp::wps =>
    if wp.type=type ∧ wp.asid=asid ∧ wp.va=va ∧ wp.len=len then
      ⟨{wp with len := 0}::wps,Function.update p wp.num (f.wpClear (p wp.num))⟩
    else
      let rest := watchpointClearPriv p wps
      ⟨wp::rest.watchpoints,rest.priv⟩

def accepted (wps : List Watchpoint) : Option Watchpoint :=
  (wps.find? fun wp => wp.capabilities &&& type = type ∧ wp.len = 0).bind fun wp =>
  (if wp.capabilities &&& MIPS_WATCHPOINT_VADDR ≠ 0 ∨ pa ≠ 0 then some pa
    else if va/2^30=2 then some (k0ToPhys va) else none).bind fun pa =>
  let wp := { wp with
    type := type%2^16, asid := asid, va := va, pa := pa, len := len
    mask := mipsWatchpointCalcMask va len }
  (f.funcs.wpSet wp).map fun mask => {wp with mask := mask}

def armedPriv (p : ℕ → Private) : Option Watchpoint → ℕ → Private
  | none => p
  | some wp => Function.update p wp.num (f.wpSet wp)

theorem armPriv_spec (wp : Watchpoint) (p : ℕ → Private) :
    let o := (f.funcs.wpSet {wp with len := len, mask := mipsWatchpointCalcMask wp.va len}).map
      fun mask => {wp with len := len, mask := mask}
    (wp.armPriv f callback len p).2.2=armedPriv f p o ∧
      ∀ wp'∈o, (wp.armPriv f callback len p).1=wp'.verdict callback := by
  unfold Watchpoint.armPriv
  dsimp only
  generalize f.funcs.wpSet _=answer
  cases answer with
  | none => exact ⟨rfl,nofun⟩
  | some mask =>
    dsimp only
    split <;> exact ⟨rfl,by rintro _ ⟨⟩; rfl⟩

theorem watchpointSetPriv_spec (wps : List Watchpoint) (res : WpRes) (p : ℕ → Private) :
    (watchpointSetPriv f callback type asid va pa len wps res p).2.priv =
        armedPriv f p (accepted f type asid va pa len wps) ∧
      ∀ wp∈accepted f type asid va pa len wps,
        (watchpointSetPriv f callback type asid va pa len wps res p).1=wp.verdict callback := by
  induction wps generalizing res with
  | nil => exact ⟨rfl,nofun⟩
  | cons wp wps ih =>
    unfold watchpointSetPriv
    by_cases htype : wp.capabilities &&& type = type
    · by_cases hlen : wp.len=0
      · have hfind : (wp :: wps).find? (fun wp => wp.capabilities &&& type = type ∧ wp.len = 0) =
            some wp := List.find?_cons_of_pos (by simp [htype,hlen])
        rw [if_pos htype,if_neg (not_not.2 hlen),accepted,hfind]
        dsimp only [Option.bind_some]
        split_ifs
        · exact armPriv_spec f callback len _ p
        · exact armPriv_spec f callback len _ p
        · exact ⟨rfl,nofun⟩
      · rw [if_pos htype,if_pos hlen,accepted,List.find?_cons_of_neg (by simp [hlen])]
        exact ih .inuse
    · rw [if_neg htype,accepted,List.find?_cons_of_neg (by simp [htype])]
      exact ih res

theorem set_spec (s : Watch) : (s.set f callback type asid va pa len).2.priv =
        armedPriv f s.priv (accepted f type asid va pa len s.watchpoints) ∧
      ∀ wp∈accepted f type asid va pa len s.watchpoints,
        (s.set f callback type asid va pa len).1=wp.verdict callback := by
  unfold Watch.set
  split
  case isTrue h =>
    rw [List.eq_nil_of_length_eq_zero (Nat.le_zero.1 h)]
    exact ⟨rfl,nofun⟩
  case isFalse => exact watchpointSetPriv_spec f callback type asid va pa len _ _ _
end

inductive WatchCall where
  | set (callback : ℤ → ℕ → ℕ → WpRes) (type : ℕ) (asid : ℤ) (va pa len : ℕ)
  | clear (type : ℕ) (asid : ℤ) (va len : ℕ)

def Watch.step (f : Family) (s : Watch) : WatchCall → Watch
  | .set callback type asid va pa len => (s.set f callback type asid va pa len).2
  | .clear type asid va len => watchpointClearPriv f type asid va len s.priv s.watchpoints

def Watch.run (f : Family) (calls : List WatchCall) : Watch :=
  calls.foldl (Watch.step f) ⟨f.funcs.init, fun _ => .clear⟩

def StaysDisarmed (f : Family) (s : Watch) (callback : ℤ → ℕ → ℕ → WpRes) (type : ℕ) (asid : ℤ)
    (va pa len : ℕ) : Prop :=
  (s.set f callback type asid va pa len).1 ≠ .ok →
    ∀ r, f.wpInsert (s.set f callback type asid va pa len).2.priv r=f.wpInsert s.priv r

/-- A failing call changes what will be loaded exactly when the family has accepted, the callback
refuses, and the registers are not loaded already. -/
theorem staysDisarmed_iff (f : Family) (calls : List WatchCall) (callback : ℤ → ℕ → ℕ → WpRes)
    (type : ℕ) (asid : ℤ) (va pa len : ℕ) :
    StaysDisarmed f (Watch.run f calls) callback type asid va pa len ↔
      ∀ wp∈accepted f type asid va pa len (Watch.run f calls).watchpoints,
        wp.verdict callback ≠ .ok →
          ∀ r, f.wpInsert (armedPriv f (Watch.run f calls).priv (some wp)) r =
            f.wpInsert (Watch.run f calls).priv r := by
  generalize Watch.run f calls=s
  obtain ⟨hpriv,hres⟩ := set_spec f callback type asid va pa len s
  unfold StaysDisarmed
  rw [hpriv]
  cases hwp : accepted f type asid va pa len s.watchpoints with
  | none => exact ⟨fun _ => nofun, fun _ _ _ => rfl⟩
  | some wp =>
    rw [hres wp hwp]
    exact ⟨fun h wp' hwp' => by obtain rfl := Option.some.inj hwp'; exact h, fun h => h wp rfl⟩

theorem not_staysDisarmed_overlap :
    let callback : ℤ → ℕ → ℕ → WpRes := fun _ _ _ => .overlap
    let r := (Watch.run .rm7k []).set .rm7k callback MIPS_WATCHPOINT_W (-1) 0x80001000 0 4
    r.1 = .overlap ∧ Family.wpInsert .rm7k (Watch.run .rm7k []).priv ⟨0,0,0⟩=⟨0,0,0⟩ ∧
      Family.wpInsert .rm7k r.2.priv ⟨0,0,0⟩=⟨WATCH_ST+0x1000,0,0⟩ ∧
      ¬ StaysDisarmed .rm7k (Watch.run .rm7k []) callback MIPS_WATCHPOINT_W (-1) 0x80001000 0 4 := by
  refine ⟨by decide, by decide, by decide, fun h => ?_⟩
  exact absurd (h (by decide) ⟨0,0,0⟩) (by decide)

end Pmon.BptTable
