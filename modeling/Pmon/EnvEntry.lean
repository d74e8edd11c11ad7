import Mathlib.Data.List.TakeWhile
import Pmon.PackedRecords

/-!
# Environment entries

Both stores keep an entry `name` or `name=value` as the body of a packed record; `env_find` selects
it by its name.
-/

namespace Pmon.EnvEntry
open ByteStore List
variable {body name : List UInt8} {e : ℕ}

structure CString where
  bytes : List UInt8
  noNul : (0 : UInt8)∉bytes
  deriving DecidableEq

@[ext] theorem CString.ext' {s t : CString} (h : s.bytes=t.bytes) : s=t := by
  cases s; cases t; simp_all

def CString.empty : CString := ⟨[], by simp⟩

/-- A C string argument; a null pointer is `none`. -/
abbrev CPtr := Option CString

def CPtr.bytes : CPtr → List UInt8
  | none => []
  | some s => s.bytes

@[simp] theorem CPtr.bytes_some (s : CString) : CPtr.bytes (some s)=s.bytes := rfl

def cstring (buf : List UInt8) : CString :=
  ⟨buf.takeWhile (· != 0), fun h => by simpa using List.mem_takeWhile_imp h⟩

@[simp] theorem cstring_of_noNul {buf : List UInt8} (h : (0 : UInt8)∉buf) :
    cstring buf=⟨buf,h⟩ := by
  ext1
  exact takeWhile_eq_self_iff.mpr fun b hb => by
    simpa using fun h0 : b=0 => h (h0 ▸ hb)

@[simp] theorem cstring_bytes (s : CString) : cstring s.bytes=s := cstring_of_noNul s.noNul
def eqSign : UInt8 := 0x3d

def entryBody (name val : List UInt8) : List UInt8 :=
  if val=[] then name else name++eqSign::val

def keyOf (body : List UInt8) : List UInt8 := body.takeWhile (· != eqSign)
def valOf (body : List UInt8) : List UInt8 := (body.dropWhile (· != eqSign)).tail

@[simp] theorem entryBody_length (name val : List UInt8) : (entryBody name val).length =
      if val=[] then name.length else name.length+1+val.length := by
  unfold entryBody
  split
  · rfl
  · simp; omega

def entryTotal (name val : List UInt8) : ℕ :=
  1+name.length + if val≠[] then 1+val.length else 0

theorem entryTotal_eq (name val : List UInt8) :
    entryTotal name val=(entryBody name val).length+1 := by
  by_cases hv : val=[]
  · simp [entryTotal,hv]
    omega
  · simp [entryTotal,hv]
    omega

theorem forall_bne_eqSign (h : eqSign∉name) : ∀ c∈name, (c != eqSign)=true := by
  intro c hc
  simpa using fun he : c=eqSign => h (he ▸ hc)

theorem keyOf_entryBody (h : eqSign∉name) (val : List UInt8) :
    keyOf (entryBody name val)=name := by
  unfold keyOf entryBody
  split
  · exact takeWhile_eq_self_iff.mpr (forall_bne_eqSign h)
  · rw [takeWhile_append_of_pos (forall_bne_eqSign h)]
    simp

theorem valOf_entryBody (h : eqSign∉name) (val : List UInt8) :
    valOf (entryBody name val)=val := by
  unfold valOf entryBody
  split
  · next hv => rw [dropWhile_eq_nil_iff.mpr (forall_bne_eqSign h),hv]; rfl
  · rw [dropWhile_append_of_pos (forall_bne_eqSign h)]
    simp

theorem eq_keyOf_or (body : List UInt8) :
    body=keyOf body ∧ valOf body=[] ∨ body=keyOf body++eqSign::valOf body := by
  have hs := takeWhile_append_dropWhile (p := (· != eqSign)) (l := body)
  cases hd : body.dropWhile (· != eqSign) with
  | nil =>
    left
    rw [hd,append_nil] at hs
    exact ⟨hs.symm,by simp [valOf,hd]⟩
  | cons c rest =>
    right
    have hc : c=eqSign := by
      have := head_dropWhile_not (· != eqSign) (l := body) (by simp [hd])
      simpa [hd] using this
    rw [hd,hc] at hs
    simp only [keyOf,valOf,hd,hc,tail_cons]
    exact hs.symm

theorem keyOf_entryBody_eq (name val : List UInt8) : keyOf (entryBody name val)=keyOf name := by
  by_cases h : eqSign∈name
  · unfold entryBody
    split
    · rfl
    · obtain ⟨pre,post,rfl,hpre⟩ := eq_append_cons_of_mem h
      simp [keyOf,takeWhile_append_of_pos (forall_bne_eqSign hpre)]
  · rw [keyOf_entryBody h,keyOf,takeWhile_eq_self_iff.mpr (forall_bne_eqSign h)]

def PrintableName (name : List UInt8) : Prop := ∀ c∈keyOf name, 0x20≤c ∧ c<0x7f

instance (name : List UInt8) : Decidable (PrintableName name) :=
  inferInstanceAs (Decidable (∀ c∈keyOf name, 0x20≤c ∧ c<0x7f))

theorem printableName_cons (c : UInt8) (name : List UInt8) :
    PrintableName (c::name) ↔ c=eqSign ∨ (0x20≤c ∧ c<0x7f) ∧ PrintableName name := by
  by_cases hc : c=eqSign
  · simp [PrintableName,keyOf,hc]
  · simp [PrintableName,keyOf,hc]

def Matches (body name : List UInt8) : Prop :=
  name <+: body ∧ (body.length=name.length ∨ body[name.length]?=some eqSign)

instance (body name : List UInt8) : Decidable (Matches body name) :=
  inferInstanceAs (Decidable (_ ∧ _))

theorem matches_iff (body name : List UInt8) :
    Matches body name ↔ body=name ∨ ∃ val, body=name++eqSign::val := by
  constructor
  · rintro ⟨⟨rest,rfl⟩,h⟩
    rcases h with h | h
    · left
      have : rest=[] := eq_nil_of_length_eq_zero (by simpa using h)
      simp [this]
    · right
      cases rest with
      | nil => simp at h
      | cons c rest =>
        have hc : c=eqSign := by simpa using h
        exact ⟨rest,by rw [hc]⟩
  · rintro (rfl | ⟨val,rfl⟩)
    · exact ⟨prefix_rfl,Or.inl rfl⟩
    · exact ⟨prefix_append _ _,Or.inr (by simp)⟩

theorem matches_iff_keyOf (h : eqSign∉name) (body : List UInt8) :
    Matches body name ↔ keyOf body=name := by
  rw [matches_iff]
  constructor
  · rintro (rfl | ⟨val,rfl⟩)
    · exact takeWhile_eq_self_iff.mpr (forall_bne_eqSign h)
    · rw [keyOf,takeWhile_append_of_pos (forall_bne_eqSign h)]
      simp
  · intro hk
    rcases eq_keyOf_or body with ⟨hb,-⟩ | hb
    · exact Or.inl (hb.trans hk)
    · exact Or.inr ⟨valOf body,by rw [←hk]; exact hb⟩

theorem drop_of_keyOf (h : keyOf body=name) : body.drop (name.length+1)=valOf body := by
  rcases eq_keyOf_or body with ⟨hb,hv⟩ | hb
  · rw [hv,drop_eq_nil_iff,←h,←hb]
    omega
  · rw [h] at hb
    conv_lhs => rw [hb]
    simp

variable {m : ℕ → UInt8}

theorem head?_of_holds (h : Holds m e body) (hne : body≠[]) : body.head?=some (m e) := by
  cases body with
  | nil => exact absurd rfl hne
  | cons c body => rw [h.1]; rfl

theorem getElem?_of_holds {i : ℕ} (h : Holds m e body) (hi : i<body.length) :
    body[i]?=some (m (e+i)) := by
  rw [getElem?_eq_getElem hi,h.getElem hi]

theorem readCells_value {n : ℕ} (h : Holds m (e+1) body) (hn : n+2<body.length+1) :
    readCells m (e+(n+2)) (body.length+1-(n+2))=body.drop (n+1) := by
  have hdrop := h.drop (n := n+1) (by omega)
  rw [show e+1+(n+1)=e+(n+2) by omega] at hdrop
  exact hdrop.readCells_eq (by rw [length_drop]; omega)

def nameCheck (m : ℕ → UInt8) : ℕ → ℕ → Bool
  | 0, _ => true
  | n+1, i =>
    let c := m i
    if c=eqSign then true
    else if c<0x20 ∨ 0x7f≤c then false
    else nameCheck m n (i+1)

theorem nameCheck_iff (m : ℕ → UInt8) (h : Holds m e body) :
    nameCheck m body.length e=true ↔ PrintableName body := by
  induction body generalizing e with
  | nil => simp [nameCheck,PrintableName,keyOf]
  | cons c body ih =>
    rw [length_cons,nameCheck,h.1,printableName_cons]
    by_cases hc : c=eqSign
    · simp [hc]
    · have hrange : ¬ (c<0x20 ∨ 0x7f≤c) ↔ (0x20≤c ∧ c<0x7f) := by
        rw [not_or,UInt8.not_lt,UInt8.not_le]
      rw [if_neg hc,←ih h.2,←hrange]
      split
      · next hbad => simp [hbad,hc]
      · next hgood => simp [hgood,hc]

def matchLen (m : ℕ → UInt8) : ℕ → List UInt8 → ℕ
  | _, [] => 0
  | envp, c::name => if m envp=c then 1+matchLen m (envp+1) name else 0

theorem matchLen_eq_iff (m : ℕ → UInt8) (h : Holds m e body) (hl : name.length≤body.length) :
    matchLen m e name=name.length ↔ name <+: body := by
  induction name generalizing e body with
  | nil => simp [matchLen]
  | cons c name ih =>
    cases body with
    | nil => simp at hl
    | cons d body =>
      rw [matchLen,h.1,cons_prefix_cons,length_cons]
      by_cases hc : d=c
      · rw [if_pos hc,←ih h.2 (by simpa using hl)]
        simp only [hc,true_and]
        omega
      · rw [if_neg hc]
        simp only [Ne.symm hc,false_and,iff_false]
        omega

theorem matchLen_matches (m : ℕ → UInt8) (h : Holds m e body) :
    (name.length≤body.length ∧ matchLen m e name=name.length ∧
      (name.length=body.length ∨ m (e+name.length)=eqSign)) ↔ Matches body name := by
  constructor
  · rintro ⟨hl,hm,hend⟩
    refine ⟨(matchLen_eq_iff m h hl).mp hm,?_⟩
    rcases Nat.eq_or_lt_of_le hl with he | hlt
    · exact Or.inl he.symm
    · right
      rw [getElem?_of_holds h hlt,Option.some.injEq]
      exact hend.resolve_left (by omega)
  · rintro ⟨hp,hend⟩
    have hl := hp.length_le
    refine ⟨hl,(matchLen_eq_iff m h hl).mpr hp,?_⟩
    rcases hend with he | he
    · exact Or.inl he.symm
    · right
      have hlt : name.length<body.length := by
        by_contra hc
        rw [getElem?_eq_none (by omega)] at he
        cases he
      rw [getElem?_of_holds h hlt] at he
      exact Option.some.inj he

def copyVar (m : ℕ → UInt8) : ℕ → ℕ → List UInt8 → Option (List UInt8) →
    List UInt8 × Option (List UInt8)
  | 0, _, buf, val => (buf,val)
  | n+1, envp, buf, val =>
    let c := m envp
    match val with
    | some v => copyVar m n (envp+1) buf (some (v++[c]))
    | none =>
      if c=eqSign then copyVar m n (envp+1) buf (some [])
      else copyVar m n (envp+1) (buf++[c]) none

theorem copyVar_some (m : ℕ → UInt8) (h : Holds m e body) (buf v : List UInt8) :
    copyVar m body.length e buf (some v)=(buf,some (v++body)) := by
  induction body generalizing e v with
  | nil => simp [copyVar]
  | cons c body ih => simp [copyVar,ih h.2,h.1]

theorem copyVar_none (m : ℕ → UInt8) (h : Holds m e body) (buf : List UInt8) :
    (copyVar m body.length e buf none).1=buf++keyOf body ∧
      (copyVar m body.length e buf none).2.getD []=valOf body := by
  induction body generalizing e buf with
  | nil => simp [copyVar,keyOf,valOf]
  | cons c body ih =>
    rw [length_cons,copyVar,h.1]
    by_cases hc : c=eqSign
    · simp [hc,copyVar_some m h.2,keyOf,valOf]
    · have hi := ih h.2 (buf++[c])
      simp only [if_neg hc]
      rw [hi.1,hi.2]
      simp [keyOf,valOf,hc]

end Pmon.EnvEntry
