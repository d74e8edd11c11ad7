import Pmon.Mk48t02

/-!
# Entries and boots of the clock-chip store

A store is filled when its entries exactly fill its size. A boot takes it as it is or makes it
empty.
-/

namespace Pmon.Mk48t02
open ByteStore PackedRecords EnvEntry KeyedList
open NvEnv (SameOthers)
variable {m m' : ℕ → UInt8} {bodies : List (List UInt8)}
variable (s : Nvram)

/-- The entries exactly fill `NVOFF_ENVSIZE` bytes from `ENV_BASE` on. -/
structure Filled (m : ℕ → UInt8) (bodies : List (List UInt8)) : Prop where
  size : getshort m nvoffEnvsize=(packed bodies).length
  entries : Holds m envBase (packed bodies)
  bounds : ∀ body∈bodies, body.length+1<256
  fits : (packed bodies).length≤envAvail

def shortWrites (offs val : ℕ) : List (ℕ × UInt8) :=
  [(offs, UInt8.ofNat (val/256)),(offs+1, UInt8.ofNat val)]

def sumWrites (sum : ℕ) : List (ℕ × UInt8) := shortWrites nvoffCsum sum++[(nvoffState,0)]

namespace Nvram

@[simp] theorem poke_mem (ws : List (ℕ × UInt8)) :
    (s.poke ws).mem=applyWrites ws s.mem := rfl

theorem poke_poke (ws vs : List (ℕ × UInt8)) :
    (s.poke ws).poke vs=s.poke (ws++vs) := by
  simp [poke,applyWrites_append]

theorem poke_nil : s.poke []=s := by simp [poke]

theorem setshort_eq (offs val : ℕ) :
    s.setshort offs val=s.poke (shortWrites offs val) := by
  rw [setshort,setbyte,setbyte,poke_poke]
  rfl

theorem updatesum_eq : s.updatesum=s.poke (sumWrites (calcsum s.mem)) := by
  rw [updatesum,setshort_eq,setstate,setbyte,poke_poke]
  rfl

end Nvram

theorem toNat_ofNat_div {val : ℕ} (h : val<0x10000) :
    (UInt8.ofNat (val/256)).toNat=val/256 := toNat_size (by omega)

theorem getshort_shortWrites (m : ℕ → UInt8) (offs : ℕ) {val : ℕ} (h : val<0x10000) :
    getshort (applyWrites (shortWrites offs val) m) offs=val := by
  have hlo : (UInt8.ofNat val).toNat=val%256 := by simp
  simp only [getshort,shortWrites,applyWrites_cons,applyWrites_nil]
  rw [Function.update_self,Function.update_of_ne (by simp),Function.update_self,
    toNat_ofNat_div h,hlo]
  omega

variable {name : List UInt8} {offs : ℕ}

theorem getshort_congr (h0 : m' offs=m offs) (h1 : m' (offs+1)=m (offs+1)) :
    getshort m' offs=getshort m offs := by
  rw [getshort,getshort,h0,h1]

theorem getshort_lt (m : ℕ → UInt8) (offs : ℕ) : getshort m offs<0x10000 := by
  have h0 := (m offs).toNat_lt
  have h1 := (m (offs+1)).toNat_lt
  rw [getshort]
  omega

theorem getshort_applyWrites {ws : List (ℕ × UInt8)} (h : ∀ w∈ws, w.1≠offs ∧ w.1≠offs+1)
    (m : ℕ → UInt8) :
    getshort (applyWrites ws m) offs=getshort m offs :=
  getshort_congr (applyWrites_of_forall_ne (fun w hw => (h w hw).1) m)
    (applyWrites_of_forall_ne (fun w hw => (h w hw).2) m)

def SameArea (m m' : ℕ → UInt8) : Prop := ∀ q, envBase≤q → m' q=m q

theorem SameArea.trans {m'' : ℕ → UInt8} (h : SameArea m m') (h' : SameArea m' m'') :
    SameArea m m'' := fun q hq => (h' q hq).trans (h q hq)

theorem sameArea_applyWrites {ws : List (ℕ × UInt8)} (h : ∀ w∈ws, w.1<envBase)
    (m : ℕ → UInt8) : SameArea m (applyWrites ws m) := fun _ hq =>
  applyWrites_of_forall_ne (fun w hw => ((h w hw).trans_le hq).ne) m

theorem sameArea_update {q : ℕ} (hq : q<envBase) (m : ℕ → UInt8) (b : UInt8) :
    SameArea m (Function.update m q b) := fun _ hr =>
  Function.update_of_ne (hq.trans_le hr).ne' _ _

theorem SameArea.applyWrites (h : SameArea m m') (ws : List (ℕ × UInt8)) :
    SameArea (applyWrites ws m) (applyWrites ws m') := fun _ hq => applyWrites_congr h ws hq

theorem sumLoop_congr (h : SameArea m m') {fuel i : ℕ} (hi : envBase ≤ i) (sum : ℕ) :
    sumLoop m' fuel i sum=sumLoop m fuel i sum := by
  induction fuel generalizing i sum with
  | zero => rfl
  | succ fuel ih =>
    rw [sumLoop,sumLoop,getshort_congr (h i hi) (h (i+1) (by omega))]
    split
    · exact ih (by omega) _
    · rfl

theorem calcsum_congr (h : SameArea m m') : calcsum m'=calcsum m :=
  sumLoop_congr h le_rfl _

theorem sumLoop_lt (m : ℕ → UInt8) (fuel i : ℕ) {sum : ℕ} (h : sum<0x10000) :
    sumLoop m fuel i sum<0x10000 := by
  induction fuel generalizing i sum with
  | zero => exact h
  | succ fuel ih =>
    rw [sumLoop]
    split
    · exact ih _ (Nat.mod_lt _ (by norm_num))
    · exact h

theorem calcsum_lt (m : ℕ → UInt8) : calcsum m<0x10000 := sumLoop_lt m _ _ (by decide)

theorem sumWrites_lt_envBase (sum : ℕ) : ∀ w∈sumWrites sum, w.1<envBase := by
  simp [sumWrites,shortWrites,nvoffCsum,nvoffState,envBase]

theorem shortWrites_lt_envBase (h : offs+1<envBase) (val : ℕ) :
    ∀ w∈shortWrites offs val, w.1<envBase := by
  simp only [shortWrites,List.mem_cons,List.not_mem_nil,or_false]
  rintro w (rfl | rfl)
  · exact (Nat.lt_succ_self _).trans h
  · exact h

theorem getshort_envsize_sumWrites (sum : ℕ) (m : ℕ → UInt8) :
    getshort (applyWrites (sumWrites sum) m) nvoffEnvsize=getshort m nvoffEnvsize := by
  refine getshort_applyWrites ?_ m
  simp [sumWrites,shortWrites,nvoffCsum,nvoffState,nvoffEnvsize]

def Accepted (m : ℕ → UInt8) : Prop :=
  getshort m nvoffMagic=nvMagic ∧
    (if NvState.ofByte (m nvoffState) = .recoverable then
      makesSense m (getshort m nvoffEnvsize)=true
    else calcsum m=getshort m nvoffCsum ∧ NvState.ofByte (m nvoffState) ≠ .uninitialised ∧
      NvState.ofByte (m nvoffState) ≠ .badchecksum)

theorem resetenv_envsize : getshort s.resetenv.mem nvoffEnvsize=0 := by
  rw [Nvram.resetenv,Nvram.updatesum_eq,Nvram.poke_mem,getshort_envsize_sumWrites,
    Nvram.setshort_eq,Nvram.poke_mem,getshort_shortWrites _ _ (by norm_num)]

theorem updatesum_area : SameArea s.mem s.updatesum.mem := by
  rw [Nvram.updatesum_eq]
  exact sameArea_applyWrites (sumWrites_lt_envBase _) _

theorem updatesum_envsize :
    getshort s.updatesum.mem nvoffEnvsize=getshort s.mem nvoffEnvsize := by
  rw [Nvram.updatesum_eq]
  exact getshort_envsize_sumWrites _ _

theorem setstate_area (state : NvState) : SameArea s.mem (s.setstate state).mem :=
  sameArea_applyWrites (by simp [nvoffState,envBase]) _

theorem setstate_envsize (state : NvState) :
    getshort (s.setstate state).mem nvoffEnvsize=getshort s.mem nvoffEnvsize :=
  getshort_applyWrites (by simp [nvoffState,nvoffEnvsize]) _

theorem boot_cases (m : ℕ → UInt8) :
    (Accepted m ∧ SameArea m (boot m) ∧
      getshort (boot m) nvoffEnvsize=getshort m nvoffEnvsize) ∨
    (¬ Accepted m ∧ getshort (boot m) nvoffEnvsize=0) := by
  have hself : SameArea m m := fun _ _ => rfl
  have hreset : getshort (Nvram.mk m []).resetenv.mem nvoffEnvsize=0 := resetenv_envsize _
  have hsum := updatesum_area ⟨m,[]⟩
  have hsumsize := updatesum_envsize ⟨m,[]⟩
  have hstate := setstate_area ⟨m,[]⟩ .ok
  have hstatesize := setstate_envsize ⟨m,[]⟩ .ok
  unfold boot Nvram.rtcinit Accepted
  by_cases hmagic : getshort m nvoffMagic=nvMagic
  · by_cases hcsum : calcsum m=getshort m nvoffCsum
    · -- the state byte decides
      cases hst : NvState.ofByte (m nvoffState) with
      | recoverable =>
        by_cases hsense : makesSense m (getshort m nvoffEnvsize)=true
        · simp [invalid,hmagic,hcsum,hst,Nvram.recover,hsense,hsum,hsumsize]
        · simp [invalid,hmagic,hcsum,hst,Nvram.recover,hsense,hreset]
      | ok => simp [invalid,hmagic,hcsum,hst,hself]
      | uninitialised => simp [invalid,hmagic,hcsum,hst,hreset]
      | badchecksum => simp [invalid,hmagic,hcsum,hst,hreset,Nvram.recover]
      | unrecoverable => simp [invalid,hmagic,hcsum,hst,hstate,hstatesize]
      | other c => simp [invalid,hmagic,hcsum,hst,hstate,hstatesize]
    · by_cases hst : NvState.ofByte (m nvoffState) = .recoverable
      · by_cases hsense : makesSense m (getshort m nvoffEnvsize)=true
        · simp [invalid,hmagic,hcsum,hst,Nvram.recover,hsense,hsum,hsumsize]
        · simp [invalid,hmagic,hcsum,hst,Nvram.recover,hsense,hreset]
      · simp [invalid,hmagic,hcsum,hst,Nvram.recover,hreset]
  · simp [invalid,hmagic,hreset]

end Pmon.Mk48t02
