import Pmon.DebugRequest

/-!
# Registers through remote requests

A number without a slot is mapped to that of the zero register, and `putdbgreg` refuses number 0
only.
-/

namespace Pmon.DebugRequest
open List Function
variable {c : Config} {n : ℕ} {av : List (List Char)}
variable (env : BptTable.Env)

def Known (c : Config) (n : ℕ) : Prop :=
  n<32 ∨ c.floatingpt ∧ (n<64 ∨ n=100) ∨ 96≤n ∧ n≤99

instance (c : Config) (n : ℕ) : Decidable (Known c n) := inferInstanceAs (Decidable (_ ∨ _))

theorem le_R_F0 (c : Config) : 45≤c.R_F0 := by
  unfold Config.R_F0
  split <;> decide

theorem mapdbgreg_eq_zero_iff (regs : Regs c) (n : ℕ) :
    mapdbgreg regs n=R_ZERO ↔ n=0 ∨ ¬ Known c n := by
  have hfirst := le_R_F0 c
  unfold mapdbgreg Known R_ZERO R_EPC R_CAUSE R_HI R_LO Config.R_FCR
  by_cases hfp : c.floatingpt=true
  · simp only [hfp,true_and]
    constructor
    · intro h
      split_ifs at h <;> omega
    · intro h
      split_ifs <;> omega
  · simp only [hfp,Bool.false_eq_true,false_and,if_false,false_or]
    constructor
    · intro h
      split_ifs at h <;> omega
    · intro h
      split_ifs <;> omega

def Plain (n : ℕ) : Prop := 1≤n ∧ n≤31 ∨ 96≤n ∧ n≤99

theorem Plain.not_isHalf (h : Plain n) (size : ℕ) : ¬ isHalf c n size := by
  rintro ⟨-,-,hlow,hhigh,-⟩
  unfold Plain at h
  omega

theorem Plain.mapdbgreg_eq (h : Plain n) (regs regs' : Regs c) :
    mapdbgreg regs n=mapdbgreg regs' n := by
  have hfp : ¬ (32≤n ∧ n<64) := by
    unfold Plain at h
    omega
  unfold mapdbgreg
  split
  · rfl
  · rename_i hlow
    have hnot : ¬ (c.floatingpt=true ∧ n<64) := fun hboth => hfp ⟨by omega,hboth.2⟩
    rw [if_neg hnot,if_neg hnot]

theorem putdbgreg_zero (regs : Regs c) (n size : ℕ) (val : BitVec c.width) :
    (putdbgreg regs n size val).2 R_ZERO = if Known c n then regs R_ZERO else val := by
  have hslot := mapdbgreg_eq_zero_iff regs n
  unfold putdbgreg
  by_cases hhalf : isHalf c n size
  · -- a half belongs to a floating-point register
    have hknown : Known c n := .inr (.inl ⟨hhalf.1,.inl hhalf.2.2.2.1⟩)
    have hne : R_ZERO≠mapdbgreg regs n := by
      intro heq
      have hlow := hhalf.2.2.1
      rcases hslot.mp heq.symm with h0 | hnot
      · omega
      · exact hnot hknown
    rw [if_pos hhalf,if_pos hknown]
    exact update_of_ne hne ..
  · rw [if_neg hhalf]
    dsimp only
    by_cases hknown : Known c n
    · rw [if_pos hknown]
      split
      · rename_i hn
        refine update_of_ne (fun heq => ?_) ..
        rcases hslot.mp heq.symm with h0 | hnot
        · exact hn h0
        · exact hnot hknown
      · rfl
    · have hn : n≠0 := by
        rintro rfl
        exact hknown (.inl (by decide))
      rw [if_neg hknown,if_pos hn,hslot.mpr (.inr hknown),update_self]

theorem Plain.putdbgreg_eq (h : Plain n) (regs : Regs c) (size : ℕ) (val : BitVec c.width) :
    putdbgreg regs n size val =
      (regs (mapdbgreg regs n),update regs (mapdbgreg regs n) val) := by
  have hn : n≠0 := by
    unfold Plain at h
    omega
  unfold putdbgreg
  rw [if_neg (h.not_isHalf size),if_pos hn]

theorem Plain.getdbgreg_eq (h : Plain n) (regs : Regs c) (size : ℕ) :
    getdbgreg regs n size=regs (mapdbgreg regs n) := if_neg (h.not_isHalf size)

theorem Plain.getdbgreg_putdbgreg (h : Plain n) (regs : Regs c) (size : ℕ) (val : BitVec c.width) :
    getdbgreg (putdbgreg regs n size val).2 n size=val := by
  have hslot := h.mapdbgreg_eq (update regs (mapdbgreg regs n) val) regs
  rw [h.getdbgreg_eq,h.putdbgreg_eq]
  dsimp only
  rw [hslot,update_self]

def regLetter (write wide : Bool) : Char :=
  match write, wide with
  | true, true => 'T'
  | true, false => 'R'
  | false, true => 't'
  | false, false => 'r'

def regSize (wide : Bool) : ℕ := if wide then 8 else 4
def shown (wide : Bool) (v : BitVec c.width) : ℕ := if wide then v.toNat else (v.setWidth 32).toNat
def Request.written (r : Request c) (wide : Bool) : BitVec c.width := if wide then r.dat else r.longDat

theorem Request.shown_written (r : Request c) (wide : Bool) :
    shown wide (r.written wide)=shown wide r.dat := by
  cases wide with
  | true => rfl
  | false =>
    have hext : r.longDat.setWidth 32=r.dat.setWidth 32 := by
      unfold Request.longDat
      have hle := c.le_width
      ext i hi
      have hi' : i<c.width := by omega
      simp [BitVec.getElem_signExtend,hi,hi']
    exact congrArg BitVec.toNat hext

theorem doReq_read (junk : Junk c) {wide : Bool} (hwide : wide=true → c.mips3=true)
    (h : Asks (regLetter false wide) av) (s : State c) :
    doReq env junk av s=(request junk av).done 0
      (shown wide (getdbgreg s.regs (request junk av).adr.toNat (regSize wide))) s := by
  rw [h.doReq_eq]
  cases wide with
  | true =>
    have hop : Op.ofChar c (regLetter false true) = .readReg64 := if_pos (hwide rfl)
    rw [hop]
    rfl
  | false => rfl

theorem doReq_write (junk : Junk c) {wide : Bool} (hwide : wide=true → c.mips3=true)
    (h : Asks (regLetter true wide) av) (s : State c) :
    doReq env junk av s =
      let p := putdbgreg s.regs (request junk av).adr.toNat (regSize wide)
        ((request junk av).written wide)
      (request junk av).done 0 (shown wide p.1) {s with regs := p.2} := by
  rw [h.doReq_eq]
  cases wide with
  | true =>
    have hop : Op.ofChar c (regLetter true true) = .writeReg64 := if_pos (hwide rfl)
    rw [hop]
    rfl
  | false => rfl

theorem doReq_wide (junk : Junk c) {write : Bool} (hnarrow : c.mips3=false)
    (h : Asks (regLetter write true) av) (s : State c) :
    doReq env junk av s=(request junk av).bad s := by
  rw [h.doReq_eq]
  have hop : Op.ofChar c (regLetter write true) = .unknown := by
    cases write <;> exact if_neg (by rw [hnarrow]; decide)
  rw [hop]
  rfl

structure RegStep (c : Config) where
  junk : Junk c
  av : List (List Char)
  write : Bool
  wide : Bool
  isReg : Asks (regLetter write wide) av

def serveRegs (env : BptTable.Env) (s : State c) (rs : List (RegStep c)) : State c :=
  rs.foldl (fun s r => (doReq env r.junk r.av s).state) s

def RegStep.Harmless (r : RegStep c) : Prop :=
  r.write=true → (r.wide=true → c.mips3=true) →
    (request r.junk r.av).written r.wide≠0 → Known c (request r.junk r.av).adr.toNat

theorem RegStep.zero_iff (r : RegStep c) {s : State c} (hs : s.regs R_ZERO=0) :
    (doReq env r.junk r.av s).state.regs R_ZERO=0 ↔ r.Harmless := by
  obtain ⟨junk,av,write,wide,hreg⟩ := r
  unfold RegStep.Harmless
  by_cases hwide : wide=true → c.mips3=true
  · cases write with
    | false =>
      rw [doReq_read env junk hwide hreg]
      exact ⟨fun _ h => absurd h Bool.false_ne_true,fun _ => hs⟩
    | true =>
      rw [doReq_write env junk hwide hreg]
      change (putdbgreg s.regs _ _ _).2 R_ZERO=0 ↔ _
      rw [putdbgreg_zero,hs]
      constructor
      · intro h _ _ hne
        by_contra hnot
        rw [if_neg hnot] at h
        exact hne h
      · intro h
        split
        · rfl
        · rename_i hnot
          by_contra hne
          exact hnot (h rfl hwide hne)
  · obtain ⟨rfl,hnarrow⟩ := Classical.not_imp.mp hwide
    rw [doReq_wide env junk (by simpa using hnarrow) hreg]
    exact ⟨fun _ _ h => absurd h hwide,fun _ => hs⟩

theorem serveRegs_zero_iff (rs : List (RegStep c)) {s : State c} (hs : s.regs R_ZERO=0) :
    (∀ n, (serveRegs env s (rs.take n)).regs R_ZERO=0) ↔ ∀ r∈rs, r.Harmless := by
  induction rs generalizing s with
  | nil => simpa [serveRegs] using hs
  | cons r rs ih =>
    rw [forall_mem_cons]
    constructor
    · intro h
      have hfirst := h 1
      exact ⟨(r.zero_iff env hs).mp hfirst,(ih hfirst).mp fun n => h (n+1)⟩
    · rintro ⟨hr,hrest⟩ n
      have hfirst := (r.zero_iff env hs).mpr hr
      cases n with
      | zero => exact hs
      | succ n => exact (ih hfirst).mpr hrest n

/-- A plain number reads back as written in the same width, and no other slot changes. -/
def ReadsBack (env : BptTable.Env) (c : Config) : Prop :=
  ∀ (w r : RegStep c) (s : State c), w.write=true → r.write=false → r.wide=w.wide →
    (w.wide=true → c.mips3=true) → Plain (request w.junk w.av).adr.toNat →
    (request r.junk r.av).adr=(request w.junk w.av).adr →
    let t := (doReq env w.junk w.av s).state
    (doReq env r.junk r.av t).replies =
        [(request r.junk r.av).answer 0 (shown w.wide (request w.junk w.av).dat)] ∧
      (doReq env r.junk r.av t).state=t ∧
      ∀ i, i≠mapdbgreg s.regs (request w.junk w.av).adr.toNat → t.regs i=s.regs i

theorem readsBack (c : Config) : ReadsBack env c := by
  rintro ⟨junk,av,write,wide,hw⟩ ⟨junk',av',write',wide',hr⟩ s hwrite hread hsame hwide hplain
    hadr
  dsimp only at *
  subst hwrite hread hsame
  have hserve := doReq_write env junk hwide hw s
  rw [doReq_read env junk' hwide hr,hserve,hadr]
  dsimp only [Request.done]
  refine ⟨?_,rfl,fun i hi => ?_⟩
  · rw [hplain.getdbgreg_putdbgreg,Request.shown_written]
  · rw [hplain.putdbgreg_eq]
    exact update_of_ne hi ..

/-- The zero register stays zero and plain numbers read back exactly when no request writes a
nonzero value to a number without a slot. -/
theorem serveRegs_iff (env : BptTable.Env) (rs : List (RegStep c)) (s : State c)
    (hs : s.regs R_ZERO=0) :
    ((∀ n, (serveRegs env s (rs.take n)).regs R_ZERO=0) ∧ ReadsBack env c) ↔
      ∀ r∈rs, r.Harmless := by
  rw [serveRegs_zero_iff env rs hs]
  exact ⟨fun h => h.1, fun h => ⟨h,readsBack env c⟩⟩

def writeStep (number value : List Char) : RegStep wideConfig :=
  ⟨zeroJunk,[['1'],['R'],number,value],true,false,⟨le_rfl,rfl⟩⟩

theorem serveRegs_iff_plain : (∀ n, (serveRegs BptTable.plainEnv zeroState
      ([writeStep ['8'] ['5']].take n)).regs R_ZERO=0) ∧ ReadsBack BptTable.plainEnv wideConfig := by
  refine (serveRegs_iff BptTable.plainEnv [writeStep ['8'] ['5']] zeroState rfl).mpr ?_
  intro r hr
  obtain rfl := mem_singleton.mp hr
  intro _ _ _
  decide +kernel

theorem serveRegs_feir : (zeroState : State wideConfig).regs R_ZERO=0 ∧
      ¬ ∀ n, (serveRegs BptTable.plainEnv zeroState
        ([writeStep ['1', '0', '1'] ['5']].take n)).regs R_ZERO=0 := by
  refine ⟨rfl, fun h => ?_⟩
  exact absurd (h 1) (by decide +kernel)

theorem length_regsLoop (regs : Regs c) (wild : BitVec c.width) (n i adr : ℕ) (rp : Option ℕ) :
    (regsLoop regs wild n i adr rp).length=n := by
  induction n generalizing i adr rp with
  | zero => rfl
  | succ n ih => exact congrArg (· + 1) (ih ..)

theorem regsLoop_ones (regs : Regs c) (wild : BitVec c.width) (n i : ℕ) (rp : Option ℕ) :
    regsLoop regs wild n i (2^n-1) rp=(range' i n).map regs := by
  induction n generalizing i rp with
  | zero => rfl
  | succ n ih =>
    have hpos := Nat.two_pow_pos n
    have hodd : (2^(n+1)-1)%2=1 := by omega
    have hhalf : (2^(n+1)-1)/2=2^n-1 := by omega
    rw [regsLoop,if_pos hodd,hhalf,ih,range'_succ,map_cons]

def regsLetter (wide : Bool) : Char := if wide then 'u' else 'g'
def selected (mask : BitVec 32) : List ℕ := (List.range 32).filter (mask.getLsbD ·)

theorem length_selected_eq_iff (mask : BitVec 32) :
    (selected mask).length=32 ↔ mask=BitVec.allOnes 32 := by
  have hrange : (selected mask).length=32 ↔ (selected mask).length=(List.range 32).length := by
    rw [length_range]
  rw [hrange,selected,length_filter_eq_length_iff]
  constructor
  · intro h
    ext i hi
    rw [BitVec.getElem_allOnes,←BitVec.getLsbD_eq_getElem hi]
    exact h i (List.mem_range.mpr hi)
  · rintro rfl i hi
    rw [BitVec.getLsbD_allOnes]
    exact decide_eq_true (List.mem_range.mp hi)

theorem selected_allOnes : selected (BitVec.allOnes 32)=List.range 32 := by
  refine filter_eq_self.mpr fun i hi => ?_
  rw [BitVec.getLsbD_allOnes]
  exact decide_eq_true (List.mem_range.mp hi)

theorem doReq_regs (junk : Junk c) {wide : Bool} (hwide : wide=true → c.mips3=true)
    (h : Asks (regsLetter wide) av) (s : State c) : (doReq env junk av s).replies =
      (regsValues s.regs junk.wild (request junk av).adr.toNat).map fun v =>
        (request junk av).answer 0 (shown wide v) := by
  rw [h.doReq_eq]
  cases wide with
  | true =>
    have hop : Op.ofChar c (regsLetter true) = .readRegs64 := if_pos (hwide rfl)
    rw [hop]
    rfl
  | false => rfl

/-- A request for several registers replies once for each bit of its mask exactly when the mask is
full. -/
theorem doReq_regs_selected_iff (env : BptTable.Env) (junk : Junk c) (av : List (List Char))
    (wide : Bool) (hwide : wide=true → c.mips3=true) (h : Asks (regsLetter wide) av) (s : State c) :
    (doReq env junk av s).replies=(selected (request junk av).adr).map (fun i =>
          (request junk av).answer 0 (shown wide (s.regs i))) ↔
      (request junk av).adr=BitVec.allOnes 32 := by
  rw [doReq_regs env junk hwide h]
  constructor
  · intro heq
    have hlen := congrArg List.length heq
    rw [length_map,length_map,regsValues,length_regsLoop] at hlen
    exact (length_selected_eq_iff _).mp hlen.symm
  · intro hfull
    have hmask : (BitVec.allOnes 32).toNat=2^32-1 := rfl
    rw [hfull,selected_allOnes,regsValues,hmask,regsLoop_ones,map_map,
      range_eq_range']
    rfl

theorem doReq_regs_selected_full : (doReq BptTable.plainEnv (zeroJunk : Junk wideConfig)
      [['1'],['g'],['0', 'x']++List.replicate 8 'f',['0']] zeroState).replies =
      (List.range 32).map fun _ => reply ['1'] ['g'] 0 0 := by
  have hiff := doReq_regs_selected_iff BptTable.plainEnv (zeroJunk : Junk wideConfig)
    [['1'],['g'],['0', 'x']++List.replicate 8 'f',['0']] false (fun h => nomatch h)
    ⟨le_rfl,rfl⟩ zeroState
  have hmask : (request (zeroJunk : Junk wideConfig)
      [['1'],['g'],['0', 'x']++List.replicate 8 'f',['0']]).adr=BitVec.allOnes 32 := by
    decide +kernel
  rw [hiff.mpr hmask,hmask,selected_allOnes]
  rfl

theorem doReq_regs_one : (doReq BptTable.plainEnv (zeroJunk : Junk wideConfig)
      [['1'],['g'],['1'],['0']] zeroState).replies ≠
      (selected (request (zeroJunk : Junk wideConfig) [['1'],['g'],['1'],['0']]).adr).map
        fun _ => reply ['1'] ['g'] 0 0 := by
  intro heq
  have hlen := congrArg List.length heq
  revert hlen
  decide +kernel

end Pmon.DebugRequest
