import Pmon.Machine

/-!
# Single steps of the client

What an instruction does to the program counter, from its encoding, and that the breakpoints of
`setTrcbp` cover the next one.
-/

namespace Pmon.SingleStep
open Go Machine MaskTable List
section
variable (w : BitVec 32)

def op : BitVec 6 := w.extractLsb' 26 6
def rs : BitVec 5 := w.extractLsb' 21 5
def rt : BitVec 5 := w.extractLsb' 16 5
def rd : BitVec 5 := w.extractLsb' 11 5
def sa : BitVec 5 := w.extractLsb' 6 5
def funct : BitVec 6 := w.extractLsb' 0 6
def imm : BitVec 16 := w.extractLsb' 0 16
def index : BitVec 26 := w.extractLsb' 0 26
end

inductive Cond where
  | eq
  | ne
  | lez
  | gtz
  | ltz
  | gez
  | cop (sense : Bool)
  deriving DecidableEq

inductive Transfer where
  | next
  | branch (c : Cond)
  | jump
  | register
  deriving DecidableEq

def special (w : BitVec 32) : Option Transfer := match (funct w).toNat with
  | 8 => if rt w=0 ∧ rd w=0 ∧ sa w=0 then some .register else none
  | 9 => if rt w=0 ∧ sa w=0 then some .register else none
  | _ => some .next

def regimm (w : BitVec 32) : Option Transfer := match (rt w).toNat with
  | 0 | 2 | 16 | 18 => some (.branch .ltz)
  | 1 | 3 | 17 | 19 => some (.branch .gez)
  | 8 | 9 | 10 | 11 | 12 | 14 => some .next
  | _ => none

def copz (w : BitVec 32) : Option Transfer :=
  if rs w=8 then
    match (rt w).toNat with
    | 0 | 2 => some (.branch (.cop false))
    | 1 | 3 => some (.branch (.cop true))
    | _ => none
  else if w=0x42000018 then none
  else some .next

def transfer (w : BitVec 32) : Option Transfer := match (op w).toNat with
  | 0 => special w
  | 1 => regimm w
  | 2 | 3 => some .jump
  | 4 | 20 => some (.branch .eq)
  | 5 | 21 => some (.branch .ne)
  | 6 | 22 => if rt w=0 then some (.branch .lez) else none
  | 7 | 23 => if rt w=0 then some (.branch .gtz) else none
  | 16 | 17 | 18 | 19 => copz w
  | _ => some .next

def Cond.holds (c : Cond) (w : BitVec 32) (gpr : Regs) (cpcond : Bool) : Bool := match c with
  | .eq => gpr (rs w) == gpr (rt w)
  | .ne => gpr (rs w) != gpr (rt w)
  | .lez => (gpr (rs w)).toInt≤0
  | .gtz => 0<(gpr (rs w)).toInt
  | .ltz => (gpr (rs w)).toInt<0
  | .gez => 0≤(gpr (rs w)).toInt
  | .cop sense => cpcond == sense

def Transfer.target (t : Transfer) (w adr : BitVec 32) (gpr : Regs) : BitVec 32 := match t with
  | .next => adr+4
  | .branch _ => adr + 4 + ((imm w).signExtend 32 <<< 2)
  | .jump => ((adr + 4) &&& 0xf0000000) ||| ((index w).setWidth 32 <<< 2)
  | .register => (gpr (rs w)).setWidth 32

def Transfer.nextPc (t : Transfer) (w adr : BitVec 32) (gpr : Regs) (cpcond : Bool) : BitVec 32 :=
  match t with
  | .branch c => if c.holds w gpr cpcond then t.target w adr gpr else adr+8
  | _ => t.target w adr gpr

theorem and_field (w : BitVec 32) (lo len : ℕ) :
    w &&& fieldMask lo len = BitVec.ofNat 32 (w.extractLsb' lo len).toNat <<< lo := by
  rw [and_fieldMask,BitVec.ofNat_toNat]

theorem and_op (w : BitVec 32) : w &&& 0xfc000000 = BitVec.ofNat 32 (op w).toNat <<< 26 :=
  and_field w 26 6

theorem and_op_rt (w : BitVec 32) : w &&& 0xfc1f0000 =
    BitVec.ofNat 32 (op w).toNat <<< 26 ||| BitVec.ofNat 32 (rt w).toNat <<< 16 := by
  rw [op,rt,←and_field,←and_field,←BitVec.and_or_distrib_left]
  rfl

theorem and_op_rs_rt (w : BitVec 32) : w &&& 0xffff0000 =
    BitVec.ofNat 32 (op w).toNat <<< 26 ||| BitVec.ofNat 32 (rs w).toNat <<< 21 |||
      BitVec.ofNat 32 (rt w).toNat <<< 16 := by
  rw [op,rs,rt,←and_field,←and_field,←and_field,←BitVec.and_or_distrib_left,
    ←BitVec.and_or_distrib_left]
  rfl

theorem and_jalr (w : BitVec 32) : w &&& 0xfc1f07ff =
    BitVec.ofNat 32 (op w).toNat <<< 26 ||| BitVec.ofNat 32 (rt w).toNat <<< 16 |||
      BitVec.ofNat 32 (sa w).toNat <<< 6 ||| BitVec.ofNat 32 (funct w).toNat <<< 0 := by
  rw [op,rt,sa,funct,←and_field,←and_field,←and_field,←and_field,
    ←BitVec.and_or_distrib_left,←BitVec.and_or_distrib_left,←BitVec.and_or_distrib_left]
  rfl

theorem and_jr (w : BitVec 32) : w &&& 0xfc1fffff =
    BitVec.ofNat 32 (op w).toNat <<< 26 ||| BitVec.ofNat 32 (rt w).toNat <<< 16 |||
      BitVec.ofNat 32 (rd w).toNat <<< 11 ||| BitVec.ofNat 32 (sa w).toNat <<< 6 |||
      BitVec.ofNat 32 (funct w).toNat <<< 0 := by
  rw [op,rt,rd,sa,funct,←and_field,←and_field,←and_field,←and_field,←and_field,
    ←BitVec.and_or_distrib_left,←BitVec.and_or_distrib_left,←BitVec.and_or_distrib_left,
    ←BitVec.and_or_distrib_left]
  rfl

def classHas (types : List Optype) (m c : BitVec 32) : Bool :=
  classify Distbl.mask Distbl.code m c (fun r => types.contains r.type) distbl

variable {w : BitVec 32}

theorem type_mem_of_classHas {types : List Optype} {m c : BitVec 32} (h : classHas types m c=true)
    (hw : w &&& m = c) : (scanDistbl w).type ∈ types := by
  obtain ⟨r,hr,hok⟩ := lookup_of_classify Distbl.mask Distbl.code h hw
  rw [scanDistbl,hr]
  exact contains_iff_mem.mp hok

def branchTypes : List Optype := [.off,.rsRtOff,.rsOff,.cpOff]

theorem classHas_branch :
    (∀ k ∈ [4,5,20,21], classHas branchTypes 0xfc000000 (BitVec.ofNat 32 k <<< 26) = true) ∧
    (∀ k∈[6,7,22,23], classHas branchTypes 0xfc1f0000
      (BitVec.ofNat 32 k <<< 26 ||| BitVec.ofNat 32 0 <<< 16) = true) ∧
    (∀ j∈[0,1,2,3,16,17,18,19], classHas branchTypes 0xfc1f0000
      (BitVec.ofNat 32 1 <<< 26 ||| BitVec.ofNat 32 j <<< 16) = true) ∧
    (∀ k∈[16,17,18,19], ∀ j∈[0,1,2,3], classHas branchTypes 0xffff0000
      (BitVec.ofNat 32 k <<< 26 ||| BitVec.ofNat 32 8 <<< 21 ||| BitVec.ofNat 32 j <<< 16) = true) := by
  decide +kernel

theorem classHas_jump :
    ∀ k ∈ [2,3], classHas [.target] 0xfc000000 (BitVec.ofNat 32 k <<< 26) = true := by
  decide +kernel

theorem classHas_jr : classHas [.jr] 0xfc1fffff 8=true := by decide +kernel
theorem classHas_jalr : classHas [.jalr] 0xfc1f07ff 9=true := by decide +kernel

variable {t : Transfer}

theorem special_cases (h : special w=some t) :
    t = .next ∧ (funct w).toNat∉[8,9] ∨ t = .register ∧ rt w=0 ∧ sa w=0 ∧
      ((funct w).toNat=8 ∧ rd w=0 ∨ (funct w).toNat=9) := by
  unfold special at h
  split at h
  · rename_i hf
    split at h
    · rename_i hz
      cases h
      exact Or.inr ⟨rfl,hz.1,hz.2.2,Or.inl ⟨hf,hz.2.1⟩⟩
    · cases h
  · rename_i hf
    split at h
    · rename_i hz
      cases h
      exact Or.inr ⟨rfl,hz.1,hz.2,Or.inr hf⟩
    · cases h
  · rename_i h8 h9
    cases h
    exact Or.inl ⟨rfl,by simp; exact ⟨h8,h9⟩⟩

theorem regimm_cases (h : regimm w=some t) : t = .next ∧ (rt w).toNat∈[8,9,10,11,12,14] ∨
    t = .branch .ltz ∧ (rt w).toNat∈[0,2,16,18] ∨
    t = .branch .gez ∧ (rt w).toNat∈[1,3,17,19] := by
  unfold regimm at h
  split at h <;> cases h <;> simp [*]

theorem copz_cases (h : copz w=some t) : t = .next ∧ rs w≠8 ∨
    (∃ sense, t = .branch (.cop sense)) ∧ rs w=8 ∧ (rt w).toNat∈[0,1,2,3] := by
  unfold copz at h
  split at h
  · rename_i hrs
    split at h <;> cases h <;> simp [*]
  · rename_i hrs
    split at h
    · cases h
    · cases h
      exact Or.inl ⟨rfl,hrs⟩

inductive Encoding (w : BitVec 32) : Transfer → Prop where
  | next (hop : (op w).toNat∉[2,3,4,5,6,7,20,21,22,23])
      (hspecial : (op w).toNat=0 → (funct w).toNat∉[8,9])
      (hsign : (op w).toNat=1 → (rt w).toNat∉[0,1,2,3,16,17,18,19])
      (hcop : (op w).toNat∈[16,17,18,19] → rs w≠8) : Encoding w .next
  | equal (c : Cond) (hop : (op w).toNat∈[4,5,20,21]) (hc : (op w).toNat=4 → c = .eq) :
      Encoding w (.branch c)
  | zero (c : Cond) (hop : (op w).toNat∈[6,7,22,23]) (hrt : rt w=0) :
      Encoding w (.branch c)
  | sign (c : Cond) (hop : (op w).toNat=1) (hrt : (rt w).toNat∈[0,1,2,3,16,17,18,19])
      (hc : (rt w).toNat∈[1,17] → c = .gez) : Encoding w (.branch c)
  | cop (sense : Bool) (hop : (op w).toNat∈[16,17,18,19]) (hrs : rs w=8)
      (hrt : (rt w).toNat∈[0,1,2,3]) : Encoding w (.branch (.cop sense))
  | jump (hop : (op w).toNat∈[2,3]) : Encoding w .jump
  | register (hop : (op w).toNat=0) (hrt : rt w=0) (hsa : sa w=0)
      (hf : (funct w).toNat=8 ∧ rd w=0 ∨ (funct w).toNat=9) : Encoding w .register

theorem transfer_encoding (h : transfer w=some t) : Encoding w t := by
  unfold transfer at h
  split at h
  · rename_i hop
    rcases special_cases h with ⟨rfl,hf⟩ | ⟨rfl,hrt,hsa,hf⟩
    · exact .next (by simp [hop]) (fun _ => hf) (by simp [hop]) (by simp [hop])
    · exact .register hop hrt hsa hf
  · rename_i hop
    rcases regimm_cases h with ⟨rfl,hrt⟩ | ⟨rfl,hrt⟩ | ⟨rfl,hrt⟩
    · refine .next (by simp [hop]) (by simp [hop]) (fun _ => ?_) (by simp [hop])
      simp at hrt ⊢
      omega
    · refine .sign .ltz hop (by simp at hrt ⊢; omega) fun hc => ?_
      simp at hrt hc
      omega
    · exact .sign .gez hop (by simp at hrt ⊢; omega) fun _ => rfl
  iterate 2
    · rename_i hop
      cases h
      exact .jump (by simp [hop])
  iterate 2
    · rename_i hop
      cases h
      exact .equal .eq (by simp [hop]) fun _ => rfl
  iterate 2
    · rename_i hop
      cases h
      exact .equal .ne (by simp [hop]) fun h4 => by omega
  iterate 4
    · rename_i hop
      split at h
      · rename_i hrt
        cases h
        exact .zero _ (by simp [hop]) hrt
      · cases h
  iterate 4
    · rename_i hop
      rcases copz_cases h with ⟨rfl,hrs⟩ | ⟨⟨sense,rfl⟩,hrs,hrt⟩
      · exact .next (by simp [hop]) (by simp [hop]) (by simp [hop]) fun _ => hrs
      · exact .cop sense (by simp [hop]) hrs hrt
  · cases h
    constructor <;> simp_all

theorem branch_type {c : Cond} (h : Encoding w (.branch c)) :
    (scanDistbl w).type∈branchTypes := by
  obtain ⟨hequal,hzero,hsign,hcop⟩ := classHas_branch
  cases h with
  | equal _ hop _ => exact type_mem_of_classHas (hequal _ hop) (and_op w)
  | zero _ hop hrt =>
    have hclass := and_op_rt w
    rw [hrt] at hclass
    exact type_mem_of_classHas (hzero _ hop) hclass
  | sign _ hop hrt _ =>
    have hclass := and_op_rt w
    rw [hop] at hclass
    exact type_mem_of_classHas (hsign _ hrt) hclass
  | cop sense hop hrs hrt =>
    have hclass := and_op_rs_rt w
    rw [hrs] at hclass
    exact type_mem_of_classHas (hcop _ hop _ hrt) hclass

theorem jump_type (h : Encoding w .jump) : (scanDistbl w).type = .target := by
  cases h with
  | jump hop =>
    exact mem_singleton.mp (type_mem_of_classHas (classHas_jump _ hop) (and_op w))

theorem register_type (h : Encoding w .register) :
    (scanDistbl w).type = .jr ∨ (scanDistbl w).type = .jalr := by
  cases h with
  | register hop hrt hsa hf =>
    rcases hf with ⟨hf,hrd⟩ | hf
    · left
      have hclass := and_jr w
      rw [hop,hrt,hrd,hsa,hf] at hclass
      exact mem_singleton.mp (type_mem_of_classHas classHas_jr hclass)
    · right
      have hclass := and_jalr w
      rw [hop,hrt,hsa,hf] at hclass
      exact mem_singleton.mp (type_mem_of_classHas classHas_jalr hclass)

def covers (r : Distbl) (lo len : ℕ) : Bool := r.mask.extractLsb' lo len == BitVec.allOnes len

theorem field_of_covers {r : Distbl} {lo len : ℕ} (hc : covers r lo len=true)
    (hw : w &&& r.mask = r.code) : w.extractLsb' lo len = r.code.extractLsb' lo len :=
  extractLsb'_of_matches Distbl.mask Distbl.code (eq_of_beq hc) hw

def transferRow (r : Distbl) : Bool := covers r 26 6 &&
    ([2,3,4,5,6,7,20,21,22,23].contains (op r.code).toNat ||
    (op r.code == 1 && covers r 16 5 &&
      [0,1,2,3,16,17,18,19].contains (rt r.code).toNat) ||
    ([16,17,18,19].contains (op r.code).toNat && covers r 21 5 && rs r.code == 8) ||
    (op r.code == 0 && covers r 0 6 && [8,9].contains (funct r.code).toNat))

theorem transferRow_of_isBranch : ∀ r∈distbl, r.type.isBranch=true → transferRow r=true := by
  decide +kernel

theorem offRow : ∀ r∈distbl, r.type = .off →
    r.mask=0xffff0000 ∧ (r.code=0x10000000 ∨ r.code=0x04010000 ∨ r.code=0x04110000) := by
  decide +kernel

theorem next_type (h : Encoding w .next) : (scanDistbl w).type.isBranch=false := by
  obtain ⟨hmem,hmatch⟩ := scanDistbl_matches w
  by_contra hbranch
  have hrow := transferRow_of_isBranch _ hmem (by simpa using hbranch)
  generalize scanDistbl w=r at hmatch hrow
  cases h with
  | next hop hspecial hsign hcop =>
    simp only [transferRow,Bool.and_eq_true,Bool.or_eq_true,contains_iff_mem,beq_iff_eq] at hrow
    obtain ⟨hcop',hrow⟩ := hrow
    have hopw : op w=op r.code := field_of_covers hcop' hmatch
    rcases hrow with ((hrow | ⟨⟨hone,hrt⟩,hrow⟩) | ⟨⟨hz,hrs⟩,hrow⟩) | ⟨⟨hzero,hf⟩,hrow⟩
    · rw [←hopw] at hrow
      exact hop hrow
    · have hrtw : rt w=rt r.code := field_of_covers hrt hmatch
      rw [←hrtw] at hrow
      exact hsign (by rw [hopw,hone]; rfl) hrow
    · have hrsw := field_of_covers hrs hmatch
      rw [←hopw] at hz
      exact hcop hz (hrsw.trans hrow)
    · have hfw : funct w=funct r.code := field_of_covers hf hmatch
      rw [←hfw] at hrow
      exact hspecial (by rw [hopw,hzero]; rfl) hrow

theorem off_fields (hoff : (scanDistbl w).type = .off) :
    rs w=0 ∧ ((op w).toNat=4 ∧ rt w=0 ∨ (op w).toNat=1 ∧ (rt w).toNat∈[1,17]) := by
  obtain ⟨hmem,hmatch⟩ := scanDistbl_matches w
  obtain ⟨hmask,hcode⟩ := offRow _ hmem hoff
  generalize scanDistbl w=r at hmatch hmask hcode
  have hop : op w=op r.code := field_of_covers (by rw [covers,hmask]; rfl) hmatch
  have hrs : rs w=rs r.code := field_of_covers (by rw [covers,hmask]; rfl) hmatch
  have hrt : rt w=rt r.code := field_of_covers (by rw [covers,hmask]; rfl) hmatch
  rw [hop,hrs,hrt]
  rcases hcode with h | h | h <;> rw [h] <;> decide

theorem holds_of_off {c : Cond} (h : Encoding w (.branch c)) (hoff : (scanDistbl w).type = .off)
    {gpr : Regs} (hzero : gpr 0=0) (cpcond : Bool) : c.holds w gpr cpcond=true := by
  obtain ⟨hrs,hfields⟩ := off_fields hoff
  cases h with
  | equal c hop hc =>
    rcases hfields with ⟨h4,hrt⟩ | ⟨h1,-⟩
    · rw [hc h4,Cond.holds,hrs,hrt]
      exact beq_self_eq_true _
    · simp [h1] at hop
  | zero c hop _ => rcases hfields with ⟨h4,-⟩ | ⟨h1,-⟩ <;> simp_all
  | sign c hop _ hc =>
    rcases hfields with ⟨h4,-⟩ | ⟨-,hrt⟩
    · omega
    · rw [hc hrt,Cond.holds,hrs,hzero]
      rfl
  | cop sense hop _ _ => rcases hfields with ⟨h4,-⟩ | ⟨h1,-⟩ <;> simp_all

theorem displacement_eq (w : BitVec 32) :
    (if (w &&& 0xffff) &&& 0x8000 ≠ 0 then (w &&& 0xffff) ||| 0xffff0000 else w &&& 0xffff) =
      (imm w).signExtend 32 := by
  have hsign : (w &&& 0xffff) &&& 0x8000 = if w.getLsbD 15 then BitVec.twoPow 32 15 else 0 := by
    rw [BitVec.and_assoc]
    exact BitVec.and_twoPow w 15
  have hlow : w &&& 0xffff = (imm w).setWidth 32 := by
    have h := and_fieldMask w 0 16
    rw [BitVec.shiftLeft_zero] at h
    exact h
  have hhigh : ∀ i<32, (0xffff0000 : BitVec 32).getLsbD i=decide (16 ≤ i) := by decide
  have hmsb : (imm w).msb=w.getLsbD 15 := by simp [imm,BitVec.msb_eq_getLsbD_last]
  rw [hsign,hlow]
  apply BitVec.eq_of_getLsbD_eq
  intro i hi
  rw [BitVec.getLsbD_signExtend,hmsb]
  by_cases hb : w.getLsbD 15=true
  · have hne : BitVec.twoPow 32 15≠0 := by decide
    rw [if_pos hb,if_pos hne,BitVec.getLsbD_or,BitVec.getLsbD_setWidth,hhigh i hi,hb]
    by_cases h16 : i<16
    · simp [hi,h16,Nat.not_le.mpr h16]
    · simp [hi,h16,Nat.not_lt.mp h16]
  · rw [if_neg hb,if_neg (by decide),BitVec.getLsbD_setWidth]
    by_cases h16 : i<16
    · simp only [if_pos h16]
    · rw [if_neg h16,Bool.eq_false_iff.mpr hb,BitVec.getLsbD_of_ge (imm w) i (by omega)]

theorem index_eq (w : BitVec 32) : w &&& 0x3ffffff = (index w).setWidth 32 := by
  have h := and_fieldMask w 0 26
  rw [BitVec.shiftLeft_zero] at h
  exact h

theorem rs_eq (w : BitVec 32) : (w >>> 21).setWidth 5 = rs w := by
  apply BitVec.eq_of_getLsbD_eq
  intro i hi
  simp [rs,hi]

theorem branchTarget_eq (h : Encoding w t) (ht : t ≠ .next) (adr : BitVec 32) (gpr : Regs) :
    branchTarget w adr gpr=t.target w adr gpr := by
  cases t with
  | next => exact absurd rfl ht
  | branch c =>
    have htype := branch_type h
    simp only [branchTypes,mem_cons,not_mem_nil,or_false] at htype
    rw [branchTarget]
    rcases htype with h | h | h | h <;> simp only [h,displacement_eq,Transfer.target]
  | jump => simp only [branchTarget,jump_type h,index_eq,Transfer.target]
  | register =>
    rcases register_type h with h | h <;> simp only [branchTarget,h,rs_eq,Transfer.target]

theorem isBranch_of_encoding (h : Encoding w t) (ht : t ≠ .next) :
    (scanDistbl w).type.isBranch=true := by
  cases t with
  | next => exact absurd rfl ht
  | branch c =>
    have htype := branch_type h
    simp only [branchTypes,mem_cons,not_mem_nil,or_false] at htype
    rcases htype with h | h | h | h <;> rw [h] <;> rfl
  | jump => rw [jump_type h]; rfl
  | register => rcases register_type h with h | h <;> rw [h] <;> rfl

theorem register_of_jr (h : Encoding w t) (hjr : (scanDistbl w).type = .jr) :
    t = .register ∧ (funct w).toNat=8 := by
  cases t with
  | next =>
    have hnext := next_type h
    rw [hjr] at hnext
    cases hnext
  | branch c =>
    have htype := branch_type h
    rw [hjr] at htype
    simp [branchTypes] at htype
  | jump =>
    have htype := jump_type h
    rw [hjr] at htype
    cases htype
  | register =>
    refine ⟨rfl,?_⟩
    cases h with
    | register hop hrt hsa hf =>
      rcases hf with ⟨hf,-⟩ | hf
      · exact hf
      · have hclass := and_jalr w
        rw [hop,hrt,hsa,hf] at hclass
        have htype := mem_singleton.mp (type_mem_of_classHas classHas_jalr hclass)
        rw [hjr] at htype
        cases htype

theorem setTrcbp_transfer (isWriteable : ℕ → Bool) (s : State Regs) {adr : ℕ} (hadr : adr<2^32)
    (h : Encoding (BitVec.ofNat 32 (s.mem.word adr)) t) (ht : t ≠ .next)
    (hself : t.target (BitVec.ofNat 32 (s.mem.word adr)) (BitVec.ofNat 32 adr) s.regs ≠
      BitVec.ofNat 32 adr)
    (hjr : t = .register → (funct (BitVec.ofNat 32 (s.mem.word adr))).toNat=8 →
      isWriteable (t.target (BitVec.ofNat 32 (s.mem.word adr)) (BitVec.ofNat 32 adr)
        s.regs).toNat=true) :
    let target := (t.target (BitVec.ofNat 32 (s.mem.word adr)) (BitVec.ofNat 32 adr) s.regs).toNat
    let s' := setTrcbp (machineCpu isWriteable) s adr false
    s'.bptTrcb.addr=target ∧
      ((scanDistbl (BitVec.ofNat 32 (s.mem.word adr))).type.isConditional=true →
        target=(adr+8)%2^32 ∨ s'.bptTrc.addr=(adr+8)%2^32) := by
  generalize hw : BitVec.ofNat 32 (s.mem.word adr)=w at *
  have hbranch := isBranch_of_encoding h ht
  have htarget := branchTarget_eq h ht (BitVec.ofNat 32 adr) s.regs
  generalize t.target w (BitVec.ofNat 32 adr) s.regs=target at *
  have hne : target.toNat≠adr := by
    intro heq
    apply hself
    apply BitVec.eq_of_toNat_eq
    rw [heq,BitVec.toNat_ofNat,Nat.mod_eq_of_lt hadr]
  have hjump : ¬ ((scanDistbl w).type = .jr ∧ ¬ isWriteable target.toNat=true) := by
    rintro ⟨htype,hrom⟩
    obtain ⟨hreg,hf⟩ := register_of_jr h htype
    exact hrom (hjr hreg hf)
  simp only [setTrcbp,machineCpu,hw,hbranch,htarget,if_true,if_neg hne,Bool.false_eq_true,
    and_false,if_false,beq_iff_eq,if_neg hjump]
  refine ⟨trivial,fun hcond => ?_⟩
  by_cases height : target.toNat=(adr+8)%2^32
  · exact Or.inl height
  · right
    rw [if_pos ⟨hcond,height⟩]

/-- One of the two trace breakpoints is at the next instruction, unless it is a transfer to itself
or a jump to memory that cannot be written. -/
theorem setTrcbp_covers_next (isWriteable : ℕ → Bool) (s : State Regs) (adr : ℕ)
    (hadr : adr<2^32) (hzero : s.regs 0=0) (t : Transfer)
    (ht : transfer (BitVec.ofNat 32 (s.mem.word adr))=some t) (cpcond : Bool)
    (hself : t ≠ .next → t.target (BitVec.ofNat 32 (s.mem.word adr)) (BitVec.ofNat 32 adr) s.regs ≠
      BitVec.ofNat 32 adr)
    (hjr : t = .register → (funct (BitVec.ofNat 32 (s.mem.word adr))).toNat=8 →
      isWriteable (t.target (BitVec.ofNat 32 (s.mem.word adr)) (BitVec.ofNat 32 adr)
        s.regs).toNat=true) :
    let next := (t.nextPc (BitVec.ofNat 32 (s.mem.word adr)) (BitVec.ofNat 32 adr) s.regs
      cpcond).toNat
    next=(setTrcbp (machineCpu isWriteable) s adr false).bptTrc.addr ∨
      next=(setTrcbp (machineCpu isWriteable) s adr false).bptTrcb.addr := by
  have henc := transfer_encoding ht
  have hstep : ∀ k : ℕ, (BitVec.ofNat 32 adr + BitVec.ofNat 32 k).toNat=(adr+k)%2^32 := by
    intro k
    rw [BitVec.toNat_add, BitVec.toNat_ofNat, BitVec.toNat_ofNat,←Nat.add_mod]
  by_cases hnext : t = .next
  · left
    subst hnext
    have htype := next_type henc
    simp only [setTrcbp,machineCpu,htype,Bool.false_eq_true,if_false]
    exact hstep 4
  · obtain ⟨htrcb,hcond⟩ := setTrcbp_transfer isWriteable s hadr henc hnext (hself hnext) hjr
    cases t with
    | next => exact absurd rfl hnext
    | jump => exact Or.inr htrcb.symm
    | register => exact Or.inr htrcb.symm
    | branch c =>
      simp only [Transfer.nextPc]
      split
      · exact Or.inr htrcb.symm
      · rename_i hfalls
        -- a branch that may fall through is seen as conditional
        have htype := branch_type henc
        have hoff : (scanDistbl (BitVec.ofNat 32 (s.mem.word adr))).type ≠ .off := fun hoff =>
          hfalls (holds_of_off henc hoff hzero cpcond)
        have hc : (scanDistbl (BitVec.ofNat 32 (s.mem.word adr))).type.isConditional=true := by
          simp only [branchTypes,mem_cons,not_mem_nil,or_false] at htype
          rcases htype with h | h | h | h
          · exact absurd h hoff
          all_goals rw [h]; rfl
        rcases hcond hc with heq | htrc
        · right
          rw [htrcb,heq]
          exact hstep 8
        · left
          rw [htrc]
          exact hstep 8

theorem setTrcbp_covers_next_beq : (0x80020008 : ℕ)=(setTrcbp (machineCpu fun _ => true)
        (start (fun _ => 0x10220003) 0x80020000 fun r => r.setWidth 64) 0x80020000
        false).bptTrc.addr ∨ 0x80020008=(setTrcbp (machineCpu fun _ => true)
        (start (fun _ => 0x10220003) 0x80020000 fun r => r.setWidth 64) 0x80020000
        false).bptTrcb.addr :=
  setTrcbp_covers_next (fun _ => true)
    (start (fun _ => 0x10220003) 0x80020000 fun r => r.setWidth 64) 0x80020000 (by decide) rfl
    (.branch .eq) (by decide) false (fun _ => by decide) (fun h => by cases h)

end Pmon.SingleStep
