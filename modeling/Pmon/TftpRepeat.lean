import Pmon.TftpPort
import Pmon.TftpWrite

/-!
# Repeated packets

The number of a repeated packet, a `short`, is compared with the counter less 1, an `int`. The two
differ for the numbers from 32768 on.
-/

namespace Pmon.Tftp

/-- The number of the block before block `b`, as a server sends it. -/
def prevBlock (b : ℕ) : BitVec 16 := BitVec.ofNat 16 (b+(2^16-1))

/-- A packet that repeats the block before the one a handle waits for. -/
structure Repeats (opcode : Opcode) (tfp : Tftpfile) (d : Dgram) : Prop where
  opcode_eq : d.opcode=opcode
  block_eq : d.block=prevBlock tfp.block
  port_eq : d.port=tfp.port

/-- `tftprrq` goes on waiting behind a repeated block, whatever comes next. -/
def ToleratesData (tfp : Tftpfile) : Prop :=
  ∀ d, Repeats .data tfp d → ∀ rexmt es, ∃ t, SameWindow tfp t ∧ t.eof=tfp.eof ∧
    rounds rrqRound tfp rexmt (⟨true,.datagram d⟩::es)=rounds rrqRound t rexmt es

/-- `tftpwrq` goes on waiting behind a repeated acknowledgement. -/
def ToleratesAck (tfp : Tftpfile) (size : ℤ) : Prop :=
  ∀ d, Repeats .ack tfp d → ∀ rexmt es, rounds (fun t k e => wrqRound t size k e) tfp rexmt
    (⟨true,.datagram d⟩::es)=rounds (fun t k e => wrqRound t size k e) tfp rexmt es

section
variable {b : ℕ} (hb : b<2^16)
include hb

theorem toNat_prevBlock : (prevBlock b).toNat=if b=0 then 65535 else b-1 := by
  rw [prevBlock,BitVec.toNat_ofNat]
  split <;> omega

theorem prevBlock_ne : (prevBlock b).toInt≠b := by
  intro h
  have hnat := toNat_of_toInt h
  rw [toNat_prevBlock hb] at hnat
  split at hnat <;> omega

/-- As a `short` the number is the counter less 1 up to 32768. -/
theorem prevBlock_eq_iff : (prevBlock b).toInt=b-1 ↔ b≤32768 := by
  rw [BitVec.toInt_eq_toNat_cond,toNat_prevBlock hb]
  split <;> split <;> omega
end

variable {tfp : Tftpfile} {d : Dgram}

theorem rrqRound_repeats (hblock : tfp.block<2^16) (heof : tfp.eof=false)
    (hd : Repeats .data tfp d) (rexmt : ℕ) : rrqRound tfp rexmt ⟨true,.datagram d⟩=
      if tfp.block≤32768 then .again {tfp with buf := overwrite d.payload tfp.buf} rexmt
      else .done (-1) {tfp with buf := overwrite d.payload tfp.buf} := by
  have hreceive : ∀ t : Tftpfile, t.block=tfp.block → rrqReceive t rexmt d=
      if tfp.block≤32768 then .again t rexmt else .done (-1) t := by
    intro t ht
    have hiff := prevBlock_eq_iff hblock
    rw [rrqReceive,hd.opcode_eq,hd.block_eq,ht,if_neg (by decide),if_pos rfl,
      if_neg (prevBlock_ne hblock)]
    by_cases hsmall : tfp.block≤32768
    · rw [if_pos hsmall,if_neg (not_not.mpr (hiff.mpr hsmall))]
    · rw [if_neg hsmall,if_pos fun h => hsmall (hiff.mp h)]
  rw [rrqRound,if_neg (by simp),if_neg (by simp [heof])]
  dsimp only
  rw [hd.port_eq]
  split
  · exact hreceive _ rfl
  · rw [if_neg (not_not.mpr rfl)]
    exact hreceive _ rfl

theorem wrqRound_repeats (hblock : tfp.block<2^16) (hd : Repeats .ack tfp d) (size : ℤ)
    (rexmt : ℕ) : wrqRound tfp size rexmt ⟨true,.datagram d⟩=
      if tfp.block≤32768 then .again tfp rexmt else .done (-1) tfp := by
  have hreceive : wrqReceive tfp size rexmt d=
      if tfp.block≤32768 then .again tfp rexmt else .done (-1) tfp := by
    have hiff := prevBlock_eq_iff hblock
    rw [wrqReceive,hd.opcode_eq,hd.block_eq,if_neg (by decide),if_pos rfl,
      if_neg (prevBlock_ne hblock)]
    by_cases hsmall : tfp.block≤32768
    · rw [if_pos hsmall,if_neg (not_not.mpr (hiff.mpr hsmall))]
    · rw [if_neg hsmall,if_pos fun h => hsmall (hiff.mp h)]
  rw [wrqRound,if_neg (by simp)]
  dsimp only
  rw [hd.port_eq,if_neg (not_not.mpr rfl)]
  split
  · exact hreceive
  · exact hreceive

theorem repeats_prevBlock (opcode : Opcode) (tfp : Tftpfile) :
    Repeats opcode tfp ⟨tfp.port,516,opcode,prevBlock tfp.block,[]⟩ := ⟨rfl,rfl,rfl⟩

theorem toleratesData_iff (hblock : tfp.block<2^16) (heof : tfp.eof=false) :
    ToleratesData tfp ↔ tfp.block≤32768 := by
  constructor
  · intro h
    by_contra hlarge
    -- with a larger counter the loop returns at once
    have hd := repeats_prevBlock .data tfp
    obtain ⟨t,_,_,ht⟩ := h _ hd 0 []
    have hround := rrqRound_repeats hblock heof hd 0
    rw [if_neg hlarge] at hround
    simp [rounds,hround] at ht
  · intro hsmall d hd rexmt es
    refine ⟨{tfp with buf := overwrite d.payload tfp.buf},⟨rfl,rfl,rfl,rfl,rfl⟩,rfl,?_⟩
    simp [rounds,rrqRound_repeats hblock heof hd,hsmall]

theorem toleratesAck_iff (hblock : tfp.block<2^16) (size : ℤ) :
    ToleratesAck tfp size ↔ tfp.block≤32768 := by
  constructor
  · intro h
    by_contra hlarge
    have hd := repeats_prevBlock .ack tfp
    have hrounds := h _ hd 0 []
    have hround := wrqRound_repeats hblock hd size 0
    rw [if_neg hlarge] at hround
    simp [rounds,hround] at hrounds
  · intro hsmall d hd rexmt es
    simp [rounds,wrqRound_repeats hblock hd,hsmall]

/-- Repeated packets are tolerated exactly while the counter is at most 32768. -/
theorem repeats_tolerated_iff (tfp : Tftpfile) (hblock : tfp.block<2^16) (heof : tfp.eof=false)
    (size : ℤ) :
    (ToleratesData tfp ↔ tfp.block≤32768) ∧ (ToleratesAck tfp size ↔ tfp.block≤32768) :=
  ⟨toleratesData_iff hblock heof,toleratesAck_iff hblock size⟩

theorem repeats_tolerated_iff_last :
    ToleratesData (held 1069 32768 512) ∧ ¬ToleratesAck (newHandle 69 .wronly 32769) 512 :=
  ⟨(repeats_tolerated_iff (held 1069 32768 512) (by decide) rfl 512).1.mpr le_rfl,
    fun h => absurd ((repeats_tolerated_iff (newHandle 69 .wronly 32769) (by decide) rfl 512).2.mp h)
      (by decide)⟩

theorem repeats_not_tolerated : ∃ w∈transfer 69 (fullBlock 1069 1::List.replicate 32767 unsent)
    (List.replicate 32767 (.read 512)++[.read 512]),
      w.handle.eof=false ∧ ¬ToleratesData w.handle := by
  have hmem := @mem_callWaits_retries 1069 32767 (by norm_num) []
  rw [List.append_nil,show (1+32767+1)%2^16=32769 by norm_num] at hmem
  rw [transfer_of_open (tftpopenRead_fullBlock 69 1069 _).1]
  refine ⟨_,List.mem_cons_of_mem _ hmem,rfl,fun h => ?_⟩
  exact absurd ((toleratesData_iff (show (held 1069 32769 512).block<2^16 by decide) rfl).mp h)
    (by decide)

end Pmon.Tftp
