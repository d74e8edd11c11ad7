import Pmon.DebugRequest

/-!
# Memory through remote requests

A write request replies with what the cell held before; for half words the handler reads
a byte.
-/

namespace Pmon.DebugRequest
open List
variable {c : Config}

theorem digitChar_inj : ∀ a<16, ∀ b<16, Nat.digitChar a=Nat.digitChar b → a=b := by
  decide

theorem hex_injective {a b : ℕ} (h : hex a=hex b) : a=b := by
  -- the last digits agree, and so do the numbers without them
  induction a using Nat.strong_induction_on generalizing b with
  | _ a ih =>
    unfold hex at h ih
    rw [Nat.toDigits_eq_if (by decide),Nat.toDigits_eq_if (n := b) (by decide)] at h
    have hempty (n : ℕ) : Nat.toDigits 16 n≠[] := Nat.toDigits_ne_nil
    split_ifs at h with ha hb hb
    · exact digitChar_inj a ha b hb (singleton_inj.mp h)
    · exact absurd (append_eq_singleton_iff.mp h.symm) (by simp [hempty])
    · exact absurd (append_eq_singleton_iff.mp h) (by simp [hempty])
    · obtain ⟨hfront,hlast⟩ := append_inj' h rfl
      have hdiv := ih (a/16) (by omega) hfront
      have hmod := digitChar_inj _ (Nat.mod_lt a (by decide)) _ (Nat.mod_lt b (by decide))
        (singleton_inj.mp hlast)
      omega

theorem reply_injective {pid req : List Char} {err a b : ℕ}
    (h : reply pid req err a=reply pid req err b) : a=b :=
  hex_injective (append_cancel_left h)

def Cell.truncated (cell : Cell) (v : BitVec 32) : BitVec 32 := match cell with
  | word => v
  | half => (v.setWidth 16).signExtend 32
  | byte => (v.setWidth 8).signExtend 32

theorem store_apply (c : Config) (cell : Cell) (mem : ℕ → UInt8) (adr : ℕ) (v : BitVec 32) {i : ℕ}
    (hi : i<cell.size) :
    (store c cell mem adr v (adr+i)).toBitVec=v.extractLsb' (lane c cell i) 8 := by
  unfold store
  rw [if_pos (by omega),Nat.add_sub_cancel_left]

theorem store_of_not_mem (c : Config) (cell : Cell) (mem : ℕ → UInt8) (adr : ℕ) (v : BitVec 32)
    {a : ℕ} (ha : ¬ (adr≤a ∧ a<adr+cell.size)) : store c cell mem adr v a=mem a :=
  if_neg ha

theorem append_word (v : BitVec 32) :
    v.extractLsb' 24 8++v.extractLsb' 16 8++v.extractLsb' 8 8++v.extractLsb' 0 8=v := by
  rw [BitVec.extractLsb'_append_extractLsb'_eq_extractLsb' (by rfl),
    BitVec.extractLsb'_append_extractLsb'_eq_extractLsb' (by rfl),
    BitVec.extractLsb'_append_extractLsb'_eq_extractLsb' (by rfl)]
  exact BitVec.extractLsb'_eq_self

theorem append_half (v : BitVec 32) : v.extractLsb' 8 8++v.extractLsb' 0 8=v.setWidth 16 := by
  rw [BitVec.extractLsb'_append_extractLsb'_eq_extractLsb' (by rfl)]
  exact BitVec.setWidth_eq_extractLsb' (by decide) |>.symm

theorem load_store (c : Config) (cell : Cell) (mem : ℕ → UInt8) (adr : ℕ) (v : BitVec 32) :
    load c cell (store c cell mem adr v) adr=cell.truncated v := by
  have hbyte := @store_apply c cell mem adr v
  unfold load
  cases cell with
  | word =>
    dsimp only
    rw [hbyte (i := 0) (by decide),hbyte (i := 1) (by decide),hbyte (i := 2) (by decide),
      hbyte (i := 3) (by decide)]
    unfold lane
    cases c.mipseb <;> exact append_word v
  | half =>
    dsimp only
    rw [hbyte (i := 0) (by decide),hbyte (i := 1) (by decide)]
    unfold lane
    cases c.mipseb <;> exact congrArg (BitVec.signExtend 32) (append_half v)
  | byte =>
    dsimp only
    rw [hbyte (i := 0) (by decide)]
    unfold lane
    have hlow : v.extractLsb' 0 8=v.setWidth 8 :=
      BitVec.setWidth_eq_extractLsb' (by decide) |>.symm
    cases c.mipseb <;> exact congrArg (BitVec.signExtend 32) hlow

inductive WriteLetter : Cell → Char → Prop
  | ispace : WriteLetter .word 'I'
  | dspace : WriteLetter .word 'D'
  | half : WriteLetter .half 'H'
  | byte : WriteLetter .byte 'P'

def Cell.readLetter : Cell → Char
  | word => 'i'
  | half => 'h'
  | byte => 'p'

structure WritesCell (env : BptTable.Env) (junk : Junk c) (av : List (List Char)) (cell : Cell)
    (s : State c) : Prop where
  reply_eq : ∃ val, (doReq env junk av s).replies=[(request junk av).answer 0 val] ∧
    (doReq env junk (av.set 1 [cell.readLetter]) s).replies =
      [reply (request junk av).pid [cell.readLetter] 0 val]
  load_eq : load c cell (doReq env junk av s).state.mem (request junk av).adr.toNat =
    cell.truncated ((request junk av).dat.setWidth 32)
  frame : ∀ a, ¬ ((request junk av).adr.toNat≤a ∧ a<(request junk av).adr.toNat+cell.size) →
    (doReq env junk av s).state.mem a=s.mem a

theorem Asks.doReq_write {env : BptTable.Env} {junk : Junk c} {ch : Char} {av : List (List Char)}
    {cell : Cell} (h : Asks ch av) (hch : WriteLetter cell ch)
    (hvalid : cell.valid (request junk av).adr.toNat) (s : State c) :
    doReq env junk av s=let r := request junk av
      r.done 0 (load c cell.reported s.mem r.adr.toNat).toNat
        {s with mem := store c cell s.mem r.adr.toNat (r.dat.setWidth 32)} := by
  have hop : Op.ofChar c ch = .writeMem cell := by cases hch <;> rfl
  rw [h.doReq_eq,hop]
  exact if_pos hvalid

theorem Asks.doReq_read {env : BptTable.Env} {junk : Junk c} {ch : Char} {av : List (List Char)}
    {cell : Cell} (h : Asks ch av) (hvalid : cell.valid (request junk av).adr.toNat) (s : State c) :
    (doReq env junk (av.set 1 [cell.readLetter]) s).replies =
      [reply (request junk av).pid [cell.readLetter] 0
        (load c cell s.mem (request junk av).adr.toNat).toNat] := by
  have hlen : 1<av.length := by
    have := h.length
    omega
  have hread : Asks cell.readLetter (av.set 1 [cell.readLetter]) :=
    ⟨by rw [length_set]; exact h.length,getElem?_set_self hlen⟩
  have hop : Op.ofChar c cell.readLetter = .readMem cell := by cases cell <;> rfl
  have hrequest : request junk (av.set 1 [cell.readLetter]) =
      {request junk av with req := [cell.readLetter]} := by
    unfold request
    rw [hread.req]
    simp only [getElem?_set_ne (show 1≠0 by decide),getElem?_set_ne (show 1≠2 by decide),
      getElem?_set_ne (show 1≠3 by decide),getElem?_set_ne (show 1≠4 by decide),
      Option.getD_some]
  rw [hread.doReq_eq,hop,hrequest]
  exact congrArg Served.replies (if_pos hvalid)

/-- A write request is right exactly when it is not for a half word, or half word and byte are read
alike. -/
theorem writesCell_iff (env : BptTable.Env) (junk : Junk c) (ch : Char) (av : List (List Char))
    (cell : Cell) (s : State c) (h : Asks ch av) (hch : WriteLetter cell ch)
    (hvalid : cell.valid (request junk av).adr.toNat) : WritesCell env junk av cell s ↔
      (cell = .half → load c .half s.mem (request junk av).adr.toNat =
        load c .byte s.mem (request junk av).adr.toNat) := by
  have hwrite : doReq env junk av s=_ := h.doReq_write hch hvalid s
  dsimp only at hwrite
  constructor
  · rintro ⟨⟨val,hreply,hread⟩,-,-⟩ rfl
    rw [hwrite] at hreply
    rw [h.doReq_read hvalid] at hread
    have hbyte := reply_injective (singleton_inj.mp hreply)
    have hhalf := reply_injective (singleton_inj.mp hread)
    exact BitVec.eq_of_toNat_eq (hhalf.trans hbyte.symm)
  · intro hagree
    have hreported : load c cell.reported s.mem (request junk av).adr.toNat =
        load c cell s.mem (request junk av).adr.toNat := by
      cases cell with
      | word => rfl
      | half => exact (hagree rfl).symm
      | byte => rfl
    refine ⟨⟨_,?_,h.doReq_read hvalid s⟩,?_,?_⟩
    · rw [hwrite,hreported]
      rfl
    · rw [hwrite]
      exact load_store ..
    · intro a ha
      rw [hwrite]
      exact store_of_not_mem c cell s.mem _ _ ha

theorem writesCell_word : WritesCell BptTable.plainEnv (zeroJunk : Junk wideConfig)
      [['1'],['D'],['0', 'x', '8', '0', '0', '2', '0', '0', '0', '0'],['5']] .word zeroState := by
  refine (writesCell_iff BptTable.plainEnv zeroJunk 'D' _ .word zeroState ⟨le_rfl,rfl⟩ .dspace
    (by decide +kernel)).mpr ?_
  intro hcell
  cases hcell

theorem writesCell_half_ones : ¬ WritesCell BptTable.plainEnv (zeroJunk : Junk wideConfig)
      [['1'],['H'],['0', 'x', '8', '0', '0', '2', '0', '0', '0', '0'],['5']] .half
      {zeroState with mem := fun _ => 1} := by
  rintro ⟨⟨val,hwrite,hread⟩,-,-⟩
  have hone := reply_injective (singleton_inj.mp (hwrite.symm.trans
    (show _=[reply ['1'] ['H'] 0 1] by decide +kernel)))
  have hhalf := reply_injective (singleton_inj.mp (hread.symm.trans
    (show _=[reply ['1'] ['h'] 0 0x101] by decide +kernel)))
  omega

end Pmon.DebugRequest
