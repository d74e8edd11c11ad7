import Pmon.ElfBoot

/-!
# Booting a CE image

A CE image has a header with its range, and records with an address, a size and a checksum. Address
0 ends it with the entry.
-/

namespace Pmon.CeBoot
open List
open LoadFn (Monitor u32)
open Tftp (int32)
open ElfBoot (NetOps ReadResult readExact bootread wordAt BootFlags)

/-- A file that is read from its position on; seeking may do anything. A negative count, which
`bcopy` takes as an unsigned one, does not return unless the file is at its end, where nothing is
copied. -/
def device (file : List UInt8) (seek : ℕ → ℤ → ℤ × ℕ) : NetOps ℕ :=
  { netread := fun pos n =>
      if n<0 then if file.length≤pos then some ⟨0,pos,[]⟩ else none
      else
        let bytes := (file.drop pos).take n.toNat
        some ⟨bytes.length,pos+bytes.length,[⟨0,bytes.length,bytes⟩]⟩
    netlseek := seek }

def recordSum (addr size : UInt32) (bytes : List UInt8) : ℕ :=
  if addr.toNat + size.toNat<2^32 then (bytes.map UInt8.toNat).sum%2^32 else 0

section
variable {φ σ : Type} (ops : NetOps φ) (M : Monitor σ)

inductive Turn (φ : Type) where
  | done (value : ℤ) (f : φ)
  | next (f : φ)

def cebinRecord (f : φ) : Option (Turn φ) :=
  match readExact ops f 12 with
  | none => none
  | some (none,f) => some (.done (-1) f)
  | some (some rechdr,f) =>
    let addr := wordAt false rechdr 0
    let size := wordAt false rechdr 4
    let csum := wordAt false rechdr 8
    if addr=0 then some (.done (int32 size.toNat) f)
    else
      (bootread ops M f addr.toNat (int32 size.toNat)).map fun (value,f,stores) =>
        if u32 value ≠ size.toNat then .done (-1) f
        else if recordSum addr size (stores.flatMap (·.bytes)) ≠ csum.toNat then .done (-1) f
        else .next f

def cebinRecords : ℕ → φ → Option (ℤ × φ)
  | 0, _ => none
  | fuel+1, f =>
    match cebinRecord ops M f with
    | none => none
    | some (.done value f) => some (value,f)
    | some (.next f) => cebinRecords fuel f

def cebinImage (fuel : ℕ) (flags : BootFlags) (stack : UInt32) (f : φ) : Option (ℤ × φ) :=
  if flags.flash then some (-2,f)
  else if flags.onlySyms then some (int32 stack.toNat,f)
  else
    match readExact ops f 8 with
    | none => none
    | some (none,f) => some (-1,f)
    | some (some imghdr,f) =>
      if (M.refusal (wordAt false imghdr 0).toNat (int32 (wordAt false imghdr 4).toNat)).isSome then
        some (-1,f)
      else cebinRecords ops M fuel f

inductive Record where
  | bad
  | entry (size : UInt32)
  | endless
  | loaded (rest : List UInt8)

def record (bytes : List UInt8) : Record :=
  let addr := wordAt false bytes 0
  let size := wordAt false bytes 4
  let csum := wordAt false bytes 8
  let rest := bytes.drop 12
  if bytes.length<12 then .bad
  else if addr=0 then .entry size
  else if (M.refusal addr.toNat (int32 size.toNat)).isSome then
    if size=0xffffffff ∧ recordSum addr size [] = csum.toNat then .loaded rest else .bad
  else if 2^31 ≤ size.toNat then
    -- `bootread` answers the count itself if nothing is left to read
    if rest≠[] then .endless
    else if recordSum addr size [] = csum.toNat then .loaded rest
    else .bad
  else if size.toNat≤rest.length ∧ recordSum addr size (rest.take size.toNat) = csum.toNat then
    .loaded (rest.drop size.toNat)
  else .bad

def CeRecords : ℕ → List UInt8 → Prop
  | 0, _ => False
  | fuel+1, bytes =>
    match record M bytes with
    | .bad => False
    | .entry size => size≠0xffffffff
    | .endless => True
    | .loaded rest => CeRecords fuel rest

def CeImage (flags : BootFlags) (stack : UInt32) (bytes : List UInt8) : Prop :=
  if flags.flash then True
  else if flags.onlySyms then stack≠0xffffffff
  else 8≤bytes.length ∧
    M.refusal (wordAt false bytes 0).toNat (int32 (wordAt false bytes 4).toNat)=none ∧
      CeRecords M bytes.length (bytes.drop 8)

section
variable (file : List UInt8) (seek : ℕ → ℤ → ℤ × ℕ)

theorem readExact_device (pos n : ℕ) : readExact (device file seek) pos n =
    some (if n≤(file.drop pos).length then some ((file.drop pos).take n) else none,
      pos+((file.drop pos).take n).length) := by
  unfold readExact device
  dsimp only
  rw [if_neg (by omega),Option.map_some]
  have hcount := Int.toNat_natCast n
  have hiff : ((((file.drop pos).take n).length : ℕ) : ℤ)=n ↔ n≤(file.drop pos).length := by
    rw [length_take]
    omega
  simp only [hcount,hiff,flatMap_cons,flatMap_nil,append_nil]

theorem int32_eq_neg_one_iff (w : UInt32) : int32 w.toNat = -1 ↔ w=0xffffffff := by
  have hlt := w.toNat_lt
  have hword : w=0xffffffff ↔ w.toNat=0xffffffff := by
    constructor
    · rintro rfl
      rfl
    · intro h
      exact UInt32.toNat_inj.mp h
  rw [hword]
  unfold int32
  omega

theorem wordAt_take {n off : ℕ} (big : Bool) (bytes : List UInt8) (h : off+4≤n) :
    wordAt big (bytes.take n) off=wordAt big bytes off := by
  have hget : ∀ i<4, (bytes.take n).getD (off+i) 0=bytes.getD (off+i) 0 := by
    intro i hi
    rw [getD_eq_getElem?_getD,getD_eq_getElem?_getD,getElem?_take_of_lt (by omega)]
  unfold wordAt
  dsimp only
  rw [hget 0 (by omega),hget 1 (by omega),hget 2 (by omega),hget 3 (by omega)]

theorem int32_of_lt {w : UInt32} (h : w.toNat<2^31) : int32 w.toNat = w.toNat :=
  Tftp.int32_eq (by omega) (by omega)

theorem int32_neg {w : UInt32} (h : ¬w.toNat<2^31) : int32 w.toNat<0 := by
  have hlt := w.toNat_lt
  unfold int32
  omega

theorem bootread_device {pos addr : ℕ} {size : UInt32} (hsize : size.toNat<2^31)
    (hpass : ¬(M.refusal addr (int32 size.toNat)).isSome=true) :
    ∃ stores, stores.flatMap (·.bytes)=(file.drop pos).take size.toNat ∧
      bootread (device file seek) M pos addr (int32 size.toNat) =
        some (if size.toNat≤(file.drop pos).length then (size.toNat : ℤ) else -1,
          pos+((file.drop pos).take size.toNat).length,stores) := by
  refine ⟨[.ofCopy addr ⟨0,((file.drop pos).take size.toNat).length,
    (file.drop pos).take size.toNat⟩],append_nil _,?_⟩
  unfold bootread device
  rw [if_neg hpass,int32_of_lt hsize]
  dsimp only
  rw [if_neg (by omega),Option.map_some,Int.toNat_natCast]
  have hiff : ((((file.drop pos).take size.toNat).length : ℕ) : ℤ) < size.toNat ↔
      ¬size.toNat≤(file.drop pos).length := by
    rw [length_take]
    omega
  simp only [hiff,ite_not,map_cons,map_nil]

theorem bootread_refused {pos addr : ℕ} {size : ℤ} (h : (M.refusal addr size).isSome=true) :
    bootread (device file seek) M pos addr size=some (-1,pos,[]) := by
  rw [bootread,if_pos h]

theorem bootread_negative {pos addr : ℕ} {size : ℤ} (hsize : size<0)
    (hpass : ¬(M.refusal addr size).isSome=true) :
    bootread (device file seek) M pos addr size =
      if file.drop pos=[] then some (size,pos,[]) else none := by
  unfold bootread device
  rw [if_neg hpass]
  dsimp only
  rw [if_pos hsize]
  by_cases hend : file.length≤pos
  · rw [if_pos hend,if_pos (drop_eq_nil_iff.mpr hend),Option.map_some]
    dsimp only
    rw [if_neg (by omega),map_nil]
  · rw [if_neg hend,if_neg (fun h => hend (drop_eq_nil_iff.mp h)),Option.map_none]

inductive Follows (pos : ℕ) : Record → Option (Turn ℕ) → Prop where
  | bad (p : ℕ) : Follows pos .bad (some (.done (-1) p))
  | entry (size : UInt32) (p : ℕ) : Follows pos (.entry size) (some (.done (int32 size.toNat) p))
  | endless : Follows pos .endless none
  | loaded (p : ℕ) (hshort : (file.drop p).length<(file.drop pos).length) :
      Follows pos (.loaded (file.drop p)) (some (.next p))

theorem cebinRecord_follows (pos : ℕ) :
    Follows file pos (record M (file.drop pos)) (cebinRecord (device file seek) M pos) := by
  unfold cebinRecord record
  rw [readExact_device]
  by_cases hlen : (file.drop pos).length<12
  · rw [if_pos hlen,if_neg (by omega)]
    exact .bad _
  have hge := not_lt.mp hlen
  rw [if_neg hlen,if_pos hge]
  dsimp only
  rw [wordAt_take false _ (by omega : 0+4≤12),wordAt_take false _ (by omega : 4+4≤12),
    wordAt_take false _ (by omega : 8+4≤12)]
  have hnext : pos+((file.drop pos).take 12).length=pos+12 := by
    rw [length_take,Nat.min_eq_left hge]
  have hrest : (file.drop pos).drop 12=file.drop (pos+12) := drop_drop
  have hshort : (file.drop (pos+12)).length<(file.drop pos).length := by
    rw [length_drop] at hge ⊢
    rw [length_drop]
    omega
  rw [hnext,hrest]
  generalize wordAt false (file.drop pos) 0=addr
  generalize wordAt false (file.drop pos) 4=size
  generalize wordAt false (file.drop pos) 8=csum
  by_cases hzero : addr=0
  · rw [if_pos hzero,if_pos hzero]
    exact .entry _ _
  rw [if_neg hzero,if_neg hzero]
  by_cases hrefused : (M.refusal addr.toNat (int32 size.toNat)).isSome=true
  · rw [if_pos hrefused,bootread_refused M file seek hrefused,Option.map_some]
    rw [flatMap_nil]
    have hminus : u32 (-1) = size.toNat ↔ size=0xffffffff := by
      rw [←UInt32.toNat_inj]
      exact eq_comm
    by_cases hsize : size=0xffffffff
    · rw [if_neg (not_not.mpr (hminus.mpr hsize))]
      by_cases hsum : recordSum addr size [] = csum.toNat
      · rw [if_pos ⟨hsize,hsum⟩,if_neg (not_not.mpr hsum)]
        exact .loaded _ hshort
      · rw [if_neg (fun h => hsum h.2),if_pos hsum]
        exact .bad _
    · rw [if_neg (fun h => hsize h.1),if_pos (fun h => hsize (hminus.mp h))]
      exact .bad _
  rw [if_neg hrefused]
  by_cases hneg : 2^31 ≤ size.toNat
  · rw [if_pos hneg,bootread_negative M file seek (int32_neg (not_lt.mpr hneg)) hrefused]
    by_cases hend : file.drop (pos+12)=[]
    · have hvalue : u32 (int32 size.toNat) = size.toNat := by
        have hlt := size.toNat_lt
        unfold u32 int32
        omega
      rw [if_neg (not_not.mpr hend),if_pos hend,Option.map_some]
      dsimp only
      rw [if_neg (not_not.mpr hvalue),flatMap_nil]
      by_cases hsum : recordSum addr size [] = csum.toNat
      · rw [if_pos hsum,if_neg (not_not.mpr hsum)]
        exact .loaded _ hshort
      · rw [if_neg hsum,if_pos hsum]
        exact .bad _
    · rw [if_pos hend,if_neg hend]
      exact .endless
  rw [if_neg hneg]
  obtain ⟨stores,hstores,hread⟩ :=
    @bootread_device σ M file seek (pos+12) addr.toNat size (not_le.mp hneg) hrefused
  rw [hread,Option.map_some]
  rw [hstores]
  by_cases hfull : size.toNat≤(file.drop (pos+12)).length
  · have hvalue := LoadFn.u32_natCast size.toNat_lt
    rw [if_pos hfull,if_neg (not_not.mpr hvalue)]
    by_cases hsum : recordSum addr size ((file.drop (pos+12)).take size.toNat) = csum.toNat
    · have hlength : ((file.drop (pos+12)).take size.toNat).length = size.toNat := by
        rw [length_take,Nat.min_eq_left hfull]
      rw [if_pos ⟨hfull,hsum⟩,if_neg (not_not.mpr hsum),drop_drop,hlength]
      refine .loaded _ (lt_of_le_of_lt ?_ hshort)
      rw [←drop_drop,length_drop]
      exact Nat.sub_le _ _
    · rw [if_neg (fun h => hsum h.2),if_pos hsum]
      exact .bad _
  · have hvalue : u32 (-1) ≠ size.toNat := fun h => by
      have : u32 (-1)=4294967295 := rfl
      omega
    rw [if_neg (fun h => hfull h.1),if_neg hfull,if_pos hvalue]
    exact .bad _

theorem exists_some_fst_iff {v w : ℤ} {pos : ℕ} : (∃ p, some (v,pos)=some (w,p)) ↔ v=w := by
  simp

theorem cebinRecords_failed_iff {fuel k pos : ℕ} (hfuel : (file.drop pos).length<fuel)
    (hk : (file.drop pos).length<k) :
    (∃ p, cebinRecords (device file seek) M fuel pos=some (-1,p)) ↔
      ¬CeRecords M k (file.drop pos) := by
  induction fuel generalizing k pos with
  | zero => omega
  | succ fuel ih =>
    obtain ⟨k,rfl⟩ := Nat.exists_eq_add_of_le' (by omega : 1≤k)
    rw [cebinRecords,CeRecords]
    have hturn := cebinRecord_follows M file seek pos
    generalize record M (file.drop pos)=r at hturn
    generalize cebinRecord (device file seek) M pos=t at hturn
    cases hturn with
    | bad p => exact iff_of_true ⟨p,rfl⟩ not_false
    | entry size p =>
      dsimp only
      rw [ne_eq,not_not,←int32_eq_neg_one_iff]
      exact exists_some_fst_iff
    | endless => exact iff_of_false (fun ⟨p,h⟩ => (nomatch h)) (not_not.mpr trivial)
    | loaded p hshort => exact ih (by omega) (by omega)

theorem cebinImage_failed_iff (flags : BootFlags) (stack : UInt32) {fuel pos : ℕ}
    (hfuel : (file.drop pos).length<fuel) :
    (∃ p, cebinImage (device file seek) M fuel flags stack pos=some (-1,p)) ↔
      ¬CeImage M flags stack (file.drop pos) := by
  unfold cebinImage CeImage
  by_cases hflash : flags.flash=true
  · rw [if_pos hflash,if_pos hflash]
    exact iff_of_false (fun ⟨p,h⟩ => by simp at h) (not_not.mpr trivial)
  rw [if_neg hflash,if_neg hflash]
  by_cases hsyms : flags.onlySyms=true
  · rw [if_pos hsyms,if_pos hsyms,ne_eq,not_not,←int32_eq_neg_one_iff]
    exact exists_some_fst_iff
  rw [if_neg hsyms,if_neg hsyms,readExact_device]
  by_cases hlen : 8≤(file.drop pos).length
  · rw [if_pos hlen]
    dsimp only
    rw [wordAt_take false _ (by omega : 0+4≤8),wordAt_take false _ (by omega : 4+4≤8)]
    cases hrefusal : M.refusal (wordAt false (file.drop pos) 0).toNat
        (int32 (wordAt false (file.drop pos) 4).toNat) with
    | some r => exact iff_of_true ⟨_,rfl⟩ fun h => (nomatch h.2.1)
    | none =>
      have hnext : pos+((file.drop pos).take 8).length=pos+8 := by
        rw [length_take,Nat.min_eq_left hlen]
      have hrest : (file.drop pos).drop 8=file.drop (pos+8) := drop_drop
      have hshort : (file.drop (pos+8)).length<(file.drop pos).length := by
        rw [length_drop] at hlen ⊢
        rw [length_drop]
        omega
      rw [if_neg (by simp),hnext,hrest,cebinRecords_failed_iff M file seek (by omega) hshort]
      exact not_congr ⟨fun h => ⟨hlen,rfl,h⟩,fun h => h.2.2⟩
  · rw [if_neg hlen]
    exact iff_of_true ⟨_,rfl⟩ fun h => hlen h.1
end
end
end Pmon.CeBoot
