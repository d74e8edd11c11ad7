import Pmon.ElfBoot
import Pmon.SDump

/-!
# Acceptance of data records

What `s3_datarec` does is told by the bytes that the text of a record stands for.
-/

namespace Pmon.LoadDatarec
open ByteStore LoadFn List
open ElfBoot (Accepted accepted_of_refusal)
open SDump (byteSum)

def bytes : List Char → List UInt8
  | a::b::p =>
    match gethex [a,b] 2 with
    | some v => UInt8.ofNat v::bytes p
    | none => []
  | _ => []

theorem toNat_le_of_le {c d : Char} (h : c≤d) : c.toNat ≤ d.toNat := h

theorem hexDigit_lt {c : Char} {d : ℕ} (h : hexDigit c=some d) : d<16 := by
  unfold hexDigit at h
  split at h
  · rename_i hrange
    have hle := toNat_le_of_le hrange.2
    have hnine : '9'.toNat - '0'.toNat=9 := rfl
    have hd := Option.some.inj h
    omega
  split at h
  · rename_i hrange
    have hle := toNat_le_of_le hrange.2
    have hsix : 'f'.toNat - 'a'.toNat=5 := rfl
    have hd := Option.some.inj h
    omega
  split at h
  · rename_i hrange
    have hle := toNat_le_of_le hrange.2
    have hsix : 'F'.toNat - 'A'.toNat=5 := rfl
    have hd := Option.some.inj h
    omega
  · cases h

theorem gethex_two (a b : Char) (p : List Char) : gethex (a::b::p) 2 =
      (hexDigit a).bind fun x => (hexDigit b).map fun y => x*16+y := by
  cases ha : hexDigit a with
  | none => simp [gethex,gethexLoop,ha]
  | some x =>
    have hx := hexDigit_lt ha
    cases hb : hexDigit b with
    | none => simp [gethex,gethexLoop,ha,hb]
    | some y => simp [gethex,gethexLoop,ha,hb]; omega

theorem gethex_two_lt {v : ℕ} (h : gethex p 2=some v) : v<256 := by
  match p with
  | [] => cases h
  | [a] =>
    cases ha : hexDigit a <;> simp [gethex,gethexLoop,ha] at h
  | a::b::p =>
    rw [gethex_two,Option.bind_eq_some_iff] at h
    obtain ⟨x,hx,h⟩ := h
    obtain ⟨y,hy,rfl⟩ := Option.map_eq_some_iff.mp h
    have := hexDigit_lt hx
    have := hexDigit_lt hy
    omega

theorem bytes_of_gethex {v : ℕ} (h : gethex p 2=some v) :
    bytes p = UInt8.ofNat v::bytes (p.drop 2) := by
  match p with
  | [] => cases h
  | [a] =>
    cases ha : hexDigit a <;> simp [gethex,gethexLoop,ha] at h
  | a::b::p =>
    rw [gethex_two,←gethex_two a b []] at h
    rw [bytes,h]
    rfl

theorem bytes_of_gethex_none (h : gethex p 2=none) : bytes p=[] := by
  match p with
  | [] => rfl
  | [a] => rfl
  | a::b::p =>
    rw [gethex_two,←gethex_two a b []] at h
    rw [bytes,h]

theorem two_mul_length_bytes_le (p : List Char) : 2*(bytes p).length≤p.length := by
  induction p using bytes.induct with
  | case1 a b p v h ih =>
    rw [bytes,h,length_cons,length_cons,length_cons]
    omega
  | case2 a b p h =>
    rw [bytes,h]
    exact Nat.zero_le _
  | case3 p h =>
    rw [bytes]
    · exact Nat.zero_le _
    · exact h

theorem two_mul_length_bytes_eq_iff (p : List Char) :
    2*(bytes p).length=p.length ↔ Even p.length ∧ ∀ c∈p, (hexDigit c).isSome := by
  induction p using bytes.induct with
  | case1 a b p v h ih =>
    rw [gethex_two,Option.bind_eq_some_iff] at h
    obtain ⟨x,hx,hy⟩ := h
    obtain ⟨y,hy,-⟩ := Option.map_eq_some_iff.mp hy
    have hread : gethex [a,b] 2=some (x*16+y) := by rw [gethex_two,hx,hy]; rfl
    have heven : Even (a::b::p).length ↔ Even p.length := by
      rw [length_cons,length_cons,Nat.even_add_one,Nat.even_add_one,not_not]
    have hdigits : (∀ c∈a::b::p, (hexDigit c).isSome) ↔ ∀ c∈p, (hexDigit c).isSome := by
      rw [forall_mem_cons,forall_mem_cons,hx,hy]
      simp
    rw [heven,hdigits,←ih,bytes,hread]
    simp only [length_cons]
    omega
  | case2 a b p h =>
    rw [bytes,h]
    refine iff_of_false (by simp) fun hok => ?_
    obtain ⟨x,hx⟩ := Option.isSome_iff_exists.mp (hok.2 a mem_cons_self)
    obtain ⟨y,hy⟩ := Option.isSome_iff_exists.mp
      (hok.2 b (mem_cons_of_mem a mem_cons_self))
    rw [gethex_two,hx,hy] at h
    cases h
  | case3 p h =>
    match p with
    | [] => simp [bytes]
    | [a] => simp [bytes]
    | a::b::p => exact absurd rfl (h a b p)

def ofBytes (bs : List UInt8) : ℕ := bs.foldl (fun v b => v*256 + b.toNat) 0

theorem byteSum_cons (b : UInt8) (bs : List UInt8) : byteSum (b::bs) = b.toNat+byteSum bs :=
  rfl

theorem gethex_cases (p : List Char) :
    (∃ b : UInt8, gethex p 2=some b.toNat ∧ bytes p=b::bytes (p.drop 2)) ∨
      (gethex p 2=none ∧ bytes p=[]) := by
  cases h : gethex p 2 with
  | none => exact .inr ⟨rfl,bytes_of_gethex_none h⟩
  | some v =>
    have hbyte : (UInt8.ofNat v).toNat=v := by
      rw [UInt8.toNat_ofNat',Nat.mod_eq_of_lt (gethex_two_lt h)]
    exact .inl ⟨UInt8.ofNat v,by rw [hbyte],bytes_of_gethex h⟩

theorem bytes_drop (h : n≤(bytes p).length) : bytes (p.drop (2*n))=(bytes p).drop n := by
  induction n generalizing p with
  | zero => rfl
  | succ n ih =>
    obtain ⟨b,-,hbytes⟩ | ⟨-,hbytes⟩ := gethex_cases p
    · rw [hbytes,length_cons] at h
      rw [hbytes,drop_succ_cons,←ih (by omega),drop_drop]
      congr 2
      omega
    · rw [hbytes] at h
      exact absurd h (by simp)

theorem addrBytes_ok (h : n≤(bytes p).length) (addr : ℕ) (sum : ℤ) :
    addrBytes n p (addr%2^32) sum=(sum+byteSum ((bytes p).take n),
      .ok (((bytes p).take n).foldl (fun v b => v*256 + b.toNat) addr%2^32)) := by
  induction n generalizing p addr sum with
  | zero => simp [addrBytes,byteSum]
  | succ n ih =>
    obtain ⟨b,hread,hbytes⟩ | ⟨-,hbytes⟩ := gethex_cases p
    · have hmod : (addr%2^32*256 + b.toNat)%2^32=(addr*256 + b.toNat)%2^32 := by
        rw [Nat.add_mod,Nat.mod_mul_mod,←Nat.add_mod]
      rw [hbytes,length_cons] at h
      rw [addrBytes,hread]
      dsimp only
      rw [hmod,ih (by omega),hbytes,take_succ_cons,byteSum_cons,foldl_cons,add_assoc]
    · rw [hbytes] at h
      exact absurd h (by simp)

theorem addrBytes_error (h : (bytes p).length<n) (addr : ℕ) (sum : ℤ) :
    ∃ sum', addrBytes n p addr sum =
      (sum',.error (if (bytes p).length+1=n then .minusOne else .badChar)) := by
  induction n generalizing p addr sum with
  | zero => exact absurd h (Nat.not_lt_zero _)
  | succ n ih =>
    rw [addrBytes]
    obtain ⟨b,hread,hbytes⟩ | ⟨hread,hbytes⟩ := gethex_cases p
    · rw [hbytes,length_cons] at h ⊢
      rw [hread]
      simp only [Nat.add_left_inj]
      exact ih (by omega) _ _
    · rw [hread,hbytes]
      simp only [length_nil,Nat.add_left_inj,eq_comm]
      exact ⟨_,rfl⟩

variable {σ : Type} {p : List Char} {len n : ℕ}

theorem storeBytes_ok (h : n≤(bytes p).length) (s : Loader σ) {addr : ℕ}
    (hend : addr+n≤2^32) : storeBytes n p s addr =
      ({ s with mem := applyWrites (writesAt addr ((bytes p).take n)) s.mem,
                chksum := s.chksum+byteSum ((bytes p).take n) },some (p.drop (2*n))) := by
  induction n generalizing p s addr with
  | zero => simp [storeBytes,byteSum]
  | succ n ih =>
    obtain ⟨b,hread,hbytes⟩ | ⟨-,hbytes⟩ := gethex_cases p
    · rw [hbytes,length_cons] at h
      -- a wrap can only follow the last byte, when the loop is over
      have hnext : ∀ t : Loader σ, storeBytes n (p.drop 2) t ((addr+1)%2^32) =
          storeBytes n (p.drop 2) t (addr+1) := by
        intro t
        cases n with
        | zero => rfl
        | succ n => rw [Nat.mod_eq_of_lt (by omega)]
      rw [storeBytes,hread]
      dsimp only
      rw [hnext,ih (by omega) _ (by omega),hbytes,take_succ_cons,byteSum_cons,
        drop_drop,UInt8.ofNat_toNat]
      simp only [writesAt,applyWrites,foldl_cons,add_assoc]
      congr 3
      omega
    · rw [hbytes] at h
      exact absurd h (by simp)

theorem storeBytes_text (n : ℕ) (p : List Char) (s : Loader σ) (addr : ℕ) :
    (storeBytes n p s addr).2 = if n≤(bytes p).length then some (p.drop (2*n)) else none := by
  induction n generalizing p s addr with
  | zero => rfl
  | succ n ih =>
    rw [storeBytes]
    obtain ⟨b,hread,hbytes⟩ | ⟨hread,hbytes⟩ := gethex_cases p
    · rw [hread,hbytes,length_cons]
      rw [ih,drop_drop,Nat.mul_succ,Nat.add_comm 2]
      simp only [Nat.add_le_add_iff_right]
    · rw [hread,hbytes]
      rfl

def address (n : ℕ) (p : List Char) : ℕ := ofBytes ((bytes (p.drop 4)).take n)
def data (n : ℕ) (p : List Char) : List UInt8 := ((bytes (p.drop 4)).drop n).dropLast

structure Acceptable (M : Monitor σ) (flags : Flags) (offset n : ℕ) (p : List Char) : Prop where
  length : ∃ len, gethex (p.drop 2) 2=some len ∧ len*2=(p.drop 4).length ∧ n+1≤len
  digits : ∀ c∈p.drop 4, (hexDigit c).isSome
  free : M.refusal ((address n p+offset)%2^32) (data n p).length=none
  sum : flags.ignoreSum=false → ∀ len, gethex (p.drop 2) 2=some len →
    (bytes (p.drop 4)).getLast?.map UInt8.toNat =
      some (notByte (len+byteSum (bytes (p.drop 4)).dropLast))

variable {M : Monitor σ} {flags : Flags} {s : Loader σ}

theorem loadData_short {addr : ℕ} {len : ℤ} (h : (bytes p).length ≤ len.toNat) :
    (loadData M flags s addr len p).1 ≠ .cont := by
  rw [loadData]
  rcases dlCheckloadaddr M s addr len flags.verbose with ⟨_ | _,s'⟩
  · exact fun hcont => by cases hcont
  · dsimp only
    have htext := storeBytes_text len.toNat p s' addr
    rcases hstore : storeBytes len.toNat p s' addr with ⟨s'',_ | q⟩
    · exact fun hcont => by cases hcont
    · rw [hstore] at htext
      dsimp only at htext ⊢
      split at htext
      · rename_i hle
        have hq : bytes q=[] := by
          rw [Option.some.inj htext,bytes_drop hle,drop_eq_nil_iff]
          exact h
        obtain ⟨b,-,hbytes⟩ | ⟨hread,-⟩ := gethex_cases q
        · rw [hq] at hbytes
          cases hbytes
        · rw [checkSum,hread]
          exact fun hcont => by cases hcont
      · cases htext

theorem free_of_cont {addr : ℕ} {len : ℤ} (h : (loadData M flags s addr len p).1 = .cont) :
    M.refusal addr len=none := by
  cases hr : M.refusal addr len with
  | none => rfl
  | some r =>
    rw [loadData,dlCheckloadaddr,hr] at h
    cases h

theorem loadData_eq {addr : ℕ} (haddr : addr<2^32) (hlen : len<256)
    (hbytes : (bytes p).length=len+1) (hfree : M.refusal addr len=none) :
    ∃ s', s'.mem=applyWrites (writesAt addr (bytes p).dropLast) s.mem ∧
      loadData M flags s addr len p =
        if flags.ignoreSum=false ∧ (bytes p).getLast?.map UInt8.toNat ≠
          some (notByte (s.chksum+byteSum (bytes p).dropLast))
        then (.badSum,0,s') else (.cont,len,s') := by
  have hend : addr+len≤2^32 := by
    have := ((accepted_of_refusal hfree).straight haddr (by omega)).2.1
    unfold K2BASE at this
    omega
  have hdata : (bytes p).take len=(bytes p).dropLast := by
    rw [dropLast_eq_take,hbytes,Nat.add_sub_cancel]
  have hlast : gethex (p.drop (2*len)) 2=(bytes p).getLast?.map UInt8.toNat := by
    have hdrop := bytes_drop (show len≤(bytes p).length by omega)
    have hsame : (bytes p).getLast?=((bytes p).drop len).getLast? := by
      rw [getLast?_drop,if_neg (by omega)]
    obtain ⟨b,hread,hcons⟩ | ⟨-,hnil⟩ := gethex_cases (p.drop (2*len))
    · have hone := congrArg List.length hcons
      rw [hdrop,length_drop,hbytes,length_cons] at hone
      rw [hread,hsame,←hdrop,hcons,eq_nil_of_length_eq_zero (l := bytes _) (by omega)]
      rfl
    · have hzero := congrArg List.length (hdrop.symm.trans hnil)
      rw [length_drop,length_nil] at hzero
      omega
  obtain ⟨cs,hcs⟩ : ∃ cs, (bytes p).getLast?.map UInt8.toNat=some cs := by
    obtain ⟨b,hb⟩ := Option.ne_none_iff_exists'.mp
      (mt getLast?_eq_none_iff.mp (ne_nil_of_length_eq_add_one hbytes))
    exact ⟨b.toNat,by rw [hb]; rfl⟩
  rw [loadData,dlCheckloadaddr,hfree]
  dsimp only
  rw [Int.toNat_natCast,storeBytes_ok (by omega) _ hend]
  dsimp only
  rw [hdata,checkSum,hlast,hcs]
  simp only [ne_eq,Option.some.injEq]
  split
  · exact ⟨_,rfl,rfl⟩
  · exact ⟨_,rfl,rfl⟩

section
variable (hflags : flags.onlySyms=false) (hkind : addrWidth p[1]?=some n)
  (hread : gethex (p.drop 2) 2=some len) (hlen : len*2=(p.drop 4).length)
include hflags hkind hread hlen

theorem s3Datarec_eq (haddr : n≤(bytes (p.drop 4)).length) : s3Datarec M flags s p =
      loadData M flags {s with chksum := len+byteSum ((bytes (p.drop 4)).take n)}
        ((address n p+s.offset)%2^32) (len-(n+1)) ((p.drop 4).drop (2*n)) := by
  have hbytes := addrBytes_ok haddr 0 (0+(len : ℤ))
  rw [Nat.zero_mod] at hbytes
  rw [length_drop] at hlen
  rw [s3Datarec,hflags,if_neg Bool.false_ne_true,hread]
  dsimp only
  rw [if_neg (not_not.mpr hlen),hkind]
  dsimp only
  rw [hbytes]
  dsimp only
  rw [address,ofBytes,Nat.mod_add_mod,zero_add,drop_drop]

theorem s3Datarec_short (haddr : (bytes (p.drop 4)).length<n) : (s3Datarec M flags s p).1 =
      if (bytes (p.drop 4)).length+1=n then .minusOne else .badChar := by
  obtain ⟨sum,herror⟩ := addrBytes_error haddr 0 (0+(len : ℤ))
  rw [length_drop] at hlen
  rw [s3Datarec,hflags,if_neg Bool.false_ne_true,hread]
  dsimp only
  rw [if_neg (not_not.mpr hlen),hkind]
  dsimp only
  rw [herror]
end

theorem length_of_cont (hflags : flags.onlySyms=false) (h : (s3Datarec M flags s p).1 = .cont) :
    ∃ len, gethex (p.drop 2) 2=some len ∧ len*2=(p.drop 4).length := by
  rw [s3Datarec,hflags,if_neg Bool.false_ne_true] at h
  cases hread : gethex (p.drop 2) 2 with
  | none =>
    rw [hread] at h
    cases h
  | some len =>
    rw [hread] at h
    dsimp only at h
    by_cases hlen : len*2=p.length-4
    · exact ⟨len,rfl,by rw [length_drop,hlen]⟩
    · rw [if_pos hlen] at h
      cases h

theorem dlS3load_eq_datarec {recbuf : List Char} (hstart : recbuf[0]?=some 'S')
    (hkind : addrWidth recbuf[1]?=some n) :
    dlS3load M flags s recbuf=s3Datarec M flags s recbuf := by
  have hk : recbuf[1]?=some '3' ∨ recbuf[1]?=some '2' ∨ recbuf[1]?=some '1' := by
    unfold addrWidth at hkind
    split at hkind
    · rename_i h
      exact .inl h
    · rename_i h
      exact .inr (.inl h)
    · rename_i h
      exact .inr (.inr h)
    · cases hkind
  rw [dlS3load,if_neg (not_not.mpr hstart)]
  rcases hk with hk | hk | hk <;> rw [hk] <;> rfl

theorem length_data (hbytes : (bytes (p.drop 4)).length=len) :
    (data n p).length=len-(n+1) := by
  rw [data,length_dropLast,length_drop,hbytes]
  omega

theorem byteSum_append (bs cs : List UInt8) : byteSum (bs++cs)=byteSum bs+byteSum cs := by
  simp [byteSum]

theorem s3Datarec_digits (hflags : flags.onlySyms=false) (hkind : addrWidth p[1]?=some n)
    (hread : gethex (p.drop 2) 2=some len) (hlen : len*2=(p.drop 4).length)
    (hbytes : (bytes (p.drop 4)).length=len) (hle : n+1≤len)
    (hfree : M.refusal ((address n p+s.offset)%2^32) (data n p).length=none) :
    ∃ s', s'.mem=applyWrites (writesAt ((address n p+s.offset)%2^32) (data n p)) s.mem ∧
      s3Datarec M flags s p =
        if flags.ignoreSum=false ∧ (bytes (p.drop 4)).getLast?.map UInt8.toNat ≠
          some (notByte (len+byteSum (bytes (p.drop 4)).dropLast))
        then (.badSum,0,s') else (.cont,(data n p).length,s') := by
  have hdata := length_data (n := n) hbytes
  have hrest : bytes ((p.drop 4).drop (2*n))=(bytes (p.drop 4)).drop n := bytes_drop (by omega)
  have hcount : (bytes ((p.drop 4).drop (2*n))).length=(data n p).length+1 := by
    rw [hrest,length_drop,hbytes,hdata]
    omega
  have hcast : (len : ℤ)-(n+1)=((data n p).length : ℕ) := by
    rw [hdata]
    omega
  have hsum : byteSum ((bytes (p.drop 4)).take n)+byteSum (data n p) =
      byteSum (bytes (p.drop 4)).dropLast := by
    have hne : (bytes (p.drop 4)).drop n≠[] := mt drop_eq_nil_iff.mp (by omega)
    rw [←byteSum_append,data,←dropLast_append_of_ne_nil hne,take_append_drop]
  have hlast : ((bytes (p.drop 4)).drop n).getLast?=(bytes (p.drop 4)).getLast? := by
    rw [getLast?_drop,if_neg (by omega)]
  have hsmall := gethex_two_lt hread
  rw [s3Datarec_eq hflags hkind hread hlen (by omega),hcast]
  obtain ⟨s',hmem,heq⟩ := @loadData_eq σ _ _ M flags
    {s with chksum := len+byteSum ((bytes (p.drop 4)).take n)} _
    (Nat.mod_lt _ (by decide)) (by omega) hcount hfree
  refine ⟨s',?_,?_⟩
  · rw [hmem,hrest,data]
  · rw [heq,hrest,hlast]
    rw [←data,add_assoc,hsum]

theorem s3Datarec_of_acceptable (hflags : flags.onlySyms=false) (hkind : addrWidth p[1]?=some n)
    (h : Acceptable M flags s.offset n p) :
    ∃ s', s'.mem=applyWrites (writesAt ((address n p+s.offset)%2^32) (data n p)) s.mem ∧
      s3Datarec M flags s p=(.cont,(data n p).length,s') := by
  obtain ⟨len,hread,hlen,hle⟩ := h.length
  have hall := (two_mul_length_bytes_eq_iff (p.drop 4)).mpr ⟨⟨len,by omega⟩,h.digits⟩
  obtain ⟨s',hmem,heq⟩ := s3Datarec_digits hflags hkind hread hlen (by omega) hle h.free
  refine ⟨s',hmem,?_⟩
  rw [heq,if_neg fun hbad => hbad.2 (h.sum hbad.1 len hread)]

/-- A record is accepted exactly when everything in it is right; then its data are stored at its
address plus the offset, and nothing else. -/
theorem s3Datarec_accepts_iff (M : Monitor σ) (s : Loader σ) {flags : Flags} {p : List Char} {n : ℕ}
    (hflags : flags.onlySyms=false) (hkind : addrWidth p[1]?=some n) :
    ((s3Datarec M flags s p).1 = .cont ↔ Acceptable M flags s.offset n p) ∧
      (Acceptable M flags s.offset n p → (s3Datarec M flags s p).2.1=(data n p).length ∧
        Patched s.mem (s3Datarec M flags s p).2.2.mem ((address n p+s.offset)%2^32)
          (data n p)) := by
  refine ⟨⟨fun hcont => ?_, fun h => ?_⟩, fun h => ?_⟩
  · obtain ⟨len,hread,hlen⟩ := length_of_cont hflags hcont
    have hle := two_mul_length_bytes_le (p.drop 4)
    have haddr : n≤(bytes (p.drop 4)).length := by
      by_contra hlt
      rw [s3Datarec_short hflags hkind hread hlen (not_le.mp hlt)] at hcont
      split at hcont <;> cases hcont
    have hrest := bytes_drop haddr
    -- the checksum is read behind the data, so all bytes are there
    have hbytes : (bytes (p.drop 4)).length=len ∧ n+1≤len := by
      by_contra hbad
      rw [s3Datarec_eq hflags hkind hread hlen haddr] at hcont
      refine loadData_short ?_ hcont
      rw [hrest,length_drop]
      omega
    have hfree : M.refusal ((address n p+s.offset)%2^32) (data n p).length=none := by
      have hcast : (len : ℤ)-(n+1)=((data n p).length : ℕ) := by
        rw [length_data hbytes.1]
        omega
      rw [←hcast]
      rw [s3Datarec_eq hflags hkind hread hlen haddr] at hcont
      exact free_of_cont hcont
    obtain ⟨s',-,heq⟩ := s3Datarec_digits hflags hkind hread hlen hbytes.1 hbytes.2 hfree
    have hall := (two_mul_length_bytes_eq_iff (p.drop 4)).mp (by omega)
    refine ⟨⟨len,hread,hlen,hbytes.2⟩,hall.2,hfree, fun hsum len' hread' => ?_⟩
    obtain rfl : len=len' := Option.some.inj (hread.symm.trans hread')
    by_contra hne
    rw [heq,if_pos ⟨hsum,hne⟩] at hcont
    cases hcont
  · obtain ⟨s',-,heq⟩ := s3Datarec_of_acceptable hflags hkind h
    rw [heq]
  · obtain ⟨s',hmem,heq⟩ := s3Datarec_of_acceptable hflags hkind h
    rw [heq]
    refine ⟨rfl,?_⟩
    rw [hmem]
    exact patched_applyWrites _ _ _

theorem s3Datarec_accepts_iff_word :
    Acceptable SDump.promMonitor {} 0 4 "S309800200001234567860".toList :=
  (s3Datarec_accepts_iff SDump.promMonitor SDump.clearLoader rfl rfl).1.mp (by decide +kernel)

end Pmon.LoadDatarec
