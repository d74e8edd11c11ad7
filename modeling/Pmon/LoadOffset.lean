import Pmon.FastSyms
import Pmon.LoadCmd
import Pmon.LoadDatarec
import Pmon.LoadSymrec

/-!
# The load offset

`-o` stores the offset in `dl_offset`, and then `dl_initialise` sets it to a local variable that is
zero.
-/

namespace Pmon.LoadOffset
open ByteStore LoadFn FastLoad LoadCmd List
open LoadDatarec (Acceptable address data bytes)
open LoadSymrec (Field recordFields)
variable {σ : Type}

def enterAt (newsym : σ → List Char → ℕ → Option σ) (offset : ℕ) : List Field → σ → σ
  | [], syms => syms
  | f::fs, syms =>
    match newsym syms f.name ((f.adr+offset)%2^32) with
    | none => syms
    | some syms => enterAt newsym offset fs syms

structure Placed (M : Monitor σ) (offset : ℕ) (step : Step σ) : Prop where
  data : step.recbuf[0]?=some 'S' → ∀ n, addrWidth step.recbuf[1]?=some n →
    Acceptable M step.flags.toFlags offset n step.recbuf →
      Patched step.before.mem step.after.mem ((address n step.recbuf+offset)%2^32)
        (data n step.recbuf)
  symbol : step.recbuf[0]?=some 'S' → step.recbuf[1]?=some '4' → step.flags.absSyms=false →
    step.after.syms=enterAt M.newsym offset (recordFields step.recbuf) step.before.syms

theorem storeBytes_offset (n : ℕ) (p : List Char) (s : Loader σ) (addr : ℕ) :
    (storeBytes n p s addr).1.offset=s.offset := by
  induction n generalizing p s addr with
  | zero => rfl
  | succ n ih =>
    rw [storeBytes]
    split
    · rfl
    · rw [ih]

theorem dlCheckloadaddr_offset (M : Monitor σ) (s : Loader σ) (addr : ℕ) (size : ℤ) (v : Bool) :
    (dlCheckloadaddr M s addr size v).2.offset=s.offset := by
  unfold dlCheckloadaddr
  split
  · split <;> rfl
  · rfl

section
variable (M : Monitor σ) (flags : Flags) (s : Loader σ)
include M flags s

theorem loadData_offset (addr : ℕ) (len : ℤ) (p : List Char) :
    (loadData M flags s addr len p).2.2.offset=s.offset := by
  have hcheck := dlCheckloadaddr_offset M s addr len flags.verbose
  rw [loadData]
  rcases hr : dlCheckloadaddr M s addr len flags.verbose with ⟨_ | _,s₁⟩
  · rwa [hr] at hcheck
  · rw [hr] at hcheck
    have hstore := storeBytes_offset len.toNat p s₁ addr
    dsimp only
    rcases hs : storeBytes len.toNat p s₁ addr with ⟨s₂,_ | q⟩
    · rw [hs] at hstore
      exact hstore.trans hcheck
    · rw [hs] at hstore
      unfold checkSum
      dsimp only
      split
      · exact hstore.trans hcheck
      · split <;> exact hstore.trans hcheck

theorem s3Datarec_offset (p : List Char) :
    (s3Datarec M flags s p).2.2.offset=s.offset := by
  unfold s3Datarec
  dsimp only
  split
  · rfl
  split
  · rfl
  split
  · rfl
  split
  · rfl
  split
  · rfl
  · rw [loadData_offset]

theorem dlS3load_offset (recbuf : List Char) :
    (dlS3load M flags s recbuf).2.2.offset=s.offset := by
  have hsym : (s3Dlsym M flags s recbuf).2.offset=s.offset := by
    cases hflags : flags.noSyms with
    | true => rw [s3Dlsym,if_pos hflags]
    | false => rw [LoadSymrec.s3Dlsym_state M hflags,LoadSymrec.enter_offset]
  have hend : (s3Endrec s recbuf).2.offset=s.offset := by
    unfold s3Endrec
    dsimp only
    split <;> rfl
  unfold dlS3load
  split
  · rfl
  split
  · rfl
  split_ifs
  · rfl
  · exact s3Datarec_offset M flags s recbuf
  · exact hsym
  · exact hend
  · rfl
end

theorem enter_eq_enterAt {M : Monitor σ} {flags : Flags} (hflags : flags.absSyms=false)
    (fs : List Field) (s : Loader σ) :
    (LoadSymrec.enter M flags fs s).1.syms=enterAt M.newsym s.offset fs s.syms := by
  induction fs generalizing s with
  | nil => rfl
  | cons f fs ih =>
    rw [LoadSymrec.enter,enterAt,LoadSymrec.value,hflags,if_neg Bool.false_ne_true]
    cases M.newsym s.syms f.name ((f.adr+s.offset)%2^32) with
    | none => rfl
    | some syms => exact ih _

theorem loadRecord_placed (M : FastMonitor σ) {flags : FastFlags} (honly : flags.onlySyms=false)
    (hsyms : flags.noSyms=false) (recbuf : List Char) (s : FastLoader σ) :
    Placed M.toMonitor s.offset (loadRecord M flags .s3 recbuf s) := by
  constructor
  · intro hstart n hkind hok
    change recbuf[0]?=some 'S' at hstart
    change addrWidth recbuf[1]?=some n at hkind
    change Patched s.mem (dlS3load M.toMonitor flags.toFlags s.toLoader recbuf).2.2.mem _ _
    obtain ⟨s',hmem,heq⟩ := LoadDatarec.s3Datarec_of_acceptable honly hkind hok
    rw [LoadDatarec.dlS3load_eq_datarec hstart hkind,heq]
    rw [hmem]
    exact patched_applyWrites _ _ _
  · intro hstart hkind habs
    change recbuf[0]?=some 'S' at hstart
    change recbuf[1]?=some '4' at hkind
    have hload : (dlS3load M.toMonitor flags.toFlags s.toLoader recbuf).2.2 =
        (s3Dlsym M.toMonitor flags.toFlags s.toLoader recbuf).2 := by
      rw [dlS3load,if_neg (not_not.mpr hstart),hkind]
      rfl
    change (dlS3load M.toMonitor flags.toFlags s.toLoader recbuf).2.2.syms=_
    rw [hload,LoadSymrec.s3Dlsym_state M.toMonitor hsyms]
    exact enter_eq_enterAt habs _ _

theorem download_fast (B : Board σ) (flags : FastFlags) (lines : List (List Char))
    (s : FastLoader σ) : ∀ step∈download B flags lines (some .fast) s, step.dltype = .fast := by
  induction lines generalizing s with
  | nil => exact fun step h => absurd h not_mem_nil
  | cons line lines ih =>
    intro step h
    rw [download] at h
    dsimp only [Option.or] at h
    split_ifs at h
    · exact ih s step h
    · rw [mem_singleton.mp h]
      rfl
    · rw [mem_singleton.mp h]
      rfl
    · rcases mem_cons.mp h with rfl | h
      · rfl
      · exact ih _ step h

theorem mem_download_first (B : Board σ) (flags : FastFlags) {line : List Char} {d : Dltype}
    (hne : trim line≠[]) (hd : dltypeOf (trim line)=some d) (lines : List (List Char))
    (s : FastLoader σ) :
    loadRecord B.monitor flags d (trim line) s∈download B flags (line::lines) none s := by
  rw [download]
  rw [if_neg hne,Option.none_or,hd]
  dsimp only
  split_ifs
  · exact mem_singleton.mpr rfl
  · exact mem_singleton.mpr rfl
  · exact mem_cons_self

theorem download_s3 (B : Board σ) (flags : FastFlags) (lines : List (List Char))
    (dltype : Option Dltype) (s : FastLoader σ) :
    ∀ step∈download B flags lines dltype s, step.dltype = .s3 → step.before.offset=s.offset ∧
        step=loadRecord B.monitor flags .s3 step.recbuf step.before := by
  induction lines generalizing dltype s with
  | nil => exact fun step h => absurd h not_mem_nil
  | cons line lines ih =>
    intro step h htype
    rw [download] at h
    split at h
    · exact ih _ s step h htype
    · cases hd : dltype.or (dltypeOf (trim line)) with
      | none =>
        rw [hd] at h
        exact absurd h not_mem_nil
      | some d =>
        rw [hd] at h
        dsimp only at h
        have hfirst : ∀ step, step=loadRecord B.monitor flags d (trim line) s →
            step.dltype = .s3 → step.before.offset=s.offset ∧
              step=loadRecord B.monitor flags .s3 step.recbuf step.before := by
          rintro step rfl htype
          cases d with
          | fast => cases htype
          | s3 => exact ⟨rfl,rfl⟩
        split_ifs at h
        · exact hfirst step (mem_singleton.mp h) htype
        · exact hfirst step (mem_singleton.mp h) htype
        · rcases mem_cons.mp h with h | h
          · exact hfirst step h htype
          · cases d with
            | fast => exact absurd ((download_fast B flags lines _ step h).symm.trans htype) nofun
            | s3 =>
              obtain ⟨hoffset,hstep⟩ := ih _ _ step h htype
              exact ⟨hoffset.trans (dlS3load_offset _ _ _ _),hstep⟩

def addressBytes (adr : ℕ) : List UInt8 :=
  [UInt8.ofNat (adr/2^24), UInt8.ofNat (adr/2^16), UInt8.ofNat (adr/2^8),
    UInt8.ofNat adr]

def oneBytes (adr : ℕ) : List UInt8 := addressBytes adr++[0xaa] ++
    [UInt8.ofNat (notByte (6+SDump.byteSum (addressBytes adr++[0xaa])))]

def oneRecord (adr : ℕ) : List Char := 'S' :: '3' :: HexText.bytesText (6::oneBytes adr)

theorem bytes_bytesText (bs : List UInt8) : bytes (HexText.bytesText bs)=bs := by
  induction bs with
  | nil => rfl
  | cons b bs ih =>
    have hread : gethex (HexText.hexText 2 b.toNat++HexText.bytesText bs) 2=some b.toNat :=
      SDump.gethex_hexText (by decide) b.toNat_lt _
    rw [HexText.bytesText_cons,LoadDatarec.bytes_of_gethex hread,SDump.drop_hexText,ih,
      UInt8.ofNat_toNat]

theorem ofBytes_addressBytes {adr : ℕ} (h : adr<2^32) :
    LoadDatarec.ofBytes (addressBytes adr)=adr := by
  simp only [LoadDatarec.ofBytes,addressBytes,foldl_cons,foldl_nil,UInt8.toNat_ofNat']
  omega

variable {adr : ℕ}

theorem oneRecord_drop (adr : ℕ) : gethex ((oneRecord adr).drop 2) 2=some 6 ∧
      (oneRecord adr).drop 4=HexText.bytesText (oneBytes adr) := by
  have htext : (oneRecord adr).drop 2 =
      HexText.hexText 2 (6 : UInt8).toNat++HexText.bytesText (oneBytes adr) := rfl
  refine ⟨?_,?_⟩
  · rw [htext]
    exact SDump.gethex_hexText (by decide) (by decide) _
  · rw [show 4=2+2 from rfl,←drop_drop,htext,SDump.drop_hexText]

theorem oneRecord_parts (h : adr<2^32) :
    address 4 (oneRecord adr)=adr ∧ data 4 (oneRecord adr)=[0xaa] := by
  refine ⟨?_,?_⟩
  · rw [address,(oneRecord_drop adr).2,bytes_bytesText]
    exact ofBytes_addressBytes h
  · rw [data,(oneRecord_drop adr).2,bytes_bytesText]
    rfl

theorem oneRecord_acceptable (M : Monitor σ) (flags : Flags) {offset : ℕ} (h : adr<2^32)
    (hfree : M.refusal ((adr+offset)%2^32) 1=none) :
    Acceptable M flags offset 4 (oneRecord adr) := by
  obtain ⟨hread,hdrop⟩ := oneRecord_drop adr
  obtain ⟨haddress,hdata⟩ := oneRecord_parts h
  have hbytes : bytes ((oneRecord adr).drop 4)=oneBytes adr := by
    rw [hdrop,bytes_bytesText]
  have hlength : ((oneRecord adr).drop 4).length=12 := by
    rw [hdrop,HexText.length_bytesText]
    rfl
  refine ⟨⟨6,hread,by rw [hlength],by decide⟩,?_,?_,?_⟩
  · refine ((LoadDatarec.two_mul_length_bytes_eq_iff _).mp ?_).2
    rw [hbytes,hlength]
    rfl
  · rw [haddress,hdata]
    exact hfree
  · intro _ len hlen
    obtain rfl : 6=len := Option.some.inj (hread.symm.trans hlen)
    rw [hbytes,oneBytes,getLast?_concat,dropLast_concat,Option.map_some,
      UInt8.toNat_ofNat',Nat.mod_eq_of_lt (notByte_lt _)]
    rfl

def offsetOf {w : ℕ} (env : Rsa.Env w) : List Opt → Option ℕ
  | [] => none
  | .o optarg::rest => (offsetOf env rest).or (getRsa env optarg)
  | _::rest => offsetOf env rest

structure Accepted {w : ℕ} (env : Rsa.Env w) (opts : List Opt) : Prop where
  known : .other∉opts
  memory : .f∉opts
  offset : ∀ optarg, .o optarg∈opts → (getRsa env optarg).isSome

variable {w : ℕ} {env : Rsa.Env w} {opts : List Opt}

theorem Accepted.tail {o : Opt} (h : Accepted env (o::opts)) : Accepted env opts :=
  ⟨fun hm => h.known (mem_cons_of_mem o hm),fun hm => h.memory (mem_cons_of_mem o hm),
    fun optarg hm => h.offset optarg (mem_cons_of_mem o hm)⟩

theorem getRsa_lt {p : List Char} {x : ℕ} (h : getRsa env p=some x) : x<2^32 := by
  obtain ⟨v,-,rfl⟩ := Option.map_eq_some_iff.mp h
  exact Nat.mod_lt _ (by decide)

theorem offsetOf_lt {x : ℕ} (h : offsetOf env opts=some x) : x<2^32 := by
  induction opts with
  | nil => cases h
  | cons o opts ih =>
    cases o with
    | o optarg =>
      rw [offsetOf,Option.or_eq_some_iff] at h
      rcases h with h | ⟨-,h⟩
      · exact ih h
      · exact getRsa_lt h
    | _ => exact ih h

theorem Accepted.options_eq (h : Accepted env opts) (o : Options) (s : FastLoader σ) :
    ∃ o' s', options env opts o s=some (o',s') ∧ o'.flash=o.flash ∧
      s'.mem=s.mem ∧ o'.flags.onlySyms=o.flags.onlySyms ∧ o'.flags.noSyms=o.flags.noSyms := by
  induction opts generalizing o s with
  | nil => exact ⟨o,s,rfl,rfl,rfl,rfl,rfl⟩
  | cons opt opts ih =>
    cases opt with
    | f => exact absurd mem_cons_self h.memory
    | other => exact absurd mem_cons_self h.known
    | o optarg =>
      obtain ⟨x,hx⟩ := Option.isSome_iff_exists.mp (h.offset optarg mem_cons_self)
      rw [options,hx]
      exact ih h.tail _ _
    | _ => exact ih h.tail _ _

theorem Accepted.load_eq (h : Accepted env opts) (B : Board σ) (lines : List (List Char))
    (s : FastLoader σ) :
    ∃ flags s', load env B opts lines s=download B flags lines none s' ∧ s'.offset=0 ∧
      s'.mem=s.mem ∧ flags.onlySyms=false ∧ flags.noSyms=false := by
  obtain ⟨o,s',hopts,hflash,hmem,honly,hsyms⟩ := h.options_eq {} s
  have hflash' : ¬ o.flash=true := by
    rw [hflash]
    exact Bool.false_ne_true
  rw [load,hopts]
  dsimp only
  rw [if_neg hflash']
  exact ⟨_,_,rfl,rfl,hmem,honly,hsyms⟩

theorem isTail_hexChar {d : ℕ} (h : d<16) : isTail (HexText.hexChar d)=false := by
  interval_cases d <;> rfl

theorem trim_concat {c : Char} (h : isTail c=false) (p : List Char) :
    trim (p++[c])=p++[c] := by
  rw [trim,reverse_append,reverse_singleton,singleton_append,
    dropWhile_cons_of_neg (by rw [h]; exact Bool.false_ne_true),reverse_cons,
    reverse_reverse]

theorem trim_oneRecord (adr : ℕ) : trim (oneRecord adr)=oneRecord adr := by
  have hlast : ∃ p d, d<16 ∧ oneRecord adr=p++[HexText.hexChar d] := by
    generalize hcs : UInt8.ofNat (notByte (6+SDump.byteSum (addressBytes adr++[0xaa])))=cs
    refine ⟨'S' :: '3' :: HexText.bytesText (6::(addressBytes adr++[0xaa])) ++
      [HexText.hexChar (cs.toNat/16^1%16)],cs.toNat/16^0%16,by omega,?_⟩
    rw [oneRecord,oneBytes,hcs,HexText.bytesText,HexText.bytesText,←cons_append,
      flatMap_append]
    simp [HexText.hexText]
  obtain ⟨p,d,hd,heq⟩ := hlast
  rw [heq,trim_concat (isTail_hexChar hd)]

theorem loadRecord_oneRecord {M : FastMonitor σ} {flags : FastFlags} {s : FastLoader σ}
    (honly : flags.onlySyms=false) (hoffset : s.offset=0) (h : adr<2^32) {a : ℕ}
    (ha : a≠adr) : (loadRecord M flags .s3 (oneRecord adr) s).after.mem a=s.mem a := by
  change (dlS3load M.toMonitor flags.toFlags s.toLoader (oneRecord adr)).2.2.mem a=s.mem a
  obtain ⟨haddress,hdata⟩ := oneRecord_parts h
  obtain ⟨hread,hdrop⟩ := oneRecord_drop adr
  have hkind : addrWidth (oneRecord adr)[1]?=some 4 := rfl
  have hmod : (adr+s.offset)%2^32=adr := by
    rw [hoffset,Nat.add_zero,Nat.mod_eq_of_lt h]
  rw [LoadDatarec.dlS3load_eq_datarec rfl hkind]
  cases hfree : M.refusal adr 1 with
  | none =>
    have hok := oneRecord_acceptable M.toMonitor flags.toFlags h (by rw [hmod]; exact hfree)
    obtain ⟨s',hmem,heq⟩ := LoadDatarec.s3Datarec_of_acceptable (s := s.toLoader) honly hkind hok
    rw [heq]
    rw [hmem,haddress,hmod,hdata]
    exact applyWrites_of_forall_ne (by simpa [writesAt] using fun h => ha h.symm) _
  | some r =>
    have hbytes : bytes ((oneRecord adr).drop 4)=oneBytes adr := by rw [hdrop,bytes_bytesText]
    have hlength : 6*2=((oneRecord adr).drop 4).length := by
      rw [hdrop,HexText.length_bytesText]
      rfl
    have hcount : 4≤(bytes ((oneRecord adr).drop 4)).length := by
      rw [hbytes]
      exact Nat.le_add_right 4 2
    rw [LoadDatarec.s3Datarec_eq honly hkind hread hlength hcount,haddress,hmod]
    rw [show (((6 : ℕ) : ℤ)-((4 : ℕ)+1))=1 from rfl,loadData,dlCheckloadaddr,hfree]
    dsimp only
    split <;> rfl

/-- The load offset reaches the records exactly when it is zero. -/
theorem load_offset_iff {w : ℕ} {env : Rsa.Env w} {opts : List Opt} (hopts : Accepted env opts)
    {x : ℕ} (hx : offsetOf env opts=some x) :
    (∀ (σ : Type) (B : Board σ) (s : FastLoader σ) (lines : List (List Char)),
      ∀ step∈load env B opts lines s, step.dltype = .s3 → Placed B.monitor.toMonitor x step) ↔
    x=0 := by
  constructor
  · intro h
    by_contra hne
    have hlt := offsetOf_lt hx
    -- a byte that the offset moves to an address that can be loaded
    obtain ⟨adr,hadr,hsum,hother⟩ : ∃ adr, adr<2^32 ∧ (adr+x)%2^32=0x80100000 ∧
        0x80100000≠adr :=
      ⟨(0x80100000+(2^32-x))%2^32,Nat.mod_lt _ (by decide), by omega, by omega⟩
    let B : Board Unit := ⟨FastSyms.fastMonitor,id,0,0,false⟩
    obtain ⟨flags,s,hload,hoffset,hmem,honly,-⟩ :=
      hopts.load_eq B [oneRecord adr] FastSyms.clearFast
    have hstep : loadRecord B.monitor flags .s3 (oneRecord adr) s ∈
        load env B opts [oneRecord adr] FastSyms.clearFast := by
      have hfirst := @mem_download_first Unit B flags (oneRecord adr) .s3
      rw [trim_oneRecord] at hfirst
      rw [hload]
      exact hfirst (cons_ne_nil _ _) rfl [] s
    have hplaced := (h Unit B _ _ _ hstep rfl).data rfl 4 rfl
      (oneRecord_acceptable _ _ hadr (by rw [hsum]; decide +kernel))
    obtain ⟨haddress,hdata⟩ := oneRecord_parts hadr
    change Patched s.mem _ ((address 4 (oneRecord adr)+x)%2^32) (data 4 (oneRecord adr))
      at hplaced
    rw [haddress,hsum,hdata] at hplaced
    have hcell := loadRecord_oneRecord (M := B.monitor) honly hoffset hadr hother
    rw [hplaced.holds.1,hmem] at hcell
    cases hcell
  · rintro rfl σ B s lines step hstep htype
    obtain ⟨flags,s',hload,hoffset,-,honly,hsyms⟩ := hopts.load_eq B lines s
    rw [hload] at hstep
    obtain ⟨hbefore,heq⟩ := download_s3 B flags lines none s' step hstep htype
    have hplaced := loadRecord_placed B.monitor honly hsyms step.recbuf step.before
    rwa [←heq,hbefore,hoffset] at hplaced

def bareEnv : Rsa.Env 32 where
  inbase := .sixteen
  inalpha := .hex
  sym2adr _ := none
  getreg _ := none
  loadWord v := v
  uninit _ := 0

theorem load_offset_iff_zero : offsetOf bareEnv [.o "0".toList]=some 0 ∧
      ∀ (σ : Type) (B : Board σ) (s : FastLoader σ) (lines : List (List Char)),
        ∀ step∈load bareEnv B [.o "0".toList] lines s, step.dltype = .s3 →
          Placed B.monitor.toMonitor 0 step := by
  have hopts : Accepted bareEnv [.o "0".toList] := by
    refine ⟨by decide, by decide, fun optarg h => ?_⟩
    obtain rfl : optarg = "0".toList := by
      cases mem_singleton.mp h
      rfl
    decide +kernel
  have hzero : offsetOf bareEnv [.o "0".toList]=some 0 := by decide +kernel
  exact ⟨hzero,(load_offset_iff hopts hzero).mpr rfl⟩

theorem load_offset_ignored : offsetOf bareEnv [.o "1000".toList]=some 0x1000 ∧
      ((load bareEnv ⟨FastSyms.fastMonitor,id,0,0,false⟩ [.o "1000".toList]
        ["S309800200001234567860".toList] FastSyms.clearFast).map fun step =>
          (step.code,step.after.mem 0x80020000,step.after.mem 0x80021000)) =
        [(.cont,0x12,0)] := by
  decide +kernel

end Pmon.LoadOffset
