import Pmon.ByteStore
import Pmon.LoadFn

/-!
# Dumping memory as S-records and loading it back

`sdump` prints at most 32 bytes a record. Its checksum runs over signed bytes; it agrees with the
loader's in the low byte.
-/

namespace Pmon.SDump
open ByteStore HexText LoadFn List

def loadByte (m : ℕ → UInt8) (a : ℕ) : ℤ :=
  if (m a).toNat<128 then (m a).toNat else (m a).toNat-256

def headerSum (adr len : ℕ) : ℤ :=
  (List.range 4).foldl (fun cs i => cs + ((adr >>> (i * 8)) &&& 0xff : ℕ)) ((len + 5 : ℕ) : ℤ)

def dataLoop (m : ℕ → UInt8) : ℕ → ℕ → ℤ → List Char × ℤ
  | 0, _, cs => ([],cs)
  | n+1, a, cs =>
    let v := loadByte m a
    let (text,cs) := dataLoop m n ((a+1)%2^32) (cs+v)
    (formatX 2 (v%256).toNat++text,cs)

def sdumpRecord (m : ℕ → UInt8) (adr len : ℕ) : List Char :=
  let (text,cs) := dataLoop m len adr (headerSum adr len)
  'S' :: '3' :: (formatX 2 (len+5)++formatX 8 adr++text++formatX 2 (notByte cs))

def recordLoop (m : ℕ → UInt8) : ℕ → ℕ → ℕ → List (List Char)
  | 0, _, _ => []
  | fuel+1, adr, siz =>
    if 0<siz then
      let len := if siz<32 then siz else 32
      sdumpRecord m adr len::recordLoop m fuel ((adr+len)%2^32) (siz-len)
    else []

def endRecord : List Char := "S70500000000FA".toList

def sdump (m : ℕ → UInt8) (adr siz : ℕ) : List (List Char) :=
  recordLoop m siz adr siz++[endRecord]

def recordRanges (adr siz : ℕ) : List (ℕ × ℕ) :=
  (List.range ((siz+31)/32)).map fun k => (adr+32*k, min 32 (siz-32*k))

theorem hexDigit_hexChar {d : ℕ} (h : d<16) : hexDigit (hexChar d)=some d := by
  interval_cases d <;> rfl

theorem gethexLoop_hexText {w v : ℕ} (n : ℕ) (p : List Char) (hv : (v+1)*16^w≤2^32) :
    gethexLoop w v (hexText w n++p)=some (v*16^w+n%16^w) := by
  induction w generalizing v with
  | zero => simp [gethexLoop,Nat.mod_one]
  | succ w ih =>
    have hdigit : n/16^w%16<16 := Nat.mod_lt _ (by decide)
    have hpos : 0<16^w := by positivity
    have hshift : v*16%2^32=v*16 := by
      apply Nat.mod_eq_of_lt
      have hle : (v+1)*16*1≤(v+1)*16*16^w := Nat.mul_le_mul_left _ hpos
      rw [pow_succ'] at hv
      nlinarith
    have hbound : (v*16+n/16^w%16+1)*16^w≤2^32 := by
      have hle : v*16+n/16^w%16+1≤(v+1)*16 := by omega
      have hmul := Nat.mul_le_mul_right (16^w) hle
      rw [pow_succ'] at hv
      nlinarith
    have hsplit : n%16^(w+1)=n%16^w+16^w*(n/16^w%16) := Nat.mod_pow_succ
    rw [hexText_succ,cons_append,gethexLoop,hexDigit_hexChar hdigit]
    simp only
    rw [hshift,ih hbound,hsplit,pow_succ']
    congr 1
    ring

theorem gethex_hexText {w n : ℕ} (hw : w≤8) (hn : n<16^w) (p : List Char) :
    gethex (hexText w n++p) w=some n := by
  have hwidth : (0+1)*16^w≤2^32 := by
    have hle : 16^w≤16^8 := Nat.pow_le_pow_right (by decide) hw
    omega
  rw [gethex,gethexLoop_hexText n p hwidth,Nat.zero_mul,Nat.zero_add,Nat.mod_eq_of_lt hn]

theorem drop_hexText (w n : ℕ) (p : List Char) : (hexText w n++p).drop w=p := by
  have hlength := length_hexText w n
  rw [drop_append_of_le_length hlength.ge,drop_of_length_le hlength.le,nil_append]

def addrSum : ℕ → ℕ → ℤ
  | 0, _ => 0
  | n+1, a => (a/256^n%256 : ℕ)+addrSum n a

theorem addrBytes_hexText {n v : ℕ} (a : ℕ) (p : List Char) (sum : ℤ)
    (hv : (v+1)*256^n≤2^32) : addrBytes n (hexText (2*n) a++p) v sum
      = (sum+addrSum n a,.ok (v*256^n+a%256^n)) := by
  induction n generalizing v sum with
  | zero => simp [addrBytes,addrSum,Nat.mod_one]
  | succ n ih =>
    have hpow : 16^(2*n)=256^n := by rw [pow_mul]; rfl
    have hpos : 0<256^n := by positivity
    have hbyte : a/256^n%256<256 := Nat.mod_lt _ (by decide)
    -- the text splits into its first byte and the rest
    have htext : hexText (2*(n+1)) a++p
        = hexText 2 (a/256^n%256)++(hexText (2*n) a++p) := by
      rw [show 2*(n+1)=2+2*n by omega,hexText_add,hpow,append_assoc,
        ←hexText_mod 2 (a/256^n)]
      norm_num
    have hbound : (v*256+a/256^n%256+1)*256^n≤2^32 := by
      have hle : v*256+a/256^n%256+1≤(v+1)*256 := by omega
      have hmul := Nat.mul_le_mul_right (256^n) hle
      rw [pow_succ'] at hv
      nlinarith
    have haddr : (v*256+a/256^n%256)%2^32=v*256+a/256^n%256 := by
      apply Nat.mod_eq_of_lt
      have hle : (v*256+a/256^n%256+1)*1
          ≤ (v*256+a/256^n%256+1)*256^n := Nat.mul_le_mul_left _ hpos
      omega
    have hsplit : a%256^(n+1)=a%256^n+256^n*(a/256^n%256) :=
      Nat.mod_pow_succ
    rw [htext,addrBytes,gethex_hexText (by decide) (by norm_num; exact hbyte),drop_hexText]
    simp only
    have hvalue : (v*256+a/256^n%256)*256^n+a%256^n
        = v*256^(n+1)+a%256^(n+1) := by
      rw [hsplit,pow_succ']
      ring
    rw [haddr,ih _ hbound,hvalue,addrSum,add_assoc]

def byteSum (bs : List UInt8) : ℤ := (bs.map fun b => (b.toNat : ℤ)).sum

variable (m : ℕ → UInt8)

theorem loadByte_emod (a : ℕ) : loadByte m a%256=(m a).toNat := by
  have hbyte := (m a).toNat_lt
  rw [loadByte]
  split <;> omega

theorem headerSum_eq (adr len : ℕ) : headerSum adr len=(len+5 : ℕ)+addrSum 4 adr := by
  have hbyte : ∀ n : ℕ, n &&& 0xff = n % 256 := fun n => Nat.and_two_pow_sub_one_eq_mod n 8
  simp only [headerSum,range_succ,range_zero,nil_append,foldl_append,
    foldl_cons,foldl_nil,hbyte,Nat.shiftRight_eq_div_pow,addrSum]
  norm_num
  ring

theorem dataLoop_spec {n a : ℕ} (cs : ℤ) (h : a+n≤2^32) :
    (dataLoop m n a cs).1=bytesText (readCells m a n) ∧
      (dataLoop m n a cs).2%256=(cs+byteSum (readCells m a n))%256 := by
  induction n generalizing a cs with
  | zero => simp [dataLoop,readCells,byteSum]
  | succ n ih =>
    have hbyte := (m a).toNat_lt
    have hprint : formatX 2 (loadByte m a%256).toNat=hexText 2 (m a).toNat := by
      rw [loadByte_emod,Int.toNat_natCast,formatX_eq (by decide) (by norm_num; exact hbyte)]
    -- only the byte at the very top of memory is followed by a wrap, and it is the last one
    have hnext : dataLoop m n ((a+1)%2^32) (cs+loadByte m a)
        = dataLoop m n (a+1) (cs+loadByte m a) := by
      cases n with
      | zero => rfl
      | succ n => rw [Nat.mod_eq_of_lt (by omega)]
    have hrest := ih (cs+loadByte m a) (show a+1+n≤2^32 by omega)
    have hsigned := loadByte_emod m a
    simp only [dataLoop,hnext,hprint,readCells,bytesText_cons]
    refine ⟨by rw [hrest.1],?_⟩
    rw [hrest.2,byteSum,byteSum,map_cons,sum_cons]
    omega

theorem storeBytes_bytesText {σ : Type} (bs : List UInt8) (p : List Char) (s : Loader σ)
    {addr : ℕ} (h : addr+bs.length≤2^32) : storeBytes bs.length (bytesText bs++p) s addr
      = ({ s with mem := applyWrites (writesAt addr bs) s.mem,
                  chksum := s.chksum+byteSum bs },some p) := by
  induction bs generalizing s addr with
  | nil => simp [storeBytes,byteSum]
  | cons b bs ih =>
    have hbyte := b.toNat_lt
    rw [length_cons] at h
    -- a wrap can only follow the last byte, when the loop is over
    have hnext : ∀ t : Loader σ, storeBytes bs.length (bytesText bs++p) t ((addr+1)%2^32)
        = storeBytes bs.length (bytesText bs++p) t (addr+1) := by
      intro t
      cases bs with
      | nil => rfl
      | cons c bs => rw [Nat.mod_eq_of_lt (by rw [length_cons] at h; omega)]
    rw [bytesText_cons,append_assoc,length_cons,storeBytes,
      gethex_hexText (by decide) hbyte,drop_hexText]
    simp only
    rw [hnext,ih _ (by omega)]
    simp [byteSum,add_assoc]

theorem sdumpRecord_eq {adr len : ℕ} (hlen : len≤32) (hpos : 0<len) (hend : adr+len≤2^32)
    : sdumpRecord m adr len = 'S' :: '3' :: (hexText 2 (len+5)++(hexText (2*4) adr ++
          (bytesText (readCells m adr len) ++
            (hexText 2 (notByte (headerSum adr len+byteSum (readCells m adr len)))++[])))) := by
  have hdata := dataLoop_spec m (headerSum adr len) hend
  have hcount : formatX 2 (len+5)=hexText 2 (len+5) := formatX_eq (by decide) (by omega)
  have haddr : formatX 8 adr=hexText 8 adr := formatX_eq (by decide) (by omega)
  have hsum : formatX 2 (notByte (dataLoop m len adr (headerSum adr len)).2)
      = hexText 2 (notByte (headerSum adr len+byteSum (readCells m adr len))) := by
    rw [notByte_congr hdata.2]
    exact formatX_eq (by decide) (notByte_lt _)
  simp only [sdumpRecord,hdata.1,hcount,haddr,hsum,append_assoc,append_nil]

theorem loadData_bytesText {σ : Type} (M : Monitor σ) (s : Loader σ) {addr : ℕ}
    (bs : List UInt8) (hend : addr+bs.length≤2^32) (hok : M.refusal addr bs.length=none) :
    ∃ s', loadData M {} s addr bs.length
        (bytesText bs++(hexText 2 (notByte (s.chksum+byteSum bs))++[]))
        = (.cont,bs.length,s') ∧ s'.offset=s.offset ∧
      s'.mem=applyWrites (writesAt addr bs) s.mem := by
  have hsum := notByte_lt (s.chksum+byteSum bs)
  simp only [loadData,dlCheckloadaddr,hok,Int.toNat_natCast]
  rw [storeBytes_bytesText bs _ _ hend]
  simp only [checkSum]
  rw [gethex_hexText (by decide) hsum]
  exact ⟨_,if_neg (by simp),rfl,rfl⟩

theorem s3Datarec_hexText {σ : Type} (M : Monitor σ) (s : Loader σ) (adr count : ℕ)
    (p : List Char) (hadr : adr<2^32) (hcount : count<256) (hp : count*2=8+p.length) :
    s3Datarec M {} s ('S' :: '3' :: (hexText 2 count++(hexText (2*4) adr++p)))
      = loadData M {} {s with chksum := count+addrSum 4 adr} ((adr+s.offset)%2^32)
          (count-5) p := by
  generalize hr : 'S' :: '3' :: (hexText 2 count++(hexText (2*4) adr++p))=r
  have hlength : count*2=r.length-4 := by
    rw [←hr]
    simp only [length_cons,length_append,length_hexText]
    omega
  have hwidth : (0+1)*256^4≤2^32 := by decide
  have haddr : 0*256^4+adr%256^4=adr := by
    rw [Nat.mod_eq_of_lt (by omega),Nat.zero_mul,Nat.zero_add]
  have hkind : addrWidth r[1]?=some 4 := by rw [←hr]; rfl
  have hdrop2 : r.drop 2=hexText 2 count++(hexText (2*4) adr++p) := by rw [←hr]; rfl
  have hdrop4 : r.drop 4=hexText (2*4) adr++p := by
    rw [show 4=2+2 from rfl,←drop_drop,hdrop2,drop_hexText]
  have hdrop12 : r.drop (4+2*4)=p := by
    rw [←drop_drop,hdrop4,drop_hexText]
  have hsize : (count : ℤ)-((4 : ℕ)+1)=count-5 := by norm_num
  rw [s3Datarec,if_neg Bool.false_ne_true,hdrop2,gethex_hexText (by decide) hcount]
  simp only
  rw [if_neg (not_not.mpr hlength),hkind]
  simp only
  rw [hdrop4,addrBytes_hexText adr p _ hwidth,haddr,hdrop12,zero_add,hsize]

theorem dlS3load_sdumpRecord {σ : Type} (M : Monitor σ) (m : ℕ → UInt8) (s : Loader σ)
    (adr len : ℕ) (hoff : s.offset=0) (hlen : len≤32) (hpos : 0<len)
    (hend : adr+len≤2^32) (hok : M.refusal adr len=none) :
    ∃ s', dlS3load M {} s (sdumpRecord m adr len)=(.cont,len,s') ∧ s'.offset=0 ∧
      s'.mem=applyWrites (writesAt adr (readCells m adr len)) s.mem := by
  have hcells := length_readCells m adr len
  obtain ⟨s',hload,hs',hmem⟩ := loadData_bytesText M
    {s with chksum := headerSum adr len} (readCells m adr len)
    (by rw [hcells]; exact hend) (by rw [hcells]; exact hok)
  refine ⟨s',?_,hs'.trans hoff,hmem⟩
  -- the loader's sum after the address is the dump's header sum
  have hdata := s3Datarec_hexText M s adr (len+5)
    (bytesText (readCells m adr len) ++
      (hexText 2 (notByte (headerSum adr len+byteSum (readCells m adr len)))++[]))
    (by omega) (by omega) (by simp [hcells]; omega)
  have haddr : (adr+s.offset)%2^32=adr := by
    rw [hoff,Nat.add_zero,Nat.mod_eq_of_lt (by omega)]
  have hsize : ((len+5 : ℕ) : ℤ)-5=len := by push_cast; ring
  rw [←headerSum_eq,haddr,hsize] at hdata
  rw [hcells] at hload
  rw [sdumpRecord_eq m hlen hpos hend,←hload,←hdata]
  rfl

theorem dlS3load_endRecord {σ : Type} (M : Monitor σ) (s : Loader σ) :
    ∃ s', dlS3load M {} s endRecord=(.done,0,s') ∧ s'.mem=s.mem :=
  ⟨_,rfl,rfl⟩

theorem recordLoop_succ {fuel adr siz : ℕ} (hsiz : 0<siz) (hend : adr+siz≤2^32) :
    recordLoop m (fuel+1) adr siz=sdumpRecord m adr (min 32 siz) ::
          recordLoop m fuel (adr + min 32 siz) (siz - min 32 siz) := by
  have hlen : (if siz<32 then siz else 32) = min 32 siz := by
    split <;> omega
  rw [recordLoop,if_pos hsiz]
  simp only [hlen]
  congr 1
  -- the address only wraps when nothing is left
  by_cases hlast : adr + min 32 siz=2^32
  · have hzero : siz - min 32 siz=0 := by omega
    rw [hzero]
    cases fuel <;> rfl
  · rw [Nat.mod_eq_of_lt (by omega)]

theorem recordRanges_eq_cons {adr siz : ℕ} (hsiz : 0<siz) : recordRanges adr siz
      = (adr, min 32 siz)::recordRanges (adr + min 32 siz) (siz - min 32 siz) := by
  have hcount : (siz+31)/32=(siz - min 32 siz+31)/32+1 := by omega
  rw [recordRanges,hcount,range_succ_eq_map,map_cons,map_map,recordRanges]
  congr 1
  apply map_congr_left
  intro k hk
  rw [List.mem_range] at hk
  simp only [Function.comp_apply,Nat.succ_eq_add_one,Prod.mk.injEq]
  omega

theorem loadRecords_recordLoop {σ : Type} (M : Monitor σ) (m : ℕ → UInt8)
    (rest : List (List Char)) (fuel adr siz : ℕ) (hfuel : siz≤fuel)
    (hend : adr+siz≤2^32) (s : Loader σ) (hoff : s.offset=0)
    (hok : ∀ r∈recordRanges adr siz, M.refusal r.1 r.2=none) :
    ∃ s', s'.mem=applyWrites (writesAt adr (readCells m adr siz)) s.mem ∧
      loadRecords M {} s (recordLoop m fuel adr siz++rest)
        = ((recordRanges adr siz).map (fun r => (DlCode.cont,r.2))++(loadRecords M {} s' rest).1,
            (loadRecords M {} s' rest).2) := by
  -- induction on the fuel: each round consumes a record and at least one byte of the size
  induction fuel generalizing adr siz s with
  | zero =>
    have hzero : siz=0 := by omega
    subst hzero
    exact ⟨s,rfl,rfl⟩
  | succ fuel ih =>
    by_cases hsiz : siz=0
    · subst hsiz
      exact ⟨s,rfl,rfl⟩
    · rw [recordRanges_eq_cons (by omega)] at hok ⊢
      obtain ⟨t,hrecord,ht,hmem⟩ := dlS3load_sdumpRecord M m s adr
        (min 32 siz) hoff (by omega) (by omega) (by omega)
        (hok _ (mem_cons_self))
      obtain ⟨s',hmem',hrest⟩ := ih (adr + min 32 siz) (siz - min 32 siz)
        (by omega) (by omega) t ht (fun r hr => hok r (mem_cons_of_mem _ hr))
      refine ⟨s',?_,?_⟩
      · have hsplit : readCells m adr siz=readCells m adr (min 32 siz) ++
            readCells m (adr + min 32 siz) (siz - min 32 siz) := by
          rw [←readCells_add,Nat.add_sub_cancel' (Nat.min_le_right 32 siz)]
        rw [hmem',hmem,hsplit,writesAt_append,applyWrites_append,length_readCells]
      · rw [recordLoop_succ m (by omega) hend,cons_append,loadRecords,hrecord]
        simp only
        rw [hrest]
        rfl

/-- Loading a dump copies exactly the dumped range, and the end record is done. -/
theorem loadRecords_sdump {σ : Type} (M : Monitor σ) (m : ℕ → UInt8) (adr siz : ℕ)
    (hend : adr+siz≤2^32) (s : Loader σ) (hoff : s.offset=0)
    (hok : ∀ r∈recordRanges adr siz, M.refusal r.1 r.2=none) :
    (loadRecords M {} s (sdump m adr siz)).1
        = (recordRanges adr siz).map (fun r => (DlCode.cont,r.2))++[(DlCode.done,0)] ∧
      ∀ a, (loadRecords M {} s (sdump m adr siz)).2.mem a
        = if adr≤a ∧ a<adr+siz then m a else s.mem a := by
  obtain ⟨t,hmem,hload⟩ := loadRecords_recordLoop M m [endRecord] siz adr siz le_rfl hend s hoff hok
  obtain ⟨s',hdone,hs'⟩ := dlS3load_endRecord M t
  have hlast : loadRecords M {} t [endRecord]=([(DlCode.done,0)],s') := by
    simp only [loadRecords,hdone]
  rw [sdump,hload,hlast]
  refine ⟨rfl, fun a => ?_⟩
  rw [hs',hmem]
  by_cases ha : adr≤a ∧ a<adr+siz
  · have hcopied := (holds_applyWrites_writesAt adr (readCells m adr siz) s.mem).getElem
      (i := a-adr) (by rw [length_readCells]; omega)
    rw [if_pos ha]
    rw [Nat.add_sub_cancel' ha.1] at hcopied
    rw [hcopied,←(holds_readCells m adr siz).getElem,Nat.add_sub_cancel' ha.1]
  · rw [if_neg ha]
    apply applyWrites_writesAt_of_outside
    rw [length_readCells]
    omega

def promMonitor : Monitor Unit where
  ftext := 0x9fc00000
  etext := 0x9fc40000
  fdata := 0x80000000
  heaptop := 0x80020000
  memorysize := 0x01000000
  newsym := fun _ _ _ => some ()

def clearLoader : Loader Unit where
  mem := fun _ => 0
  entry := 0
  offset := 0
  minaddr := 0xffffffff
  maxaddr := 0
  chksum := 0
  syms := ()
  console := []

theorem loadRecords_sdump_forty :
    (loadRecords promMonitor {} clearLoader (sdump UInt8.ofNat 0x80100000 40)).1
        = [(.cont,32),(.cont,8),(.done,0)] ∧
      (loadRecords promMonitor {} clearLoader (sdump UInt8.ofNat 0x80100000 40)).2.mem 0x80100027
        = 0x27 := by
  have hload := loadRecords_sdump promMonitor UInt8.ofNat 0x80100000 40 (by decide) clearLoader rfl
    (by decide +kernel)
  refine ⟨hload.1,?_⟩
  rw [hload.2]
  rfl

end Pmon.SDump
