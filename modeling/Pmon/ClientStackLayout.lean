import Pmon.ClientStack

/-!
# Where `initstack` writes

With aligned vectors the writes of `initstack` are four pieces.
-/

namespace Pmon.ClientStack
open ByteStore EnvEntry SetEnv List
variable {top : BitVec 32}

theorem wrap_of_lt {n : ℕ} (h : n<2^32) : wrap n=n := Nat.mod_eq_of_lt h

variable (be : Bool) (n : ℕ) (tbl : Envvar) (av : List CString)

theorem wrap_lt : wrap n<2^32 := Nat.mod_lt _ (by decide)

@[simp] theorem wrap_wrap_add (k : ℕ) : wrap (wrap n+k)=wrap (n+k) := by
  simp [wrap]

@[simp] theorem wrap_wrap : wrap (wrap n)=wrap n := by simp [wrap]

theorem wrap_mod_four : wrap n%4=n%4 := by
  unfold wrap
  omega

@[simp] theorem length_wordBytes (w : ℕ) : (wordBytes be w).length=4 := by
  cases be <;> rfl

theorem wordBytes_wrap (w : ℕ) : wordBytes be (wrap w)=wordBytes be w := by
  have h0 : UInt8.ofNat (wrap w) = UInt8.ofNat w := UInt8.toNat_inj.mp (by simp [wrap])
  have h1 : UInt8.ofNat (wrap w/2^8) = UInt8.ofNat (w/2^8) :=
    UInt8.toNat_inj.mp (by simp [wrap]; omega)
  have h2 : UInt8.ofNat (wrap w/2^16) = UInt8.ofNat (w/2^16) :=
    UInt8.toNat_inj.mp (by simp [wrap]; omega)
  have h3 : UInt8.ofNat (wrap w/2^24) = UInt8.ofNat (w/2^24) :=
    UInt8.toNat_inj.mp (by simp [wrap]; omega)
  simp only [wordBytes,h0,h1,h2,h3]

theorem store_wrap (p : ℕ) (bs : List UInt8) : store (wrap p) bs=store p bs := by
  unfold store
  induction bs generalizing p with
  | nil => rfl
  | cons b bs ih =>
    have hnext := ih (p+1)
    have hstep := ih (wrap p+1)
    rw [wrap_wrap_add] at hstep
    simp only [writesAt_cons,map_cons,wrap_wrap]
    rw [←hstep,hnext]

theorem store_eq {p : ℕ} {bs : List UInt8} (h : p+bs.length≤2^32) :
    store p bs=writesAt p bs := by
  unfold store
  refine (map_congr_left fun w hw => ?_).trans (map_id _)
  have hlt := mem_writesAt hw
  rw [wrap_of_lt (by omega)]
  rfl

variable {strs : List (List UInt8)} {j s v : ℕ}

theorem mem_store (p : ℕ) (bs : List UInt8) (h : j<bs.length) :
    ∃ w∈store p bs, w.1=wrap (p+j) := by
  induction bs generalizing p j with
  | nil => simp at h
  | cons b bs ih =>
    cases j with
    | zero => exact ⟨(wrap p,b),by simp [store],rfl⟩
    | succ j =>
      obtain ⟨w,hw,heq⟩ := ih (p+1) (by simpa using h)
      refine ⟨w,?_,by rw [heq]; congr 1; omega⟩
      simp only [store,writesAt_cons,map_cons,mem_cons] at hw ⊢
      exact Or.inr hw

theorem storeWord_wrap (h : v%4=0) (w : ℕ) :
    storeWord be (wrap v) (wrap w)=some (store v (wordBytes be w)) := by
  rw [storeWord,wrap_mod_four,if_pos h,store_wrap,wordBytes_wrap]

theorem storeWord_null (h : v%4=0) :
    storeWord be (wrap v) 0=some (store v (wordBytes be 0)) := storeWord_wrap be h 0

def packed (strs : List (List UInt8)) : List UInt8 := strs.flatMap (· ++ [0])

@[simp] theorem packed_cons (str : List UInt8) (strs : List (List UInt8)) :
    packed (str::strs)=str++[0]++packed strs := by simp [packed]

def pointers : ℕ → List (List UInt8) → List ℕ
  | _, [] => []
  | s, str::strs => s::pointers (s+(str.length+1)) strs

@[simp] theorem length_pointers (s : ℕ) (strs : List (List UInt8)) :
    (pointers s strs).length=strs.length := by
  induction strs generalizing s with
  | nil => rfl
  | cons str strs ih => simp [pointers,ih]

def vectorWrites (be : Bool) : List (List UInt8) → ℕ → ℕ → List (ℕ × UInt8)
  | [], _, _ => []
  | str::strs, v, s =>
    store v (wordBytes be s)++store s (str++[0]) ++
      vectorWrites be strs (v+4) (s+(str.length+1))

theorem buildArgs_eq (hv : v%4=0) (s : ℕ) : buildArgs be av (wrap v) (wrap s) =
      some (vectorWrites be (av.map CString.bytes) v s,wrap (v+4*av.length),
        wrap (s+(packed (av.map CString.bytes)).length)) := by
  induction av generalizing v s with
  | nil => rfl
  | cons a av ih =>
    rw [buildArgs,storeWord_wrap be hv,Option.bind_some,wrap_wrap_add,wrap_wrap_add,
      ih (by omega),store_wrap]
    simp only [Option.map_some,map_cons,vectorWrites,packed_cons,length_append,
      length_cons,length_nil,Option.some.injEq,Prod.mk.injEq,true_and]
    constructor
    · congr 1
      omega
    · congr 1
      omega

theorem envbuild_eq (hv : v%4=0) (s : ℕ) : envbuild be tbl (wrap v) (wrap s) =
      some (vectorWrites be ((slots tbl).map envString) v s ++
        store (v+4*(slots tbl).length) (wordBytes be 0)) := by
  induction tbl generalizing v s with
  | nil => simpa [envbuild,slots,vectorWrites] using storeWord_null be hv
  | cons slot tbl ih =>
    cases slot with
    | none => exact ih hv s
    | some ep =>
      rw [envbuild,storeWord_wrap be hv,Option.bind_some,wrap_wrap_add,wrap_wrap_add,
        ih (by omega),store_wrap]
      simp only [Option.map_some,slots_cons_some,map_cons,vectorWrites,length_cons,
        append_assoc,Option.some.injEq]
      congr 4
      omega

theorem vectorWrites_covers_pointers (strs : List (List UInt8)) (h : j<4*strs.length) (v s : ℕ)
    : ∃ w∈vectorWrites be strs v s, w.1=wrap (v+j) := by
  induction strs generalizing v s j with
  | nil => simp at h
  | cons str strs ih =>
    rw [length_cons] at h
    by_cases hj : j<4
    · obtain ⟨w,hw,heq⟩ := mem_store v (wordBytes be s) (by simpa using hj)
      exact ⟨w,by simp [vectorWrites,hw],heq⟩
    · obtain ⟨w,hw,heq⟩ := ih (j := j-4) (by omega) (v+4) (s+(str.length+1))
      refine ⟨w,by simp [vectorWrites,hw],?_⟩
      rw [heq]
      congr 1
      omega

theorem vectorWrites_covers_strings (strs : List (List UInt8)) (h : j<(packed strs).length)
    (v s : ℕ) : ∃ w∈vectorWrites be strs v s, w.1=wrap (s+j) := by
  induction strs generalizing v s j with
  | nil => simp [packed] at h
  | cons str strs ih =>
    simp only [packed_cons,length_append,length_cons,length_nil] at h
    by_cases hj : j<str.length+1
    · obtain ⟨w,hw,heq⟩ := mem_store s (str++[0]) (by simpa using hj)
      exact ⟨w,by simp [vectorWrites,hw],heq⟩
    · obtain ⟨w,hw,heq⟩ := ih (j := j-(str.length+1)) (by omega) (v+4)
        (s+(str.length+1))
      refine ⟨w,by simp [vectorWrites,hw],?_⟩
      rw [heq]
      congr 1
      omega

theorem mem_vectorWrites (hv : v+4*strs.length≤2^32)
    (hs : s+(packed strs).length≤2^32) {w : ℕ × UInt8} (h : w∈vectorWrites be strs v s) :
    v≤w.1 ∧ w.1<v+4*strs.length ∨ s≤w.1 ∧ w.1<s+(packed strs).length := by
  induction strs generalizing v s with
  | nil => simp [vectorWrites] at h
  | cons str strs ih =>
    simp only [packed_cons,length_append,length_cons,length_nil] at hv hs ⊢
    rw [vectorWrites,store_eq (by rw [length_wordBytes]; omega),
      store_eq (by rw [length_append,length_singleton]; omega),mem_append,
      mem_append] at h
    rcases h with (h | h) | h
    · have hw := mem_writesAt h
      rw [length_wordBytes] at hw
      omega
    · have hw := mem_writesAt h
      rw [length_append,length_singleton] at hw
      omega
    · have hw := ih (by omega) (by omega) h
      omega

structure Wrote (be : Bool) (m m' : ℕ → UInt8) (v s : ℕ) (strs : List (List UInt8)) : Prop where
  pointers : Holds m' v ((pointers s strs).flatMap (wordBytes be))
  strings : Holds m' s (packed strs)
  outside : ∀ q, q<v ∨ v+4*strs.length≤q → q<s ∨ s+(packed strs).length≤q → m' q=m q

theorem vectorWrites_wrote (strs : List (List UInt8)) (hvs : v+4*strs.length ≤ s)
    (hs : s+(packed strs).length≤2^32) (m : ℕ → UInt8) :
    Wrote be m (applyWrites (vectorWrites be strs v s) m) v s strs := by
  induction strs generalizing v s m with
  | nil => exact ⟨trivial,trivial,fun _ _ _ => rfl⟩
  | cons str strs ih =>
    simp only [packed_cons,length_append,length_cons,length_nil] at hvs hs
    have hword : store v (wordBytes be s)=writesAt v (wordBytes be s) :=
      store_eq (by rw [length_wordBytes]; omega)
    have hstr : store s (str++[0])=writesAt s (str++[0]) :=
      store_eq (by rw [length_append,length_singleton]; omega)
    rw [vectorWrites,hword,hstr,applyWrites_append,applyWrites_append]
    -- the remaining writes lie behind the pointer and behind the string
    have hrest := ih (v := v+4) (s := s+(str.length+1)) (by omega) (by omega)
      (applyWrites (writesAt s (str++[0])) (applyWrites (writesAt v (wordBytes be s)) m))
    refine ⟨?_,?_,fun q hq hq' => ?_⟩
    · rw [ClientStack.pointers,flatMap_cons,holds_append,length_wordBytes]
      have hfirst := (holds_applyWrites_writesAt v (wordBytes be s) m).applyWrites_writesAt s
        (str++[0]) (by rw [length_wordBytes]; omega)
      refine ⟨holds_congr (fun q hq hq' => ?_) hfirst,hrest.pointers⟩
      rw [length_wordBytes] at hq'
      exact hrest.outside q (by omega) (by omega)
    · rw [packed_cons,holds_append]
      have hstring := holds_applyWrites_writesAt s (str++[0])
        (applyWrites (writesAt v (wordBytes be s)) m)
      refine ⟨holds_congr (fun q hq hq' => ?_) hstring,?_⟩
      · rw [length_append,length_singleton] at hq'
        exact hrest.outside q (by omega) (by omega)
      · rw [length_append,length_singleton]
        exact hrest.strings
    · simp only [packed_cons,length_append,length_cons,length_nil] at hq hq'
      rw [hrest.outside q (by omega) (by omega),applyWrites_writesAt_of_outside _ _ _ (by
          rw [length_append,length_singleton]; omega),
        applyWrites_writesAt_of_outside _ _ _ (by rw [length_wordBytes]; omega)]

theorem forall₂_pointers {m : ℕ → UInt8} (h : Holds m s (packed strs)) :
    List.Forall₂ (fun p str => Holds m p (str++[0])) (pointers s strs) strs := by
  induction strs generalizing s with
  | nil => exact .nil
  | cons str strs ih =>
    rw [packed_cons,holds_append,length_append,length_singleton] at h
    exact .cons h.1 (ih h.2)

theorem mem_regions {r : ℕ × ℕ} (h : r∈regions (pointers s strs) strs) :
    s≤r.1 ∧ r.1+r.2 ≤ s+(packed strs).length := by
  induction strs generalizing s with
  | nil => simp [regions,pointers] at h
  | cons str strs ih =>
    simp only [packed_cons,length_append,length_cons,length_nil]
    rw [regions,pointers,zipWith_cons_cons,mem_cons] at h
    rcases h with rfl | h
    · omega
    · have hr := ih h
      omega

theorem pairwise_regions (strs : List (List UInt8)) (s : ℕ) :
    (regions (pointers s strs) strs).Pairwise Apart := by
  induction strs generalizing s with
  | nil => exact .nil
  | cons str strs ih =>
    rw [regions,pointers,zipWith_cons_cons,pairwise_cons]
    refine ⟨fun r hr => ?_,ih _⟩
    have hle := mem_regions hr
    exact Or.inl hle.1

def envStrings (tbl : Envvar) : List (List UInt8) := (slots tbl).map envString
@[simp] theorem length_envStrings : (envStrings tbl).length=(slots tbl).length := length_map _

theorem envsizeStep_some (ec n : ℕ) (ep : Envpair) :
    envsizeStep (ec,wrap n) (some ep)=(ec+1,wrap (n+((envString ep).length+1))) := by
  obtain ⟨name,value⟩ := ep
  cases value with
  | none => simp [envsizeStep,envString,CPtr.bytes]
  | some value =>
    rw [envsizeStep,wrap_wrap_add]
    congr 3
    simp [envString]
    omega

theorem foldl_envsizeStep (ec n : ℕ) : tbl.foldl envsizeStep (ec,wrap n) =
      (ec+(slots tbl).length,wrap (n+(packed (envStrings tbl)).length)) := by
  induction tbl generalizing ec n with
  | nil => rfl
  | cons slot tbl ih =>
    cases slot with
    | none => exact ih ec n
    | some ep =>
      rw [foldl_cons,envsizeStep_some,ih]
      simp only [envStrings,slots_cons_some,map_cons,packed_cons,length_append,
        length_cons,length_nil,Prod.mk.injEq]
      constructor
      · omega
      · congr 1
        omega

theorem envsize_eq : envsize tbl=((slots tbl).length,wrap (packed (envStrings tbl)).length) := by
  have h := foldl_envsizeStep tbl 0 0
  rw [Nat.zero_add,Nat.zero_add] at h
  exact h

def frameBytes (av : List CString) (tbl : Envvar) : ℕ :=
  4*(av.length+(slots tbl).length+2)+(packed (av.map CString.bytes)).length +
    (packed (envStrings tbl)).length

def taken (av : List CString) (tbl : Envvar) : ℕ :=
  stacklen (veclen av.length (slots tbl).length) (wrap (packed (envStrings tbl)).length)

theorem taken_lt (tbl : Envvar) : taken av tbl<2^32 :=
  lt_of_le_of_lt (Nat.div_mul_le_self _ _) (wrap_lt _)

theorem taken_mod_four (tbl : Envvar) : taken av tbl%4=0 := by
  unfold taken stacklen
  omega

def frameWrites (be : Bool) (av : List CString) (tbl : Envvar) (v s : ℕ) : List (ℕ × UInt8) :=
  vectorWrites be (av.map CString.bytes) v s++store (v+4*av.length) (wordBytes be 0) ++
    (vectorWrites be (envStrings tbl) (v+4*av.length+4)
        (s+(packed (av.map CString.bytes)).length) ++
      store (v+4*av.length+4+4*(slots tbl).length) (wordBytes be 0))

theorem initstack_eq (htop : top.toNat%4=0) :
    let v := wrap (top.toNat+2^32-taken av tbl)
    initstack be tbl av true top=some
      { a0 := av.length, a1 := v, a2 := wrap (v+(av.length+1)*4)
        sp := wrap (v+2^32-32)
        writes := frameWrites be av tbl v (v+veclen av.length (slots tbl).length) } := by
  intro v
  have hlt := taken_lt av tbl
  have hmod := taken_mod_four av tbl
  have hwrap : wrap v=v := wrap_wrap _
  have hv : v%4=0 := by
    simp only [v,wrap_mod_four]
    omega
  have hv' : (v+4*av.length)%4=0 := by omega
  have hv'' : (v+4*av.length+4)%4=0 := by omega
  have hargs := buildArgs_eq be av hv (v+veclen av.length (slots tbl).length)
  rw [hwrap] at hargs
  have henv := envsize_eq tbl
  unfold initstack
  simp only [if_true,henv]
  change (buildArgs be av v (wrap (v+veclen av.length (slots tbl).length))).bind _=_
  rw [hargs,Option.bind_some]
  rw [storeWord_null be hv',Option.bind_some,wrap_wrap_add (v+4*av.length) 4]
  have hnull : (if (slots tbl).length≠0 then
      envbuild be tbl (wrap (v+4*av.length+4)) (wrap
        (v+veclen av.length (slots tbl).length+(packed (av.map CString.bytes)).length))
      else storeWord be (wrap (v+4*av.length+4)) 0) =
      envbuild be tbl (wrap (v+4*av.length+4)) (wrap
        (v+veclen av.length (slots tbl).length+(packed (av.map CString.bytes)).length)) := by
    by_cases hec : (slots tbl).length=0
    · have hnil := length_eq_zero_iff.mp hec
      rw [if_neg (by simpa using hec),storeWord_null be hv'',envbuild_eq be tbl hv'',hnil]
      simp [vectorWrites]
    · rw [if_pos hec]
  rw [hnull,envbuild_eq be tbl hv'']
  rfl

theorem initstack_misaligned (htop : top.toNat%4≠0) : initstack be tbl av true top=none := by
  have hlt := taken_lt av tbl
  have hmod := taken_mod_four av tbl
  have henv := envsize_eq tbl
  have hnsp : wrap (top.toNat+2^32-taken av tbl)%4≠0 := by
    rw [wrap_mod_four]
    omega
  unfold initstack
  simp only [if_true,henv]
  change (buildArgs be av (wrap (top.toNat+2^32-taken av tbl)) _).bind _=none
  -- the first pointer that is stored traps, be it the null pointer
  cases av with
  | nil =>
    rw [buildArgs,Option.bind_some]
    exact congrArg (Option.bind · _) (if_neg hnsp)
  | cons a av =>
    rw [buildArgs,storeWord,if_neg hnsp]
    rfl

theorem length_flatMap_wordBytes (ps : List ℕ) :
    (ps.flatMap (wordBytes be)).length=4*ps.length := by
  induction ps with
  | nil => rfl
  | cons p ps ih =>
    rw [flatMap_cons,length_append,length_wordBytes,ih,length_cons]
    omega

theorem frameWrites_covers_vectors (tbl : Envvar) (v s : ℕ)
    (h : j<4*(av.length+(slots tbl).length+2)) :
    ∃ w∈frameWrites be av tbl v s, w.1=wrap (v+j) := by
  unfold frameWrites
  by_cases h1 : j<4*av.length
  · obtain ⟨w,hw,heq⟩ := vectorWrites_covers_pointers be
      (av.map CString.bytes) (by simpa using h1) v s
    exact ⟨w,by simp [hw],heq⟩
  by_cases h2 : j<4*av.length+4
  · obtain ⟨w,hw,heq⟩ := mem_store (v+4*av.length) (wordBytes be 0) (j := j-4*av.length)
      (by rw [length_wordBytes]; omega)
    refine ⟨w,by simp [hw],?_⟩
    rw [heq]
    congr 1
    omega
  by_cases h3 : j<4*av.length+4+4*(slots tbl).length
  · obtain ⟨w,hw,heq⟩ := vectorWrites_covers_pointers be (envStrings tbl)
      (j := j-(4*av.length+4)) (by rw [length_envStrings]; omega)
      (v+4*av.length+4) (s+(packed (av.map CString.bytes)).length)
    refine ⟨w,by simp [hw],?_⟩
    rw [heq]
    congr 1
    omega
  · obtain ⟨w,hw,heq⟩ := mem_store (v+4*av.length+4+4*(slots tbl).length)
      (wordBytes be 0) (j := j-(4*av.length+4+4*(slots tbl).length))
      (by rw [length_wordBytes]; omega)
    refine ⟨w,by simp [hw],?_⟩
    rw [heq]
    congr 1
    omega

theorem frameWrites_covers_strings (tbl : Envvar) (v s : ℕ)
    (h : j<(packed (av.map CString.bytes)).length+(packed (envStrings tbl)).length) :
    ∃ w∈frameWrites be av tbl v s, w.1=wrap (s+j) := by
  unfold frameWrites
  by_cases h1 : j<(packed (av.map CString.bytes)).length
  · obtain ⟨w,hw,heq⟩ := vectorWrites_covers_strings be _ h1 v s
    exact ⟨w,by simp [hw],heq⟩
  · obtain ⟨w,hw,heq⟩ := vectorWrites_covers_strings be (envStrings tbl)
      (j := j-(packed (av.map CString.bytes)).length) (by omega)
      (v+4*av.length+4) (s+(packed (av.map CString.bytes)).length)
    refine ⟨w,by simp [hw],?_⟩
    rw [heq]
    congr 1
    omega

section
variable (be : Bool) {av : List CString} {tbl : Envvar} {v s : ℕ}
  (hs : s=v+4*(av.length+(slots tbl).length+2))
  (htop : s+(packed (av.map CString.bytes)).length+(packed (envStrings tbl)).length≤2^32)

include hs htop

theorem mem_frameWrites {w : ℕ × UInt8} (h : w∈frameWrites be av tbl v s) : v≤w.1 ∧
      w.1<s+(packed (av.map CString.bytes)).length+(packed (envStrings tbl)).length := by
  have hnull : ∀ p, p+4 ≤ s → v≤p → w∈store p (wordBytes be 0) → v≤w.1 ∧ w.1<s := by
    intro p hp hvp hw
    rw [store_eq (by rw [length_wordBytes]; omega)] at hw
    have hlt := mem_writesAt hw
    rw [length_wordBytes] at hlt
    omega
  simp only [frameWrites,mem_append] at h
  rcases h with (h | h) | h | h
  · have hw := mem_vectorWrites be (by rw [length_map]; omega) (by omega) h
    rw [length_map] at hw
    omega
  · have hw := hnull _ (by omega) (by omega) h
    omega
  · have hw := mem_vectorWrites be (by rw [length_envStrings]; omega) (by omega) h
    rw [length_envStrings] at hw
    omega
  · have hw := hnull _ (by omega) (by omega) h
    omega

theorem frameWrites_vectors (m : ℕ → UInt8) :
    Vector be (applyWrites (frameWrites be av tbl v s) m) v
      (pointers s (av.map CString.bytes)) (av.map CString.bytes) ∧
    Vector be (applyWrites (frameWrites be av tbl v s) m) (v+4*av.length+4)
      (pointers (s+(packed (av.map CString.bytes)).length) (envStrings tbl))
      (envStrings tbl) := by
  have hword : ∀ p, p+4 ≤ s → store p (wordBytes be 0)=writesAt p (wordBytes be 0) :=
    fun p hp => store_eq (by rw [length_wordBytes]; omega)
  have hwl := length_wordBytes be 0
  have hone : [0].flatMap (wordBytes be)=wordBytes be 0 := flatMap_singleton _ _
  have hal : (av.map CString.bytes).length=av.length := length_map _
  have hel := length_envStrings tbl
  rw [frameWrites,applyWrites_append,applyWrites_append,applyWrites_append,
    hword _ (by omega),hword _ (by omega)]
  -- the memory after each of the four pieces
  have h₁ := vectorWrites_wrote be (av.map CString.bytes) (v := v) (s := s)
    (by omega) (by omega) m
  generalize applyWrites (vectorWrites be (av.map CString.bytes) v s) m=m₁ at h₁ ⊢
  have hnull₂ := holds_applyWrites_writesAt (v+4*av.length) (wordBytes be 0) m₁
  have hout₂ := fun q => applyWrites_writesAt_of_outside (v+4*av.length) (wordBytes be 0) m₁
    (q := q)
  generalize applyWrites (writesAt (v+4*av.length) (wordBytes be 0)) m₁=m₂ at hnull₂ hout₂ ⊢
  have h₃ := vectorWrites_wrote be (envStrings tbl) (v := v+4*av.length+4)
    (s := s+(packed (av.map CString.bytes)).length) (by omega) (by omega) m₂
  generalize applyWrites (vectorWrites be (envStrings tbl) (v+4*av.length+4)
    (s+(packed (av.map CString.bytes)).length)) m₂=m₃ at h₃ ⊢
  have hnull₄ := holds_applyWrites_writesAt (v+4*av.length+4+4*(slots tbl).length)
    (wordBytes be 0) m₃
  have hout₄ := fun q => applyWrites_writesAt_of_outside
    (v+4*av.length+4+4*(slots tbl).length) (wordBytes be 0) m₃ (q := q)
  generalize applyWrites (writesAt (v+4*av.length+4+4*(slots tbl).length)
    (wordBytes be 0)) m₃=m₄ at hnull₄ hout₄ ⊢
  have hptrs := length_flatMap_wordBytes be (pointers s (av.map CString.bytes))
  have hptrs' := length_flatMap_wordBytes be
    (pointers (s+(packed (av.map CString.bytes)).length) (envStrings tbl))
  rw [length_pointers] at hptrs hptrs'
  constructor
  · refine ⟨?_,forall₂_pointers (holds_congr (fun q hq hq' => ?_) h₁.strings)⟩
    · rw [flatMap_append,holds_append,hptrs,hal,hone]
      refine ⟨holds_congr (fun q hq hq' => ?_) h₁.pointers,holds_congr (fun q hq hq' => ?_) hnull₂⟩
      · rw [hptrs] at hq'
        rw [hout₄ q (by omega),h₃.outside q (by omega) (by omega),hout₂ q (by omega)]
      · rw [hwl] at hq'
        rw [hout₄ q (by omega),h₃.outside q (by omega) (by omega)]
    · rw [hout₄ q (by omega),h₃.outside q (by omega) (by omega),hout₂ q (by omega)]
  · refine ⟨?_,forall₂_pointers (holds_congr (fun q hq hq' => ?_) h₃.strings)⟩
    · rw [flatMap_append,holds_append,hptrs',hel,hone]
      refine ⟨holds_congr (fun q hq hq' => ?_) h₃.pointers,hnull₄⟩
      rw [hptrs'] at hq'
      exact hout₄ q (by omega)
    · exact hout₄ q (by omega)
end

variable {tbl : Envvar} {av : List CString}

theorem frame_apart {v s : ℕ} (hs : s=v+4*(av.length+(slots tbl).length+2)) :
    ((v,4*((pointers s (av.map CString.bytes)).length+1)) ::
      (v+4*av.length+4,4*((pointers (s+(packed (av.map CString.bytes)).length)
        (envStrings tbl)).length+1)) ::
      (regions (pointers s (av.map CString.bytes)) (av.map CString.bytes) ++
        regions (pointers (s+(packed (av.map CString.bytes)).length) (envStrings tbl))
          (envStrings tbl))).Pairwise Apart := by
  have hal : (av.map CString.bytes).length=av.length := length_map _
  have hbehind : ∀ r∈regions (pointers s (av.map CString.bytes)) (av.map CString.bytes) ++
      regions (pointers (s+(packed (av.map CString.bytes)).length) (envStrings tbl))
        (envStrings tbl), s≤r.1 := by
    intro r hr
    rcases mem_append.mp hr with hr | hr
    · exact (mem_regions hr).1
    · exact le_trans (Nat.le_add_right _ _) (mem_regions hr).1
  rw [length_pointers,length_pointers,length_envStrings,hal,pairwise_cons,
    pairwise_cons,pairwise_append]
  refine ⟨fun r hr => Or.inl ?_,fun r hr => Or.inl ?_,pairwise_regions _ _,
    pairwise_regions _ _,fun r hr r' hr' => Or.inl ?_⟩
  · rcases mem_cons.mp hr with rfl | hr
    · omega
    · have hle := hbehind r hr
      omega
  · have hle := hbehind r hr
    omega
  · have hle := (mem_regions hr).2
    have hle' := (mem_regions hr').1
    omega

structure Fits (av : List CString) (tbl : Envvar) (top : ℕ) : Prop where
  aligned : top%4=0
  room : taken av tbl≤top
  counted : frameBytes av tbl≤taken av tbl

instance (av : List CString) (tbl : Envvar) (top : ℕ) : Decidable (Fits av tbl top) :=
  decidable_of_iff (top%4=0 ∧ taken av tbl≤top ∧ frameBytes av tbl≤taken av tbl)
    ⟨fun h => ⟨h.1,h.2.1,h.2.2⟩, fun h => ⟨h.1,h.2,h.3⟩⟩

theorem veclen_eq (ac ec : ℕ) : veclen ac ec=wrap (4*(ac+ec+2)) :=
  congrArg wrap (Nat.mul_comm _ _)

theorem frame_start (h : taken av tbl ≤ top.toNat) :
    wrap (top.toNat+2^32-taken av tbl) = top.toNat-taken av tbl := by
  have htop := top.isLt
  unfold wrap
  omega

theorem fits_of_inside {be : Bool} {f : Frame} (hf : initstack be tbl av true top=some f)
    (hinside : ∀ w∈f.writes, f.a1≤w.1 ∧ w.1 < top.toNat) : Fits av tbl top.toNat := by
  have hlt := taken_lt av tbl
  have htop := top.isLt
  have haligned : top.toNat%4=0 := by
    by_contra hmis
    rw [initstack_misaligned be tbl av hmis] at hf
    cases hf
  rw [initstack_eq be tbl av haligned] at hf
  cases hf
  -- the first byte of the frame is written, so the frame starts below `top`
  obtain ⟨w,hw,hwv⟩ := frameWrites_covers_vectors be av tbl
    (wrap (top.toNat+2^32-taken av tbl)) _ (j := 0) (by omega)
  have hfirst := (hinside w hw).2
  rw [hwv,Nat.add_zero,wrap_wrap] at hfirst
  have hroom : taken av tbl ≤ top.toNat := by
    by_contra hover
    rw [wrap_of_lt (by omega)] at hfirst
    omega
  refine ⟨haligned,hroom,?_⟩
  by_contra hshort
  unfold frameBytes at hshort
  rw [frame_start hroom] at hinside
  -- otherwise the byte at `top` is written, as part of a vector or of a string
  have hwrote : ∃ w∈frameWrites be av tbl (top.toNat-taken av tbl) (top.toNat -
      taken av tbl+veclen av.length (slots tbl).length), w.1 = top.toNat := by
    by_cases hj : taken av tbl<4*(av.length+(slots tbl).length+2)
    · obtain ⟨w,hw,heq⟩ := frameWrites_covers_vectors be av tbl (top.toNat-taken av tbl)
        (top.toNat-taken av tbl+veclen av.length (slots tbl).length) hj
      rw [wrap_of_lt (by omega)] at heq
      exact ⟨w,hw,by omega⟩
    · rw [veclen_eq,wrap_of_lt (by omega)]
      obtain ⟨w,hw,heq⟩ := frameWrites_covers_strings be av tbl (top.toNat-taken av tbl)
        (top.toNat-taken av tbl+4*(av.length+(slots tbl).length+2))
        (j := taken av tbl-4*(av.length+(slots tbl).length+2)) (by omega)
      rw [wrap_of_lt (by omega)] at heq
      exact ⟨w,hw,by omega⟩
  obtain ⟨w,hw,heq⟩ := hwrote
  have hbelow := (hinside w hw).2
  omega

/-- `initstack` prepares the stack exactly if the frame fits. -/
theorem initstack_prepared_iff (be : Bool) (m : ℕ → UInt8) (av : List CString) (tbl : Envvar)
    (top : BitVec 32) :
    (∃ f, initstack be tbl av true top=some f ∧ Prepared be m av tbl top.toNat f) ↔
      Fits av tbl top.toNat := by
  constructor
  · rintro ⟨f,hf,hprep⟩
    exact fits_of_inside hf hprep.inside
  · intro hfits
    have htop := top.isLt
    have hcounted := hfits.counted
    have hroom := hfits.room
    unfold frameBytes at hcounted
    refine ⟨_,initstack_eq be tbl av hfits.aligned,?_⟩
    have hveclen : veclen av.length (slots tbl).length =
        4*(av.length+(slots tbl).length+2) := by
      rw [veclen_eq,wrap_of_lt (by omega)]
    rw [frame_start hroom,hveclen]
    obtain ⟨v,hv⟩ : ∃ v, v+taken av tbl = top.toNat := ⟨_,Nat.sub_add_cancel hroom⟩
    rw [←hv,Nat.add_sub_cancel]
    have ha2 : wrap (v+(av.length+1)*4)=v+4*av.length+4 := by
      rw [wrap_of_lt (by omega)]
      omega
    rw [ha2]
    have hend : v+4*(av.length+(slots tbl).length+2) +
        (packed (av.map CString.bytes)).length+(packed (envStrings tbl)).length ≤
        v+taken av tbl := by omega
    have hspace : v+4*(av.length+(slots tbl).length+2) +
        (packed (av.map CString.bytes)).length+(packed (envStrings tbl)).length≤2^32 := by
      omega
    constructor
    · intro w hw
      have hbound := mem_frameWrites be rfl hspace hw
      exact ⟨hbound.1,lt_of_lt_of_le hbound.2 hend⟩
    · have hvectors := frameWrites_vectors be rfl hspace m
      exact ⟨_,_,hvectors.1,hvectors.2,frame_apart rfl⟩

def oneVariable : Envvar := [none,some ⟨text "moresz",some (text "10")⟩]

theorem initstack_prepared_short :
    ∃ f, initstack true oneVariable [text "g"] true 0x80100000#32=some f ∧
      Prepared true (fun _ => 0) [text "g"] oneVariable 0x80100000 f :=
  (initstack_prepared_iff true (fun _ => 0) [text "g"] oneVariable 0x80100000#32).mpr
    (by decide +kernel)

theorem initstack_overrun :
    (initstack true oneVariable [text "ether(0)vmunix"] true 0x80100000#32).map (fun f =>
      (f.a1,f.writes.any fun w => w.1 == 0x80100000))=some (0x800fffe0,true) := by
  decide +kernel

end Pmon.ClientStack
