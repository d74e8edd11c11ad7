import Pmon.NvEnv

/-!
# Layout of the battery-backed environment

`Image`: the region holds the magic, the size and the packed entries; `Layout` adds checksum and
state.
-/

namespace Pmon.NvEnv
open ByteStore PackedRecords EnvEntry List Function
variable {s : Store} {bodies : List (List UInt8)}

def word (m : ℕ → UInt8) (offs : ℕ) : ℕ := (m (offs+1)).toNat*256+(m offs).toNat
theorem getshort_eq (s : Store) (offs : ℕ) : s.getshort offs=word s.getbyte offs := rfl

variable {e fuel top : ℕ} {m : ℕ → UInt8}

theorem word_congr {m' : ℕ → UInt8} {offs : ℕ} (h0 : m' offs=m offs)
    (h1 : m' (offs+1)=m (offs+1)) : word m' offs=word m offs := by
  rw [word,h0,h1,word]

structure Image (m : ℕ → UInt8) (maxsize : ℕ) (bodies : List (List UInt8)) : Prop where
  magic : word m envoffMagic=envMagic
  size : word m envoffSize=(packed bodies).length
  entries : Holds m envoffBase (packed bodies)
  bounds : ∀ body∈bodies, body.length+1<256
  fits : envoffBase+(packed bodies).length ≤ maxsize

/-- A valid store with these entries. -/
structure Layout (s : Store) (bodies : List (List UInt8)) : Prop where
  image : Image s.getbyte s.envMaxsize bodies
  csum : s.calcsum=s.getshort envoffCsum
  stateByte : s.getbyte envoffState=EnvState.toByte .ok
  state : s.envState = .ok

theorem getbyte_poke (s : Store) (ws : List (ℕ × UInt8)) :
    (s.poke ws).getbyte=applyWrites ws s.getbyte :=
  applyWrites_shiftWrites s.envOffs ws s.nvram

theorem poke_poke (s : Store) (ws vs : List (ℕ × UInt8)) :
    (s.poke ws).poke vs=s.poke (ws++vs) := by
  simp [Store.poke,applyWrites_append]

theorem poke_nil (s : Store) : s.poke []=s := by
  simp [Store.poke]

@[simp] theorem poke_envMaxsize (s : Store) (ws : List (ℕ × UInt8)) :
    (s.poke ws).envMaxsize=s.envMaxsize := rfl

@[simp] theorem poke_envOffs (s : Store) (ws : List (ℕ × UInt8)) :
    (s.poke ws).envOffs=s.envOffs := rfl

@[simp] theorem poke_envState (s : Store) (ws : List (ℕ × UInt8)) :
    (s.poke ws).envState=s.envState := rfl

@[simp] theorem poke_envInitState (s : Store) (ws : List (ℕ × UInt8)) :
    (s.poke ws).envInitState=s.envInitState := rfl

def shortWrites (offs val : ℕ) : List (ℕ × UInt8) :=
  [(offs, UInt8.ofNat val),(offs+1, UInt8.ofNat (val/256))]

theorem setshort_eq (s : Store) (offs val : ℕ) :
    s.setshort offs val=s.poke (shortWrites offs val) := by
  rw [Store.setshort,Store.setbyte,Store.setbyte,poke_poke]
  rfl

theorem word_shortWrites (m : ℕ → UInt8) (offs : ℕ) {val : ℕ} (h : val<0x10000) :
    word (applyWrites (shortWrites offs val) m) offs=val := by
  have hhi : (UInt8.ofNat (val/256)).toNat=val/256 := toNat_size (by omega)
  have hlo : (UInt8.ofNat val).toNat=val%256 := by simp
  simp only [word,shortWrites,applyWrites_cons,applyWrites_nil]
  rw [update_self,update_of_ne (by simp),update_self,hhi,hlo]
  omega

theorem applyWrites_shortWrites_of_ne (m : ℕ → UInt8) {offs q : ℕ} (val : ℕ)
    (h0 : q≠offs) (h1 : q≠offs+1) : applyWrites (shortWrites offs val) m q=m q := by
  simp only [shortWrites,applyWrites_cons,applyWrites_nil]
  rw [update_of_ne h1,update_of_ne h0]

theorem sumLoop_congr {t : Store} (hmax : s.envMaxsize=t.envMaxsize)
    (h : ∀ q, envoffBase≤q → s.getbyte q=t.getbyte q) (fuel : ℕ) {i : ℕ} (hi : envoffBase ≤ i)
    (sum : ℕ) : s.sumLoop fuel i sum=t.sumLoop fuel i sum := by
  induction fuel generalizing i sum with
  | zero => rfl
  | succ fuel ih =>
    have hshort : s.getshort i=t.getshort i := by
      rw [Store.getshort,Store.getshort,h i hi,h (i+1) (by omega)]
    rw [Store.sumLoop,Store.sumLoop,hmax,hshort,ih (by omega)]

theorem calcsum_congr {t : Store} (hmax : s.envMaxsize=t.envMaxsize)
    (h : ∀ q, envoffBase≤q → s.getbyte q=t.getbyte q) : s.calcsum=t.calcsum := by
  rw [Store.calcsum,Store.calcsum,hmax]
  exact sumLoop_congr hmax h _ le_rfl _

theorem sumLoop_lt (s : Store) (fuel i : ℕ) {sum : ℕ} (h : sum<0x10000) :
    s.sumLoop fuel i sum<0x10000 := by
  induction fuel generalizing i sum with
  | zero => exact h
  | succ fuel ih =>
    rw [Store.sumLoop]
    split
    · exact ih _ (Nat.mod_lt _ (by decide))
    · exact h

theorem calcsum_lt (s : Store) : s.calcsum<0x10000 := sumLoop_lt s _ _ (by decide)

def sumWrites (sum : ℕ) : List (ℕ × UInt8) :=
  shortWrites envoffCsum sum++[(envoffState,EnvState.toByte .ok)]

theorem updatesum_eq (s : Store) :
    s.updatesum={s.poke (sumWrites s.calcsum) with envState := .ok} := by
  rw [Store.updatesum,Store.setstate,Store.setbyte,setshort_eq,poke_poke]
  rfl

theorem applyWrites_sumWrites_of_ne (m : ℕ → UInt8) (sum : ℕ) {q : ℕ}
    (h0 : q≠envoffCsum) (h1 : q≠envoffCsum+1) (h2 : q≠envoffState) :
    applyWrites (sumWrites sum) m q=m q := by
  rw [sumWrites,applyWrites_append,applyWrites_cons,applyWrites_nil,
    update_of_ne h2,applyWrites_shortWrites_of_ne m sum h0 h1]

theorem Image.congr {m' : ℕ → UInt8} {maxsize : ℕ} (h : Image m maxsize bodies)
    (hsame : ∀ q, q≠envoffCsum → q≠envoffCsum+1 → q≠envoffState →
      q<envoffBase+(packed bodies).length → m' q=m q) : Image m' maxsize bodies where
  magic := by
    rw [←h.magic]
    exact word_congr (hsame 0 (by decide) (by decide) (by decide) (by simp [envoffBase]))
      (hsame 1 (by decide) (by decide) (by decide) (by simp [envoffBase]; omega))
  size := by
    rw [←h.size]
    exact word_congr (hsame 4 (by decide) (by decide) (by decide) (by simp [envoffBase]; omega))
      (hsame 5 (by decide) (by decide) (by decide) (by simp [envoffBase]; omega))
  entries := by
    refine holds_congr (fun q hq hq' => ?_) h.entries
    simp only [envoffBase] at hq
    exact hsame q (by simp [envoffCsum]; omega) (by simp [envoffCsum]; omega)
      (by simp [envoffState]; omega) hq'
  bounds := h.bounds
  fits := h.fits

theorem updatesum_layout (h : Image s.getbyte s.envMaxsize bodies) : Layout s.updatesum bodies := by
  have hget : s.updatesum.getbyte=applyWrites (sumWrites s.calcsum) s.getbyte := by
    rw [updatesum_eq,←getbyte_poke]
    rfl
  have hsum : s.updatesum.calcsum=s.calcsum := by
    refine calcsum_congr (by rw [updatesum_eq]; rfl) fun q hq => ?_
    rw [hget]
    simp only [envoffBase] at hq
    exact applyWrites_sumWrites_of_ne _ _ (by simp [envoffCsum]; omega)
      (by simp [envoffCsum]; omega) (by simp [envoffState]; omega)
  refine ⟨?_,?_,?_,?_⟩
  · have hmax : s.updatesum.envMaxsize=s.envMaxsize := by rw [updatesum_eq]; rfl
    rw [hget,hmax]
    exact h.congr fun q h0 h1 h2 _ => applyWrites_sumWrites_of_ne _ _ h0 h1 h2
  · rw [hsum,getshort_eq,hget,sumWrites,applyWrites_append]
    have hword := word_shortWrites s.getbyte envoffCsum (calcsum_lt s)
    have hout : ∀ q, q≠envoffState → applyWrites [(envoffState,EnvState.toByte .ok)]
          (applyWrites (shortWrites envoffCsum s.calcsum) s.getbyte) q =
        applyWrites (shortWrites envoffCsum s.calcsum) s.getbyte q := fun q hq =>
      update_of_ne hq _ _
    rw [word_congr (hout _ (by decide)) (hout _ (by decide)),hword]
  · rw [hget,sumWrites,applyWrites_append,applyWrites_cons,applyWrites_nil,update_self]
  · rw [updatesum_eq]

def Selects (name body : List UInt8) : Prop := body.head?≠some eqSign ∧ Matches body name

instance (name : List UInt8) : DecidablePred (Selects name) := fun body =>
  inferInstanceAs (Decidable (body.head?≠some eqSign ∧ Matches body name))

theorem findLoop_test (s : Store) {body name : List UInt8} (h : Holds s.getbyte (e+1) body)
    (hne : name≠[] ∨ body≠[]) :
    (s.getbyte (e+1)≠eqSign ∧ name.length≤body.length+1-1 ∧
      matchLen s.getbyte (e+1) name=name.length ∧
      (name.length=body.length+1-1 ∨ s.getbyte (e+1+name.length)=eqSign)) ↔
    Selects name body := by
  rw [Nat.add_sub_cancel]
  by_cases hb : body=[]
  · have hname := length_pos_iff.mpr (hne.resolve_right (by simp [hb]))
    have hno : ¬ Selects name body := fun hsel => by
      have hl := hsel.2.1.length_le
      rw [hb,length_nil] at hl
      omega
    refine iff_of_false (fun hc => ?_) hno
    have hl := hc.2.1
    rw [hb,length_nil] at hl
    omega
  · have hhead := head?_of_holds h hb
    have hfirst : s.getbyte (e+1)≠eqSign ↔ body.head?≠some eqSign := by
      rw [hhead]
      simp
    rw [hfirst,Selects]
    exact and_congr_right fun _ => matchLen_matches s.getbyte h

theorem findLoop_spec (s : Store) {name : List UInt8}
    (h : Walk s.getbyte top (fun body => body.length+1<256 ∧ (name≠[] ∨ body≠[]))
      fuel e bodies) : FirstAt (Selects name) bodies e (s.findLoop name top fuel e) := by
  refine h.firstAt (fun fuel => ?_) (fun hbody hat hfit => ?_)
  · cases fuel with
    | zero => rfl
    | succ fuel => rw [Store.findLoop,if_neg (lt_irrefl top)]
  · rw [Store.findLoop,if_pos (by omega),hat.hsize]
    rw [if_neg (by omega)]
    simp only [findLoop_test s hat.hbody hbody.2]

theorem find_spec (h : Image s.getbyte s.envMaxsize bodies) {name : CString}
    (hne : name.bytes≠[] ∨ ∀ body∈bodies, body≠[]) :
    FirstAt (Selects name.bytes) bodies envoffBase (s.find (some name)) := by
  have hsize : s.getshort envoffSize=(packed bodies).length := h.size
  have hfits := h.fits
  rw [Store.find,hsize,if_neg (by omega)]
  split
  · next hlong =>
    refine .inl ⟨rfl,fun body hb hsel => ?_⟩
    have hle := hsel.2.1.length_le
    have hlt := h.bounds body hb
    omega
  · refine findLoop_spec s (walk (fun _ hb => hb.1) h.entries (fun body hb => ?_) le_rfl)
    exact ⟨h.bounds body hb,hne.imp id fun hall => hall body hb⟩

def entryFor (bodies : List (List UInt8)) (name : List UInt8) : Option (List UInt8) :=
  bodies.find? fun body => Selects name body

theorem getenv_eq (b : Board) (h : Image s.getbyte s.envMaxsize bodies) (hs : s.envState = .ok)
    {name : CString} (hne : name.bytes≠[] ∨ ∀ body∈bodies, body≠[]) :
    s.getenv b (some name)=(s, match entryFor bodies name.bytes with
        | none => .error .ENOENT
        | some body => .ok (cstring (body.drop (name.bytes.length+1)))) := by
  have hinv : s.invalid b=(s,.ok) := by simp [Store.invalid,hs]
  rw [Store.getenv,hinv]
  dsimp only
  rw [if_neg (by simp)]
  rcases find_spec h hne with ⟨h0,hno⟩ | ⟨pre,body,post,rfl,hsel,hpre,hpos⟩
  · have hnone : entryFor bodies name.bytes=none := by
      simpa [entryFor] using hno
    rw [if_pos h0,hnone]
  · have hfind : entryFor (pre++body::post) name.bytes=some body :=
      find?_eq_some_iff_append.mpr ⟨by simpa using hsel,pre,post,rfl,by simpa using hpre⟩
    obtain ⟨_,hat⟩ := atRecord_behind h.entries (h.bounds body (by simp))
    rw [if_neg (by rw [hpos]; simp [envoffBase]),hfind,hpos,hat.hsize,CPtr.bytes_some]
    dsimp only
    have hl := hsel.2.1.length_le
    by_cases hlong : name.bytes.length+2<body.length+1
    · rw [if_pos hlong,readCells_value hat.hbody hlong]
    · rw [if_neg hlong,drop_eq_nil_of_le (by omega)]
      rfl

theorem Image.walk {maxsize : ℕ} (h : Image m maxsize bodies) :
    Walk m (envoffBase+(packed bodies).length) (fun body => body.length+1<256)
      (packed bodies).length envoffBase bodies :=
  PackedRecords.walk (fun _ hb => hb) h.entries h.bounds le_rfl

theorem mapLoop_eq (s : Store)
    (h : Walk s.getbyte top (fun body => body.length+1<256) fuel e bodies) :
    s.mapLoop top fuel e=bodies.map pairOf := by
  induction h with
  | nil fuel =>
    cases fuel with
    | zero => rfl
    | succ fuel =>
      rw [Store.mapLoop,if_neg (lt_irrefl top)]
      rfl
  | cons hbody hat hfit hrest ih =>
    have hcopy := copyVar_none s.getbyte hat.hbody []
    rw [Store.mapLoop,if_pos (by omega),hat.hsize]
    dsimp only
    rw [if_neg (by omega),ih,Nat.add_sub_cancel,hcopy.1,hcopy.2,nil_append]
    rfl

theorem mapenv_eq (b : Board) (h : Image s.getbyte s.envMaxsize bodies) (hs : s.envState = .ok) :
    s.mapenv b=(s,bodies.map pairOf) := by
  have hinv : s.invalid b=(s,.ok) := by simp [Store.invalid,hs]
  have hsize : s.getshort envoffSize=(packed bodies).length := h.size
  have hfits := h.fits
  rw [Store.mapenv,hinv]
  dsimp only
  rw [if_neg (by simp),hsize,if_neg (by omega),mapLoop_eq s h.walk]

theorem structLoop_eq (s : Store)
    (h : Walk s.getbyte top (fun body => body.length+1<256) fuel e bodies) :
    s.structLoop top fuel e=true ↔ ∀ body∈bodies, PrintableName body := by
  induction h with
  | nil fuel =>
    cases fuel with
    | zero => simp [Store.structLoop]
    | succ fuel => simp [Store.structLoop]
  | @cons fuel e body rest hbody hat hfit hrest ih =>
    have hname := nameCheck_iff s.getbyte hat.hbody
    rw [Store.structLoop,if_pos (by omega),hat.hsize]
    rw [if_neg (by omega),Nat.add_sub_cancel,forall_mem_cons,←ih,←hname]
    by_cases hok : nameCheck s.getbyte body.length (e+1)=true
    · simp [hok]
    · simp [hok]

theorem structcheck_iff (h : Image s.getbyte s.envMaxsize bodies) :
    s.structcheck=true ↔ ∀ body∈bodies, PrintableName body := by
  have hsize : s.getshort envoffSize=(packed bodies).length := h.size
  have hfits := h.fits
  rw [Store.structcheck,hsize,if_neg (by omega)]
  exact structLoop_eq s h.walk

end Pmon.NvEnv
