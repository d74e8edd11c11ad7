import Pmon.FlashEnv

/-!
# Layout of the flash environment

One lemma for each function of `flashenv.c` says what it computes on the list of bodies.
-/

namespace Pmon.FlashEnv
open ByteStore PackedRecords EnvEntry List
variable {bodies : List (List UInt8)}
variable (s : Store) (ws : List (ℕ × UInt8))

def Active (body : List UInt8) : Prop := body.head?≠some 0x00 ∧ body.head?≠some 0xff

instance : DecidablePred Active := fun body =>
  inferInstanceAs (Decidable (body.head?≠some 0x00 ∧ body.head?≠some 0xff))

def Selects (name body : List UInt8) : Prop :=
  Active body ∧ body.head?≠some eqSign ∧ Matches body name

instance (name : List UInt8) : DecidablePred (Selects name) := fun body =>
  inferInstanceAs (Decidable (Active body ∧ body.head?≠some eqSign ∧ Matches body name))

structure Image (m : ℕ → UInt8) (maxsize : ℕ) (bodies : List (List UInt8)) : Prop where
  magic : Holds m envoffMagic envMagic
  entries : Holds m envoffBase (packed bodies)
  bounds : ∀ body∈bodies, body≠[] ∧ body.length+1<0xff
  fits : envoffBase+(packed bodies).length ≤ maxsize
  erased : ∀ q, envoffBase+(packed bodies).length≤q → q < maxsize → m q=0xff

structure Layout (s : Store) (bodies : List (List UInt8)) : Prop where
  image : Image s.getbyte s.envMaxsize bodies
  size : s.envSize=(packed bodies).length

def Store.poke (s : Store) (ws : List (ℕ × UInt8)) : Store := s.program (shiftWrites s.envOffs ws)

theorem setbytes_eq_poke (offs : ℕ) (bs : List UInt8) :
    s.setbytes offs bs=s.poke (writesAt offs bs) := by
  rw [Store.setbytes,Store.poke,shiftWrites_writesAt]

theorem getbyte_poke : (s.poke ws).getbyte=applyWrites ws s.getbyte :=
  applyWrites_shiftWrites s.envOffs ws s.flash

theorem poke_poke (vs : List (ℕ × UInt8)) : (s.poke ws).poke vs=s.poke (ws++vs) := by
  simp [Store.poke,Store.program,applyWrites_append]

@[simp] theorem getbyte_setbytes (offs : ℕ) (bs : List UInt8) :
    (s.setbytes offs bs).getbyte=applyWrites (writesAt offs bs) s.getbyte := by
  rw [setbytes_eq_poke,getbyte_poke]

@[simp] theorem poke_envSize : (s.poke ws).envSize=s.envSize := rfl
@[simp] theorem poke_envMaxsize : (s.poke ws).envMaxsize=s.envMaxsize := rfl
@[simp] theorem poke_envFree : (s.poke ws).envFree=s.envFree := rfl
@[simp] theorem poke_envState : (s.poke ws).envState=s.envState := rfl
@[simp] theorem poke_envOffs : (s.poke ws).envOffs=s.envOffs := rfl
@[simp] theorem poke_compressions : (s.poke ws).compressions=s.compressions := rfl

theorem active_iff {m : ℕ → UInt8} {e : ℕ} {body : List UInt8} (h : Holds m e body)
    (hne : body≠[]) : Active body ↔ m e≠0x00 ∧ m e≠0xff := by
  simp [Active,head?_of_holds h hne]

theorem findLoop_test {e : ℕ} {body name : List UInt8} (h : Holds s.getbyte (e+1) body)
    (hne : body≠[]) :
    (s.getbyte (e+1)≠0x00 ∧ s.getbyte (e+1)≠0xff ∧ s.getbyte (e+1)≠eqSign ∧
      name.length≤body.length+1-1 ∧ matchLen s.getbyte (e+1) name=name.length ∧
      (name.length=body.length+1-1 ∨ s.getbyte (e+1+name.length)=eqSign)) ↔
    Selects name body := by
  have hh := head?_of_holds h hne
  simp only [Selects,active_iff h hne,hh,Nat.add_sub_cancel,and_assoc,ne_eq,Option.some.injEq]
  exact and_congr_right fun _ => and_congr_right fun _ => and_congr_right fun _ =>
    matchLen_matches s.getbyte h

def Sized (body : List UInt8) : Prop := body≠[] ∧ body.length+1<0xff

theorem Sized.lt (body : List UInt8) (h : Sized body) : body.length+1<256 :=
  h.2.trans (by decide)

theorem Layout.walk {s : Store} (h : Layout s bodies) :
    Walk s.getbyte (envoffBase+s.envSize) Sized s.envSize envoffBase bodies := by
  rw [h.size]
  exact PackedRecords.walk Sized.lt h.image.entries h.image.bounds le_rfl

theorem findLoop_spec (name : List UInt8) {fuel e top : ℕ}
    (h : Walk s.getbyte top Sized fuel e bodies) :
    FirstAt (Selects name) bodies e (s.findLoop name top fuel e) := by
  refine h.firstAt (fun fuel => ?_) (fun hbody hat hfit => ?_)
  · cases fuel with
    | zero => rfl
    | succ fuel => rw [Store.findLoop,if_neg (lt_irrefl top)]
  · have hpos := length_pos_iff.mpr hbody.1
    have hlt := hbody.2
    rw [Store.findLoop,if_pos (by omega),hat.hsize]
    dsimp only
    rw [if_neg (by omega)]
    simp only [findLoop_test s hat.hbody hbody.1]

theorem find_spec {s : Store} (h : Layout s bodies) (name : CString) :
    FirstAt (Selects name.bytes) bodies envoffBase (s.find (some name)) := by
  unfold Store.find
  dsimp only
  split
  · next hlong =>
    refine .inl ⟨rfl,fun body hb hsel => ?_⟩
    have := hsel.2.2.1.length_le
    have := (h.image.bounds body hb).2
    omega
  · exact findLoop_spec s name.bytes h.walk

def entryFor (bodies : List (List UInt8)) (name : List UInt8) : Option (List UInt8) :=
  bodies.find? fun body => Selects name body

theorem getenv_eq (b : Board) {s : Store} (h : Layout s bodies) (hs : s.envState = .ok)
    (name : CString) :
    s.getenv b (some name)=(s, match entryFor bodies name.bytes with
        | none => .error .ENOENT
        | some body => .ok (cstring (body.drop (name.bytes.length+1)))) := by
  have hinv : s.invalid b=(s,.ok) := by simp [Store.invalid,hs]
  rw [Store.getenv,hinv]
  dsimp only
  rw [if_neg (by simp)]
  rcases find_spec h name with ⟨h0,hno⟩ | ⟨pre,body,post,rfl,hsel,hpre,hpos⟩
  · have : entryFor bodies name.bytes=none := by
      simpa [entryFor] using hno
    rw [if_pos h0,this]
  · have hfind : entryFor (pre++body::post) name.bytes=some body :=
      find?_eq_some_iff_append.mpr ⟨by simpa using hsel,pre,post,rfl,by simpa using hpre⟩
    obtain ⟨_,hat⟩ := atRecord_behind h.image.entries (Sized.lt _ (h.image.bounds body (by simp)))
    rw [if_neg (by rw [hpos]; simp [envoffBase]),hfind,hpos,hat.hsize,CPtr.bytes_some]
    dsimp only
    have hl := hsel.2.2.1.length_le
    by_cases hlong : name.bytes.length+2<body.length+1
    · rw [if_pos hlong,readCells_value hat.hbody hlong]
    · rw [if_neg hlong,drop_eq_nil_of_le (by omega)]
      rfl

theorem mapLoop_eq {fuel e top : ℕ} (h : Walk s.getbyte top Sized fuel e bodies) :
    s.mapLoop top fuel e=(bodies.filter fun body => Active body).map
        fun body => (cstring (keyOf body),cstring (valOf body)) := by
  induction h with
  | nil fuel =>
    cases fuel with
    | zero => rfl
    | succ fuel =>
      rw [Store.mapLoop,if_neg (lt_irrefl top)]
      rfl
  | @cons fuel e body rest hbody hat hfit hrest ih =>
    have hpos := length_pos_iff.mpr hbody.1
    have hlt := hbody.2
    rw [Store.mapLoop,if_pos (by omega),hat.hsize]
    dsimp only
    rw [if_neg (by omega),ih]
    have hact := active_iff hat.hbody hbody.1
    by_cases ha : Active body
    · obtain ⟨h0,hff⟩ := hact.mp ha
      obtain ⟨hk,hv⟩ := copyVar_none s.getbyte hat.hbody []
      rw [if_neg (by simp [h0,hff]),filter_cons_of_pos (by simpa using ha),
        map_cons,Nat.add_sub_cancel,hk,hv,nil_append]
    · have hdead : s.getbyte (e+1)=0x00 ∨ s.getbyte (e+1)=0xff := by
        by_contra hc
        exact ha (hact.mpr (not_or.mp hc))
      rw [if_pos hdead,filter_cons_of_neg (by simpa using ha)]

theorem mapenv_eq (b : Board) {s : Store} (h : Layout s bodies) (hs : s.envState = .ok) :
    s.mapenv b=(s,(bodies.filter fun body => Active body).map
        fun body => (cstring (keyOf body),cstring (valOf body))) := by
  have hinv : s.invalid b=(s,.ok) := by simp [Store.invalid,hs]
  rw [Store.mapenv,hinv]
  dsimp only
  rw [if_neg (by simp),mapLoop_eq s h.walk]

end Pmon.FlashEnv
