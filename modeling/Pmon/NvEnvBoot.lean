import Pmon.NvEnvUpdate

/-!
# Booting on a battery-backed environment

A boot ends with a complete store, with the entries that the region held or empty. An unrecoverable
region is always reset.
-/

namespace Pmon.NvEnv
open ByteStore PackedRecords EnvEntry
variable {s : Store} {b : Board} {bodies : List (List UInt8)}

theorem reset_eq (s : Store) :
    s.reset=(s.poke (shortWrites envoffMagic envMagic++shortWrites envoffSize 0)).updatesum := by
  rw [Store.reset,setshort_eq,setshort_eq,poke_poke]

theorem reset_layout (hroom : envoffBase ≤ s.envMaxsize) : Layout s.reset [] := by
  rw [reset_eq]
  refine updatesum_layout ?_
  rw [getbyte_poke,applyWrites_append]
  have hmagic := word_shortWrites s.getbyte envoffMagic (show envMagic<0x10000 by decide)
  set m := applyWrites (shortWrites envoffMagic envMagic) s.getbyte
  have hout : ∀ q, q≠envoffSize → q≠envoffSize+1 →
      applyWrites (shortWrites envoffSize 0) m q=m q :=
    fun q h0 h1 => applyWrites_shortWrites_of_ne m 0 h0 h1
  refine ⟨?_,word_shortWrites m envoffSize (by decide),trivial,by simp,hroom⟩
  rw [←hmagic]
  exact word_congr (hout _ (by decide) (by decide)) (hout _ (by decide) (by decide))

@[simp] theorem reset_envOffs (s : Store) : s.reset.envOffs=s.envOffs := by
  rw [reset_eq,updatesum_eq]
  rfl

@[simp] theorem reset_envMaxsize (s : Store) : s.reset.envMaxsize=s.envMaxsize := by
  rw [reset_eq,updatesum_eq]
  rfl

@[simp] theorem updatesum_envOffs (s : Store) : s.updatesum.envOffs=s.envOffs := by
  rw [updatesum_eq]
  rfl

@[simp] theorem updatesum_envMaxsize (s : Store) : s.updatesum.envMaxsize=s.envMaxsize := by
  rw [updatesum_eq]
  rfl

def Board.part (b : Board) : ℕ × ℕ :=
  let offs := if b.nvOffs%2=1 then b.nvOffs+1 else b.nvOffs
  let size := if b.nvOffs%2=1 then b.nvSize-1 else b.nvSize
  (offs, if size%2=1 then size-1 else size)

theorem Board.part_room (b : Board) : envoffBase≤b.part.2 := by
  have hroom := b.room
  unfold Board.part
  dsimp only
  split <;> split <;> omega

theorem Board.part_small (b : Board) : b.part.2≤0xffff := by
  have hsmall := b.small
  unfold Board.part
  dsimp only
  split <;> split <;> omega

def Store.part (s : Store) : ℕ × ℕ := (s.envOffs,s.envMaxsize)

def Store.located (s : Store) (part : ℕ × ℕ) : Store :=
  {s with envOffs := part.1, envMaxsize := part.2}

def Store.examined (b : Board) (s : Store) : Store :=
  {s with envInitState := s.bootState b, envState := s.bootState b}

theorem invalid_eq (b : Board) (hs : s.envState = .unknown) : s.invalid b =
      (((s.located b.part).examined b).recover,((s.located b.part).examined b).recover.envState) := by
  rw [Store.invalid,if_neg (by simp [hs])]
  unfold Store.located Board.part
  by_cases hodd : b.nvOffs%2=1
  · simp only [hodd,if_true]
    by_cases hsz : (b.nvSize-1)%2=1 <;> simp only [hsz,if_true,if_false] <;> rfl
  · simp only [hodd,if_false]
    by_cases hsz : b.nvSize%2=1 <;> simp only [hsz,if_true,if_false] <;> rfl

theorem bootState_ok (hforce : b.forceReset=false) (h : Image s.getbyte s.envMaxsize bodies)
    (hsum : s.calcsum=s.getshort envoffCsum)
    (hstate : s.getbyte envoffState=EnvState.toByte .ok) : s.bootState b = .ok := by
  have hmagic : s.getshort envoffMagic=envMagic := h.magic
  have hsize : s.getshort envoffSize=(packed bodies).length := h.size
  have hfits := h.fits
  have hinit : EnvState.ofByte (s.getbyte envoffState) = .ok := by rw [hstate]; rfl
  rw [Store.bootState,hforce,if_neg (by simp),if_neg (by simp [hmagic]),if_neg (by omega),if_neg (by simp [hsum]),
    hinit]

theorem of_bootState_ok (h : s.bootState b = .ok) :
    s.calcsum=s.getshort envoffCsum ∧ s.getbyte envoffState=EnvState.toByte .ok := by
  unfold Store.bootState at h
  dsimp only at h
  split at h
  · cases h
  split at h
  · cases h
  split at h
  · cases h
  split at h
  · cases h
  · next hsum =>
    have hbyte : s.getbyte envoffState=0 := by
      unfold EnvState.ofByte at h
      split at h
      · assumption
      · split at h
        · cases h
        · split at h
          · cases h
          · split at h
            · cases h
            · split at h <;> cases h
    refine ⟨?_,hbyte⟩
    by_contra hne
    exact hsum ⟨hne,by rw [h]; simp⟩

theorem bootState_of_unrecoverable (b : Board)
    (hstate : s.getbyte envoffState=EnvState.toByte .unrecoverable) :
    s.bootState b = .forcereset ∨ s.bootState b = .uninitialised ∨
      s.bootState b = .unrecoverable := by
  have hinit : EnvState.ofByte (s.getbyte envoffState) = .unrecoverable := by rw [hstate]; rfl
  unfold Store.bootState
  dsimp only
  rw [hinit]
  split
  · exact Or.inl rfl
  · split
    · exact Or.inr (Or.inl rfl)
    · split
      · exact Or.inr (Or.inr rfl)
      · split
        · exact Or.inr (Or.inr rfl)
        · exact Or.inr (Or.inr rfl)

structure Booted (b : Board) (s : Store) (bodies : List (List UInt8)) : Prop where
  layout : Layout s bodies
  part : s.part=b.part

theorem reset_booted (h : s.part=b.part) : Booted b s.reset [] := by
  have hroom := b.part_room
  rw [←h] at hroom
  refine ⟨reset_layout hroom,?_⟩
  rw [Store.part,reset_envOffs,reset_envMaxsize]
  exact h

theorem updatesum_booted (himg : Image s.getbyte s.envMaxsize bodies) (h : s.part=b.part) :
    Booted b s.updatesum bodies := by
  refine ⟨updatesum_layout himg,?_⟩
  rw [Store.part,updatesum_envOffs,updatesum_envMaxsize]
  exact h

theorem finalCheck_booted (h : Booted b s bodies) :
    Booted b s.finalCheck bodies ∨ Booted b s.finalCheck [] := by
  unfold Store.finalCheck
  split
  · exact Or.inl h
  · exact Or.inr (reset_booted (s := {s with envInitState := .unrecoverable}) h.part)

theorem boot_of_image (b : Board) (hs : s.envState = .unknown)
    (h : Image (fun q => s.nvram (b.part.1+q)) b.part.2 bodies) :
    Booted b (s.invalid b).1 bodies ∨ Booted b (s.invalid b).1 [] := by
  have hloc := h
  rw [invalid_eq b hs]
  set t := (s.located b.part).examined b with ht
  have himg := hloc
  have hpart : t.part=b.part := rfl
  cases hst : (s.located b.part).bootState b with
  | ok =>
    have hinit : t.envInitState = .ok := hst
    have hfound := of_bootState_ok hst
    have hsum := (calcsum_congr (s := t) (t := s.located b.part) rfl fun _ _ => rfl).trans hfound.1
    rw [Store.recover,hinit]
    exact finalCheck_booted ⟨⟨himg,hsum,hfound.2,hst⟩,hpart⟩
  | recoverable =>
    have hinit : t.envInitState = .recoverable := hst
    rw [Store.recover,hinit]
    exact finalCheck_booted (updatesum_booted himg hpart)
  | unrecoverable =>
    have hinit : t.envInitState = .unrecoverable := hst
    rw [Store.recover,hinit]
    exact Or.inr (reset_booted hpart)
  | uninitialised =>
    have hinit : t.envInitState = .uninitialised := hst
    rw [Store.recover,hinit]
    exact Or.inr (reset_booted hpart)
  | forcereset =>
    have hinit : t.envInitState = .forcereset := hst
    rw [Store.recover,hinit]
    exact Or.inr (reset_booted hpart)
  | unknown =>
    have hinit : t.envInitState = .unknown := hst
    rw [Store.recover,hinit]
    exact finalCheck_booted
      (updatesum_booted (s := {t with envInitState := .ok}) himg hpart)
  | other c =>
    have hinit : t.envInitState = .other c := hst
    rw [Store.recover,hinit]
    exact finalCheck_booted
      (updatesum_booted (s := {t with envInitState := .ok}) himg hpart)

theorem boot_of_unrecoverable (b : Board) (hs : s.envState = .unknown)
    (h : s.nvram (b.part.1+envoffState)=EnvState.toByte .unrecoverable) :
    Booted b (s.invalid b).1 [] := by
  rw [invalid_eq b hs]
  set t := (s.located b.part).examined b with ht
  have hpart : t.part=b.part := rfl
  rcases bootState_of_unrecoverable b (s := s.located b.part) h with hst | hst | hst
  · have hinit : t.envInitState = .forcereset := hst
    rw [Store.recover,hinit]
    exact reset_booted hpart
  · have hinit : t.envInitState = .uninitialised := hst
    rw [Store.recover,hinit]
    exact reset_booted hpart
  · have hinit : t.envInitState = .unrecoverable := hst
    rw [Store.recover,hinit]
    exact reset_booted hpart

def Store.accepted (s : Store) : Store := {s with envState := .ok, envInitState := .ok}

theorem reboot_invalid (hforce : b.forceReset=false) (h : Layout s bodies)
    (hpart : s.part=b.part) (hnames : ∀ body∈bodies, PrintableName body) :
    s.reboot.invalid b=(s.accepted,.ok) := by
  have hloc : s.reboot.located b.part={s with envState := .unknown, envInitState := .ok} := by
    rw [←hpart]
    rfl
  have hsum : (s.reboot.located b.part).calcsum =
      (s.reboot.located b.part).getshort envoffCsum := by
    have hsame : Store.calcsum {s with envState := .unknown, envInitState := .ok} =
        s.calcsum := calcsum_congr rfl fun _ _ => rfl
    rw [hloc,hsame]
    exact h.csum
  have himg : Image (s.reboot.located b.part).getbyte (s.reboot.located b.part).envMaxsize
      bodies := by
    rw [hloc]
    exact h.image
  have hboot : (s.reboot.located b.part).bootState b = .ok := by
    refine bootState_ok hforce himg hsum ?_
    rw [hloc]
    exact h.stateByte
  have hex : (s.reboot.located b.part).examined b=s.accepted := by
    rw [Store.examined,hboot,hloc]
    rfl
  have hcheck := (structcheck_iff (s := s.accepted) h.image).mpr hnames
  have hrec : s.accepted.recover=s.accepted := by
    change s.accepted.finalCheck=s.accepted
    rw [Store.finalCheck,if_pos hcheck]
  rw [invalid_eq b rfl,hex,hrec]
  rfl

end Pmon.NvEnv
