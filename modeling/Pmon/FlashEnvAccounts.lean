import Pmon.FlashEnvBoot

/-!
# The two counters of the flash environment

`envsize` and `envfree` say what the partition holds along every run, and `env_structcheck` recovers
them at boot.
-/

namespace Pmon.FlashEnv
open ByteStore PackedRecords EnvEntry
variable {s : Store} {b : Board}

structure Walked (m : ℕ → UInt8) (e top free : ℕ) (bodies : List (List UInt8))
    (envp free' : ℕ) : Prop where
  entries : Holds m e (packed bodies)
  bounds : ∀ body∈bodies, body≠[] ∧ body.length+1<0xff
  stop : envp=e+(packed bodies).length
  fits : envp≤top
  counted : free'=free+(packed (dead bodies)).length

theorem walked_cons {m : ℕ → UInt8} {e top free envp free' : ℕ} {rest : List (List UInt8)}
    (hlow : 1<(m e).toNat) (hhigh : (m e).toNat≠0xff) (h : Walked m (e+(m e).toNat) top
      (if m (e+1)≠0x00 ∧ m (e+1)≠0xff then free else free+(m e).toNat) rest envp free') :
    Walked m e top free (readCells m (e+1) ((m e).toNat-1)::rest) envp free' := by
  have hlen : (readCells m (e+1) ((m e).toNat-1)).length+1=(m e).toNat := by
    rw [length_readCells]
    omega
  have hlt := (m e).toNat_lt
  have hbody := holds_readCells m (e+1) ((m e).toNat-1)
  generalize readCells m (e+1) ((m e).toNat-1)=body at hlen hbody ⊢
  have hne : body≠[] := List.length_pos_iff.mp (by omega)
  have hstop := h.stop
  have hcounted := h.counted
  refine ⟨?_,?_,?_,h.fits,?_⟩
  · rw [holds_packed_cons,hlen]
    exact ⟨UInt8.ofNat_toNat.symm,hbody,h.entries⟩
  · intro q hq
    rcases List.mem_cons.mp hq with rfl | hq
    · exact ⟨hne,by omega⟩
    · exact h.bounds q hq
  · rw [length_packed_cons]
    omega
  · by_cases ha : Active body
    · rw [if_pos ((active_iff hbody hne).mp ha)] at hcounted
      rw [dead_cons_of_active ha,hcounted]
    · rw [if_neg (fun h0 => ha ((active_iff hbody hne).mpr h0))] at hcounted
      rw [dead_cons_of_not_active ha,length_packed_cons]
      omega

theorem structLoop_accepts (s : Store) {top envp free' : ℕ} (fuel e free : ℕ)
    (h : s.structLoop top fuel e free=(true,envp,free')) (he : e≤top) :
    ∃ bodies, Walked s.getbyte e top free bodies envp free' := by
  induction fuel generalizing e free with
  | zero =>
    cases h
    exact ⟨[],trivial,by simp,rfl,he,rfl⟩
  | succ fuel ih =>
    have hstop : (true,e,free)=(true,envp,free') →
        ∃ bodies, Walked s.getbyte e top free bodies envp free' := by
      intro heq
      cases heq
      exact ⟨[],trivial,by simp,rfl,he,rfl⟩
    have hnext : ∀ free₁, 1<(s.getbyte e).toNat → (s.getbyte e).toNat≠0xff →
        e+(s.getbyte e).toNat≤top →
        free₁=(if s.getbyte (e+1)≠0x00 ∧ s.getbyte (e+1)≠0xff then free
          else free+(s.getbyte e).toNat) →
        s.structLoop top fuel (e+(s.getbyte e).toNat) free₁=(true,envp,free') →
        ∃ bodies, Walked s.getbyte e top free bodies envp free' := by
      intro free₁ hlow hhigh hfit hfree hrun
      obtain ⟨rest,hw⟩ := ih _ _ hrun hfit
      rw [hfree] at hw
      exact ⟨_,walked_cons hlow hhigh hw⟩
    rw [Store.structLoop] at h
    dsimp only at h
    split at h
    · split at h
      · exact hstop h
      · next hhigh =>
        split at h
        · cases h
        · next hsane =>
          split at h
          · next hact =>
            split at h
            · cases h
            · split at h
              · exact hnext free (by omega) hhigh (by omega) (if_pos hact).symm h
              · cases h
          · next hdead => exact hnext _ (by omega) hhigh (by omega) (if_neg hdead).symm h
    · exact hstop h

theorem erasedLoop_accepts (s : Store) {top : ℕ} (fuel e : ℕ) (hfuel : top-e≤fuel)
    (h : s.erasedLoop top fuel e=true) : ∀ q, e≤q → q<top → s.getbyte q=0xff := by
  induction fuel generalizing e with
  | zero =>
    intro q hq hq'
    omega
  | succ fuel ih =>
    intro q hq hq'
    rw [Store.erasedLoop,if_pos (by omega)] at h
    dsimp only at h
    split at h
    · next hall =>
      by_cases hchunk : q<e + min (top-e) 128
      · have hcell := (holds_readCells s.getbyte e (min (top-e) 128)).getElem
          (i := q-e) (by rw [length_readCells]; omega)
        rw [show e+(q-e)=q by omega] at hcell
        rw [hcell]
        exact beq_iff_eq.mp (List.all_eq_true.mp hall _ (List.getElem_mem _))
      · exact ih _ (by omega) h q (by omega) hq'
    · cases h

theorem structcheck_accepts (hmagic : Holds s.getbyte envoffMagic envMagic)
    (hroom : envoffBase ≤ s.envMaxsize) (h : s.structcheck.2=true) :
    ∃ bodies, Image s.getbyte s.envMaxsize bodies ∧ s.structcheck.1={ s with
      envSize := (packed bodies).length
      envFree := (packed (dead bodies)).length +
        (s.envMaxsize-(envoffBase+(packed bodies).length)) } := by
  unfold Store.structcheck at h ⊢
  dsimp only at h ⊢
  generalize hloop : s.structLoop s.envMaxsize (s.envMaxsize-envoffBase) envoffBase 0=r at h ⊢
  obtain ⟨ok,envp,free⟩ := r
  cases ok with
  | false => cases h
  | true =>
    obtain ⟨bodies,hw⟩ := structLoop_accepts s _ _ _ hloop hroom
    have herased := erasedLoop_accepts s _ _ le_rfl h
    have hfits := hw.fits
    rw [hw.stop] at herased hfits
    refine ⟨bodies,⟨hmagic,hw.entries,hw.bounds,hfits,herased⟩,?_⟩
    dsimp only
    rw [hw.stop,hw.counted,Nat.add_sub_cancel_left,Nat.zero_add]

inductive Reachable (b : Board) : Store → Prop where
  | reset {s : Store} (he : Erasable b s) : Reachable b (s.reset b)
  | accepted {s : Store} (he : Erasable b s) (hs : s.envState = .ok)
      (hmagic : Holds s.getbyte envoffMagic envMagic) (hcheck : s.structcheck.2=true) :
      Reachable b s.structcheck.1
  | setenv {s : Store} (h : Reachable b s) {name : CString} (hname : Active name.bytes)
      (val : CPtr) (overwrite : Bool) : Reachable b (s.setenv b (some name) val overwrite).1
  | unsetenv {s : Store} (h : Reachable b s) (name : CString) :
      Reachable b (s.unsetenv b (some name))

theorem Accounted.setenv {bodies : List (List UInt8)} (h : Accounted b s bodies) {name : CString}
    (hname : Active name.bytes) (val : CPtr) (overwrite : Bool) :
    ∃ bodies', Accounted b (s.setenv b (some name) val overwrite).1 bodies' := by
  rcases setenv_cases b h.state name val overwrite with
    ⟨e,he⟩ | ⟨-,heq⟩ | ⟨hne,hlt,hle,heq⟩
  · rw [he]
    exact ⟨bodies,h⟩
  · rw [heq]
    exact ⟨bodies,h⟩
  · obtain ⟨bodies₁,-,h₁⟩ := h.clear name
    obtain ⟨bodies₂,h₂,-,hfit,hfree⟩ := h₁.makeRoom hle
    have hact : Active (entryBody name.bytes val.bytes) := by
      rw [Active,head?_entryBody hne]
      exact hname
    rw [if_neg (by omega)] at heq
    rw [heq]
    exact ⟨_,h₂.append hne val.bytes hact hlt hfit hfree⟩

theorem Reachable.accounted (h : Reachable b s) : ∃ bodies, Accounted b s bodies := by
  induction h with
  | reset he => exact ⟨[],reset_accounted he⟩
  | accepted he hs hmagic hcheck =>
    obtain ⟨bodies,himage,heq⟩ := structcheck_accepts hmagic he.room hcheck
    rw [heq]
    exact ⟨bodies,recovered_accounted himage hs he⟩
  | setenv _ hname val overwrite ih =>
    obtain ⟨bodies,ha⟩ := ih
    exact ha.setenv hname val overwrite
  | unsetenv _ name ih =>
    obtain ⟨bodies,ha⟩ := ih
    obtain ⟨bodies',-,ha'⟩ := ha.clear name
    rw [unsetenv_eq b ha.state]
    exact ⟨bodies',ha'⟩

def entrySize (body : List UInt8) : ℕ := body.length+1

/-- `env_size` and `env_free` are right about the entries. -/
structure Accounts (s : Store) (bodies : List (List UInt8)) : Prop where
  entries : Holds s.getbyte envoffBase (packed bodies)
  bounds : ∀ body∈bodies, 1<entrySize body ∧ entrySize body<0xff
  envSize_eq : s.envSize=(bodies.map entrySize).sum
  live_le : ((live bodies).map entrySize).sum ≤ s.envMaxsize-envoffBase
  envFree_eq : s.envFree=s.envMaxsize-envoffBase-((live bodies).map entrySize).sum

theorem Accounted.accounts {bodies : List (List UInt8)} (h : Accounted b s bodies) :
    Accounts s bodies := by
  have hfree := h.free
  have hlive : (packed (live bodies)).length=((live bodies).map entrySize).sum := length_packed _
  refine ⟨h.layout.image.entries,fun body hb => ?_,?_,by omega,by omega⟩
  · obtain ⟨hne,hlt⟩ := h.layout.image.bounds body hb
    exact ⟨Nat.succ_lt_succ (List.length_pos_iff.mpr hne),hlt⟩
  · rw [h.layout.size]
    exact length_packed _

/-- A call of `_sbd_setenv` finds no room, compresses, and finds no room again. -/
structure OutOfSpace (b : Board) (s : Store) (name : CString) (val : CPtr) (overwrite : Bool) :
    Prop where
  named : name.bytes.length≠0
  replaces : ¬ (s.find (some name)≠0 ∧ overwrite=false)
  short : entryTotal name.bytes val.bytes<255
  enough : entryTotal name.bytes val.bytes ≤ s.envFree +
    if s.find (some name)≠0 then (s.getbyte (s.find (some name))).toNat else 0
  full : (s.clear (some name)).envMaxsize <
    envoffBase+(s.clear (some name)).envSize+entryTotal name.bytes val.bytes
  still : ((s.clear (some name)).compress b).envMaxsize <
    envoffBase+((s.clear (some name)).compress b).envSize+entryTotal name.bytes val.bytes

/-- Between two calls `envsize` is the size of all entries and `envfree` what the live ones leave,
and no call finds the partition full after compressing. -/
theorem reachable_accounts {b : Board} {s : Store} (h : Reachable b s) :
    (∃ bodies, Accounts s bodies) ∧ ∀ name val overwrite, ¬ OutOfSpace b s name val overwrite := by
  obtain ⟨bodies,ha⟩ := h.accounted
  refine ⟨⟨bodies,ha.accounts⟩, fun name val overwrite hout => ?_⟩
  obtain ⟨bodies',-,hc⟩ := ha.clear name
  have henough := hout.enough
  rw [←clear_envFree] at henough
  have hroom := hc.compress_room henough
  have hstill := hout.still
  omega

theorem reachable_accounts_smallOps :
    ((smallStore.reset smallBoard).setenv smallBoard (some (cstring [0x66,0x6f,0x6f]))
      (some (cstring (List.replicate 60 0x31))) true).1.envSize=65 ∧ (∃ bodies, Accounts
      (((smallStore.reset smallBoard).setenv smallBoard (some (cstring [0x66,0x6f,0x6f]))
        (some (cstring (List.replicate 60 0x31))) true).1.setenv smallBoard
          (some (cstring [0x66,0x6f,0x6f])) (some (cstring (List.replicate 60 0x32))) true).1
      bodies) :=
  ⟨by decide +kernel,(reachable_accounts
    (((Reachable.reset smallStore_erasable).setenv (by decide) _ true).setenv
      (by decide) _ true)).1⟩

end Pmon.FlashEnv
