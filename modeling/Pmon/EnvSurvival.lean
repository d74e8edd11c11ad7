import Pmon.FlashEnvBoot
import Pmon.NvEnvCrash

/-!
# Settings across a boot

`_sbd_setenv` accepts every non-empty name, the structure check at boot only printable ones. The
stores differ at the first byte.
-/

namespace Pmon.NvEnv
open ByteStore PackedRecords EnvEntry

structure Bootable (b : Board) (s : Store) (bodies : List (List UInt8)) : Prop where
  layout : Layout s bodies
  part : s.part=b.part
  ne_nil : ∀ body∈bodies, body≠[]
  names : ∀ body∈bodies, PrintableName body

theorem entryBody_ne_nil {name : List UInt8} (h : name≠[]) (val : List UInt8) :
    entryBody name val≠[] := by
  have hpos := List.length_pos_iff.mpr h
  refine List.length_pos_iff.mp ?_
  rw [entryBody_length]
  split <;> omega

theorem setenv_bootable {b : Board} {s s' : Store} (h : ∃ bodies, Bootable b s bodies)
    {c : SetCall} (hname : PrintableName c.name.bytes)
    (hset : s.setenv b (some c.name) c.val c.overwrite=(s',.ok ())) :
    ∃ bodies, Bootable b s' bodies := by
  obtain ⟨bodies,hb⟩ := h
  have hmax : s.envMaxsize≤0xffff := by
    have hsmall := b.part_small
    rw [←hb.part] at hsmall
    exact hsmall
  obtain ⟨bodies',hstep⟩ :=
    setenv_step b hb.layout.image hb.layout.state hmax c.name c.val c.overwrite
  have hl := hstep.layout hb.layout hmax
  have hpart := hstep.part_eq
  have hmem := hstep.mem
  rw [hset] at hl hpart
  refine ⟨bodies',hl,?_,fun body hq => ?_,fun body hq => ?_⟩
  · rw [←hb.part,Store.part,hpart.1,hpart.2]
    rfl
  · rcases hmem body hq with hq | ⟨hne,rfl⟩
    · exact hb.ne_nil body hq
    · exact entryBody_ne_nil hne _
  · rcases hmem body hq with hq | ⟨-,rfl⟩
    · exact hb.names body hq
    · rw [PrintableName,keyOf_entryBody_eq]
      exact hname

theorem setAll_survives {b : Board} (hforce : b.forceReset=false) {s s' : Store}
    (hpart : s.part=b.part) {calls : List SetCall}
    (hcalls : ∀ c∈calls, PrintableName c.name.bytes)
    (hrun : (envStore b).setAll s.reset calls=some s') :
    (s'.reboot.invalid b).2 = .ok ∧ (s'.reboot.invalid b).1.envInitState = .ok ∧
      (s'.reboot.invalid b).1.nvram=s'.nvram ∧
      ∀ n : CString, ((s'.reboot.invalid b).1.getenv b (some n)).2=(s'.getenv b (some n)).2 := by
  have hreset := reset_booted hpart
  have hinit : Bootable b s.reset [] := ⟨hreset.layout,hreset.part,by simp,by simp⟩
  obtain ⟨bodies,hb⟩ := (envStore b).setAll_invariant
    (I := fun t => ∃ bodies, Bootable b t bodies) (P := fun c => PrintableName c.name.bytes)
    (fun _ _ _ hI hP hset => setenv_bootable hI hP hset) ⟨[],hinit⟩ hcalls hrun
  have hl := hb.layout
  rw [reboot_invalid hforce hl hb.part hb.names]
  refine ⟨rfl,rfl,rfl,fun n => ?_⟩
  have himg : Image s'.accepted.getbyte s'.accepted.envMaxsize bodies := hl.image
  rw [getenv_eq b himg rfl (Or.inr hb.ne_nil),getenv_eq b hl.image hl.state (Or.inr hb.ne_nil)]

end Pmon.NvEnv
namespace Pmon.EnvSurvival
open EnvEntry

/-- In both stores, after `_sbd_setenv` calls that returned 0 with names the structure check
accepts, the next boot resets nothing and every name reads as before. -/
theorem settings_survive_boot (calls : List SetCall) :
    (∀ (b : FlashEnv.Board) (s s' : FlashEnv.Store),
      b.forceReset=false → FlashEnv.Erasable b s → b.envPart=some s.part →
      (∀ c∈calls, FlashEnv.BootAccepts c.name) →
      (FlashEnv.envStore b).setAll (s.reset b) calls=some s' →
        (s'.reboot.invalid b).2 = .ok ∧ (s'.reboot.invalid b).1.envInitState = .ok ∧
        (s'.reboot.invalid b).1.flash=s'.flash ∧ ∀ n : CString,
          ((s'.reboot.invalid b).1.getenv b (some n)).2=(s'.getenv b (some n)).2) ∧
    (∀ (b : NvEnv.Board) (s s' : NvEnv.Store), b.forceReset=false → s.part=b.part →
      (∀ c∈calls, PrintableName c.name.bytes) →
      (NvEnv.envStore b).setAll s.reset calls=some s' →
        (s'.reboot.invalid b).2 = .ok ∧ (s'.reboot.invalid b).1.envInitState = .ok ∧
        (s'.reboot.invalid b).1.nvram=s'.nvram ∧ ∀ n : CString,
          ((s'.reboot.invalid b).1.getenv b (some n)).2=(s'.getenv b (some n)).2) := by
  refine ⟨?_,?_⟩
  · intro b s s' hforce herase hpart hcalls hrun
    exact FlashEnv.setAll_survives hforce herase hpart hcalls hrun
  · intro b s s' hforce hpart hcalls hrun
    exact NvEnv.setAll_survives hforce hpart hcalls hrun

def plainCalls : List SetCall :=
  [⟨cstring [0x61],some (cstring [0x31]),true⟩,⟨cstring [0x62],none,false⟩]

theorem settings_survive_boot_plainCalls :
    let s := ((FlashEnv.envStore FlashEnv.smallBoard).setAll
      (FlashEnv.smallStore.reset FlashEnv.smallBoard) plainCalls).get (by decide +kernel)
    let t := ((NvEnv.envStore (NvEnv.p6032 false)).setAll NvEnv.blankStore.reset
      plainCalls).get (by decide +kernel)
    (s.reboot.invalid FlashEnv.smallBoard).1.envInitState = .ok ∧
      (t.reboot.invalid (NvEnv.p6032 false)).1.envInitState = .ok :=
  ⟨((settings_survive_boot plainCalls).1 FlashEnv.smallBoard FlashEnv.smallStore _ rfl
      FlashEnv.smallStore_erasable (by decide) (by decide +kernel) (Option.some_get _).symm).2.1,
    ((settings_survive_boot plainCalls).2 (NvEnv.p6032 false) NvEnv.blankStore _ rfl
      (by decide) (by decide +kernel) (Option.some_get _).symm).2.1⟩

def controlCalls : List SetCall :=
  [⟨cstring [0x61],some (cstring [0x31]),true⟩,⟨cstring [0x01],none,true⟩]

theorem control_name_resets : ((FlashEnv.envStore FlashEnv.smallBoard).setAll
      (FlashEnv.smallStore.reset FlashEnv.smallBoard) controlCalls).map (fun s =>
        ((s.getenv FlashEnv.smallBoard (some (cstring [0x61]))).2.toOption,
          (s.reboot.invalid FlashEnv.smallBoard).1.envInitState,
          ((s.reboot.invalid FlashEnv.smallBoard).1.getenv FlashEnv.smallBoard
            (some (cstring [0x61]))).2.toOption)) =
      some (some (cstring [0x31]),.unrecoverable,none) ∧
    ((NvEnv.envStore (NvEnv.p6032 false)).setAll NvEnv.blankStore.reset controlCalls).map (fun s =>
        ((s.getenv (NvEnv.p6032 false) (some (cstring [0x61]))).2.toOption,
          (s.reboot.invalid (NvEnv.p6032 false)).1.envInitState,
          ((s.reboot.invalid (NvEnv.p6032 false)).1.getenv (NvEnv.p6032 false)
            (some (cstring [0x61]))).2.toOption)) =
      some (some (cstring [0x31]),.unrecoverable,none) := by
  refine ⟨by decide +kernel, by decide +kernel⟩

end Pmon.EnvSurvival
