import Pmon.Mk48t02Delete

/-!
# Refused calls of the clock-chip store

`sbd_setenv` deletes the old entry before it looks for room.
-/

namespace Pmon.Mk48t02
open ByteStore PackedRecords EnvEntry KeyedList List
section
variable {m : ℕ → UInt8} {name : CString} {v : CPtr} {bodies pre post : List (List UInt8)}
  {body : List UInt8}

/-- A call that does not return 1 leaves every binding. For a long entry there is no return value.
-/
def FailedSetKeeps (m : ℕ → UInt8) (bodies : List (List UInt8)) (name : CString) (v : CPtr) :
    Prop :=
  (Nvram.setenv ⟨m,[]⟩ name v).2 ≠ .done →
    ∃ bodies', Filled (Nvram.setenv ⟨m,[]⟩ name v).1.mem bodies' ∧
      bindings bodies'=bindings bodies

/-- The old entry has another size, and the new one does not fit in its place. -/
structure Refused (m : ℕ → UInt8) (name : CString) (v : CPtr) : Prop where
  valid : invalid m = .ok
  named : name.bytes≠[]
  short : entryTotal name.bytes v.bytes≤255
  found : matchenv m name.bytes≠0
  resized : (m (matchenv m name.bytes)).toNat≠entryTotal name.bytes v.bytes
  full : envAvail<getshort m nvoffEnvsize-(m (matchenv m name.bytes)).toNat +
    entryTotal name.bytes v.bytes

def Needed (m : ℕ → UInt8) (bodies : List (List UInt8)) (name : CString) : Prop :=
  ∃ pre body post, bodies=pre++body::post ∧
    matchenv m name.bytes=envBase+(packed pre).length ∧
    bindings (pre++post)≠bindings bodies

theorem delenv_filled (h : Filled m (pre++body::post)) (hvalid : invalid m = .ok)
    (hpos : matchenv m name.bytes=envBase+(packed pre).length) :
    Filled (Nvram.delenv ⟨m,[]⟩ name.bytes).1.mem (pre++post) := by
  have hfound : matchenv m name.bytes≠0 := by
    rw [hpos]
    simp [envBase]
  have hlen : (packed (pre++body::post)).length =
      (packed pre).length+(body.length+1+(packed post).length) := by
    rw [packed_append,length_append,length_packed_cons]
  have hlen' : (packed (pre++post)).length=(packed pre).length+(packed post).length := by
    rw [packed_append,length_append]
  obtain ⟨hold,hbehind⟩ := h.entry
  have hstage := (stage_of_valid hvalid).deleted (e := envBase+(packed pre).length)
    (d := body.length+1) (r := (packed post).length) (getshort_lt _ _) (Nat.le_add_right _ _)
  have hfits := h.fits
  rw [delenv_eq (s := ⟨m,[]⟩) h hfound,Nvram.poke_mem,hpos,hold,hbehind]
  refine ⟨?_,?_,?_,by omega⟩
  · rw [hstage.size,h.size,hlen,hlen']
    omega
  · exact holds_congr (fun q hq _ => hstage.area q hq) (holds_moved h)
  · have hb := h.bounds
    rw [forall_mem_append,forall_mem_cons] at hb
    rw [forall_mem_append]
    exact ⟨hb.1,hb.2.2⟩

theorem Filled.unique {xs ys : List (List UInt8)} (hx : Filled m xs) (hy : Filled m ys) :
    xs=ys := by
  have hlen : (packed xs).length=(packed ys).length := hx.size.symm.trans hy.size
  have hxy := packed_prefix hx.entries hy.entries hx.bounds hy.bounds hlen.le
  have hyx := packed_prefix hy.entries hx.entries hy.bounds hx.bounds hlen.ge
  exact hxy.eq_of_length (le_antisymm hxy.length_le hyx.length_le)

theorem delenv_envsize (h : Filled m bodies) (hvalid : invalid m = .ok)
    (hfound : matchenv m name.bytes≠0) :
    getshort (Nvram.delenv ⟨m,[]⟩ name.bytes).1.mem nvoffEnvsize =
      getshort m nvoffEnvsize-(m (matchenv m name.bytes)).toNat := by
  rw [delenv_eq (s := ⟨m,[]⟩) h hfound,Nvram.poke_mem]
  exact ((stage_of_valid hvalid).deleted (getshort_lt _ _) (h.found hfound).base).size

theorem Refused.setenv_eq (hr : Refused m name v) (h : Filled m bodies) :
    Nvram.setenv ⟨m,[]⟩ name v=((Nvram.delenv ⟨m,[]⟩ name.bytes).1,.failed) := by
  have hsize := delenv_envsize h hr.valid hr.found
  have hshort := hr.short
  have hfull := hr.full
  unfold Nvram.setenv
  dsimp only
  rw [if_neg (not_not.2 hr.valid),if_neg hr.named,setenv_total,←entryTotal_eq,
    if_neg (by omega),if_neg (fun hplace => hr.resized hplace.2),hsize,if_pos (by omega)]

theorem setenv_of_not_refused (h : Filled m bodies) (hr : ¬ Refused m name v)
    (hfail : (Nvram.setenv ⟨m,[]⟩ name v).2 ≠ .done) :
    (Nvram.setenv ⟨m,[]⟩ name v).1=⟨m,[]⟩ := by
  unfold Nvram.setenv at hfail ⊢
  dsimp only at hfail ⊢
  rw [setenv_total,←entryTotal_eq] at hfail ⊢
  by_cases hvalid : invalid m = .ok
  · rw [if_neg (not_not.2 hvalid)] at hfail ⊢
    by_cases hne : name.bytes=[]
    · rw [if_pos hne]
    · rw [if_neg hne] at hfail ⊢
      by_cases hlong : 255<entryTotal name.bytes v.bytes
      · rw [if_pos hlong]
      · rw [if_neg hlong] at hfail ⊢
        split at hfail
        · -- an entry is replaced in place, with or without a value
          split at hfail
          · exact absurd rfl hfail
          · exact absurd rfl hfail
        · next hplace =>
          rw [if_neg hplace]
          split at hfail
          · next hroom =>
            rw [if_pos hroom]
            by_cases hfound : matchenv m name.bytes=0
            · rw [delenv_of_eq_zero (s := ⟨m,[]⟩) hfound]
            · rw [delenv_envsize h hvalid hfound] at hroom
              exact absurd ⟨hvalid,hne,by omega,hfound,fun hsame => hplace ⟨hfound,hsame⟩,
                by omega⟩ hr
          · exact absurd rfl hfail
  · rw [if_pos hvalid]

theorem Refused.not_keeps (hr : Refused m name v) (h : Filled m bodies)
    (hneeded : Needed m bodies name) : ¬ FailedSetKeeps m bodies name v := by
  intro hkeeps
  obtain ⟨pre,body,post,rfl,hpos,hdiff⟩ := hneeded
  unfold FailedSetKeeps at hkeeps
  rw [hr.setenv_eq h] at hkeeps
  obtain ⟨bodies',hfilled,hsame⟩ := hkeeps (by simp)
  rw [hfilled.unique (delenv_filled h hr.valid hpos)] at hsame
  exact hdiff hsame

/-- A call that does not return 1 keeps every binding, unless it deletes an entry that matters and
has no room. -/
theorem failedSetKeeps_iff (h : Filled m bodies) (name : CString) (v : CPtr) :
    FailedSetKeeps m bodies name v ↔ ¬ (Refused m name v ∧ Needed m bodies name) := by
  constructor
  · rintro hkeeps ⟨hr,hneeded⟩
    exact hr.not_keeps h hneeded hkeeps
  · intro hno hfail
    by_cases hr : Refused m name v
    · -- the entry is deleted, and the others bind every variable without it
      obtain h0 | ⟨pre,body,post,rfl,hpos,-⟩ := matchenv_spec h name.bytes
      · exact absurd h0 hr.found
      · rw [hr.setenv_eq h]
        refine ⟨pre++post,delenv_filled h hr.valid hpos,?_⟩
        by_contra hdiff
        exact hno ⟨hr,pre,body,post,rfl,hpos,hdiff⟩
    · rw [setenv_of_not_refused h hr hfail]
      exact ⟨bodies,h,rfl⟩

theorem needed_of_distinct (hd : Distinct keyOf (pre++body::post)) {n : CString}
    (hkey : keyOf body=n.bytes) (hpos : matchenv m name.bytes=envBase+(packed pre).length) :
    Needed m (pre++body::post) name := by
  refine ⟨pre,body,post,rfl,hpos,fun hsame => ?_⟩
  have hnone : bindings (pre++post) n=none := by
    rw [bindings_remove hd hkey,Function.update_self]
  have hfound : lookup keyOf (pre++body::post) n.bytes=some body :=
    (lookup_eq_some hd).2 ⟨by simp,hkey⟩
  rw [hsame,bindings,hfound] at hnone
  cases hnone
end
def fullBodies : List (List UInt8) :=
  [0x62,0x63,0x64,0x65,0x66,0x67,0x68].map (fun c => c::List.replicate 253 0x7a) ++
    [0x69::List.replicate 187 0x7a,[0x61]]

def fullMem : ℕ → UInt8 := fun q =>
  if q=0 then 0xde else if q=1 then 0xaf else if q=2 then 0xda else if q=3 then 0xec
  else if q=4 then 7 else if q=5 then 0xb8
  else if q<64 then 0
  else if q=2038 then 2 else if q=2039 then 0x61
  else if 2040≤q then 0
  else if (q-64)%255=0 then (if q=1849 then 189 else 255)
  else if (q-64)%255=1 then UInt8.ofNat (0x62+(q-64)/255)
  else 0x7a

theorem fullMem_filled : Filled fullMem fullBodies where
  size := by decide +kernel
  entries := by
    have hread : readCells fullMem envBase 1976=packed fullBodies := by decide +kernel
    rw [←hread]
    exact holds_readCells _ _ _
  bounds := by decide +kernel
  fits := by decide +kernel

theorem noNul_nameA : (0 : UInt8)∉[0x61] := by decide
def nameA : CString := ⟨[0x61],noNul_nameA⟩
def valueX : CPtr := some ⟨[0x78], by decide⟩
theorem fullMem_matchenv : matchenv fullMem nameA.bytes=2038 := by decide +kernel

theorem fullMem_refused : Refused fullMem nameA valueX := by
  refine ⟨by decide +kernel,by decide,by decide,?_,?_,?_⟩
  · rw [fullMem_matchenv]
    decide
  · rw [fullMem_matchenv]
    decide
  · rw [fullMem_matchenv]
    decide

theorem failedSetKeeps_iff_full : FailedSetKeeps fullMem fullBodies nameA valueX ↔
      ¬ (Refused fullMem nameA valueX ∧ Needed fullMem fullBodies nameA) :=
  failedSetKeeps_iff fullMem_filled nameA valueX

theorem failedSet_loses_full : (Nvram.setenv ⟨fullMem,[]⟩ nameA valueX).2 = .failed ∧
      getenv fullMem nameA=some CString.empty ∧
      getenv (Nvram.setenv ⟨fullMem,[]⟩ nameA valueX).1.mem nameA=none ∧
      ¬ FailedSetKeeps fullMem fullBodies nameA valueX := by
  have hsplit : fullBodies=fullBodies.dropLast++[0x61]::[] := by decide +kernel
  have hdistinct : Distinct keyOf (fullBodies.dropLast++[0x61]::[]) :=
    show (map keyOf (fullBodies.dropLast++[0x61]::[])).Nodup by decide +kernel
  have hpos : matchenv fullMem nameA.bytes=envBase+(packed fullBodies.dropLast).length := by
    rw [fullMem_matchenv]
    decide +kernel
  have hneeded := needed_of_distinct hdistinct (n := nameA) (by decide) hpos
  have hgone : matchenv (Nvram.delenv ⟨fullMem,[]⟩ nameA.bytes).1.mem nameA.bytes=0 := by
    decide +kernel
  rw [←hsplit] at hneeded
  refine ⟨?_,?_,?_,fullMem_refused.not_keeps fullMem_filled hneeded⟩
  · rw [fullMem_refused.setenv_eq fullMem_filled]
  · rw [getenv,if_neg (not_not.2 fullMem_refused.valid),fullMem_matchenv]
    decide
  · rw [fullMem_refused.setenv_eq fullMem_filled,getenv,hgone]
    split
    · rfl
    · rfl
end Pmon.Mk48t02
