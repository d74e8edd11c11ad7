import Pmon.Mk48t02Layout

/-!
# Deleting from the clock-chip store

`nvram_delenv` writes the state, the size, the later entries and the checksum, in this order.
-/

namespace Pmon.Mk48t02
open ByteStore PackedRecords EnvEntry KeyedList List Function

def moved (m : ℕ → UInt8) (e d j : ℕ) : ℕ → UInt8 :=
  applyWrites (writesAt e (readCells m (e+d) j)) m

/-- A store in the middle of a call: what its entries, size, checksum and state are by now. -/
structure Stage (m area : ℕ → UInt8) (size csum : ℕ) (state : UInt8) : Prop where
  area : SameArea area m
  size : getshort m nvoffEnvsize=size
  csum : getshort m nvoffCsum=csum
  state : m nvoffState=state
  magic : getshort m nvoffMagic=nvMagic

namespace Stage
variable {m area : ℕ → UInt8} {size csum : ℕ} {state : UInt8}
variable (h : Stage m area size csum state)
include h

theorem setState (state' : UInt8) :
    Stage (update m nvoffState state') area size csum state' where
  area := h.area.trans (sameArea_update (by decide) m _)
  size := (getshort_congr rfl rfl).trans h.size
  csum := (getshort_congr rfl rfl).trans h.csum
  state := update_self _ _ _
  magic := (getshort_congr rfl rfl).trans h.magic

theorem setSize {new : ℕ} (hnew : new<0x10000) :
    Stage (applyWrites (shortWrites nvoffEnvsize new) m) area new csum state where
  area := h.area.trans (sameArea_applyWrites (shortWrites_lt_envBase (by decide) _) m)
  size := getshort_shortWrites m _ hnew
  csum := (getshort_congr rfl rfl).trans h.csum
  state := h.state
  magic := (getshort_congr rfl rfl).trans h.magic

theorem setCsum {new : ℕ} (hnew : new<0x10000) :
    Stage (applyWrites (shortWrites nvoffCsum new) m) area size new state where
  area := h.area.trans (sameArea_applyWrites (shortWrites_lt_envBase (by decide) _) m)
  size := (getshort_congr rfl rfl).trans h.size
  csum := getshort_shortWrites m _ hnew
  state := h.state
  magic := (getshort_congr rfl rfl).trans h.magic

theorem setArea {e : ℕ} (he : envBase≤e) (bs : List UInt8) :
    Stage (applyWrites (writesAt e bs) m) (applyWrites (writesAt e bs) area) size csum state := by
  have hout : ∀ q, q<envBase → applyWrites (writesAt e bs) m q=m q := fun q hq =>
    applyWrites_writesAt_of_outside _ _ _ (.inl (by omega))
  refine ⟨h.area.applyWrites _,?_,?_,(hout _ (by decide)).trans h.state,?_⟩
  · exact (getshort_congr (hout _ (by decide)) (hout _ (by decide))).trans h.size
  · exact (getshort_congr (hout _ (by decide)) (hout _ (by decide))).trans h.csum
  · exact (getshort_congr (hout _ (by decide)) (hout _ (by decide))).trans h.magic

end Stage

def deleteWrites (m : ℕ → UInt8) (e d r n : ℕ) : List (ℕ × UInt8) :=
  ((nvoffState,4)::shortWrites nvoffEnvsize (n-d)) ++
    (writesAt e (readCells m (e+d) r)++sumWrites (calcsum (moved m e d r)))

section
variable {m : ℕ → UInt8} {name : List UInt8} {bodies : List (List UInt8)}

/-- What `nvram_matchenv` has seen at its entry; the comparison may run past it. -/
structure Hit (m : ℕ → UInt8) (name : List UInt8) (e : ℕ) (body : List UInt8) : Prop where
  same : matchLen m (e+1) name=name.length
  ends : name.length=body.length ∨ m (e+1+name.length)=eqSign

theorem matchLoop_spec {e fuel : ℕ} (h : Holds m e (packed bodies))
    (hb : ∀ body∈bodies, body.length+1<256)
    (htop : e+(packed bodies).length≤envTop) (hfuel : (packed bodies).length≤fuel) :
    matchLoop m name fuel (packed bodies).length e=0 ∨
      ∃ pre body post, bodies=pre++body::post ∧
        matchLoop m name fuel (packed bodies).length e=e+(packed pre).length ∧
        Hit m name (e+(packed pre).length) body := by
  induction bodies generalizing e fuel with
  | nil =>
    left
    cases fuel <;> simp [matchLoop]
  | cons body rest ih =>
    obtain ⟨fuel,rfl,hat⟩ := atRecord h (hb body mem_cons_self) hfuel
    rw [length_packed_cons] at htop ⊢
    have hrest : ∀ q∈rest, q.length+1<256 := fun q hq => hb q (mem_cons_of_mem _ hq)
    have hnext := ih hat.hrest hrest (by omega) hat.hfuel
    have hgo : body.length+1+(packed rest).length-(body.length+1) =
        (packed rest).length := by omega
    -- the next entries, seen from this one
    have hlater : ∀ x, x=matchLoop m name fuel (packed rest).length (e+(body.length+1)) →
        x=0 ∨ ∃ pre b post, body::rest=pre++b::post ∧
          x=e+(packed pre).length ∧ Hit m name (e+(packed pre).length) b := by
      rintro x rfl
      rcases hnext with h0 | ⟨pre,b,post,hsplit,hpos,hhit⟩
      · exact .inl h0
      · have hshift : e+(body.length+1)+(packed pre).length =
            e+(packed (body::pre)).length := by
          rw [length_packed_cons]
          omega
        rw [hshift] at hpos hhit
        exact .inr ⟨body::pre,b,post,by rw [hsplit,cons_append],hpos,hhit⟩
    rw [matchLoop,if_pos (by omega),hat.hsize]
    rw [if_neg (by omega),hgo]
    split_ifs with hskip hhit
    · exact hlater _ rfl
    · refine .inr ⟨[],body,rest,rfl,by simp,?_⟩
      simpa using Hit.mk hhit.1 hhit.2
    · exact hlater _ rfl

theorem matchenv_spec (h : Filled m bodies) (name : List UInt8) :
    matchenv m name=0 ∨ ∃ pre body post, bodies=pre++body::post ∧
      matchenv m name=envBase+(packed pre).length ∧
      Hit m name (envBase+(packed pre).length) body := by
  have hfits := h.fits
  unfold matchenv
  rw [h.size,if_neg (by omega)]
  split
  · exact .inl rfl
  · exact matchLoop_spec h.entries h.bounds (by unfold envAvail envBase envTop at *; omega) le_rfl
end

section
variable {s : Nvram} {name : List UInt8} {bodies : List (List UInt8)}

theorem moveLoop_eq (s : Nvram) (e : ℕ) {d : ℕ} (hd : 0<d) (r : ℕ) :
    Nvram.moveLoop r e (e+d) s=s.poke (writesAt e (readCells s.mem (e+d) r)) := by
  induction r generalizing e s with
  | zero => exact s.poke_nil.symm
  | succ r ih =>
    have hrest : readCells (s.setbyte e (s.mem (e+d))).mem (e+1+d) r =
        readCells s.mem (e+d+1) r := by
      rw [Nat.add_right_comm]
      exact readCells_congr fun q hq _ => update_of_ne (by omega) _ _
    rw [Nvram.moveLoop,Nat.add_right_comm,ih,hrest,Nvram.setbyte,Nvram.poke_poke,
      readCells,writesAt_cons]
    rfl

def behind (m : ℕ → UInt8) (e : ℕ) : ℕ := getshort m nvoffEnvsize-(e-envBase+(m e).toNat)

structure Found (m : ℕ → UInt8) (e : ℕ) : Prop where
  base : envBase≤e
  pos : 0<(m e).toNat
  le : e-envBase+(m e).toNat≤getshort m nvoffEnvsize

/-- The size byte of an entry, and what follows it. -/
theorem Filled.entry {m : ℕ → UInt8} {pre post : List (List UInt8)} {body : List UInt8}
    (h : Filled m (pre++body::post)) :
    (m (envBase+(packed pre).length)).toNat=body.length+1 ∧
      behind m (envBase+(packed pre).length)=(packed post).length := by
  obtain ⟨_,hat⟩ := atRecord_behind h.entries (h.bounds body (by simp))
  refine ⟨hat.hsize,?_⟩
  rw [behind,hat.hsize,h.size,packed_append,length_append,length_packed_cons]
  omega

theorem Filled.found {m : ℕ → UInt8} (h : Filled m bodies) (hne : matchenv m name≠0) :
    Found m (matchenv m name) := by
  obtain h0 | ⟨pre,body,post,rfl,hpos,-⟩ := matchenv_spec h name
  · exact absurd h0 hne
  · have hsize := h.entry.1
    rw [hpos]
    refine ⟨by omega,by omega,?_⟩
    rw [h.size,hsize,packed_append,length_append,length_packed_cons]
    omega

theorem delenv_eq (h : Filled s.mem bodies) (hne : matchenv s.mem name≠0) :
    s.delenv name=(s.poke (deleteWrites s.mem (matchenv s.mem name)
      (s.mem (matchenv s.mem name)).toNat (behind s.mem (matchenv s.mem name))
      (getshort s.mem nvoffEnvsize)),true) := by
  have hf := h.found hne
  have hn := getshort_lt s.mem nvoffEnvsize
  unfold Nvram.delenv behind
  generalize matchenv s.mem name=e at *
  obtain ⟨hbase,hpos,hle⟩ := hf
  generalize hd : (s.mem e).toNat=d at *
  generalize getshort s.mem nvoffEnvsize=n at *
  have hcount : (((n : ℤ)-(e+d-envBase : ℕ))%2^32).toNat=n-(e-envBase+d) := by
    omega
  have hsize : (n+0x10000-(e+d-e))%0x10000=n-d := by omega
  have harea : ∀ bs, SameArea (applyWrites (writesAt e bs) s.mem)
      (applyWrites (writesAt e bs)
        (applyWrites ((nvoffState,4)::shortWrites nvoffEnvsize (n-d)) s.mem)) := fun bs =>
    SameArea.applyWrites (sameArea_applyWrites (by
      intro w hw
      rcases mem_cons.1 hw with rfl | hw
      · decide
      · exact shortWrites_lt_envBase (by decide) _ w hw) _) _
  have hread : readCells (applyWrites ((nvoffState,4)::shortWrites nvoffEnvsize (n-d)) s.mem)
      (e+d) (n-(e-envBase+d))=readCells s.mem (e+d) (n-(e-envBase+d)) :=
    readCells_congr fun q hq _ => harea [] q (by omega)
  rw [if_neg hne]
  simp only [hd,hcount,hsize]
  rw [Nvram.setstate,Nvram.setbyte,Nvram.setshort_eq,Nvram.poke_poke,moveLoop_eq _ _ hpos,
    Nvram.poke_poke,Nvram.updatesum_eq,Nvram.poke_poke]
  simp only [Nvram.poke_mem,singleton_append,NvState.toByte,applyWrites_append]
  rw [hread,calcsum_congr (harea _),deleteWrites,append_assoc]
  rfl

theorem delenv_of_eq_zero (h : matchenv s.mem name=0) : s.delenv name=(s,false) := by
  simp [Nvram.delenv,h]
end

section
variable {m : ℕ → UInt8} {body : List UInt8} {pre post : List (List UInt8)}

theorem packed_prefix {xs ys : List (List UInt8)} {e : ℕ} (hx : Holds m e (packed xs))
    (hy : Holds m e (packed ys)) (hbx : ∀ x∈xs, x.length+1<256)
    (hby : ∀ y∈ys, y.length+1<256) (hle : (packed xs).length≤(packed ys).length) :
    xs <+: ys := by
  induction xs generalizing ys e with
  | nil => exact nil_prefix
  | cons x xs ih =>
    cases ys with
    | nil => simp at hle
    | cons y ys =>
      obtain ⟨hsx,hbodyx,hrestx⟩ := (holds_packed_cons _ _ _ _).1 hx
      obtain ⟨hsy,hbodyy,hresty⟩ := (holds_packed_cons _ _ _ _).1 hy
      have hlen : x.length=y.length := by
        have hsame := congrArg UInt8.toNat (hsx.symm.trans hsy)
        rw [toNat_size (hbx x mem_cons_self),toNat_size (hby y mem_cons_self)]
          at hsame
        omega
      obtain rfl : x=y := hbodyx.unique hbodyy hlen
      rw [length_packed_cons,length_packed_cons] at hle
      exact cons_prefix_cons.2 ⟨rfl,ih hrestx hresty
        (fun q hq => hbx q (mem_cons_of_mem _ hq))
        (fun q hq => hby q (mem_cons_of_mem _ hq)) (by omega)⟩

theorem holds_moved (h : Filled m (pre++body::post)) :
    Holds (moved m (envBase+(packed pre).length) (body.length+1) (packed post).length) envBase
      (packed (pre++post)) := by
  obtain ⟨hpre,hrest⟩ := (holds_packed_append _ _ _ _).1 h.entries
  obtain ⟨-,-,hpost⟩ := (holds_packed_cons _ _ _ _).1 hrest
  rw [holds_packed_append,moved,hpost.readCells_eq rfl]
  exact ⟨hpre.applyWrites_writesAt _ _ (.inl le_rfl),holds_applyWrites_writesAt _ _ _⟩
end

section
variable {m : ℕ → UInt8}

theorem NvState.ofByte_eq_ok {c : UInt8} (h : NvState.ofByte c = .ok) : c=0 := by
  unfold NvState.ofByte at h
  split_ifs at h
  assumption

theorem stage_of_valid (h : invalid m = .ok) :
    Stage m m (getshort m nvoffEnvsize) (calcsum m) 0 := by
  unfold invalid at h
  split_ifs at h with hmagic hcsum
  exact ⟨fun _ _ => rfl,rfl,(not_not.1 hcsum).symm,NvState.ofByte_eq_ok h,not_not.1 hmagic⟩

theorem Stage.deleted {e d r n : ℕ} (h : Stage m m n (calcsum m) 0) (hn : n<0x10000)
    (he : envBase≤e) : Stage (applyWrites (deleteWrites m e d r n) m) (moved m e d r) (n-d)
      (calcsum (moved m e d r)) 0 := by
  have hsize := (h.setState 4).setSize (by omega : n-d<0x10000)
  have hmoved := hsize.setArea he (readCells m (e+d) r)
  have hsum := (hmoved.setCsum (calcsum_lt (moved m e d r))).setState 0
  rw [deleteWrites,applyWrites_append,applyWrites_append,sumWrites,applyWrites_append]
  exact hsum

theorem setenv_total (name val : List UInt8) :
    (if val≠[] then name.length+val.length+2 else name.length+1) =
      (entryBody name val).length+1 := by
  rw [entryBody_length]
  by_cases hv : val=[]
  · simp [hv]
  · simp only [hv,ne_eq,not_false_eq_true,if_true,if_false]
    omega
end

end Pmon.Mk48t02
