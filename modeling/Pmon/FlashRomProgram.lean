import Pmon.FlashRomAtomic

/-!
# What successful flash programming leaves in the device

Every group is read back by a poll, and a failed status is never overwritten. What an erase wiped is
inside an entry for its whole sector.
-/

namespace Pmon.FlashRom
open ByteStore List
variable {n o : ℕ} {mem mp : List UInt8} {cells cells' : ℕ → UInt8}
section
variable (fcp : Fromcookie) (chip : Chip) (flags : Flags) (fp : ℕ) (s : Flash)

theorem frompoll_ok {fp : ℕ} {expect : List UInt8} {flags : Flags} {s : Flash}
    (h : frompoll fcp chip fp expect flags s = .ok) :
    fcp.board.frompeek (mode flags) s.cells fp=expect := by
  rw [frompoll] at h
  cases hfam : fcp.family with
  | ibcs =>
    simp only [hfam,frompollIbcs] at h
    split_ifs at h with _ hpeek
    exact not_not.mp hpeek
  | amd =>
    simp only [hfam,frompollAmd] at h
    split_ifs at h with _ hpeek
    have hraw := not_not.mp hpeek
    -- both sides were brought into command order
    rw [Board.frompeek,Board.munge,Board.fromconvert] at hraw
    rw [Board.frompeek,Board.munge]
    cases hc : fcp.board.swapped (mode fcmd) <;>
      cases hf : fcp.board.swapped (mode flags) <;> simp_all
  | atmel => simp [hfam] at h

theorem startErase_zero (n col : ℕ) (s : Flash) : startErase fcp fp n col 0 s=s := by
  induction n generalizing col with
  | zero => rfl
  | succ n ih =>
    rw [startErase,Nat.zero_shiftRight]
    exact ih _

theorem eraseColumn_outside {cp a : ℕ} (ha : a<(fcp.sectorAt cp).soffs ∨
      (fcp.sectorAt cp).soffs+(fcp.sectorAt cp).ssize≤a) :
    (eraseColumn fcp cp s).cells a=s.cells a := by
  refine if_neg fun hin => ?_
  rw [Geometry.sectorAt] at ha
  omega

theorem startErase_outside (sec : Sector) {a : ℕ} (ha : a<sec.soffs ∨ sec.soffs+sec.ssize≤a)
    (n k e : ℕ) (s : Flash)
    (hsec : ∀ j, k≤j → j<k+n → fcp.sectorAt (fp+j*fcp.board.groupsz)=sec) :
    (startErase fcp fp n (k*fcp.board.group) e s).cells a=s.cells a := by
  induction n generalizing k e s with
  | zero => rfl
  | succ n ih =>
    have hcol : k*fcp.board.group*fcp.board.width=k*fcp.board.groupsz := Nat.mul_assoc _ _ _
    have hnext : k*fcp.board.group+fcp.board.group=(k+1)*fcp.board.group := by ring
    rw [startErase,hnext,ih _ _ _ fun j hj hj' => hsec j (by omega) (by omega)]
    split
    · have hone := hsec k le_rfl (by omega)
      rw [hcol]
      exact eraseColumn_outside fcp s (by rw [hone]; exact ha)
    · rfl

theorem status_ok {stat status : DevCode} (h : (if stat ≠ .ok then stat else status) = .ok) :
    stat = .ok := by
  split at h
  · contradiction
  · exact not_not.mp ‹_›

def EachGroup (g : ℕ) (P : ℕ → List UInt8 → Prop) : ℕ → ℕ → List UInt8 → Prop
  | _, 0, _ => True
  | k, n+1, mp => P k (mp.take g) ∧ EachGroup g P (k+1) n (mp.drop g)

variable {v : Fromvec} {data : List UInt8} {k nb offs : ℕ} {V : ℕ → UInt8}

theorem EachGroup.imp {g : ℕ} {P Q R : ℕ → List UInt8 → Prop} (hp : EachGroup g P k n mp)
    (hq : EachGroup g Q k n mp) (h : ∀ i data, i<k+n → P i data → Q i data → R i data) :
    EachGroup g R k n mp := by
  induction n generalizing k mp with
  | zero => trivial
  | succ n ih =>
    refine ⟨h k _ (by omega) hp.1 hq.1,ih hp.2 hq.2 fun i data hi => ?_⟩
    exact h i data (by omega)

theorem EachGroup.readCells {f : ℕ → UInt8} {g : ℕ}
    (h : EachGroup g (fun i data => ByteStore.readCells f (o+i*g) g=data) k n mp) :
    ByteStore.readCells f (o+k*g) (n*g)=mp.take (n*g) := by
  induction n generalizing k mp with
  | zero => rw [Nat.zero_mul,take_zero]; rfl
  | succ n ih =>
    have hrest := ih h.2
    rw [Nat.succ_mul,←Nat.add_assoc] at hrest
    rw [Nat.succ_mul,Nat.add_comm (n*g),readCells_add,take_add,h.1,hrest]

theorem startGroups_round (n k : ℕ) (mp : List UInt8) (prog : ℕ) (s : Flash) :
    ∃ prog' s', startGroups fcp chip flags fp (n+1) (k*fcp.board.group) mp prog s =
        startGroups fcp chip flags fp n ((k+1)*fcp.board.group)
          (mp.drop fcp.board.groupsz) prog' s' ∧
      (∀ a, a<fp+k*fcp.board.groupsz ∨ fp+(k+1)*fcp.board.groupsz≤a →
        s'.cells a=s.cells a) ∧ (∀ i<k*fcp.board.group, prog'.testBit i=prog.testBit i) ∧
      (fcp.board.frompeek (mode flags) s'.cells (fp+k*fcp.board.groupsz) =
          mp.take fcp.board.groupsz ∨ prog'.testBit (k*fcp.board.group)=true) := by
  have hcol : k*fcp.board.group*fcp.board.width=k*fcp.board.groupsz := Nat.mul_assoc _ _ _
  rw [startGroups,hcol,←Nat.succ_mul]
  split
  · refine ⟨_,_,rfl,fun a ha => ?_,fun i hi => ?_,Or.inr ?_⟩
    · rw [Nat.succ_mul] at ha
      exact if_neg (by omega)
    · rw [Nat.testBit_or,Nat.one_shiftLeft,Nat.testBit_two_pow_of_ne (by omega),Bool.or_false]
    · rw [Nat.testBit_or,Nat.one_shiftLeft,Nat.testBit_two_pow_self,Bool.or_true]
  · rename_i hpeek
    exact ⟨prog,s,rfl,fun _ _ => rfl,fun _ _ => rfl,Or.inl (not_not.mp hpeek)⟩

theorem frompeek_congr (m : Flags) (fp : ℕ)
    (h : ∀ q, fp≤q → q<fp+fcp.board.groupsz → cells' q=cells q) :
    fcp.board.frompeek m cells' fp=fcp.board.frompeek m cells fp :=
  congrArg _ (readCells_congr h)

theorem startGroups_spec (n k : ℕ) (mp : List UInt8) (prog : ℕ) (s : Flash) (r : ℕ × Flash)
    (hr : startGroups fcp chip flags fp n (k*fcp.board.group) mp prog s=r) :
    (∀ a, a<fp+k*fcp.board.groupsz ∨ fp+(k+n)*fcp.board.groupsz≤a →
        r.2.cells a=s.cells a) ∧ (∀ i<k*fcp.board.group, r.1.testBit i=prog.testBit i) ∧
      EachGroup fcp.board.groupsz (fun i data =>
        fcp.board.frompeek (mode flags) r.2.cells (fp+i*fcp.board.groupsz)=data ∨
          r.1.testBit (i*fcp.board.group)=true) k n mp := by
  induction n generalizing k mp prog s with
  | zero =>
    subst hr
    exact ⟨fun _ _ => rfl,fun _ _ => rfl,trivial⟩
  | succ n ih =>
    obtain ⟨prog',s',heq,hcells',hbits',hfirst⟩ :=
      startGroups_round fcp chip flags fp n k mp prog s
    obtain ⟨hcells,hbits,hgroups⟩ := ih (k+1) _ _ _ (heq.symm.trans hr)
    have hg := fcp.board.group_pos
    have hlast : (k+1)*fcp.board.groupsz≤(k+(n+1))*fcp.board.groupsz :=
      Nat.mul_le_mul_right _ (by omega)
    rw [show k+1+n=k+(n+1) by omega] at hcells
    rw [Nat.succ_mul] at hcells hcells' hbits hlast
    refine ⟨fun a ha => ?_,fun i hi => ?_,?_,hgroups⟩
    · rw [hcells a (by omega),hcells' a (by omega)]
    · rw [hbits i (by omega),hbits' i hi]
    · have hpeek := frompeek_congr fcp (mode flags) (fp+k*fcp.board.groupsz)
        fun q _ hq => hcells q (by omega)
      dsimp only
      rw [hpeek,hbits _ (by omega)]
      exact hfirst

theorem pollGroups_spec (n k : ℕ) (mp : List UInt8) (prog : ℕ) (status : DevCode) (s : Flash)
    (hok : (pollGroups fcp chip flags fp n (k*fcp.board.group) mp
      (prog >>> (k * fcp.board.group)) status s).1 = .ok) :
    EachGroup fcp.board.groupsz (fun i data => prog.testBit (i*fcp.board.group)=true →
      fcp.board.frompeek (mode flags) s.cells (fp+i*fcp.board.groupsz)=data) k n mp := by
  induction n generalizing k mp status s with
  | zero => trivial
  | succ n ih =>
    have hcol : k*fcp.board.group*fcp.board.width=k*fcp.board.groupsz := Nat.mul_assoc _ _ _
    rw [pollGroups,hcol,←Nat.shiftRight_add,←Nat.succ_mul] at hok
    split at hok
    · have hstat := Programmed.status_ok hok (pollGroups_polled fcp.toGeometry ..).toProgrammed
      exact ⟨fun _ => frompoll_ok fcp chip (status_ok hstat),ih (k+1) _ _ s.next hok⟩
    · rename_i hodd
      refine ⟨fun hbit => absurd ?_ hodd,ih (k+1) _ _ _ hok⟩
      rw [←Nat.add_zero (k*fcp.board.group),←Nat.testBit_shiftRight,Nat.testBit_zero] at hbit
      exact of_decide_eq_true hbit

theorem patched_of_readCells {f f' : ℕ → UInt8} {bs : List UInt8} (h : readCells f' o n=bs)
    (hout : ∀ x, x<o ∨ o+n≤x → f' x=f x) : Patched f f' o bs := by
  subst h
  constructor
  · exact holds_readCells _ _ _
  · intro x hx
    rw [length_readCells] at hx
    exact hout x hx

def LineStored (m : Flags) (addr : ℕ) (mp : List UInt8) (cells cells' : ℕ → UInt8) : Prop :=
  Patched (fcp.board.view m cells) (fcp.board.view m cells') (addr*fcp.board.linesz) mp

theorem lineStored_of_groups (m : Flags) {addr : ℕ}
    (hcells : ∀ a, a<fromlineaddr fcp m addr+0*fcp.board.groupsz ∨
      fromlineaddr fcp m addr+(0+fcp.board.ngroups)*fcp.board.groupsz≤a →
      cells' a=cells a)
    (hshow : EachGroup fcp.board.groupsz (fun i data => fcp.board.frompeek m cells'
      (fromlineaddr fcp m addr+i*fcp.board.groupsz)=data) 0 fcp.board.ngroups mp) :
    LineStored fcp m addr (mp.take fcp.board.linesz) cells cells' := by
  have hline : fcp.board.linesz ∣ addr*fcp.board.linesz := Dvd.intro_left _ rfl
  have hread := EachGroup.readCells (f := fcp.board.view m cells')
    (hshow.imp hshow fun i data hi h _ => by
      rw [←fcp.board.frompeek_eq m _ hline (by omega)]
      exact h)
  rw [Nat.zero_add,fcp.board.ngroups_mul_groupsz,Nat.zero_mul,Nat.add_zero] at hcells
  rw [fcp.board.ngroups_mul_groupsz,Nat.zero_mul,Nat.add_zero] at hread
  exact patched_of_readCells hread fun x hx => fcp.board.view_congr_line m hline hcells hx

theorem LineStored.append {m : Flags} {addr : ℕ} {cells'' : ℕ → UInt8}
    (hmem : (n+1)*fcp.board.linesz ≤ mp.length)
    (h : LineStored fcp m addr (mp.take fcp.board.linesz) cells cells')
    (h' : LineStored fcp m (addr+1) ((mp.drop fcp.board.linesz).take (n*fcp.board.linesz))
      cells' cells'') :
    LineStored fcp m addr (mp.take ((n+1)*fcp.board.linesz)) cells cells'' := by
  rw [Nat.succ_mul] at hmem
  have hlen : (mp.take fcp.board.linesz).length=fcp.board.linesz := by
    rw [length_take]
    omega
  rw [LineStored,Nat.succ_mul,Nat.add_comm (n*_),take_add]
  refine Patched.append h ?_
  rw [hlen,←Nat.succ_mul]
  exact h'

theorem programLine_spec (addr : ℕ) (mp : List UInt8) (status : DevCode) (s : Flash)
    (hok : (programLine fcp chip flags addr mp status s).1 = .ok) :
    LineStored fcp (mode flags) addr (mp.take fcp.board.linesz) s.cells
      (programLine fcp chip flags addr mp status s).2.cells := by
  have hzero : (0 : ℕ)=0*fcp.board.group := (Nat.zero_mul _).symm
  rw [programLine] at hok ⊢
  generalize hstart : startGroups fcp chip flags (fromlineaddr fcp (mode flags) addr)
    fcp.board.ngroups 0 mp 0 s=r at hok ⊢
  obtain ⟨hcells,-,hgroups⟩ := startGroups_spec fcp chip flags _ _ 0 mp 0 s r
    (by rw [←hzero]; exact hstart)
  -- after the polls every group shows its data, marked or not
  split at hok
  · rename_i hprog
    rw [if_pos hprog]
    refine lineStored_of_groups fcp _ hcells (hgroups.imp hgroups fun i data _ h _ => ?_)
    refine h.resolve_right ?_
    rw [hprog,Nat.zero_testBit]
    decide
  · rename_i hprog
    have hback := pollGroups_spec fcp chip flags _ _ 0 mp r.1 status r.2
      (by rw [←hzero]; exact hok)
    rw [if_neg hprog,(pollGroups_polled fcp chip flags _ _ _ _ _ status r.2).cells]
    refine lineStored_of_groups fcp _ hcells (hgroups.imp hback fun i data _ h hmarked => ?_)
    exact h.elim id hmarked

theorem programLines_spec (n addr : ℕ) (mp : List UInt8) (status : DevCode) (s : Flash)
    (hok : (programLines fcp chip flags n addr mp status s).1 = .ok)
    (hmem : n*fcp.board.linesz ≤ mp.length) :
    LineStored fcp (mode flags) addr (mp.take (n*fcp.board.linesz)) s.cells
      (programLines fcp chip flags n addr mp status s).2.cells := by
  induction n generalizing addr mp status s with
  | zero =>
    rw [Nat.zero_mul,take_zero]
    exact Patched.nil _ _
  | succ n ih =>
    rw [programLines] at hok ⊢
    have hfirst := Programmed.status_ok hok (programLines_programmed fcp.toGeometry ..)
    refine (programLine_spec fcp chip flags addr mp status s hfirst).append fcp hmem ?_
    refine ih (addr+1) _ _ _ hok ?_
    rw [Nat.succ_mul] at hmem
    rw [length_drop]
    omega

theorem pageGroups_spec (n k : ℕ) (mp : List UInt8) (s : Flash)
    (hlen : n*fcp.board.groupsz ≤ mp.length) (s' : Flash)
    (hs : pageGroups fcp flags fp n (k*fcp.board.group) mp s=s') :
    (∀ a, a<fp+k*fcp.board.groupsz ∨ fp+(k+n)*fcp.board.groupsz≤a →
        s'.cells a=s.cells a) ∧ EachGroup fcp.board.groupsz (fun i data =>
        fcp.board.frompeek (mode flags) s'.cells (fp+i*fcp.board.groupsz)=data) k n mp := by
  induction n generalizing k mp s with
  | zero =>
    subst hs
    exact ⟨fun _ _ => rfl,trivial⟩
  | succ n ih =>
    have hcol : k*fcp.board.group*fcp.board.width=k*fcp.board.groupsz := Nat.mul_assoc _ _ _
    have hlast : (k+1)*fcp.board.groupsz≤(k+(n+1))*fcp.board.groupsz :=
      Nat.mul_le_mul_right _ (by omega)
    rw [Nat.succ_mul] at hlen hlast
    have hmunged : (fcp.board.munge (mode flags) (mp.take fcp.board.groupsz)).length =
        fcp.board.groupsz := by
      rw [Board.munge]
      split <;> simp only [length_reverse,length_take] <;> omega
    rw [pageGroups,hcol,←Nat.succ_mul] at hs
    obtain ⟨hcells,hgroups⟩ := ih (k+1) _ _ (by rw [length_drop]; omega) hs
    rw [show k+1+n=k+(n+1) by omega,Nat.succ_mul] at hcells
    refine ⟨fun a ha => ?_,?_,hgroups⟩
    · rw [hcells a (by omega)]
      exact applyWrites_writesAt_of_outside _ _ _ (by rw [hmunged]; omega)
    · -- the later groups leave this one alone
      have hpeek := frompeek_congr fcp (mode flags) (fp+k*fcp.board.groupsz)
        fun q _ hq => hcells q (by omega)
      dsimp only
      rw [hpeek,Board.frompeek,(holds_applyWrites_writesAt _ _ _).readCells_eq hmunged.symm]
      simp only [Board.munge]
      split <;> simp

theorem pageLines_spec (n addr : ℕ) (mp : List UInt8) (s : Flash)
    (hmem : n*fcp.board.linesz ≤ mp.length) :
    LineStored fcp (mode flags) addr (mp.take (n*fcp.board.linesz)) s.cells
      (pageLines fcp flags n addr mp s).cells := by
  induction n generalizing addr mp s with
  | zero =>
    rw [Nat.zero_mul,take_zero]
    exact Patched.nil _ _
  | succ n ih =>
    have hlinesz := fcp.board.ngroups_mul_groupsz
    have hlen := hmem
    rw [Nat.succ_mul] at hlen
    obtain ⟨hcells,hshow⟩ := pageGroups_spec fcp flags
      (fromlineaddr fcp (mode flags) addr) fcp.board.ngroups 0 mp s (by omega) _
      (by rw [Nat.zero_mul])
    refine (lineStored_of_groups fcp _ hcells hshow).append fcp hmem (ih (addr+1) _ _ ?_)
    rw [length_drop]
    omega

/-- An entry that can be programmed: whole lines, and an erase of its whole sector only. -/
structure EntryOk (v : Fromvec) : Prop where
  offs_lt : v.offs<fcp.size
  offs_dvd : fcp.board.linesz ∣ v.offs
  nb_dvd : fcp.board.linesz ∣ v.nb
  mem_le : v.nb≤v.mem.length
  erase : v.erase=0 ∨ v.offs=(fcp.sectorAt v.offs).soffs ∧ v.nb=(fcp.sectorAt v.offs).ssize

theorem sectorAt_pline (m : Flags) {i : ℕ} (ho : fcp.board.linesz ∣ o) (h : o<fcp.size)
    (hi : i<fcp.board.linesz) : fcp.sectorAt (fcp.board.frompline m o+i)=fcp.sectorAt o := by
  have hloc := fcp.sectorAt_located h
  have hdiv := (add_div_of_lt fcp.board.linesz_pos (fcp.board.linesz_dvd_pline m ho) hi
      fcp.board.linesz_dvd_unit).trans (fcp.board.pline_div m o)
  have hu := fcp.board.unit_pos
  have hlow := le_iff_of_div_eq hu hloc.soffs_dvd hdiv
  have hhigh := le_iff_of_div_eq hu (Nat.dvd_add hloc.soffs_dvd hloc.ssize_dvd) hdiv
  have hle := hloc.le
  have hlt := hloc.lt
  exact hloc.same _ (by omega) (by omega)

theorem startErase_view (hv : EntryOk fcp v) (m : Flags) (s : Flash) {x : ℕ}
    (hx : x<v.offs ∨ v.offs+v.nb≤x) :
    fcp.board.view m (startErase fcp (fromlineaddr fcp (mode fsect) (foffs2addr fcp v.offs).2)
      fcp.board.ngroups 0 v.erase s).cells x=fcp.board.view m s.cells x := by
  rcases hv.erase with hzero | ⟨hoffs,hnb⟩
  · rw [hzero,startErase_zero]
  · have hloc := fcp.sectorAt_located hv.offs_lt
    have haddr : (foffs2addr fcp v.offs).2*fcp.board.linesz=v.offs := by
      rw [fcp.foffs2addr_line hv.offs_lt,Nat.div_mul_cancel hv.offs_dvd]
    have hdiv := fcp.board.phys_div_unit m x
    have hu := fcp.board.unit_pos
    have hlow := le_iff_of_div_eq hu hloc.soffs_dvd hdiv
    have hhigh := le_iff_of_div_eq hu (Nat.dvd_add hloc.soffs_dvd hloc.ssize_dvd) hdiv
    rw [hoffs,hnb] at hx
    have hstart := startErase_outside fcp (fromlineaddr fcp (mode fsect)
      (foffs2addr fcp v.offs).2) (fcp.sectorAt v.offs) (a := fcp.board.phys m x)
      (by omega) fcp.board.ngroups 0 v.erase s (fun j _ hj => by
        rw [fromlineaddr,haddr]
        refine sectorAt_pline fcp _ hv.offs_dvd hv.offs_lt ?_
        rw [←fcp.board.ngroups_mul_groupsz]
        exact Nat.mul_lt_mul_of_pos_right (by omega) fcp.board.groupsz_pos)
    rw [Nat.zero_mul] at hstart
    exact hstart

theorem EntryOk.stored (hv : EntryOk fcp v) {m : Flags}
    (h : LineStored fcp m (foffs2addr fcp v.offs).2
      (v.mem.take (v.nb/fcp.board.linesz*fcp.board.linesz)) cells cells') :
    Patched (fcp.board.view m cells) (fcp.board.view m cells') v.offs (v.mem.take v.nb) := by
  rw [LineStored,fcp.foffs2addr_line hv.offs_lt,Nat.div_mul_cancel hv.offs_dvd,
    Nat.div_mul_cancel hv.nb_dvd] at h
  exact h

theorem programEntry_spec (hv : EntryOk fcp v) (status : DevCode) (s : Flash)
    (hok : (programEntry fcp chip flags v status s).1 = .ok) :
    Patched (fcp.board.view (mode flags) s.cells)
      (fcp.board.view (mode flags) (programEntry fcp chip flags v status s).2.cells)
      v.offs (v.mem.take v.nb) := by
  have hmem : v.nb/fcp.board.linesz*fcp.board.linesz≤v.mem.length := by
    rw [Nat.div_mul_cancel hv.nb_dvd]
    exact hv.mem_le
  rw [programEntry] at hok ⊢
  split at hok
  · -- a page-programming device stores first and polls the last line
    rw [(pollPage_polled fcp.toGeometry ..).cells]
    exact hv.stored fcp (pageLines_spec fcp flags _ _ _ s hmem)
  · have hpatch := hv.stored fcp (programLines_spec fcp chip flags _ _ _ _ _ hok hmem)
    rw [(pollErase_polled fcp.toGeometry ..).cells] at hpatch
    refine ⟨hpatch.holds,fun x hx => ?_⟩
    have hlen : (v.mem.take v.nb).length=v.nb := by
      rw [length_take]
      exact Nat.min_eq_left hv.mem_le
    rw [hpatch.outside x hx]
    rw [hlen] at hx
    exact startErase_view fcp hv (mode flags) s hx

inductive Plan (V : ℕ → UInt8) : ℕ → ℕ → List UInt8 → List Fromvec → Prop
  | done (o : ℕ) (mem : List UInt8) : Plan V o 0 mem []
  | entry {o nb n : ℕ} {mem : List UInt8} {v : Fromvec} {vec : List Fromvec}
      (ho : o<fcp.size) (hpos : 0<nb) (hn : n≤nb) (hv : EntryOk fcp v)
      (hdata : ∀ V' V'', (∀ x, (fcp.sectorAt o).soffs≤x → V' x=V x) →
        Patched V' V'' v.offs (v.mem.take v.nb) → Patched V' V'' o (mem.take n))
      (hnext : nb=n ∨ o+n≤(fcp.sectorAt (o+n)).soffs)
      (hrest : Plan V (o+n) (nb-n) (mem.drop n) vec) :
      Plan V o nb mem (v::vec)

theorem Plan.programEntries_spec {vec : List Fromvec} (hplan : Plan fcp V o nb mem vec)
    (hmem : nb ≤ mem.length) (status : DevCode) (s : Flash)
    (hview : nb=0 ∨ ∀ x, (fcp.sectorAt o).soffs≤x → fcp.board.view (mode flags) s.cells x=V x)
    (hok : (programEntries fcp chip flags vec status s).1 = .ok) :
    Patched (fcp.board.view (mode flags) s.cells)
      (fcp.board.view (mode flags) (programEntries fcp chip flags vec status s).2.cells)
      o (mem.take nb) := by
  induction hplan generalizing status s with
  | done o mem => exact Patched.nil _ _
  | @entry o nb n mem v vec ho hpos hn hv hdata hnext hrest ih =>
    rw [programEntries] at hok ⊢
    have hok₁ := Programmed.status_ok hok (programEntries_programmed fcp.toGeometry ..)
    have hview' := hview.resolve_left hpos.ne'
    have hfirst := hdata _ _ hview' (programEntry_spec fcp chip flags hv status s hok₁)
    generalize programEntry fcp chip flags v status s=r₁ at hok hfirst ⊢
    have hlen : (mem.take n).length=n := by
      rw [length_take]
      omega
    have hsplit : mem.take nb=mem.take n++(mem.drop n).take (nb-n) := by
      rw [←take_add,Nat.add_sub_cancel' hn]
    have hrest' : nb-n=0 ∨ ∀ x, (fcp.sectorAt (o+n)).soffs≤x →
        fcp.board.view (mode flags) r₁.2.cells x=V x := by
      rcases hnext with hlast | hstart
      · left
        omega
      · right
        intro x hx
        have hle := (fcp.sectorAt_located ho).le
        rw [hfirst.outside x (by rw [hlen]; omega)]
        exact hview' x (by omega)
    rw [hsplit]
    refine hfirst.append ?_
    rw [hlen]
    exact ih (by rw [length_drop]; omega) _ _ hrest' hok

theorem sectorinfo_spec {s : Flash} (ho : o<fcp.size) (r : Bool × ℕ × ℕ × Flash)
    (hr : sectorinfo fcp chip s o=r) :
    r.2.1=(fcp.sectorAt o).soffs ∧ r.2.2.1=(fcp.sectorAt o).ssize ∧
      r.2.2.2.cells=s.cells := by
  rw [sectorinfo,fcp.findsector_sectorAt ho] at hr
  dsimp only at hr
  split at hr
  · subst hr
    exact ⟨rfl,rfl,rfl⟩
  · split at hr <;> subst hr <;> exact ⟨rfl,rfl,rfl⟩

theorem chunk_spec (ho : o<fcp.size) (hoffs : fcp.board.linesz ∣ o) (hnb : fcp.board.linesz ∣ nb)
    (hpos : 0<nb) (hin : o+nb≤fcp.size)
    (hn : n = min ((fcp.sectorAt o).ssize-(o-(fcp.sectorAt o).soffs)) nb) :
    0<n ∧ n≤nb ∧ fcp.board.linesz ∣ n ∧
      o+n≤(fcp.sectorAt o).soffs+(fcp.sectorAt o).ssize ∧
      (nb=n ∨ o+n≤(fcp.sectorAt (o+n)).soffs) := by
  have hloc := fcp.sectorAt_located ho
  have hle := hloc.le
  have hlt := hloc.lt
  have hdvd : fcp.board.linesz ∣ n := by
    have hl := fcp.board.linesz_dvd_unit
    rw [hn]
    rcases min_choice ((fcp.sectorAt o).ssize-(o-(fcp.sectorAt o).soffs)) nb with h | h
    · rw [h]
      exact Nat.dvd_sub (hl.trans hloc.ssize_dvd) (Nat.dvd_sub hoffs (hl.trans hloc.soffs_dvd))
    · rw [h]
      exact hnb
  refine ⟨by omega,by omega,hdvd,by omega,?_⟩
  by_cases hlast : nb=n
  · exact Or.inl hlast
  · exact Or.inr (fcp.sectorAt_next ho (by omega) (by omega)).ge

theorem overlay_readCells {p : ℕ} (h : k+data.length≤n) : overlay (readCells V p n) k data =
      readCells V p k++data++readCells V (p+k+data.length) (n-(k+data.length)) := by
  have htake : (readCells V p n).take k=readCells V p k := by
    have := Fromcookie.take_drop_readCells V (p := p) (n := n) (i := 0) (k := k) (by omega)
    simpa using this
  have hdrop : (readCells V p n).drop (k+data.length) =
      readCells V (p+k+data.length) (n-(k+data.length)) := by
    have := Fromcookie.take_drop_readCells V (p := p) (n := n) (i := k+data.length)
      (k := n-(k+data.length)) (by omega)
    rw [take_of_length_le (by simp)] at this
    rw [this,Nat.add_assoc]
  rw [overlay,htake,hdrop]

theorem entryOk_direct {erase : ℕ} (ho : o<fcp.size) (hoffs : fcp.board.linesz ∣ o)
    (hn : fcp.board.linesz ∣ n) (hmem : n ≤ mem.length)
    (hend : o+n≤(fcp.sectorAt o).soffs+(fcp.sectorAt o).ssize)
    (hwhole : n=(fcp.sectorAt o).ssize ∨ erase=0) : EntryOk fcp ⟨o,mem,n,erase,none⟩ := by
  refine ⟨ho,hoffs,hn,hmem,?_⟩
  rcases hwhole with hall | hzero
  · right
    have hle := (fcp.sectorAt_located ho).le
    have hstart : o=(fcp.sectorAt o).soffs := by omega
    exact ⟨hstart,hall⟩
  · exact Or.inl hzero

theorem entryOk_merged {erase : ℕ} {sbuf : List UInt8} {scratch : Option ℕ} (ho : o<fcp.size)
    (hlen : sbuf.length=(fcp.sectorAt o).ssize) :
    EntryOk fcp ⟨(fcp.sectorAt o).soffs,sbuf,(fcp.sectorAt o).ssize,erase,scratch⟩ := by
  have hloc := fcp.sectorAt_located ho
  have hle := hloc.le
  have hlt := hloc.lt
  have hl := fcp.board.linesz_dvd_unit
  have hsame := hloc.same (fcp.sectorAt o).soffs le_rfl (by omega)
  refine ⟨by simp only; omega,hl.trans hloc.soffs_dvd,hl.trans hloc.ssize_dvd,hlen.ge,?_⟩
  right
  simp only [hsame]
  exact ⟨trivial,trivial⟩

theorem patched_of_merged {V' V'' : ℕ → UInt8} {p : ℕ} (hp : p≤o) (hfit : o+data.length≤p+n)
    (hview : ∀ x, p≤x → V' x=V x)
    (h : Patched V' V'' p (overlay (readCells V p n) (o-p) data)) : Patched V' V'' o data := by
  have hagree : ∀ q k, p≤q → Holds V' q (readCells V q k) := fun q k hq =>
    holds_congr (fun x hx _ => hview x (hq.trans hx)) (holds_readCells V q k)
  rw [overlay_readCells (by omega)] at h
  have hinner := h.inner (k := o-p) (length_readCells _ _ _) (hagree p _ le_rfl)
    (hagree _ _ (by omega))
  rw [Nat.add_sub_cancel' hp] at hinner
  exact hinner

theorem planLoop_plan (fuel o nb : ℕ) (mem : List UInt8) (s : Flash) (ho : fcp.board.linesz ∣ o)
    (hnb : fcp.board.linesz ∣ nb) (hin : o+nb≤fcp.size) (hmem : nb ≤ mem.length)
    (r : DevCode × List Fromvec × Flash) (hr : planLoop fcp chip flags fuel o nb mem s=r)
    (hok : r.1 = .ok) : Plan fcp (fcp.board.view (mode flags) s.cells) o nb mem r.2.1 := by
  induction fuel generalizing o nb mem s r with
  | zero =>
    subst hr
    have hzero : nb=0 := by
      by_contra hne
      simp [planLoop,hne] at hok
    subst hzero
    exact Plan.done o mem
  | succ fuel ih =>
    rw [planLoop] at hr
    split at hr
    · rename_i hzero
      subst hr hzero
      exact Plan.done o mem
    · rename_i hpos
      generalize hq : sectorinfo fcp chip s o=q at hr
      obtain ⟨prot,soffs,ssize,s₁⟩ := q
      have hlt : o<fcp.size := by omega
      obtain ⟨hsoffs,hssize,hcells⟩ := sectorinfo_spec fcp chip hlt _ hq
      dsimp only at hr hsoffs hssize hcells
      split at hr
      · subst hr
        simp at hok
      · generalize hn : min (ssize-(o-soffs)) nb=n at hr
        rw [hsoffs,hssize] at hn
        obtain ⟨hn0,hnle,hndvd,hend,hnext⟩ := chunk_spec fcp hlt ho hnb (by omega) hin hn.symm
        have hlen : (mem.take n).length=n := by
          rw [length_take]
          omega
        have hrest := ih (o+n) (nb-n) (mem.drop n)
        split at hr
        · -- a partial sector: the whole of it is read, merged and planned
          split at hr
          · subst hr
            simp at hok
          · split at hr
            · subst hr
              simp at hok
            · generalize hr' : planLoop fcp chip flags fuel (o+n) (nb-n) (mem.drop n) _=r' at hr
              have hplan := hrest _ (Nat.dvd_add ho hndvd) (Nat.dvd_sub hnb hndvd) (by omega)
                (by rw [length_drop]; omega) r' hr' (by subst hr; exact hok)
              subst hr
              have hloc := fcp.sectorAt_located hlt
              have hle := hloc.le
              dsimp only [Flash.next] at hplan ⊢
              rw [hcells] at hplan ⊢
              rw [hsoffs,hssize,fromreadbytes_eq fcp s.cells flags hloc.high]
              have hbuf : (overlay (readCells (fcp.board.view (mode flags) s.cells)
                  (fcp.sectorAt o).soffs (fcp.sectorAt o).ssize) (o-(fcp.sectorAt o).soffs)
                  (mem.take n)).length=(fcp.sectorAt o).ssize := by
                rw [overlay_readCells (by omega)]
                simp only [length_append,length_readCells,hlen]
                omega
              refine Plan.entry hlt (by omega) hnle (entryOk_merged fcp hlt hbuf) ?_ hnext hplan
              intro V' V'' hview hpatch
              rw [take_of_length_le hbuf.le] at hpatch
              exact patched_of_merged hle (by omega) hview hpatch
        · rename_i hwhole
          generalize hr' : planLoop fcp chip flags fuel (o+n) (nb-n) (mem.drop n) _=r' at hr
          have hplan := hrest _ (Nat.dvd_add ho hndvd) (Nat.dvd_sub hnb hndvd) (by omega)
            (by rw [length_drop]; omega) r' hr' (by subst hr; exact hok)
          subst hr
          rw [hcells] at hplan
          have hok' : n=(fcp.sectorAt o).ssize ∨ fromerasemask fcp flags s₁.cells o n mem=0 := by
            rw [←hssize]
            by_contra hne
            exact hwhole (by tauto)
          refine Plan.entry hlt (by omega) hnle
            (entryOk_direct fcp hlt ho hndvd (by omega) hend hok') ?_ hnext hplan
          intro V' V'' _ hpatch
          exact hpatch

theorem fromprogramvec_spec {vec : List Fromvec}
    (hplan : Plan fcp (fcp.board.view (mode flags) s.cells) o nb mem vec) (hmem : nb ≤ mem.length)
    (hok : (fromprogramvec fcp chip flags vec s).1=some .ok) :
    Patched (fcp.board.view (mode flags) s.cells)
      (fcp.board.view (mode flags) (fromprogramvec fcp chip flags vec s).2.cells)
      o (mem.take nb) := by
  rw [fromprogramvec] at hok ⊢
  split at hok
  · simp at hok
  · rename_i hcopy
    rw [if_neg hcopy]
    generalize hs : (if s.copied then s else {s.next with copied := true})=s₁ at hok ⊢
    have hsame : s₁.cells=s.cells := by
      subst hs
      split <;> rfl
    split at hok
    · simp at hok
    · rename_i hreboot
      rw [if_neg hreboot]
      have hpatch := hplan.programEntries_spec fcp chip flags hmem .ok s₁
        (Or.inr fun x _ => by rw [hsame]) (by simpa using hok)
      rw [hsame] at hpatch
      exact hpatch

theorem fromprogramaligned_spec (offs : ℕ) (buf : List UInt8) (nbytes : ℕ) (s : Flash)
    (ho : fcp.board.linesz ∣ offs) (hnb : fcp.board.linesz ∣ nbytes)
    (hin : offs+nbytes≤fcp.size) (hmem : nbytes≤buf.length) (r : Option DevCode × Flash)
    (hr : fromprogramaligned fcp chip offs buf nbytes flags s=r) (hok : r.1=some .ok) :
    Patched (fcp.board.view (mode flags) s.cells) (fcp.board.view (mode flags) r.2.cells)
      offs (buf.take nbytes) := by
  rw [fromprogramaligned] at hr
  split at hr
  · rename_i hzero
    subst hr hzero
    exact Patched.nil _ _
  · have hcells := (planLoop_planned fcp.toGeometry chip flags nbytes offs nbytes buf s).cells
    generalize hplan : planLoop fcp chip flags nbytes offs nbytes buf s=q at hr hcells
    obtain ⟨ret,vec,s₁⟩ := q
    dsimp only at hr hcells
    split at hr
    · rename_i hret
      have hvec := planLoop_plan fcp chip flags nbytes offs nbytes buf s ho hnb hin hmem _ hplan
        hret
      rw [←hcells] at hvec ⊢
      have hspec := fromprogramvec_spec fcp chip flags s₁ hvec hmem
      generalize fromprogramvec fcp chip flags vec s₁=q at hr hspec
      obtain ⟨ret',s₂⟩ := q
      cases ret' with
      | none =>
        subst hr
        simp at hok
      | some ret' =>
        subst hr
        exact hspec hok
    · rename_i hret
      subst hr
      exact absurd (Option.some.inj hok) hret

theorem mode_clear_reboot : mode (flags &&& ~~~progReboot) = mode flags := by
  rw [mode,mode,BitVec.and_assoc]
  rfl

theorem programEdge_spec {lo bo : ℕ} (hlo : fcp.board.linesz ∣ lo) (hin : lo<fcp.size)
    (hfit : bo+data.length≤fcp.board.linesz) (r : Option DevCode × Flash)
    (hr : programEdge fcp chip lo bo data flags s=r) (hok : r.1=some .ok) :
    Patched (fcp.board.view (mode flags) s.cells) (fcp.board.view (mode flags) r.2.cells)
      (lo+bo) data := by
  have hline := fcp.line_le_size hlo hin
  rw [programEdge,fromreadbytes_eq fcp s.cells flags hline,if_pos rfl] at hr
  have hbuf : (overlay (readCells (fcp.board.view (mode flags) s.cells) lo fcp.board.linesz) bo
      data).length=fcp.board.linesz := by
    rw [overlay_readCells hfit]
    simp only [length_append,length_readCells]
    omega
  have hpatch := fromprogramaligned_spec fcp chip _ lo _ _ s hlo dvd_rfl hline hbuf.ge r hr hok
  rw [mode_clear_reboot,take_of_length_le hbuf.le] at hpatch
  refine patched_of_merged (p := lo) (n := fcp.board.linesz) (by omega) (by omega)
    (fun _ _ => rfl) ?_
  rw [Nat.add_sub_cancel_left]
  exact hpatch

theorem programRest_spec (ho : fcp.board.linesz ∣ offs) (hmem : nb ≤ mem.length)
    (hin : offs+nb≤fcp.size) (r : Option DevCode × Flash)
    (hr : programRest fcp chip offs mem nb flags s=r) (hok : r.1=some .ok) :
    Patched (fcp.board.view (mode flags) s.cells) (fcp.board.view (mode flags) r.2.cells)
      offs (mem.take nb) := by
  have hlt := Nat.mod_lt nb fcp.board.linesz_pos
  have hle := Nat.mod_le nb fcp.board.linesz
  have hmid : fcp.board.linesz ∣ nb-nb%fcp.board.linesz := Nat.dvd_sub_mod _
  rw [programRest] at hr
  generalize nb%fcp.board.linesz=n at hr hlt hle hmid
  generalize hr₁ : (if n=0 then (some DevCode.ok,s)
    else programEdge fcp chip (offs+(nb-n)) 0 ((mem.drop (nb-n)).take n) flags s)=r₁ at hr
  have hlen : ((mem.drop (nb-n)).take n).length=n := by
    rw [length_take,length_drop]
    omega
  have htail : r₁.1=some .ok →
      Patched (fcp.board.view (mode flags) s.cells) (fcp.board.view (mode flags) r₁.2.cells)
        (offs+(nb-n)) ((mem.drop (nb-n)).take n) := by
    intro h
    split at hr₁
    · rename_i h0
      subst hr₁ h0
      exact Patched.nil _ _
    · exact programEdge_spec fcp chip flags s (Nat.dvd_add ho hmid) (by omega)
        (by rw [hlen]; omega) r₁ hr₁ h
  have hfront : (mem.take (nb-n)).length=nb-n := by
    rw [length_take]
    omega
  have hsplit : mem.take nb=mem.take (nb-n)++(mem.drop (nb-n)).take n := by
    rw [←take_add,Nat.sub_add_cancel hle]
  rw [hsplit]
  split at hr
  · rename_i hmiddle
    have hpatch := fromprogramaligned_spec fcp chip flags offs mem (nb-n) r₁.2 ho hmid
      (by omega) (by omega) r hr hok
    refine Patched.prepend ?_ hpatch
    rw [hfront]
    exact htail hmiddle.2
  · rename_i hmiddle
    subst hr
    have hzero : nb-n=0 := by
      by_contra hne
      exact hmiddle ⟨Nat.pos_of_ne_zero hne,hok⟩
    have := htail hok
    rw [hzero] at this ⊢
    exact this

theorem programParts_spec (hnb : fcp.board.linesz≤nb) (hmem : nb ≤ mem.length)
    (hin : offs+nb≤fcp.size) (r : Option DevCode × Flash)
    (hr : programParts fcp chip offs mem nb flags s=r) (hok : r.1=some .ok) :
    Patched (fcp.board.view (mode flags) s.cells) (fcp.board.view (mode flags) r.2.cells)
      offs (mem.take nb) := by
  have hbo := Nat.mod_lt offs fcp.board.linesz_pos
  have hle := Nat.mod_le offs fcp.board.linesz
  have hline : fcp.board.linesz ∣ offs-offs%fcp.board.linesz := Nat.dvd_sub_mod _
  rw [programParts] at hr
  dsimp only at hr
  split at hr
  · rename_i h0
    exact programRest_spec fcp chip flags s (Nat.dvd_of_mod_eq_zero h0) hmem hin r hr hok
  · generalize hn : min (fcp.board.linesz-offs%fcp.board.linesz) nb=n at hr
    have hlen : (mem.take n).length=n := by
      rw [length_take]
      omega
    generalize hr₁ : programEdge fcp chip (offs-offs%fcp.board.linesz)
      (offs%fcp.board.linesz) (mem.take n) flags s=r₁ at hr
    split at hr
    · rename_i hhead
      have hpatch := programEdge_spec fcp chip flags s hline (by omega) (by rw [hlen]; omega) r₁
        hr₁ hhead
      rw [Nat.sub_add_cancel hle] at hpatch
      have hnext : fcp.board.linesz ∣ offs+n := by
        rw [show offs+n=offs-offs%fcp.board.linesz+fcp.board.linesz by omega]
        exact Nat.dvd_add hline dvd_rfl
      have hrest := programRest_spec fcp chip flags r₁.2 hnext
        (by rw [length_drop]; omega) (by omega) r hr hok
      have hsplit : mem.take nb=mem.take n++(mem.drop n).take (nb-n) := by
        rw [←take_add,Nat.add_sub_cancel' (by omega)]
      rw [hsplit]
      refine hpatch.append ?_
      rw [hlen]
      exact hrest
    · rename_i hhead
      subst hr
      exact absurd hok hhead

theorem fromprogramtiny_flush_none (h : s.tiny=none) :
    (fromprogramtiny fcp chip false 0 none 0 0 s).2=s := by
  simp [fromprogramtiny,tinyLoop,tinyFlush,h]

theorem fromprogrambytes_spec (hnb : fcp.board.linesz ≤ mem.length)
    (hin : offs+mem.length≤fcp.size) (htiny : s.tiny=none) (r : Option DevCode × Flash)
    (hr : fromprogrambytes fcp chip offs (some mem) mem.length flags s=r) (hok : r.1=some .ok) :
    Patched (fcp.board.view (mode flags) s.cells) (fcp.board.view (mode flags) r.2.cells)
      offs mem := by
  have hpos := fcp.board.linesz_pos
  rw [fromprogrambytes,if_neg (fcp.limit_ok hin)] at hr
  have hparts : programParts fcp chip offs mem mem.length flags s=r := by
    split at hr
    · rw [if_neg (by omega),fromprogramtiny_flush_none fcp chip s htiny] at hr
      exact hr
    · rw [if_neg (by omega)] at hr
      exact hr
  have hpatch := programParts_spec fcp chip flags s hnb le_rfl hin r hparts hok
  rw [take_length] at hpatch
  exact hpatch

/-- When `fromprogrambytes` succeeds, a read returns the caller's bytes and all others as they were.
-/
theorem fromprogrambytes_reads_back (flags : Flags) (offs : ℕ) (mem : List UInt8) (s : Flash)
    (hnb : fcp.board.linesz ≤ mem.length)
    (hin : offs+mem.length≤fcp.size) (htiny : s.tiny=none)
    (hok : (fromprogrambytes fcp chip offs (some mem) mem.length flags s).1=some .ok) :
    fromreadbytes fcp (fromprogrambytes fcp chip offs (some mem) mem.length flags s).2.cells
        offs mem.length flags=(.ok,mem) ∧ ∀ x<fcp.size, x<offs ∨ offs+mem.length≤x →
        fromreadbytes fcp (fromprogrambytes fcp chip offs (some mem) mem.length flags s).2.cells
          x 1 flags=fromreadbytes fcp s.cells x 1 flags := by
  have hpatch := fromprogrambytes_spec fcp chip flags s hnb hin htiny _ rfl hok
  constructor
  · rw [fromreadbytes_eq fcp _ flags hin,hpatch.holds.readCells_eq rfl]
  · intro x hx hout
    rw [fromreadbytes_eq fcp _ flags (by omega),fromreadbytes_eq fcp _ flags (by omega)]
    refine congrArg _ (readCells_congr fun q hq hq' => ?_)
    exact hpatch.outside q (by omega)
end

def twoSectors : Fromcookie where
  board := flash16Eb
  devsizeLog2 := 4
  secsizeLog2 := 3
  boot := .fbNone
  am29dl := false
  family := .amd
  secsize_le := by decide
  word_le := by decide
  eight_le := by decide
  boot_fits h := absurd rfl h
  size_lt := by decide

def soundChip : Chip where
  burn _ _ old val := old &&& val
  burn_clears _ _ old val := by
    rw [UInt8.and_comm old val,UInt8.and_assoc,UInt8.and_self]
  fault _ := false
  mallocOk _ := true
  fromautoselect _ _ := false

def elevens : Flash where
  cells a := UInt8.ofNat (11*a)
  protect := none
  copied := false
  tick := 0
  allocated := []
  freed := []
  tiny := none

theorem fromprogrambytes_reads_back_twoSectors :
    fromreadbytes twoSectors (fromprogrambytes twoSectors soundChip 5
        (some [0xf0,0x0f,0xff,0x81,0x7e]) 5 0x14 elevens).2.cells 5 5 0x14 =
      (.ok,[0xf0,0x0f,0xff,0x81,0x7e]) :=
  (fromprogrambytes_reads_back twoSectors soundChip 0x14 5 [0xf0,0x0f,0xff,0x81,0x7e] elevens
    (by decide) (by decide) rfl (by decide +kernel)).1

end Pmon.FlashRom
