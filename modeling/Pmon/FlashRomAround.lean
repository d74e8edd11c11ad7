import Pmon.FlashRomProgram

/-!
# The driver stays inside the device

What accesses only offsets below the device size commutes with replacing everything beyond it.
-/

namespace Pmon.FlashRom
open ByteStore

def Flash.around (n : ℕ) (w : ℕ → UInt8) (s : Flash) : Flash :=
  {s with cells := beyond n w s.cells}

namespace Flash
variable (n : ℕ) (w : ℕ → UInt8) (s : Flash)

@[simp] theorem around_cells : (s.around n w).cells=beyond n w s.cells := rfl
@[simp] theorem around_protect : (s.around n w).protect=s.protect := rfl
@[simp] theorem around_copied : (s.around n w).copied=s.copied := rfl
@[simp] theorem around_tick : (s.around n w).tick=s.tick := rfl
@[simp] theorem around_allocated : (s.around n w).allocated=s.allocated := rfl
@[simp] theorem around_tiny : (s.around n w).tiny=s.tiny := rfl
@[simp] theorem around_next : (s.around n w).next=s.next.around n w := rfl

end Flash
namespace Board
variable (b : Board)

theorem column_succ : (col+b.group)*b.width=col*b.width+b.groupsz := by
  rw [Nat.add_mul]
  rfl

theorem column_room {n fp col k : ℕ} (h : fp+col*b.width+(k+1)*b.groupsz≤n) :
    fp+col*b.width+b.groupsz≤n ∧
      fp+(col+b.group)*b.width+k*b.groupsz≤n := by
  rw [b.column_succ]
  rw [Nat.add_mul,Nat.one_mul] at h
  omega

end Board
namespace Fromcookie
variable (fcp : Fromcookie)

theorem pline_le_size (m : Flags) {o : ℕ} (ho : fcp.board.linesz ∣ o) (h : o<fcp.size) :
    fcp.board.frompline m o+fcp.board.linesz≤fcp.size := by
  apply fcp.line_le_size (fcp.board.linesz_dvd_pline m ho)
  have hdiv := fcp.board.pline_div m o
  by_contra hge
  have hiff := le_iff_of_div_eq fcp.board.unit_pos fcp.unit_dvd_size hdiv
  exact absurd (hiff.mp (not_lt.mp hge)) (not_le.mpr h)

theorem line_lt {i n : ℕ} (hi : i<n) (h : n*fcp.board.linesz≤fcp.size) :
    i*fcp.board.linesz<fcp.size :=
  (Nat.mul_lt_mul_of_pos_right hi fcp.board.linesz_pos).trans_le h

theorem phys_lt (m : Flags) {x : ℕ} (h : x<fcp.size) : fcp.board.phys m x<fcp.size := by
  have hiff := le_iff_of_div_eq fcp.board.unit_pos fcp.unit_dvd_size (fcp.board.phys_div_unit m x)
  by_contra hge
  exact absurd (hiff.mp (not_lt.mp hge)) (not_le.mpr h)

theorem lineaddr_room (m : Flags) {addr : ℕ} (h : addr*fcp.board.linesz<fcp.size) :
    fromlineaddr fcp m addr+0*fcp.board.width+fcp.board.ngroups*fcp.board.groupsz ≤
      fcp.size := by
  rw [fcp.board.ngroups_mul_groupsz,Nat.zero_mul,Nat.add_zero]
  exact fcp.pline_le_size m (Dvd.intro_left _ rfl) h

end Fromcookie
section
variable (fcp : Fromcookie) (chip : Chip) (w : ℕ → UInt8)
  (flags : Flags) (cells : ℕ → UInt8) (fp k col : ℕ) (mp : List UInt8)

def Confined {α : Type} (f : Flash → α × Flash) (s : Flash) : Prop :=
  f (s.around fcp.size w)=((f s).1,(f s).2.around fcp.size w)

theorem Confined.eq {fcp : Fromcookie} {w : ℕ → UInt8} {α : Type} {f : Flash → α × Flash}
    {s : Flash} (h : Confined fcp w f s) :
    f (s.around fcp.size w)=((f s).1,(f s).2.around fcp.size w) := h

variable {v : Fromvec} {nb offs : ℕ}

theorem fromreadbytes_around (flags : Flags) (h : offs+nb≤fcp.size) :
    fromreadbytes fcp (beyond fcp.size w cells) offs nb flags =
      fromreadbytes fcp cells offs nb flags := by
  rw [fromreadbytes_eq fcp _ flags h,fromreadbytes_eq fcp _ flags h]
  congr 1
  apply readCells_congr
  intro x _ hx
  exact beyond_of_lt (fcp.phys_lt (mode flags) (hx.trans_le h)) w cells

theorem frompeek_around (m : Flags) (cells : ℕ → UInt8) {a : ℕ}
    (h : a+fcp.board.groupsz≤fcp.size) :
    fcp.board.frompeek m (beyond fcp.size w cells) a=fcp.board.frompeek m cells a := by
  rw [Board.frompeek,Board.frompeek,readCells_beyond h]

theorem frompollAmd_around {fp : ℕ} (h : fp+fcp.board.groupsz≤fcp.size)
    (expect : List UInt8) (flags : Flags) (s : Flash) :
    frompollAmd fcp chip fp expect flags (s.around fcp.size w) =
      frompollAmd fcp chip fp expect flags s := by
  simp only [frompollAmd,Flash.around_tick,Flash.around_cells,frompeek_around fcp w _ _ h]

theorem frompoll_around {fp : ℕ} (h : fp+fcp.board.groupsz≤fcp.size)
    (expect : List UInt8) (flags : Flags) (s : Flash) :
    frompoll fcp chip fp expect flags (s.around fcp.size w) =
      frompoll fcp chip fp expect flags s := by
  rw [frompoll,frompoll]
  split
  · simp only [frompollIbcs,Flash.around_tick,Flash.around_cells,frompeek_around fcp w _ _ h]
  · exact frompollAmd_around fcp chip w h expect flags s
  · rfl

theorem eraseColumn_around {cp : ℕ} (h : cp<fcp.size) (s : Flash) :
    eraseColumn fcp cp (s.around fcp.size w)=(eraseColumn fcp cp s).around fcp.size w := by
  have hhigh := (fcp.sectorAt_lines h).high
  simp only [Geometry.sectorAt] at hhigh
  simp only [eraseColumn,Flash.around,Flash.mk.injEq,and_true]
  apply beyond_congr
  · intro a ha
    rw [beyond_of_lt ha]
  · intro a ha
    rw [if_neg (by omega),beyond_of_le ha]

theorem programGroup_around {cp : ℕ} (h : cp+fcp.board.groupsz≤fcp.size)
    (val : List UInt8) (s : Flash) :
    programGroup fcp chip cp val (s.around fcp.size w) =
      (programGroup fcp chip cp val s).around fcp.size w := by
  simp only [programGroup,Flash.around,Flash.mk.injEq,and_true]
  apply beyond_congr
  · intro a ha
    rw [beyond_of_lt ha]
  · intro a ha
    rw [if_neg (by omega),beyond_of_le ha]

theorem startErase_around (e : ℕ) (s : Flash)
    (h : fp+col*fcp.board.width+k*fcp.board.groupsz≤fcp.size) :
    startErase fcp fp k col e (s.around fcp.size w) =
      (startErase fcp fp k col e s).around fcp.size w := by
  induction k generalizing col e s with
  | zero => rfl
  | succ k ih =>
    obtain ⟨hgroup,hrest⟩ := fcp.board.column_room h
    have hpos := fcp.board.groupsz_pos
    rw [startErase,startErase]
    split
    · rw [eraseColumn_around fcp w (by omega),ih _ _ _ hrest]
    · exact ih _ _ _ hrest

theorem pollErase_around (e : ℕ) (status : DevCode) (s : Flash)
    (h : fp+col*fcp.board.width+k*fcp.board.groupsz≤fcp.size) :
    Confined fcp w (pollErase fcp chip fp k col e status) s := by
  unfold Confined
  induction k generalizing col e status s with
  | zero => rfl
  | succ k ih =>
    obtain ⟨hgroup,hrest⟩ := fcp.board.column_room h
    rw [pollErase,pollErase]
    split
    · rw [frompoll_around fcp chip w hgroup,Flash.around_next]
      exact ih _ _ _ _ hrest
    · exact ih _ _ _ _ hrest

theorem startGroups_around (prog : ℕ) (s : Flash)
    (h : fp+col*fcp.board.width+k*fcp.board.groupsz≤fcp.size) :
    Confined fcp w (startGroups fcp chip flags fp k col mp prog) s := by
  unfold Confined
  induction k generalizing col mp prog s with
  | zero => rfl
  | succ k ih =>
    obtain ⟨hgroup,hrest⟩ := fcp.board.column_room h
    rw [startGroups,startGroups,Flash.around_cells,frompeek_around fcp w _ _ hgroup]
    split
    · rw [programGroup_around fcp chip w hgroup]
      exact ih _ _ _ _ hrest
    · exact ih _ _ _ _ hrest

theorem pollGroups_around (prog : ℕ) (status : DevCode) (s : Flash)
    (h : fp+col*fcp.board.width+k*fcp.board.groupsz≤fcp.size) :
    Confined fcp w (pollGroups fcp chip flags fp k col mp prog status) s := by
  unfold Confined
  induction k generalizing col mp prog status s with
  | zero => rfl
  | succ k ih =>
    obtain ⟨hgroup,hrest⟩ := fcp.board.column_room h
    rw [pollGroups,pollGroups]
    split
    · rw [frompoll_around fcp chip w hgroup,Flash.around_next]
      exact ih _ _ _ _ _ hrest
    · exact ih _ _ _ _ _ hrest

theorem programLine_around {addr : ℕ} (status : DevCode) (s : Flash)
    (h : addr*fcp.board.linesz<fcp.size) :
    Confined fcp w (programLine fcp chip flags addr mp status) s := by
  unfold Confined
  have hroom := fcp.lineaddr_room (mode flags) h
  rw [programLine,programLine,(startGroups_around fcp chip w flags _ _ _ _ _ _ hroom).eq]
  split
  · rfl
  · exact pollGroups_around fcp chip w flags _ _ _ _ _ _ _ hroom

theorem programLines_around (n addr : ℕ) (mp : List UInt8) (status : DevCode) (s : Flash)
    (h : (addr+n)*fcp.board.linesz≤fcp.size) :
    Confined fcp w (programLines fcp chip flags n addr mp status) s := by
  unfold Confined
  induction n generalizing addr mp status s with
  | zero => rfl
  | succ n ih =>
    have hfirst : addr*fcp.board.linesz<fcp.size := fcp.line_lt (by omega) h
    rw [programLines,programLines,(programLine_around fcp chip w flags mp status s hfirst).eq]
    exact ih _ _ _ _ (by rw [Nat.add_right_comm,Nat.add_assoc]; exact h)

theorem pageGroups_around (s : Flash)
    (h : fp+col*fcp.board.width+k*fcp.board.groupsz≤fcp.size) :
    pageGroups fcp flags fp k col mp (s.around fcp.size w) =
      (pageGroups fcp flags fp k col mp s).around fcp.size w := by
  induction k generalizing col mp s with
  | zero => rfl
  | succ k ih =>
    obtain ⟨hgroup,hrest⟩ := fcp.board.column_room h
    have hlen : (fcp.board.munge (mode flags) (mp.take fcp.board.groupsz)).length ≤
        fcp.board.groupsz := by
      rw [Board.munge]
      split
      · rw [List.length_reverse]
        exact List.length_take_le _ _
      · exact List.length_take_le _ _
    have hwrites : ∀ v∈writesAt (fp+col*fcp.board.width)
        (fcp.board.munge (mode flags) (mp.take fcp.board.groupsz)), v.1<fcp.size := by
      intro v hv
      have hmem := mem_writesAt hv
      omega
    rw [pageGroups,pageGroups,←ih _ _ _ hrest]
    simp only [Flash.around,applyWrites_beyond hwrites]

theorem pageLines_around (n addr : ℕ) (mp : List UInt8) (s : Flash)
    (h : (addr+n)*fcp.board.linesz≤fcp.size) :
    pageLines fcp flags n addr mp (s.around fcp.size w) =
      (pageLines fcp flags n addr mp s).around fcp.size w := by
  induction n generalizing addr mp s with
  | zero => rfl
  | succ n ih =>
    have hfirst : addr*fcp.board.linesz<fcp.size := fcp.line_lt (by omega) h
    rw [pageLines,pageLines,
      pageGroups_around fcp w flags _ _ _ _ _ (fcp.lineaddr_room (mode flags) hfirst)]
    exact ih _ _ _ (by rw [Nat.add_right_comm,Nat.add_assoc]; exact h)

theorem pollPage_around (status : DevCode) (s : Flash)
    (h : fp+col*fcp.board.width+k*fcp.board.groupsz≤fcp.size) :
    Confined fcp w (pollPage fcp chip flags fp k col mp status) s := by
  unfold Confined
  induction k generalizing col mp status s with
  | zero => rfl
  | succ k ih =>
    obtain ⟨hgroup,hrest⟩ := fcp.board.column_room h
    rw [pollPage,pollPage,frompollAmd_around fcp chip w hgroup,Flash.around_next]
    exact ih _ _ _ _ hrest

structure Fromvec.Inside (v : Fromvec) : Prop where
  offs_dvd : fcp.board.linesz ∣ v.offs
  nb_dvd : fcp.board.linesz ∣ v.nb
  nb_pos : 0<v.nb
  le : v.offs+v.nb≤fcp.size

theorem Fromvec.Inside.lines (h : v.Inside fcp) :
    0<v.nb/fcp.board.linesz ∧ ((foffs2addr fcp v.offs).2+v.nb/fcp.board.linesz) *
      fcp.board.linesz=v.offs+v.nb := by
  have hpos := h.nb_pos
  have hle := h.le
  constructor
  · exact Nat.div_pos (Nat.le_of_dvd hpos h.nb_dvd) fcp.board.linesz_pos
  · rw [fcp.foffs2addr_line (by omega),Nat.add_mul,Nat.div_mul_cancel h.offs_dvd,
      Nat.div_mul_cancel h.nb_dvd]

theorem programEntry_around (hv : v.Inside fcp) (status : DevCode) (s : Flash) :
    Confined fcp w (programEntry fcp chip flags v status) s := by
  unfold Confined
  obtain ⟨hn,hend⟩ := hv.lines
  have hle := hv.le
  have hlast := fcp.line_lt (n := (foffs2addr fcp v.offs).2+v.nb/fcp.board.linesz)
    (i := (foffs2addr fcp v.offs).2+v.nb/fcp.board.linesz-1) (by omega) (by omega)
  have hfirst : (foffs2addr fcp v.offs).2*fcp.board.linesz<fcp.size :=
    fcp.line_lt (n := (foffs2addr fcp v.offs).2+v.nb/fcp.board.linesz) (by omega) (by omega)
  rw [programEntry,programEntry]
  dsimp only
  split
  · rw [pageLines_around fcp w flags _ _ _ _ (by omega)]
    exact pollPage_around fcp chip w flags _ _ _ _ _ _ (fcp.lineaddr_room _ hlast)
  · have hroom := fcp.lineaddr_room (mode fsect) hfirst
    rw [startErase_around fcp w _ _ _ _ _ hroom,
      (pollErase_around fcp chip w _ _ _ _ _ _ hroom).eq]
    exact programLines_around fcp chip w flags _ _ _ _ _ (by omega)

theorem programEntries_around {vec : List Fromvec} (hvec : ∀ v∈vec, v.Inside fcp)
    (status : DevCode) (s : Flash) :
    Confined fcp w (programEntries fcp chip flags vec status) s := by
  unfold Confined
  induction vec generalizing status s with
  | nil => rfl
  | cons v vec ih =>
    rw [programEntries,programEntries,
      (programEntry_around fcp chip w flags (hvec v List.mem_cons_self) _ _).eq]
    exact ih (fun u hu => hvec u (List.mem_cons_of_mem _ hu)) _ _

theorem fromprogramvec_around {vec : List Fromvec} (hvec : ∀ v∈vec, v.Inside fcp) (s : Flash) :
    Confined fcp w (fromprogramvec fcp chip flags vec) s := by
  unfold Confined
  by_cases hmem : (!s.copied && !chip.mallocOk s.tick)=true
  · rw [fromprogramvec,fromprogramvec,if_pos hmem,Flash.around_copied,Flash.around_tick,
      if_pos hmem]
    rfl
  · generalize hs₁ : (if s.copied then s else {s.next with copied := true})=s₁
    have hcopy : (if s.copied then s.around fcp.size w
        else {(s.around fcp.size w).next with copied := true})=s₁.around fcp.size w := by
      subst hs₁
      split <;> rfl
    rw [fromprogramvec,fromprogramvec,if_neg hmem,Flash.around_copied,Flash.around_tick,
      if_neg hmem,hs₁,hcopy]
    dsimp only
    rw [(programEntries_around fcp chip w flags hvec _ _).eq]
    split <;> rfl

theorem maskGroups_around (erase : ℕ)
    (h : fp+col*fcp.board.width+k*fcp.board.groupsz≤fcp.size) :
    maskGroups fcp flags (beyond fcp.size w cells) fp k col mp erase =
      maskGroups fcp flags cells fp k col mp erase := by
  induction k generalizing col mp erase with
  | zero => rfl
  | succ k ih =>
    obtain ⟨hgroup,hrest⟩ := fcp.board.column_room h
    simp only [maskGroups,frompeek_around fcp w _ _ hgroup,ih _ _ _ hrest]

theorem maskLines_around (n addr : ℕ) (mp : List UInt8) (erase : ℕ)
    (h : (addr+n)*fcp.board.linesz≤fcp.size) :
    maskLines fcp flags (beyond fcp.size w cells) n addr mp erase =
      maskLines fcp flags cells n addr mp erase := by
  induction n generalizing addr mp erase with
  | zero => rfl
  | succ n ih =>
    have hfirst : addr*fcp.board.linesz<fcp.size := fcp.line_lt (by omega) h
    have hrest : (addr+1+n)*fcp.board.linesz≤fcp.size := by
      rw [Nat.add_right_comm,Nat.add_assoc]
      exact h
    simp only [maskLines,ih _ _ _ hrest,
      maskGroups_around fcp w flags cells _ _ _ _ _ (fcp.lineaddr_room (mode flags) hfirst)]

theorem fromerasemask_around (hv : v.Inside fcp) (mem : List UInt8) :
    fromerasemask fcp flags (beyond fcp.size w cells) v.offs v.nb mem =
      fromerasemask fcp flags cells v.offs v.nb mem := by
  have hend := hv.lines.2
  have hle := hv.le
  exact maskLines_around fcp w flags cells _ _ mem 0 (by omega)

theorem sectorinfo_around (s : Flash) (o : ℕ) :
    sectorinfo fcp chip (s.around fcp.size w) o =
      ((sectorinfo fcp chip s o).1,(sectorinfo fcp chip s o).2.1,(sectorinfo fcp chip s o).2.2.1,
        (sectorinfo fcp chip s o).2.2.2.around fcp.size w) := by
  rw [sectorinfo,sectorinfo]
  cases findsector fcp.toGeometry o with
  | none => rfl
  | some sec =>
    cases hp : s.protect with
    | some protect => simp only [Flash.around_protect,hp]
    | none =>
      by_cases hm : chip.mallocOk s.tick=true
      · have hm' : chip.mallocOk (s.around fcp.size w).tick=true := hm
        simp only [Flash.around_protect,hp,if_pos hm,if_pos hm']
        rfl
      · have hm' : ¬ chip.mallocOk (s.around fcp.size w).tick=true := hm
        simp only [Flash.around_protect,hp,if_neg hm,if_neg hm']
        rfl

theorem planLoop_around (fuel : ℕ) {o : ℕ} (mem : List UInt8) (s : Flash)
    (ho : fcp.board.linesz ∣ o) (hnb : fcp.board.linesz ∣ nb) (hin : o+nb≤fcp.size) :
    planLoop fcp chip flags fuel o nb mem (s.around fcp.size w) =
      ((planLoop fcp chip flags fuel o nb mem s).1,(planLoop fcp chip flags fuel o nb mem s).2.1,
        (planLoop fcp chip flags fuel o nb mem s).2.2.around fcp.size w) := by
  induction fuel generalizing o nb mem s with
  | zero => rfl
  | succ fuel ih =>
    by_cases hzero : nb=0
    · simp only [planLoop,if_pos hzero]
    · have hlt : o<fcp.size := by omega
      obtain ⟨prot,s₁,hinfo,-⟩ := sectorinfo_sector fcp chip (s := s) hlt
      have haround := sectorinfo_around fcp chip w s o
      rw [hinfo] at haround
      generalize hn : min ((fcp.sectorAt o).ssize-(o-(fcp.sectorAt o).soffs)) nb=n
      obtain ⟨hn0,hnle,hndvd,hend,-⟩ := chunk_spec fcp hlt ho hnb (by omega) hin hn.symm
      have hloc := fcp.sectorAt_lines hlt
      have hle := hloc.le
      have hhigh := hloc.high
      have hrest := fun s => ih (mem.drop n) s (Nat.dvd_add ho hndvd) (Nat.dvd_sub hnb hndvd)
        (by omega)
      -- the chunk, and the sector it is merged into
      have hchunk := fun mem => fromerasemask_around fcp w flags s₁.cells (v := ⟨o,[],n,0,none⟩)
        ⟨ho,hndvd,hn0,by simp only; omega⟩ mem
      have hsector := fun mem => fromerasemask_around fcp w flags s₁.cells
        (v := ⟨(fcp.sectorAt o).soffs,[],(fcp.sectorAt o).ssize,0,none⟩)
        ⟨hloc.soffs_dvd,hloc.ssize_dvd,by simp only; omega,hhigh⟩ mem
      have hread := fromreadbytes_around fcp w s₁.cells flags hhigh
      simp only at hchunk hsector
      rw [planLoop,planLoop,if_neg hzero,if_neg hzero,haround,hinfo]
      simp only [hn,Flash.around_cells,hchunk,hsector,hread,Flash.around_tick]
      split
      · rfl
      · split
        · split
          · rfl
          · split
            · rfl
            · have hnext := hrest {s₁.next with allocated := s₁.allocated++[s₁.tick]}
              exact congrArg (fun r => (r.1,_::r.2.1,r.2.2)) hnext
        · simp only [hrest]

theorem planLoop_inside (fuel : ℕ) {o : ℕ} (mem : List UInt8) (s : Flash)
    (ho : fcp.board.linesz ∣ o) (hnb : fcp.board.linesz ∣ nb) (hin : o+nb≤fcp.size) :
    ∀ v∈(planLoop fcp chip flags fuel o nb mem s).2.1, v.Inside fcp := by
  induction fuel generalizing o nb mem s with
  | zero => simp [planLoop]
  | succ fuel ih =>
    by_cases hzero : nb=0
    · subst hzero
      simp [planLoop_zero]
    · have hround := planLoop_round fcp chip flags fuel o hzero mem s
      generalize planLoop fcp chip flags (fuel+1) o nb mem s=r at hround ⊢
      cases hround with
      | stop _ _ => simp
      | @entry v n s' hlt hn hrange _ =>
        obtain ⟨hn0,hnle,hndvd,-,-⟩ := chunk_spec fcp hlt ho hnb (by omega) hin hn
        have hloc := fcp.sectorAt_lines hlt
        have hle := hloc.le
        intro u hu
        rcases List.mem_cons.mp hu with rfl | hu
        · rcases hrange with ⟨hoffs,hsize⟩ | ⟨hoffs,hsize⟩
          · exact ⟨hoffs ▸ ho,hsize ▸ hndvd,by omega,by omega⟩
          · have hlt' := hloc.lt
            have hhigh := hloc.high
            exact ⟨hoffs ▸ hloc.soffs_dvd,hsize ▸ hloc.ssize_dvd,by omega,by omega⟩
        · exact ih _ _ (Nat.dvd_add ho hndvd) (Nat.dvd_sub hnb hndvd) (by omega) u hu

theorem fromprogramaligned_around {nbytes : ℕ} (buf : List UInt8) (s : Flash)
    (ho : fcp.board.linesz ∣ offs) (hnb : fcp.board.linesz ∣ nbytes)
    (hin : offs+nbytes≤fcp.size) :
    Confined fcp w (fromprogramaligned fcp chip offs buf nbytes flags) s := by
  unfold Confined
  have hplan := planLoop_around fcp chip w flags nbytes buf s ho hnb hin
  have hvec := planLoop_inside fcp chip flags nbytes buf s ho hnb hin
  rw [fromprogramaligned,fromprogramaligned,hplan]
  generalize planLoop fcp chip flags nbytes offs nbytes buf s=q at hvec ⊢
  obtain ⟨ret,vec,s₁⟩ := q
  dsimp only at hvec ⊢
  split
  · rfl
  · split
    · rw [(fromprogramvec_around fcp chip w flags hvec _).eq]
      generalize fromprogramvec fcp chip flags vec s₁=r
      obtain ⟨code,s₂⟩ := r
      cases code with
      | none => rfl
      | some code => rfl
    · rfl

theorem fromprogramaligned_outside {nbytes : ℕ} (buf : List UInt8) (s : Flash) (hpos : 0<nbytes)
    (hout : fcp.size≤offs) :
    fromprogramaligned fcp chip offs buf nbytes flags s =
      (some .devProtected,freeVec [] s) := by
  obtain ⟨fuel,rfl⟩ : ∃ fuel, nbytes=fuel+1 := ⟨nbytes-1,by omega⟩
  rw [fromprogramaligned,if_neg (by omega),planLoop,if_neg (by omega),sectorinfo,
    findsector_outside fcp.toGeometry (by omega)]
  rfl

theorem programline_around (buf : List UInt8) (s : Flash) (ho : fcp.board.linesz ∣ offs) :
    Confined fcp w (fromprogramaligned fcp chip offs buf fcp.board.linesz flags) s := by
  unfold Confined
  by_cases hin : offs<fcp.size
  · exact fromprogramaligned_around fcp chip w flags buf s ho dvd_rfl (fcp.line_le_size ho hin)
  · rw [fromprogramaligned_outside fcp chip flags buf _ fcp.board.linesz_pos (by omega),
      fromprogramaligned_outside fcp chip flags buf _ fcp.board.linesz_pos (by omega)]
    rfl
end
end Pmon.FlashRom
