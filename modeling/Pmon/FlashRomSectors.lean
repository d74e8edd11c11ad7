import Pmon.FlashRom

/-!
# The sector map and the logical view of the flash

The sector found for an offset holds it and is found for all of its offsets. The driver sees the
cells through a permutation `phys`; `view` is the content in that order.
-/

namespace Pmon.FlashRom
open ByteStore List
variable {d o x : ℕ}
namespace Board
variable (b : Board)

def unit : ℕ := 4*b.ncols
theorem width_pos : 0<b.width := Nat.two_pow_pos _
theorem ncols_pos : 0<b.ncols := Nat.two_pow_pos _
theorem group_pos : 0<b.group := Nat.two_pow_pos _
theorem linesz_pos : 0<b.linesz := Nat.mul_pos b.ncols_pos b.width_pos
theorem groupsz_pos : 0<b.groupsz := Nat.mul_pos b.group_pos b.width_pos
theorem unit_pos : 0<b.unit := Nat.mul_pos (by decide) b.ncols_pos

theorem ngroups_mul_group : b.ngroups*b.group=b.ncols := by
  rw [ngroups,group,ncols,←pow_add,Nat.sub_add_cancel b.group_le]

theorem ngroups_mul_groupsz : b.ngroups*b.groupsz=b.linesz := by
  rw [groupsz,linesz,←Nat.mul_assoc,b.ngroups_mul_group]

theorem groupsz_dvd_linesz : b.groupsz ∣ b.linesz :=
  ⟨b.ngroups,by rw [Nat.mul_comm,b.ngroups_mul_groupsz]⟩

theorem linesz_dvd_unit : b.linesz ∣ b.unit := by
  have hw := (pow_dvd_pow 2 (b.width_le.trans (by decide : 1≤2)) : _ ∣ 2^2)
  rw [linesz,unit,Nat.mul_comm]
  exact Nat.mul_dvd_mul hw dvd_rfl

end Board

structure Located (d lo hi : ℕ) (find : ℕ → Sector) (x : ℕ) : Prop where
  le : (find x).soffs≤x
  lt : x<(find x).soffs+(find x).ssize
  low : lo≤(find x).soffs
  high : (find x).soffs+(find x).ssize≤hi
  soffs_dvd : d ∣ (find x).soffs
  ssize_dvd : d ∣ (find x).ssize
  same : ∀ y, (find x).soffs≤y → y<(find x).soffs+(find x).ssize → find y=find x

variable {hi lo : ℕ} {find : ℕ → Sector}

theorem Located.mono {lo' hi' : ℕ} (h : Located d lo hi find x) (hlo : lo'≤lo) (hhi : hi≤hi') :
    Located d lo' hi' find x :=
  {h with low := hlo.trans h.low, high := h.high.trans hhi}

theorem Located.of_sector (sec : Sector)
    (hfind : ∀ y, sec.soffs≤y → y<sec.soffs+sec.ssize → find y=sec) (hle : sec.soffs≤x)
    (hlt : x<sec.soffs+sec.ssize) (hlow : lo ≤ sec.soffs) (hhigh : sec.soffs+sec.ssize≤hi)
    (hsoffs : d ∣ sec.soffs) (hssize : d ∣ sec.ssize) : Located d lo hi find x := by
  have hx := hfind x hle hlt
  subst hx
  exact ⟨hle,hlt,hlow,hhigh,hsoffs,hssize,hfind⟩

theorem Located.congr {find' : ℕ → Sector} (h : Located d lo hi find x)
    (he : ∀ y, lo≤y → y<hi → find' y=find y) : Located d lo hi find' x := by
  refine .of_sector _ (fun y hy hy' => ?_) h.le h.lt h.low h.high h.soffs_dvd h.ssize_dvd
  rw [he y (h.low.trans hy) (hy'.trans_le h.high)]
  exact h.same y hy hy'

theorem topBoot_located {noffs : ℕ} (hd : d ∣ noffs) (x : ℕ) (hx : noffs≤x) (sizes : List ℕ)
    (hsizes : ∀ z∈sizes, d ∣ z) (soffs secno : ℕ) (hs : d ∣ soffs)
    (hroom : noffs+sizes.sum<soffs) (hlt : x<soffs) :
    Located d noffs soffs (fun y => topBoot noffs y sizes soffs secno) x := by
  induction sizes generalizing soffs secno with
  | nil =>
    have hsum : noffs+(soffs-noffs)=soffs := Nat.add_sub_cancel' (by omega)
    exact .of_sector _ (fun _ _ _ => rfl) hx (hlt.trans_eq hsum.symm) le_rfl hsum.le hd
      (Nat.dvd_sub hs hd)
  | cons z rest ih =>
    rw [sum_cons] at hroom
    have hz : d ∣ z := hsizes z mem_cons_self
    have hz' := Nat.dvd_sub hs hz
    by_cases hin : soffs-z≤x
    · have hsum : soffs-z+z=soffs := Nat.sub_add_cancel (by omega)
      have hlow : noffs ≤ soffs-z := by omega
      exact .of_sector ⟨secno-1,soffs-z,z⟩ (fun y hy _ => if_pos hy) hin
        (hlt.trans_eq hsum.symm) hlow hsum.le hz' hz
    · have hrest := ih (fun w hw => hsizes w (mem_cons_of_mem _ hw)) (soffs-z)
        (secno-1) hz' (by omega) (by omega)
      refine (hrest.congr fun y _ hy => ?_).mono le_rfl (by omega)
      exact if_neg (by omega)

theorem botBoot_located {bootspace : ℕ} (hd : d ∣ bootspace) (x : ℕ) (hx : x<bootspace)
    (sizes : List ℕ) (hsizes : ∀ z∈sizes, d ∣ z) (soffs secno : ℕ) (hs : d ∣ soffs)
    (hroom : soffs+sizes.sum<bootspace) (hle : soffs≤x) :
    Located d soffs bootspace (fun y => botBoot bootspace y sizes soffs secno) x := by
  induction sizes generalizing soffs secno with
  | nil =>
    have hsum : soffs+(bootspace-soffs)=bootspace := Nat.add_sub_cancel' (by omega)
    exact .of_sector _ (fun _ _ _ => rfl) hle (hx.trans_eq hsum.symm) le_rfl hsum.le hs
      (Nat.dvd_sub hd hs)
  | cons z rest ih =>
    rw [sum_cons] at hroom
    have hz : d ∣ z := hsizes z mem_cons_self
    by_cases hin : x<soffs+z
    · have hend : soffs+z≤bootspace := by omega
      exact .of_sector ⟨secno,soffs,z⟩ (fun y _ hy => if_pos hy) hle hin le_rfl hend hs hz
    · have hrest := ih (fun w hw => hsizes w (mem_cons_of_mem _ hw)) (soffs+z)
        (secno+1) (Nat.dvd_add hs hz) (by omega) (by omega)
      refine (hrest.congr fun y hy _ => ?_).mono (by omega) le_rfl
      exact if_neg (by omega)

theorem uniform_located {z : ℕ} (hz : 0<z) (hd : d ∣ z) (hlo : z ∣ lo) (hhi : z ∣ hi)
    (secno : ℕ → ℕ) (x : ℕ) (hx : lo≤x) (hx' : x<hi) :
    Located d lo hi (fun y => ⟨secno (y-y%z),y-y%z,z⟩) x := by
  have hmod : x%z<z := Nat.mod_lt _ hz
  have hdiv : x-x%z=z*(x/z) := by
    have := Nat.div_add_mod x z
    omega
  obtain ⟨i,rfl⟩ := hlo
  obtain ⟨j,rfl⟩ := hhi
  have hi' : i≤x/z := (Nat.le_div_iff_mul_le hz).mpr (by rw [Nat.mul_comm]; exact hx)
  have hj' := (Nat.div_lt_iff_lt_mul hz).mpr (by rw [Nat.mul_comm]; exact hx')
  constructor
  · simp only; omega
  · simp only; omega
  · simp only [hdiv]
    exact Nat.mul_le_mul_left z hi'
  · simp only [hdiv]
    calc z*(x/z)+z=z*(x/z+1) := by ring
      _≤z*j := Nat.mul_le_mul_left z hj'
  · simp only [hdiv]
    exact hd.mul_right _
  · exact hd
  · intro y hy hy'
    simp only at hy hy' ⊢
    have hyz : y/z=x/z := by
      apply Nat.div_eq_of_lt_le
      · rw [Nat.mul_comm]; omega
      · rw [Nat.mul_comm,Nat.mul_add]; omega
    have hsame : y-y%z=x-x%z := by
      have := Nat.div_add_mod y z
      rw [hyz] at this
      omega
    rw [hsame]

namespace Geometry
variable (fcp : Geometry)

def sector : ℕ := fcp.secsize*fcp.board.ncols
theorem sector_pos : 0<fcp.sector := Nat.mul_pos (Nat.two_pow_pos _) fcp.board.ncols_pos

theorem linesz_dvd_sector : fcp.board.linesz ∣ fcp.sector := by
  rw [Board.linesz,Nat.mul_comm]
  exact Nat.mul_dvd_mul (pow_dvd_pow 2 fcp.word_le) dvd_rfl

theorem sector_dvd_size : fcp.sector ∣ fcp.size :=
  Nat.mul_dvd_mul (pow_dvd_pow 2 fcp.secsize_le) dvd_rfl

theorem size_pos : 0<fcp.size := Nat.mul_pos (Nat.two_pow_pos _) fcp.board.ncols_pos

theorem size_le : fcp.size≤2^31 := by
  have hlt : fcp.size<2^32 := fcp.size_lt
  have hpow : fcp.size=2^(fcp.devsizeLog2+fcp.board.ncolsLog2) :=
    (pow_add 2 fcp.devsizeLog2 fcp.board.ncolsLog2).symm
  have hexp :=
    (Nat.pow_lt_pow_iff_right (by norm_num)).1 (hpow ▸ hlt)
  exact hpow ▸ Nat.pow_le_pow_right (by norm_num) (by omega)

theorem sector_le_size : fcp.sector≤fcp.size := Nat.le_of_dvd fcp.size_pos fcp.sector_dvd_size

theorem linesz_dvd_size : fcp.board.linesz ∣ fcp.size :=
  fcp.linesz_dvd_sector.trans fcp.sector_dvd_size

def bootSizes : List ℕ := (bootsecs fcp.am29dl).map (· * fcp.board.ncols)

theorem unit_dvd_bootSizes : ∀ z∈fcp.bootSizes, fcp.board.unit ∣ z := by
  intro z hz
  obtain ⟨w,hw,rfl⟩ := mem_map.mp hz
  apply Nat.mul_dvd_mul _ dvd_rfl
  rw [bootsecs] at hw
  split at hw <;> simp only [mem_cons,not_mem_nil,or_false] at hw <;> omega

theorem linesz_dvd_bootSizes : ∀ z∈fcp.bootSizes, fcp.board.linesz ∣ z :=
  fun z hz => fcp.board.linesz_dvd_unit.trans (fcp.unit_dvd_bootSizes z hz)

theorem sum_bootSizes : fcp.bootSizes.sum=(bootsecs fcp.am29dl).sum*fcp.board.ncols := by
  rw [bootSizes,sum_map_mul_right,map_id']

theorem bootSizes_fit (h : fcp.boot ≠ .fbNone) : fcp.bootSizes.sum<fcp.sector := by
  rw [sum_bootSizes]
  exact Nat.mul_lt_mul_of_pos_right (fcp.boot_fits h) fcp.board.ncols_pos

theorem foffs2addr_line {offs : ℕ} (h : offs<fcp.size) :
    (foffs2addr fcp offs).2=offs/fcp.board.linesz := by
  rw [foffs2addr]
  rw [Nat.mod_eq_of_lt (show offs<fcp.banksize from h),Nat.div_div_eq_div_mul,Board.linesz,
    Nat.mul_comm]

def search (offs : ℕ) : Sector :=
  if fcp.boot = .fbTop ∧ fcp.size-fcp.sector≤offs then
    topBoot (fcp.size-fcp.sector) offs fcp.bootSizes fcp.size fcp.nsec
  else if fcp.boot = .fbBot ∧ offs<fcp.sector then botBoot fcp.sector offs fcp.bootSizes 0 0
  else
    ⟨(offs-offs%fcp.sector)/fcp.sector +
      (if fcp.boot = .fbBot then (bootsecs fcp.am29dl).length else 0),
      offs-offs%fcp.sector,fcp.sector⟩

theorem search_located (hd : d ∣ fcp.sector) (hdboot : ∀ z∈fcp.bootSizes, d ∣ z)
    (hx : x<fcp.size) : Located d 0 fcp.size fcp.search x := by
  have hsize := fcp.sector_le_size
  have hdsize := hd.trans fcp.sector_dvd_size
  have hbound := Nat.dvd_sub hdsize hd
  have hmult := Nat.dvd_sub fcp.sector_dvd_size dvd_rfl
  have huniform := fun lo hi (hlo : fcp.sector ∣ lo) (hhi : fcp.sector ∣ hi) =>
    uniform_located fcp.sector_pos hd hlo hhi (fun y => y/fcp.sector +
      (if fcp.boot = .fbBot then (bootsecs fcp.am29dl).length else 0)) x
  cases hboot : fcp.boot with
  | fbNone =>
    refine (huniform 0 fcp.size (dvd_zero _) fcp.sector_dvd_size (Nat.zero_le _) hx).congr ?_
    intro y _ _
    simp [search,hboot]
  | fbTop =>
    have hfit := fcp.bootSizes_fit (by simp [hboot])
    by_cases htop : fcp.size-fcp.sector≤x
    · have h := topBoot_located hbound x htop fcp.bootSizes hdboot fcp.size
        fcp.nsec hdsize (by omega) hx
      refine (h.congr fun y hy _ => ?_).mono (Nat.zero_le _) le_rfl
      exact if_pos ⟨hboot,hy⟩
    · have h := huniform 0 (fcp.size-fcp.sector) (dvd_zero _) hmult (Nat.zero_le _) (by omega)
      refine (h.congr fun y _ hy => ?_).mono le_rfl (Nat.sub_le _ _)
      have hy' : ¬ fcp.size-fcp.sector≤y := by omega
      simp [search,hboot,hy']
  | fbBot =>
    have hfit := fcp.bootSizes_fit (by simp [hboot])
    by_cases hbot : x<fcp.sector
    · have h := botBoot_located hd x hbot fcp.bootSizes hdboot
        0 0 (dvd_zero _) (by omega) (Nat.zero_le _)
      refine (h.congr fun y _ hy => ?_).mono le_rfl hsize
      simp [search,hboot,hy]
    · have h := huniform fcp.sector fcp.size dvd_rfl fcp.sector_dvd_size (by omega) hx
      refine (h.congr fun y hy _ => ?_).mono (Nat.zero_le _) le_rfl
      have hy' : ¬ y<fcp.sector := by omega
      simp [search,hboot,hy']

theorem search_lines (hx : x<fcp.size) : Located fcp.board.linesz 0 fcp.size fcp.search x :=
  fcp.search_located fcp.linesz_dvd_sector fcp.linesz_dvd_bootSizes hx

theorem search_line (hx : x<fcp.size) :
    fcp.search (x/fcp.board.linesz*fcp.board.linesz)=fcp.search x := by
  have hle : x/fcp.board.linesz*fcp.board.linesz≤x := Nat.div_mul_le_self _ _
  have h := fcp.search_lines (hle.trans_lt hx)
  refine (h.same x (h.le.trans hle) ?_).symm
  -- the sector ends at a line boundary beyond the line's start
  have hend := Nat.dvd_add h.soffs_dvd h.ssize_dvd
  obtain ⟨k,hk⟩ := hend
  have hlt := h.lt
  rw [hk] at hlt ⊢
  rw [Nat.mul_comm _ k] at hlt ⊢
  have hdiv := Nat.lt_of_mul_lt_mul_right hlt
  exact (Nat.div_lt_iff_lt_mul fcp.board.linesz_pos).mp hdiv

def sectorAt (offs : ℕ) : Sector := (findsector fcp offs).getD ⟨0,0,0⟩

theorem findsector_eq (hx : x<fcp.size) : findsector fcp x=some (fcp.search x) := by
  have hbank : ¬ x/fcp.banksize≥1 := by
    rw [Nat.div_eq_of_lt (show x<fcp.banksize from hx)]
    decide
  have haddr := fcp.foffs2addr_line hx
  have hline : (x%fcp.banksize/fcp.board.width/fcp.board.ncols)*fcp.board.linesz =
      x/fcp.board.linesz*fcp.board.linesz := congrArg (· * fcp.board.linesz) haddr
  rw [←fcp.search_line hx]
  simp only [findsector,foffs2addr,if_neg hbank,hline]
  generalize x/fcp.board.linesz*fcp.board.linesz=y
  by_cases htop : fcp.boot = .fbTop ∧ fcp.size-fcp.sector≤y
  · rw [search,if_pos htop]
    exact if_pos htop
  · rw [search,if_neg htop]
    refine (if_neg htop).trans ?_
    by_cases hbot : fcp.boot = .fbBot ∧ y<fcp.sector
    · rw [if_pos hbot]
      exact if_pos hbot
    · rw [if_neg hbot]
      exact if_neg hbot

theorem sectorAt_eq (hx : x<fcp.size) : fcp.sectorAt x=fcp.search x := by
  rw [sectorAt,fcp.findsector_eq hx]
  rfl

theorem sectorAt_lines (hx : x<fcp.size) : Located fcp.board.linesz 0 fcp.size fcp.sectorAt x :=
  (fcp.search_lines hx).congr fun _ _ hy => fcp.sectorAt_eq hy

theorem sectorAt_next {e : ℕ} (hx : x<fcp.size) (he : e<fcp.size)
    (hend : (fcp.sectorAt x).soffs+(fcp.sectorAt x).ssize=e) : (fcp.sectorAt e).soffs=e := by
  have hloc := fcp.sectorAt_lines hx
  have hloc' := fcp.sectorAt_lines he
  have hle := hloc'.le
  have hlt := hloc'.lt
  have hxle := hloc.le
  have hxlt := hloc.lt
  by_contra hne
  -- otherwise the offset before the end would be in both sectors
  have h₁ := hloc.same (e-1) (by omega) (by omega)
  have h₂ := hloc'.same (e-1) (by omega) (by omega)
  rw [h₁] at h₂
  rw [←h₂] at hlt
  omega

theorem findsector_sectorAt (hx : x<fcp.size) : findsector fcp x=some (fcp.sectorAt x) := by
  rw [fcp.findsector_eq hx,fcp.sectorAt_eq hx]

end Geometry
namespace Fromcookie
variable (fcp : Fromcookie)

theorem unit_dvd_sector : fcp.board.unit ∣ fcp.sector :=
  Nat.mul_dvd_mul (pow_dvd_pow 2 (le_trans (by decide) fcp.eight_le) : 2^2 ∣ 2^fcp.secsizeLog2) dvd_rfl

theorem unit_dvd_size : fcp.board.unit ∣ fcp.size := fcp.unit_dvd_sector.trans fcp.sector_dvd_size

theorem sectorAt_located (hx : x<fcp.size) : Located fcp.board.unit 0 fcp.size fcp.sectorAt x :=
  (fcp.search_located fcp.unit_dvd_sector fcp.unit_dvd_bootSizes hx).congr
    fun _ _ hy => fcp.sectorAt_eq hy

end Fromcookie

theorem add_div_of_lt {a r l u : ℕ} (hl : 0<l) (ha : l ∣ a) (hr : r<l) (hu : l ∣ u) :
    (a+r)/u=a/u := by
  obtain ⟨k,rfl⟩ := hu
  obtain ⟨j,rfl⟩ := ha
  rw [←Nat.div_div_eq_div_mul,←Nat.div_div_eq_div_mul,Nat.mul_add_div hl,
    Nat.div_eq_of_lt hr,Nat.mul_div_cancel_left j hl,Nat.add_zero]

theorem le_iff_of_div_eq {u s y : ℕ} (hu : 0<u) (hs : u ∣ s) (h : x/u=y/u) :
    s≤x ↔ s≤y := by
  obtain ⟨k,rfl⟩ := hs
  rw [Nat.mul_comm,←Nat.le_div_iff_mul_le hu,←Nat.le_div_iff_mul_le hu,h]

namespace Board
variable (b : Board) (m : Flags)

def within (x : ℕ) : ℕ :=
  x%b.linesz/b.groupsz*b.groupsz +
    if b.swapped m then b.groupsz-1-x%b.groupsz else x%b.groupsz

def phys (x : ℕ) : ℕ := b.frompline m (x/b.linesz*b.linesz) + b.within m x
def view (cells : ℕ → UInt8) (x : ℕ) : UInt8 := cells (b.phys m x)

theorem within_lt (x : ℕ) : b.within m x<b.linesz := by
  have hg := b.groupsz_pos
  have hm : x%b.groupsz<b.groupsz := Nat.mod_lt _ hg
  have hk : x%b.linesz/b.groupsz<b.ngroups := by
    rw [Nat.div_lt_iff_lt_mul hg,b.ngroups_mul_groupsz]
    exact Nat.mod_lt _ b.linesz_pos
  have hin : (if b.swapped m then b.groupsz-1-x%b.groupsz else x%b.groupsz) <
      b.groupsz := by
    split <;> omega
  calc b.within m x<x%b.linesz/b.groupsz*b.groupsz+b.groupsz :=
        Nat.add_lt_add_left hin _
    _=(x%b.linesz/b.groupsz+1)*b.groupsz := by ring
    _≤b.ngroups*b.groupsz := Nat.mul_le_mul_right _ hk
    _=b.linesz := b.ngroups_mul_groupsz

theorem linesz_dvd_pline (ho : b.linesz ∣ o) : b.linesz ∣ b.frompline m o :=
  b.pline_dvd m o ho

theorem phys_div_unit (x : ℕ) : b.phys m x/b.unit=x/b.unit := by
  have hline : b.linesz ∣ x/b.linesz*b.linesz := Dvd.intro_left _ rfl
  have hx : x/b.linesz*b.linesz+x%b.linesz=x := Nat.div_add_mod' _ _
  calc b.phys m x/b.unit=b.frompline m (x/b.linesz*b.linesz)/b.unit :=
        add_div_of_lt b.linesz_pos (b.linesz_dvd_pline m hline) (b.within_lt m x)
          b.linesz_dvd_unit
    _=x/b.linesz*b.linesz/b.unit := b.pline_div m _
    _=(x/b.linesz*b.linesz+x%b.linesz)/b.unit :=
        (add_div_of_lt b.linesz_pos hline (Nat.mod_lt _ b.linesz_pos) b.linesz_dvd_unit).symm
    _=x/b.unit := by rw [hx]

theorem mem_line_of_phys (ho : b.linesz ∣ o) (h₁ : b.frompline m o≤b.phys m x)
    (h₂ : b.phys m x<b.frompline m o+b.linesz) : o≤x ∧ x<o+b.linesz := by
  have hl := b.linesz_pos
  have hline : b.linesz ∣ x/b.linesz*b.linesz := Dvd.intro_left _ rfl
  obtain ⟨i,hi⟩ := b.linesz_dvd_pline m hline
  obtain ⟨j,hj⟩ := b.linesz_dvd_pline m ho
  have hw := b.within_lt m x
  rw [phys,hi,hj] at h₁ h₂
  -- both line addresses are the multiple of the line size just below the cell
  have hij : i=j := by
    have hle : b.linesz*i<b.linesz*(j+1) := by rw [Nat.mul_add]; omega
    have hge : b.linesz*j<b.linesz*(i+1) := by rw [Nat.mul_add]; omega
    have h1 := Nat.lt_of_mul_lt_mul_left hle
    have h2 := Nat.lt_of_mul_lt_mul_left hge
    omega
  have heq : x/b.linesz*b.linesz=o := by
    rw [←b.pline_pline m (x/b.linesz*b.linesz),←b.pline_pline m o,hi,hj,hij]
  have hx := Nat.div_add_mod' x b.linesz
  have hmod := Nat.mod_lt x hl
  omega

theorem view_congr_line {cells cells' : ℕ → UInt8} (ho : b.linesz ∣ o)
    (h : ∀ a, a<b.frompline m o ∨ b.frompline m o+b.linesz≤a → cells' a=cells a)
    (hx : x<o ∨ o+b.linesz≤x) : b.view m cells' x=b.view m cells x := by
  apply h
  by_contra hin
  have := b.mem_line_of_phys m ho (x := x) (by omega) (by omega)
  omega

theorem phys_group {k i : ℕ} (ho : b.linesz ∣ o) (hk : k<b.ngroups) (hi : i<b.groupsz) :
    b.phys m (o+k*b.groupsz+i) =
      b.frompline m o+k*b.groupsz + if b.swapped m then b.groupsz-1-i else i := by
  have hg := b.groupsz_pos
  have hl := b.linesz_pos
  have hr : k*b.groupsz+i<b.linesz := by
    calc k*b.groupsz+i<k*b.groupsz+b.groupsz := Nat.add_lt_add_left hi _
      _=(k+1)*b.groupsz := by ring
      _≤b.ngroups*b.groupsz := Nat.mul_le_mul_right _ hk
      _=b.linesz := b.ngroups_mul_groupsz
  have hdiv : (o+k*b.groupsz+i)/b.linesz*b.linesz=o := by
    obtain ⟨j,rfl⟩ := ho
    rw [Nat.add_assoc,Nat.mul_add_div hl,Nat.div_eq_of_lt hr,Nat.add_zero,Nat.mul_comm]
  have hmod : (o+k*b.groupsz+i)%b.linesz=k*b.groupsz+i := by
    obtain ⟨j,rfl⟩ := ho
    rw [Nat.add_assoc,Nat.mul_add_mod,Nat.mod_eq_of_lt hr]
  have hquot : (k*b.groupsz+i)/b.groupsz=k := by
    rw [Nat.mul_comm,Nat.mul_add_div hg,Nat.div_eq_of_lt hi,Nat.add_zero]
  have hrem : (o+k*b.groupsz+i)%b.groupsz=i := by
    rw [←Nat.mod_mod_of_dvd _ b.groupsz_dvd_linesz,hmod,Nat.mul_comm,Nat.mul_add_mod,
      Nat.mod_eq_of_lt hi]
  rw [phys,within,hdiv,hmod,hquot,hrem,Nat.add_assoc]

variable (cells : ℕ → UInt8)

theorem frompeek_eq {k : ℕ} (ho : b.linesz ∣ o) (hk : k<b.ngroups) :
    b.frompeek m cells (b.frompline m o+k*b.groupsz) =
      readCells (b.view m cells) (o+k*b.groupsz) b.groupsz := by
  have hlen : (b.frompeek m cells (b.frompline m o+k*b.groupsz)).length=b.groupsz := by
    rw [frompeek,munge]
    split <;> simp
  refine (Holds.readCells_eq (holds_of_getElem fun i hi => ?_) hlen.symm).symm
  rw [hlen] at hi
  rw [view,b.phys_group m ho hk hi]
  simp only [frompeek,munge]
  split <;> simp

theorem readGroups_eq (ho : b.linesz ∣ o) (n k : ℕ) (hk : k+n≤b.ngroups) :
    readGroups b m cells (b.frompline m o) n (k*b.group) =
      readCells (b.view m cells) (o+k*b.groupsz) (n*b.groupsz) := by
  induction n generalizing k with
  | zero => rw [Nat.zero_mul]; rfl
  | succ n ih =>
    have hcol : k*b.group*b.width=k*b.groupsz := Nat.mul_assoc _ _ _
    have hnext : k*b.group+b.group=(k+1)*b.group := by ring
    rw [readGroups,hcol,b.frompeek_eq m cells ho (by omega),hnext,ih (k+1) (by omega),
      Nat.succ_mul n,Nat.add_comm (n*_),readCells_add,Nat.succ_mul k,Nat.add_assoc o]

theorem readLines_eq (nl : ℕ) (ho : b.linesz ∣ o) :
    readLines b m cells nl o=readCells (b.view m cells) o (nl*b.linesz) := by
  induction nl generalizing o with
  | zero => rw [Nat.zero_mul]; rfl
  | succ nl ih =>
    have hgroups := b.readGroups_eq m cells ho b.ngroups 0 (by omega)
    rw [Nat.zero_mul,Nat.zero_mul,Nat.add_zero,b.ngroups_mul_groupsz] at hgroups
    rw [readLines,b.rline_eq,hgroups,ih (Nat.dvd_add ho dvd_rfl),Nat.succ_mul,
      Nat.add_comm (nl*_),readCells_add]

theorem view_contiguous (h : b.readContiguous m=true) : b.view m cells=cells := by
  obtain ⟨hline,hswap⟩ := b.contiguous_plain m h
  funext x
  have hg : x%b.linesz%b.groupsz=x%b.groupsz := Nat.mod_mod_of_dvd _ b.groupsz_dvd_linesz
  have h1 := Nat.div_add_mod' (x%b.linesz) b.groupsz
  have h2 := Nat.div_add_mod' x b.linesz
  have hx : b.phys m x=x := by
    simp only [phys,within,hline,hswap,Bool.false_eq_true,if_false]
    omega
  rw [view,hx]

end Board
namespace Fromcookie
variable (fcp : Fromcookie) (m : Flags) (cells : ℕ → UInt8)

theorem line_le_size (ho : fcp.board.linesz ∣ o) (h : o<fcp.size) :
    o+fcp.board.linesz≤fcp.size := by
  obtain ⟨i,rfl⟩ := ho
  obtain ⟨j,hj⟩ := fcp.linesz_dvd_size
  rw [hj] at h ⊢
  have hij := Nat.lt_of_mul_lt_mul_left h
  calc fcp.board.linesz*i+fcp.board.linesz=fcp.board.linesz*(i+1) := by ring
    _≤fcp.board.linesz*j := Nat.mul_le_mul_left _ hij

theorem size_add_linesz : fcp.size+fcp.board.linesz<2^32 := by
  have hle := fcp.size_le
  -- a line is at most two bytes of every column, a device at least four
  have hwidth : fcp.board.width≤2 := by
    have := Nat.pow_le_pow_right (n := 2) (by norm_num) fcp.board.width_le
    simpa [Board.width] using this
  have hunit : 4*fcp.board.ncols≤fcp.size := Nat.le_of_dvd fcp.size_pos fcp.unit_dvd_size
  have hline : fcp.board.linesz≤fcp.board.ncols*2 := Nat.mul_le_mul_left _ hwidth
  omega

theorem limit_ok (h : x≤fcp.size) : ¬ x%2^32>fcp.size := by
  omega

theorem readAlign_eq (ho : fcp.board.linesz ∣ o) (h : o<fcp.size) :
    readAlign fcp m cells o=readCells (fcp.board.view m cells) o fcp.board.linesz := by
  rw [readAlign,if_neg (fcp.limit_ok (fcp.line_le_size ho h)),fcp.board.readLines_eq m cells 1 ho,
    Nat.one_mul]

theorem take_drop_readCells {α : Type*} (f : ℕ → α) {p n i k : ℕ} (h : i+k≤n) :
    ((readCells f p n).drop i).take k=readCells f (p+i) k := by
  obtain ⟨j,rfl⟩ := Nat.exists_eq_add_of_le h
  rw [readCells_add,readCells_add]
  have h1 : (readCells f p i).length=i := length_readCells _ _ _
  have h2 : (readCells f (p+i) k).length=k := length_readCells _ _ _
  rw [append_assoc,drop_left' h1,take_left' h2]

theorem readLoop_eq (fuel offs nb : ℕ) (hfuel : nb<fuel) (h : offs+nb≤fcp.size) :
    readLoop fcp m cells fuel offs nb=readCells (fcp.board.view m cells) offs nb := by
  induction fuel generalizing offs nb with
  | zero => omega
  | succ fuel ih =>
    have hl := fcp.board.linesz_pos
    have hmod := Nat.mod_lt offs hl
    have hle := Nat.mod_le offs fcp.board.linesz
    rw [readLoop]
    split_ifs with hnb hoffs hsmall
    · rw [hnb]; rfl
    · -- the rest of a line, through the align buffer
      have hdvd : fcp.board.linesz ∣ offs-offs%fcp.board.linesz := Nat.dvd_sub_mod _
      have hstart : offs-offs%fcp.board.linesz+offs%fcp.board.linesz=offs := by omega
      dsimp only
      rw [fcp.readAlign_eq m cells hdvd (by omega),take_drop_readCells _ (by omega),hstart,
        ih _ _ (by omega) (by omega),←readCells_add]
      congr 1
      omega
    · have hdvd := Nat.dvd_of_mod_eq_zero (not_not.mp hoffs)
      have htake := take_drop_readCells (fcp.board.view m cells) (p := offs) (i := 0)
        (show 0+nb≤fcp.board.linesz by omega)
      rw [fcp.readAlign_eq m cells hdvd (by omega)]
      simpa using htake
    · -- whole lines, then what is left of the request
      have hdvd := Nat.dvd_of_mod_eq_zero (not_not.mp hoffs)
      have hn : nb/fcp.board.linesz*fcp.board.linesz=nb-nb%fcp.board.linesz := by
        have := Nat.div_add_mod' nb fcp.board.linesz
        omega
      have hmod' := Nat.mod_lt nb hl
      dsimp only
      rw [fcp.board.readLines_eq m cells _ hdvd,hn,ih _ _ (by omega) (by omega),
        ←readCells_add]
      congr 1
      omega

end Fromcookie

theorem fromreadbytes_eq (fcp : Fromcookie) (cells : ℕ → UInt8) {offs nb : ℕ} (flags : Flags)
    (h : offs+nb≤fcp.size) : fromreadbytes fcp cells offs nb flags =
      (.ok,readCells (fcp.board.view (mode flags) cells) offs nb) := by
  rw [fromreadbytes,if_neg (fcp.limit_ok h)]
  split_ifs with hc
  · rw [fcp.board.view_contiguous _ _ hc]
  · rw [fcp.readLoop_eq _ _ _ _ _ (Nat.lt_succ_self nb) h]

end Pmon.FlashRom
