import Pmon.BlockLayout
import Pmon.FlashRomSectors

/-!
# The sector map of a device

The layout is a list of uniform sectors, of which a boot device has its first or its last one
divided.
-/

namespace Pmon.FlashRom
open BlockLayout List
variable {x : ℕ}

theorem topBoot_heldBy (pre : List ℕ) (low : ℕ) (sizes : List ℕ) (hx : pre.sum≤x)
    (hlt : x<pre.sum+low+sizes.sum) {sec : Sector}
    (hsec : topBoot pre.sum x sizes (pre.sum+low+sizes.sum)
      (pre.length+1+sizes.length)=sec) :
    HeldBy (pre++low::sizes.reverse) x sec.secno sec.soffs sec.ssize := by
  induction sizes with
  | nil =>
    subst hsec
    simp only [topBoot,sum_nil,Nat.add_zero,length_nil,Nat.add_sub_cancel,
      Nat.add_sub_cancel_left] at hlt ⊢
    exact ⟨⟨pre,[],rfl,rfl,rfl⟩,hx,hlt⟩
  | cons z rest ih =>
    rw [sum_cons] at hlt
    have hsoffs : pre.sum+low+(z::rest).sum-z=pre.sum+low+rest.sum := by
      rw [sum_cons]
      omega
    have hsecno : pre.length+1+(z::rest).length-1=pre.length+1+rest.length := by
      rw [length_cons]
      omega
    rw [topBoot,hsoffs,hsecno] at hsec
    have hblocks : pre++low::(z::rest).reverse=(pre++low::rest.reverse)++[z] := by
      simp
    rw [hblocks]
    by_cases hin : pre.sum+low+rest.sum≤x
    · rw [if_pos hin] at hsec
      subst hsec
      refine ⟨⟨pre++low::rest.reverse,[],rfl,?_,?_⟩,hin,?_⟩
      · simp
        omega
      · simp
        omega
      · show x<pre.sum+low+rest.sum+z
        omega
    · rw [if_neg hin] at hsec
      exact (ih (by omega) hsec).append_right [z]

theorem botBoot_heldBy (pre : List ℕ) (high : ℕ) (sizes : List ℕ) (hx : pre.sum≤x)
    (hlt : x<pre.sum+sizes.sum+high) {sec : Sector}
    (hsec : botBoot (pre.sum+sizes.sum+high) x sizes pre.sum pre.length=sec) :
    HeldBy (pre++(sizes++[high])) x sec.secno sec.soffs sec.ssize := by
  induction sizes generalizing pre with
  | nil =>
    subst hsec
    simp only [botBoot,sum_nil,Nat.add_zero,Nat.add_sub_cancel_left] at hlt ⊢
    exact ⟨⟨pre,[],rfl,rfl,rfl⟩,hx,hlt⟩
  | cons z rest ih =>
    rw [sum_cons] at hlt
    by_cases hin : x<pre.sum+z
    · rw [botBoot,if_pos hin] at hsec
      subst hsec
      exact ⟨⟨pre,rest++[high],rfl,rfl,rfl⟩,hx,hin⟩
    · have hsum : (pre++[z]).sum=pre.sum+z := by simp
      have hlen : (pre++[z]).length=pre.length+1 := by simp
      have hspace : pre.sum+(z::rest).sum+high=(pre++[z]).sum+rest.sum+high := by
        rw [hsum,sum_cons]
        omega
      rw [botBoot,if_neg hin,hspace,←hsum,←hlen] at hsec
      have h := ih (pre++[z]) (by omega) (by omega) hsec
      simpa using h

namespace Geometry
open List
variable (fcp : Geometry)

def uniform : ℕ := fcp.devsize/fcp.secsize

theorem uniform_mul_sector : fcp.uniform*fcp.sector=fcp.size := by
  have hdvd : fcp.secsize ∣ fcp.devsize := pow_dvd_pow 2 fcp.secsize_le
  rw [uniform,sector,←Nat.mul_assoc,Nat.div_mul_cancel hdvd]
  rfl

theorem uniform_pos : 0<fcp.uniform := by
  have h := fcp.size_pos
  rw [←fcp.uniform_mul_sector] at h
  exact Nat.pos_of_mul_pos_right h

theorem size_sub_sector : (fcp.uniform-1)*fcp.sector=fcp.size-fcp.sector := by
  rw [Nat.sub_mul,Nat.one_mul,fcp.uniform_mul_sector]

def leftover : ℕ := fcp.sector-fcp.bootSizes.sum

def blocks : List ℕ := match fcp.boot with
  | .fbNone => List.replicate fcp.uniform fcp.sector
  | .fbTop =>
    List.replicate (fcp.uniform-1) fcp.sector++fcp.leftover::fcp.bootSizes.reverse
  | .fbBot =>
    (fcp.bootSizes++[fcp.leftover])++List.replicate (fcp.uniform-1) fcp.sector

theorem leftover_add (h : fcp.boot ≠ .fbNone) : fcp.leftover+fcp.bootSizes.sum=fcp.sector := by
  have hfit := fcp.bootSizes_fit h
  rw [leftover]
  omega

theorem bootSizes_pos : ∀ z∈fcp.bootSizes, 0<z := by
  intro z hz
  obtain ⟨w,hw,rfl⟩ := mem_map.mp hz
  apply Nat.mul_pos _ fcp.board.ncols_pos
  rw [bootsecs] at hw
  split at hw <;> simp only [mem_cons,not_mem_nil,or_false] at hw <;> omega

theorem blocks_pos {z : ℕ} (hz : z∈fcp.blocks) : 0<z := by
  have hleft : fcp.boot ≠ .fbNone → 0<fcp.leftover := fun h =>
    Nat.sub_pos_of_lt (fcp.bootSizes_fit h)
  have hboot := fcp.bootSizes_pos z
  have hsector := fcp.sector_pos
  rw [blocks] at hz
  split at hz
  · rw [eq_of_mem_replicate hz]
    exact hsector
  · rename_i htop
    have hl := hleft (by simp [htop])
    simp only [mem_append,mem_cons,mem_reverse,mem_replicate] at hz
    rcases hz with ⟨-,rfl⟩ | rfl | hz
    · exact hsector
    · exact hl
    · exact hboot hz
  · rename_i hbot
    have hl := hleft (by simp [hbot])
    simp only [mem_append,mem_singleton,mem_replicate] at hz
    rcases hz with (hz | rfl) | ⟨-,rfl⟩
    · exact hboot hz
    · exact hl
    · exact hsector

theorem blocks_sum : fcp.blocks.sum=fcp.size := by
  have hsub := fcp.size_sub_sector
  have hle := fcp.sector_le_size
  rw [blocks]
  split
  · rw [sum_replicate,smul_eq_mul,fcp.uniform_mul_sector]
  · rename_i htop
    have hl := fcp.leftover_add (by simp [htop])
    rw [sum_append,sum_replicate,smul_eq_mul,sum_cons,sum_reverse]
    omega
  · rename_i hbot
    have hl := fcp.leftover_add (by simp [hbot])
    rw [sum_append,sum_append,sum_replicate,smul_eq_mul,sum_singleton]
    omega

theorem nsec_boot (h : fcp.boot ≠ .fbNone) : fcp.nsec=fcp.uniform+fcp.bootSizes.length := by
  rw [nsec,if_neg h,bootSizes,length_map]
  rfl

theorem length_blocks : fcp.blocks.length=fcp.nsec := by
  have hpos := fcp.uniform_pos
  rw [blocks]
  split
  · rename_i hnone
    rw [nsec,if_pos hnone,length_replicate]
    rfl
  · rename_i htop
    rw [fcp.nsec_boot (by simp [htop]),length_append,length_replicate,
      length_cons,length_reverse]
    omega
  · rename_i hbot
    rw [fcp.nsec_boot (by simp [hbot]),length_append,length_append,
      length_replicate,length_singleton]
    omega

def layout : Composition fcp.size where
  blocks := fcp.blocks
  blocks_pos := fcp.blocks_pos
  blocks_sum := fcp.blocks_sum

theorem length_layout : fcp.layout.length=fcp.nsec := fcp.length_blocks

theorem search_uniform (hbot : fcp.boot ≠ .fbBot)
    (htop : ¬ (fcp.boot = .fbTop ∧ fcp.size-fcp.sector≤x)) :
    fcp.search x=⟨x/fcp.sector,x-x%fcp.sector,fcp.sector⟩ := by
  rw [search,if_neg htop,if_neg fun h => hbot h.1,if_neg hbot,Nat.add_zero,
    ←Nat.div_eq_sub_mod_div]

theorem search_above (hboot : fcp.boot = .fbBot) (hx : fcp.sector≤x) :
    fcp.search x=⟨fcp.bootSizes.length+1+(x-fcp.sector)/fcp.sector,
      fcp.sector+(x-fcp.sector-(x-fcp.sector)%fcp.sector),fcp.sector⟩ := by
  have hquot := Nat.div_eq_sub_div fcp.sector_pos hx
  have hmod := Nat.mod_eq_sub_mod hx
  have hmodle : (x-fcp.sector)%fcp.sector≤x-fcp.sector := Nat.mod_le _ _
  have hlen : fcp.bootSizes.length=(bootsecs fcp.am29dl).length := length_map _
  rw [search,if_neg (by simp [hboot]),if_neg fun h => absurd h.2 (by omega),if_pos hboot,
    ←Nat.div_eq_sub_mod_div,hquot,hmod,hlen]
  congr 1 <;> omega

theorem heldBy_top (hboot : fcp.boot = .fbTop) (hx : x<fcp.size) :
    HeldBy (List.replicate (fcp.uniform-1) fcp.sector++fcp.leftover::fcp.bootSizes.reverse)
      x (fcp.search x).secno (fcp.search x).soffs (fcp.search x).ssize := by
  have hne : fcp.boot ≠ .fbNone := by simp [hboot]
  have hleft := fcp.leftover_add hne
  have hle := fcp.sector_le_size
  by_cases htop : fcp.size-fcp.sector≤x
  · have hsum : (List.replicate (fcp.uniform-1) fcp.sector).sum=fcp.size-fcp.sector := by
      rw [sum_replicate,smul_eq_mul,fcp.size_sub_sector]
    have hnsec := fcp.nsec_boot hne
    have hpos := fcp.uniform_pos
    refine topBoot_heldBy _ fcp.leftover fcp.bootSizes (hsum.symm ▸ htop) (by omega) ?_
    rw [search,if_pos ⟨hboot,htop⟩,hsum,length_replicate]
    congr 1 <;> omega
  · have h := HeldBy.replicate (n := fcp.uniform-1) (z := fcp.sector) (x := x)
      (by rw [fcp.size_sub_sector]; omega)
    rw [fcp.search_uniform (by simp [hboot]) fun h => htop h.2]
    exact h.append_right _

theorem heldBy_bot (hboot : fcp.boot = .fbBot) (hx : x<fcp.size) :
    HeldBy ((fcp.bootSizes++[fcp.leftover])++List.replicate (fcp.uniform-1) fcp.sector)
      x (fcp.search x).secno (fcp.search x).soffs (fcp.search x).ssize := by
  have hleft := fcp.leftover_add (by simp [hboot])
  by_cases hbot : x<fcp.sector
  · refine (botBoot_heldBy [] fcp.leftover fcp.bootSizes (Nat.zero_le x) ?_ ?_).append_right _
    · rw [sum_nil]
      omega
    · rw [search,if_neg (by simp [hboot]),if_pos ⟨hboot,hbot⟩]
      congr 1
      rw [sum_nil]
      omega
  · have hsum : (fcp.bootSizes++[fcp.leftover]).sum=fcp.sector := by
      rw [sum_append,sum_singleton]
      omega
    have h := (HeldBy.replicate (n := fcp.uniform-1) (z := fcp.sector) (x := x-fcp.sector)
      (by rw [fcp.size_sub_sector]; omega)).append_left (fcp.bootSizes++[fcp.leftover])
    rw [hsum,length_append,length_singleton,Nat.add_sub_cancel' (by omega)] at h
    rw [fcp.search_above hboot (by omega)]
    exact h

theorem search_heldBy (hx : x<fcp.size) :
    HeldBy fcp.blocks x (fcp.search x).secno (fcp.search x).soffs (fcp.search x).ssize := by
  cases hboot : fcp.boot with
  | fbNone =>
    rw [fcp.search_uniform (by simp [hboot]) (by simp [hboot])]
    simp only [blocks,hboot]
    exact HeldBy.replicate (fcp.uniform_mul_sector.symm ▸ hx)
  | fbTop =>
    simp only [blocks,hboot]
    exact fcp.heldBy_top hboot hx
  | fbBot =>
    simp only [blocks,hboot]
    exact fcp.heldBy_bot hboot hx

theorem sectorAt_layout (x : Fin fcp.size) :
    fcp.sectorAt x=⟨fcp.layout.index x,fcp.layout.sizeUpTo (fcp.layout.index x),
      fcp.layout.blocksFun (fcp.layout.index x)⟩ := by
  have h : HeldBy fcp.layout.blocks x _ _ _ := fcp.search_heldBy x.isLt
  rw [fcp.sectorAt_eq x.isLt,h.index_eq x.isLt]
  simp only [h.sizeUpTo_eq,h.blocksFun_eq]

theorem secno_lt (hx : x<fcp.size) : (fcp.sectorAt x).secno<fcp.nsec := by
  rw [fcp.sectorAt_layout ⟨x,hx⟩,←fcp.length_layout]
  exact (fcp.layout.index ⟨x,hx⟩).isLt

theorem secno_mono {y : ℕ} (hxy : x≤y) (hy : y<fcp.size) :
    (fcp.sectorAt x).secno≤(fcp.sectorAt y).secno := by
  rw [fcp.sectorAt_layout ⟨x,hxy.trans_lt hy⟩,fcp.sectorAt_layout ⟨y,hy⟩]
  exact index_mono fcp.layout hxy

def start (k : ℕ) : ℕ := fcp.layout.sizeUpTo k

theorem start_lt {k : ℕ} (hk : k<fcp.nsec) : fcp.start k<fcp.size :=
  sizeUpTo_lt fcp.layout (fcp.length_layout ▸ hk)

theorem start_zero : fcp.start 0=0 := fcp.layout.sizeUpTo_zero

theorem start_nsec : fcp.start fcp.nsec=fcp.size := by
  rw [start,←fcp.length_layout,Composition.sizeUpTo_length]

theorem sectorAt_start {k : ℕ} (hk : k<fcp.nsec) :
    fcp.sectorAt (fcp.start k)=⟨k,fcp.start k,fcp.start (k+1)-fcp.start k⟩ := by
  have hlen := fcp.length_layout ▸ hk
  have hindex : fcp.layout.index ⟨fcp.start k,fcp.start_lt hk⟩=⟨k,hlen⟩ :=
    Fin.ext (index_sizeUpTo fcp.layout hlen _)
  have hsucc := fcp.layout.sizeUpTo_succ' ⟨k,hlen⟩
  have h := fcp.sectorAt_layout ⟨fcp.start k,fcp.start_lt hk⟩
  rw [hindex] at h
  rw [h,start,start,hsucc,Nat.add_sub_cancel_left]

theorem start_strictMono {k : ℕ} (hk : k<fcp.nsec) : fcp.start k<fcp.start (k+1) :=
  fcp.layout.sizeUpTo_strict_mono (fcp.length_layout ▸ hk)

theorem start_mono : Monotone fcp.start := fcp.layout.monotone_sizeUpTo

theorem sectorAt_secno (hx : x<fcp.size) :
    (fcp.sectorAt x).soffs=fcp.start (fcp.sectorAt x).secno ∧
      (fcp.sectorAt x).soffs+(fcp.sectorAt x).ssize=fcp.start ((fcp.sectorAt x).secno+1) := by
  rw [fcp.sectorAt_layout ⟨x,hx⟩]
  exact ⟨rfl,(fcp.layout.sizeUpTo_succ' _).symm⟩

theorem secno_next (hx : x<fcp.size)
    (he : (fcp.sectorAt x).soffs+(fcp.sectorAt x).ssize<fcp.size) :
    (fcp.sectorAt ((fcp.sectorAt x).soffs+(fcp.sectorAt x).ssize)).secno =
      (fcp.sectorAt x).secno+1 := by
  have hend := (fcp.sectorAt_secno hx).2
  have hlt : (fcp.sectorAt x).secno+1<fcp.nsec := by
    by_contra hge
    have hmono := fcp.start_mono (not_lt.mp hge)
    rw [fcp.start_nsec] at hmono
    omega
  rw [hend,fcp.sectorAt_start hlt]

theorem blocks_le {z : ℕ} (hz : z∈fcp.blocks) : z≤fcp.sector := by
  have hleft : fcp.leftover≤fcp.sector := Nat.sub_le _ _
  have hboot : fcp.boot ≠ .fbNone → z∈fcp.bootSizes → z≤fcp.sector := fun hne hz =>
    (le_sum_of_mem hz).trans (fcp.bootSizes_fit hne).le
  rw [blocks] at hz
  split at hz
  · exact (eq_of_mem_replicate hz).le
  · rename_i htop
    simp only [mem_append,mem_cons,mem_reverse,mem_replicate] at hz
    rcases hz with ⟨-,rfl⟩ | rfl | hz
    · exact le_rfl
    · exact hleft
    · exact hboot (by simp [htop]) hz
  · rename_i hbot
    simp only [mem_append,mem_singleton,mem_replicate] at hz
    rcases hz with (hz | rfl) | ⟨-,rfl⟩
    · exact hboot (by simp [hbot]) hz
    · exact hleft
    · exact le_rfl

theorem start_le (k : ℕ) : fcp.start k≤k*fcp.sector := by
  have h := sum_le_card_nsmul (fcp.blocks.take k) fcp.sector fun z hz =>
    fcp.blocks_le (mem_of_mem_take hz)
  rw [smul_eq_mul] at h
  exact h.trans (Nat.mul_le_mul_right _ (length_take_le _ _))

theorem size_le_start {k : ℕ} : fcp.size≤fcp.start k+(fcp.nsec-k)*fcp.sector := by
  have h := sum_le_card_nsmul (fcp.blocks.drop k) fcp.sector fun z hz =>
    fcp.blocks_le (mem_of_mem_drop hz)
  rw [smul_eq_mul,length_drop,fcp.length_blocks] at h
  have hsum := sum_take_add_sum_drop fcp.blocks k
  rw [fcp.blocks_sum] at hsum
  calc fcp.size=fcp.start k+(fcp.blocks.drop k).sum := hsum.symm
    _≤fcp.start k+(fcp.nsec-k)*fcp.sector := Nat.add_le_add_left h _

theorem nsec_le : fcp.nsec≤fcp.uniform+7 := by
  rw [nsec,uniform]
  apply Nat.add_le_add_left
  rw [bootsecs]
  split
  · exact Nat.zero_le _
  · split <;> simp

theorem div_le_secno (hx : x<fcp.size) : x/fcp.sector≤(fcp.sectorAt x).secno ∧
      (fcp.sectorAt x).secno≤x/fcp.sector+7 := by
  obtain ⟨hsoffs,hend⟩ := fcp.sectorAt_secno hx
  have hloc := fcp.sectorAt_lines hx
  have hle := hloc.le
  have hlt := hloc.lt
  have hsec := fcp.secno_lt hx
  have hnsec := fcp.nsec_le
  generalize (fcp.sectorAt x).secno=k at *
  constructor
  · have hup := fcp.start_le (k+1)
    have hdiv : x/fcp.sector<k+1 := (Nat.div_lt_iff_lt_mul fcp.sector_pos).mpr (by omega)
    omega
  · -- the sectors from this one on fill the rest of the device
    have hrest := fcp.size_le_start (k := k)
    have hdown : (fcp.uniform-(fcp.nsec-k))*fcp.sector≤x := by
      rw [Nat.sub_mul,fcp.uniform_mul_sector]
      omega
    have hdiv := (Nat.le_div_iff_mul_le fcp.sector_pos).mpr hdown
    omega

end Geometry
section
variable (fcp : Geometry) (chip : Chip)

theorem findsector_outside (h : ¬ x<fcp.size) : findsector fcp x=none := by
  have hbank : x/fcp.banksize≥1 := (Nat.one_le_div_iff fcp.size_pos).mpr (not_lt.mp h)
  simp [findsector,foffs2addr,hbank]

theorem probeLoop_round {soffs : ℕ} (h : soffs<fcp.size) (fuel : ℕ) (prot : Bool) (t : ℕ) :
    ∃ entry prot' t', probeLoop fcp chip (fuel+1) soffs prot t =
      (entry::(probeLoop fcp chip fuel (soffs+(fcp.sectorAt soffs).ssize) prot' t').1,
        (probeLoop fcp chip fuel (soffs+(fcp.sectorAt soffs).ssize) prot' t').2) := by
  simp only [probeLoop,if_pos h,fcp.findsector_sectorAt h,Option.map_some,Option.getD_some]
  split
  · exact ⟨_,_,_,rfl⟩
  · split
    · exact ⟨_,_,_,rfl⟩
    · exact ⟨_,_,_,rfl⟩

theorem length_probeLoop (fuel : ℕ) {k : ℕ} (hk : k≤fcp.nsec) (prot : Bool) (t : ℕ) :
    (probeLoop fcp chip fuel (fcp.start k) prot t).1.length = min fuel (fcp.nsec-k) := by
  induction fuel generalizing k prot t with
  | zero => simp [probeLoop]
  | succ fuel ih =>
    by_cases hlast : k=fcp.nsec
    · subst hlast
      have hend : ¬ fcp.start fcp.nsec<fcp.size := by
        rw [fcp.start_nsec]
        exact lt_irrefl _
      simp [probeLoop,hend]
    · have hlt : k<fcp.nsec := by omega
      obtain ⟨entry,prot',t',hround⟩ := probeLoop_round fcp chip (fcp.start_lt hlt) fuel prot t
      have hnext : fcp.start k+(fcp.sectorAt (fcp.start k)).ssize=fcp.start (k+1) := by
        rw [fcp.sectorAt_start hlt]
        exact Nat.add_sub_cancel' (fcp.start_strictMono hlt).le
      rw [hround,hnext,length_cons,ih hlt]
      omega

structure Planned (new : List ℕ) (s s' : Flash) : Prop where
  cells : s'.cells=s.cells
  freed : s'.freed=s.freed
  tiny : s'.tiny=s.tiny
  allocated : s'.allocated=s.allocated++new
  tick_le : s.tick ≤ s'.tick
  fresh : ∀ b∈new, s.tick≤b ∧ b<s'.tick
  nodup : new.Nodup

theorem Planned.idle {s s' : Flash} (hcells : s'.cells=s.cells) (hfreed : s'.freed=s.freed)
    (htiny : s'.tiny=s.tiny) (hallocated : s'.allocated=s.allocated)
    (htick : s.tick ≤ s'.tick) : Planned [] s s' :=
  ⟨hcells,hfreed,htiny,by simp [hallocated],htick,by simp,nodup_nil⟩

theorem Planned.trans {new new' : List ℕ} {s s' s'' : Flash} (h : Planned new s s')
    (h' : Planned new' s' s'') : Planned (new++new') s s'' where
  cells := h'.cells.trans h.cells
  freed := h'.freed.trans h.freed
  tiny := h'.tiny.trans h.tiny
  allocated := by rw [h'.allocated,h.allocated,append_assoc]
  tick_le := h.tick_le.trans h'.tick_le
  fresh b hb := by
    rcases mem_append.mp hb with hb | hb
    · exact ⟨(h.fresh b hb).1,(h.fresh b hb).2.trans_le h'.tick_le⟩
    · exact ⟨h.tick_le.trans (h'.fresh b hb).1,(h'.fresh b hb).2⟩
  nodup := by
    refine nodup_append.mpr ⟨h.nodup,h'.nodup,?_⟩
    intro a ha b hb hab
    -- a later buffer is named by a later event
    have hlt := (h.fresh a ha).2
    have hle := (h'.fresh b hb).1
    omega

theorem le_probeLoop_tick (fuel soffs : ℕ) (prot : Bool) (t : ℕ) :
    t≤(probeLoop fcp chip fuel soffs prot t).2 := by
  induction fuel generalizing soffs prot t with
  | zero => exact le_rfl
  | succ fuel ih =>
    simp only [probeLoop]
    split
    · split
      · exact ih _ _ _
      · split
        · exact ih _ _ _
        · exact (Nat.le_add_right t _).trans (ih _ _ _)
    · exact le_rfl

theorem sectorinfo_sector {s : Flash} {o : ℕ} (ho : o<fcp.size) :
    ∃ prot s', sectorinfo fcp chip s o =
      (prot,(fcp.sectorAt o).soffs,(fcp.sectorAt o).ssize,s') ∧ Planned [] s s' := by
  rw [sectorinfo,fcp.findsector_sectorAt ho]
  simp only
  split
  · exact ⟨_,_,rfl,Planned.idle rfl rfl rfl rfl le_rfl⟩
  · split
    · exact ⟨_,_,rfl,Planned.idle rfl rfl rfl rfl
        ((Nat.le_succ _).trans (le_probeLoop_tick fcp chip _ _ _ _))⟩
    · exact ⟨_,_,rfl,Planned.idle rfl rfl rfl rfl (Nat.le_succ _)⟩

inductive PlanRound (o nb : ℕ) (s : Flash)
    (rest : ℕ → Flash → DevCode × List Fromvec × Flash) :
    DevCode × List Fromvec × Flash → Prop
  | stop {ret : DevCode} {s' : Flash}
      (hret : ret = .devProtected ∨ ret = .devPartial ∨ ret = .noMem)
      (hplanned : Planned [] s s') : PlanRound o nb s rest (ret,[],s')
  | entry {v : Fromvec} {n : ℕ} {s' : Flash} (ho : o<fcp.size)
      (hn : n = min ((fcp.sectorAt o).ssize-(o-(fcp.sectorAt o).soffs)) nb)
      (hrange : (v.offs=o ∧ v.nb=n) ∨
        (v.offs=(fcp.sectorAt o).soffs ∧ v.nb=(fcp.sectorAt o).ssize))
      (hplanned : Planned v.scratch.toList s s') :
      PlanRound o nb s rest ((rest n s').1,v::(rest n s').2.1,(rest n s').2.2)

theorem planLoop_round (flags : Flags) (fuel o : ℕ) {nb : ℕ} (hnb : nb≠0)
    (mem : List UInt8) (s : Flash) :
    PlanRound fcp o nb s (fun n => planLoop fcp chip flags fuel (o+n) (nb-n) (mem.drop n))
      (planLoop fcp chip flags (fuel+1) o nb mem s) := by
  by_cases ho : o<fcp.size
  · obtain ⟨prot,s₁,hinfo,hlooked⟩ := sectorinfo_sector fcp chip (s := s) ho
    rw [planLoop,if_neg hnb,hinfo]
    dsimp only
    split
    · exact .stop (.inl rfl) hlooked
    · split
      · -- a partial sector needs erasing
        split
        · exact .stop (.inr (.inl rfl)) hlooked
        · split
          · exact .stop (.inr (.inr rfl))
              (hlooked.trans (Planned.idle rfl rfl rfl rfl (Nat.le_succ _)))
          · refine .entry ho rfl (.inr ⟨rfl,rfl⟩)
              (hlooked.trans ⟨rfl,rfl,rfl,rfl,Nat.le_succ _,?_,?_⟩)
            · intro b hb
              rw [mem_singleton.mp hb]
              exact ⟨le_rfl,Nat.lt_succ_self _⟩
            · exact nodup_singleton _
      · exact .entry ho rfl (.inl ⟨rfl,rfl⟩) hlooked
  · -- outside the device every offset counts as protected
    rw [planLoop,if_neg hnb,sectorinfo,findsector_outside fcp ho]
    exact .stop (.inl rfl) (Planned.idle rfl rfl rfl rfl le_rfl)

theorem planLoop_zero (flags : Flags) (fuel o : ℕ) (mem : List UInt8) (s : Flash) :
    planLoop fcp chip flags fuel o 0 mem s=(.ok,[],s) := by
  cases fuel <;> simp [planLoop]

def assertions (r : DevCode × List Fromvec × Flash) : ℕ := r.2.1.length + if r.1 = .ok then 0 else 1

theorem assertions_of_ne {r : DevCode × List Fromvec × Flash} (h : r.1 ≠ .ok) :
    assertions r=r.2.1.length+1 := by
  rw [assertions,if_neg h]

theorem planLoop_assertions (flags : Flags) (fuel : ℕ) {o nb : ℕ} (hnb : 0<nb)
    (hend : o+nb≤fcp.size) (mem : List UInt8) (s : Flash) :
    (fcp.sectorAt o).secno+assertions (planLoop fcp chip flags fuel o nb mem s) ≤
      (fcp.sectorAt (o+nb-1)).secno+1 := by
  have hmono := fcp.secno_mono (x := o) (y := o+nb-1) (by omega) (by omega)
  induction fuel generalizing o nb mem s with
  | zero =>
    have hne : nb≠0 := by omega
    simp only [planLoop,assertions,if_neg hne]
    simp
    omega
  | succ fuel ih =>
    have ho : o<fcp.size := by omega
    have hround := planLoop_round fcp chip flags fuel o (by omega : nb≠0) mem s
    generalize planLoop fcp chip flags (fuel+1) o nb mem s=r at hround ⊢
    cases hround with
    | stop hret _ =>
      rw [assertions_of_ne (by rcases hret with rfl | rfl | rfl <;> simp)]
      simp only [length_nil]
      omega
    | @entry v n s' _ hn _ _ =>
      have hloc := fcp.sectorAt_lines ho
      have hle := hloc.le
      have hlt := hloc.lt
      have hadd : ∀ q : DevCode × List Fromvec × Flash,
          assertions (q.1,v::q.2.1,q.2.2)=assertions q+1 := fun q => by
        simp only [assertions,length_cons]
        omega
      rw [hadd]
      by_cases hdone : nb≤n
      · rw [Nat.sub_eq_zero_of_le hdone,planLoop_zero]
        simp only [assertions,length_nil,if_true]
        omega
      · -- the request goes on in the next sector
        have hend' : (fcp.sectorAt o).soffs+(fcp.sectorAt o).ssize=o+n := by omega
        have hnext := fcp.secno_next ho (by omega)
        rw [hend'] at hnext
        have hlast : o+n+(nb-n)-1=o+nb-1 := by omega
        have hmono' := fcp.secno_mono (x := o+n) (y := o+n+(nb-n)-1) (by omega)
          (by omega)
        have hrest := ih (by omega) (by omega) (mem.drop n) s' hmono'
        rw [hlast,hnext] at hrest
        omega

def nvec (offs nbytes : ℕ) : ℕ :=
  (nbytes+offs%fcp.sector+fcp.sector-1)%2^32/fcp.sector+7

theorem secno_lt_nvec {offs nbytes : ℕ} (hnb : 0<nbytes) (hend : offs+nbytes≤fcp.size) :
    (fcp.sectorAt (offs+nbytes-1)).secno+1 ≤
      (fcp.sectorAt offs).secno+nvec fcp offs nbytes := by
  have hz := fcp.sector_pos
  have hlow := (fcp.div_le_secno (x := offs) (by omega)).1
  have hhigh := (fcp.div_le_secno (x := offs+nbytes-1) (by omega)).2
  have hmodle : offs%fcp.sector≤offs := Nat.mod_le _ _
  have hsector := fcp.sector_le_size
  have hsize := fcp.size_le
  have hnowrap : (nbytes+offs%fcp.sector+fcp.sector-1)%2^32 =
      nbytes+offs%fcp.sector+fcp.sector-1 := Nat.mod_eq_of_lt (by omega)
  have hsplit := Nat.div_add_mod' offs fcp.sector
  -- counted from the sector of `offs`, the last byte is in one of the spanned sectors
  have hspan : (offs+nbytes-1)/fcp.sector+1 =
      offs/fcp.sector+(nbytes+offs%fcp.sector+fcp.sector-1)/fcp.sector := by
    rw [←Nat.add_div_right _ hz,Nat.add_comm (offs/fcp.sector),←Nat.add_mul_div_right _ _ hz]
    congr 1
    omega
  rw [nvec,hnowrap]
  omega

structure SectorMap : Prop where
  found : ∀ x<fcp.size, ∃ sec, findsector fcp x=some sec ∧ sec.soffs≤x ∧
    x<sec.soffs+sec.ssize ∧ sec.soffs+sec.ssize≤fcp.size
  same : ∀ x<fcp.size, ∀ sec, findsector fcp x=some sec → ∀ y, sec.soffs≤y →
    y<sec.soffs+sec.ssize → findsector fcp y=some sec
  numbers : ∀ k, k<fcp.nsec ↔ ∃ x<fcp.size, ∃ sec, findsector fcp x=some sec ∧ sec.secno=k
  ordered : ∀ x<fcp.size, ∀ y<fcp.size, ∀ sec sec', findsector fcp x=some sec →
    findsector fcp y=some sec' → (sec.secno=sec'.secno ∧ sec=sec') ∨
        (sec.secno<sec'.secno ∧ sec.soffs+sec.ssize ≤ sec'.soffs) ∨
        (sec'.secno<sec.secno ∧ sec'.soffs+sec'.ssize ≤ sec.soffs)

/-- The assertions of `sectorinfo` and `fromprogramaligned`; fuel and length count the rounds. -/
structure AssertionsHold : Prop where
  index_lt : ∀ chip t i, (probeLoop fcp chip (i+1) 0 false t).1.length=i+1 → i<fcp.nsec
  index_eq : ∀ chip t fuel, (probeLoop fcp chip fuel 0 false t).1.length<fuel →
    (probeLoop fcp chip fuel 0 false t).1.length=fcp.nsec
  ends : ∀ chip t, ∃ fuel, (probeLoop fcp chip fuel 0 false t).1.length<fuel
  secno_lt : ∀ offs sec, findsector fcp offs=some sec → sec.secno<fcp.nsec
  entry_lt : ∀ chip flags offs nbytes buf s, fcp.board.linesz ∣ offs →
    fcp.board.linesz ∣ nbytes → offs+nbytes≤fcp.size →
      assertions (planLoop fcp chip flags nbytes offs nbytes buf s)≤nvec fcp offs nbytes

theorem findsector_some {sec : Sector} (h : findsector fcp x=some sec) :
    x<fcp.size ∧ sec=fcp.sectorAt x := by
  have hx : x<fcp.size := by
    by_contra hge
    simp [findsector_outside fcp hge] at h
  rw [fcp.findsector_sectorAt hx] at h
  exact ⟨hx,(Option.some.inj h).symm⟩

theorem sectorAt_inj {y : ℕ} (hx : x<fcp.size) (hy : y<fcp.size)
    (h : (fcp.sectorAt x).secno=(fcp.sectorAt y).secno) : fcp.sectorAt x=fcp.sectorAt y := by
  obtain ⟨hxs,hxe⟩ := fcp.sectorAt_secno hx
  obtain ⟨hys,hye⟩ := fcp.sectorAt_secno hy
  rw [h] at hxs hxe
  rw [Sector.mk.injEq]
  exact ⟨h,by omega,by omega⟩

theorem sectorAt_below {y : ℕ} (hx : x<fcp.size) (hy : y<fcp.size)
    (h : (fcp.sectorAt x).secno<(fcp.sectorAt y).secno) :
    (fcp.sectorAt x).soffs+(fcp.sectorAt x).ssize≤(fcp.sectorAt y).soffs := by
  rw [(fcp.sectorAt_secno hx).2,(fcp.sectorAt_secno hy).1]
  exact fcp.start_mono h

theorem sectorMap : SectorMap fcp where
  found x hx := by
    have hloc := fcp.sectorAt_lines hx
    exact ⟨_,fcp.findsector_sectorAt hx,hloc.le,hloc.lt,hloc.high⟩
  same x hx sec hsec y hle hlt := by
    obtain ⟨-,rfl⟩ := findsector_some fcp hsec
    have hloc := fcp.sectorAt_lines hx
    rw [fcp.findsector_sectorAt (hlt.trans_le hloc.high),hloc.same y hle hlt]
  numbers k := by
    constructor
    · intro hk
      refine ⟨_,fcp.start_lt hk,_,fcp.findsector_sectorAt (fcp.start_lt hk),?_⟩
      rw [fcp.sectorAt_start hk]
    · rintro ⟨x,hx,sec,hsec,rfl⟩
      obtain ⟨-,rfl⟩ := findsector_some fcp hsec
      exact fcp.secno_lt hx
  ordered x hx y hy sec sec' hsec hsec' := by
    obtain ⟨-,rfl⟩ := findsector_some fcp hsec
    obtain ⟨-,rfl⟩ := findsector_some fcp hsec'
    rcases Nat.lt_trichotomy (fcp.sectorAt x).secno (fcp.sectorAt y).secno with h | h | h
    · exact .inr (.inl ⟨h,sectorAt_below fcp hx hy h⟩)
    · exact .inl ⟨h,sectorAt_inj fcp hx hy h⟩
    · exact .inr (.inr ⟨h,sectorAt_below fcp hy hx h⟩)

theorem length_probeLoop_zero (fuel t : ℕ) :
    (probeLoop fcp chip fuel 0 false t).1.length = min fuel fcp.nsec := by
  have h := length_probeLoop fcp chip fuel (Nat.zero_le _) false t
  rw [fcp.start_zero,Nat.sub_zero] at h
  exact h

/-- `findsector` divides every device into numbered sectors, and no assertion about that fails. -/
theorem findsector_divides : SectorMap fcp ∧ AssertionsHold fcp := by
  refine ⟨sectorMap fcp,?_,?_,?_,?_,?_⟩
  · intro chip t i h
    rw [length_probeLoop_zero] at h
    omega
  · intro chip t fuel h
    rw [length_probeLoop_zero] at h ⊢
    omega
  · intro chip t
    refine ⟨fcp.nsec+1,?_⟩
    rw [length_probeLoop_zero]
    omega
  · intro offs sec hsec
    obtain ⟨hlt,rfl⟩ := findsector_some fcp hsec
    exact fcp.secno_lt hlt
  · intro chip flags offs nbytes buf s _ _ hend
    rcases Nat.eq_zero_or_pos nbytes with rfl | hpos
    · rw [planLoop_zero]
      exact Nat.zero_le _
    · have hmet := planLoop_assertions fcp chip flags nbytes hpos hend buf s
      have hroom := secno_lt_nvec fcp hpos hend
      omega
end
end Pmon.FlashRom
