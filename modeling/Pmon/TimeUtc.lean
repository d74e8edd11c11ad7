import Mathlib.Data.List.GetD
import Pmon.TimeLocal

/-!
# Universal time there and back

`gmtime` finds year and month by loops that `gmmktime` undoes with sums.
-/

namespace Pmon.Time
open Calendar List
open Tftp (int32 int32_eq)

def gmtime (clock : ℤ) : Tm := offtime clock 0

structure Tm.Valid (tm : Tm) : Prop where
  sec : 0≤tm.sec ∧ tm.sec<60
  min : 0 ≤ tm.min ∧ tm.min<60
  hour : 0≤tm.hour ∧ tm.hour<24
  mon : 0≤tm.mon ∧ tm.mon<12
  mday : 1≤tm.mday ∧ tm.mday≤(monthLengths (tm.year+1900)).getD tm.mon.toNat 0
  year : 70≤tm.year ∧ tm.year≤137

variable {y d s : ℤ} {k : ℕ}

theorem year_unique {y' d' : ℤ} (hd : 0≤d ∧ d<yearLength y) (hd' : 0≤d' ∧ d'<yearLength y')
    (h : daysBefore y'+d'=daysBefore y+d) : y'=y := by
  have hsucc := daysBefore_succ y
  have hsucc' := daysBefore_succ y'
  rcases Int.lt_trichotomy y' y with hlt | heq | hgt
  · have := daysBefore_mono (show y'+1≤y by omega)
    omega
  · exact heq
  · have := daysBefore_mono (show y+1≤y' by omega)
    omega

theorem monthLoop_take (ip : List ℤ) (mon : ℤ) (hpos : ∀ len∈ip, 0≤len) (hd0 : 0≤d)
    (hd : d < ip.getD k 0) : monthLoop ip mon ((ip.take k).sum+d)=(mon+k,d) := by
  induction ip generalizing mon k with
  | nil => simp at hd; omega
  | cons len ip ih =>
    cases k with
    | zero =>
      rw [getD_cons_zero] at hd
      simp [monthLoop,hd]
    | succ k =>
      rw [getD_cons_succ] at hd
      have htail : ∀ l∈ip, 0≤l := fun l hl => hpos l (mem_cons_of_mem _ hl)
      have hsum : 0≤(ip.take k).sum := sum_nonneg fun l hl => htail l (mem_of_mem_take hl)
      rw [monthLoop,take_succ_cons,sum_cons,if_pos (by omega),
        show len+(ip.take k).sum+d-len=(ip.take k).sum+d by ring,ih _ htail hd]
      push_cast
      rw [add_assoc,add_comm (1 : ℤ)]

theorem monthLengths_nonneg (y : ℤ) : ∀ len∈monthLengths y, 0≤len := by
  intro len hlen
  unfold monthLengths at hlen
  split at hlen <;> simp at hlen <;> omega

theorem daysToMonth_lt (hk : k<12) (hd : d<(monthLengths y).getD k 0) :
    0≤daysToMonth y k ∧ daysToMonth y k+d<yearLength y := by
  rw [←sum_monthLengths]
  unfold daysToMonth monthLengths at *
  interval_cases k <;> split at hd <;> simp_all <;> omega

theorem gmtime_of_day (hy : 1970≤y) (hk : k<12) (hd0 : 0≤d)
    (hd : d<(monthLengths y).getD k 0) (hs : 0 ≤ s ∧ s<86400) :
    let tm := gmtime (86400*(daysBefore y+(daysToMonth y k+d))+s)
    tm.year=y-1900 ∧ tm.mon=k ∧ tm.mday=d+1 ∧ tm.hour=s/3600 ∧
      tm.min=s%3600/60 ∧ tm.sec=s%3600%60 := by
  have hepoch := daysBefore_mono hy
  rw [daysBefore_epoch] at hepoch
  obtain ⟨hmonth,hyday⟩ := daysToMonth_lt hk hd
  have hsecs := Int.emod_nonneg s (show (3600 : ℤ)≠0 by norm_num)
  generalize hdays : daysBefore y+(daysToMonth y k+d)=days
  have hclock : 0≤86400*days+s := by omega
  have hdiv : (86400*days+s).tdiv 86400=days := by
    rw [Int.tdiv_eq_ediv_of_nonneg hclock]
    omega
  have hmod : (86400*days+s).tmod 86400=s := by
    rw [Int.tmod_eq_emod_of_nonneg hclock]
    omega
  obtain ⟨hsum,hrange⟩ := yearUp_spec (days.natAbs+1) 1970 (by omega : 0≤days) (by omega)
  rw [daysBefore_epoch,zero_add,←hdays] at hsum
  have hyear := year_unique ⟨by omega,hyday⟩ hrange (hdays ▸ hsum)
  rw [hdays] at hsum
  rw [hyear] at hsum
  have hup : yearUp (days.natAbs+1) 1970 days=(y,daysToMonth y k+d) :=
    Prod.ext hyear (by dsimp only; omega)
  simp only [gmtime,offtime,hdiv,hmod,add_zero,remUp,remDown,if_neg (not_lt.mpr hs.1),
    if_neg (not_le.mpr hs.2),ge_iff_le,if_pos (by omega : 0≤days),hup,monLengths_isleap,
    daysToMonth,monthLoop_take _ _ (monthLengths_nonneg y) hd0 hd,zero_add,
    Int.tmod_eq_emod_of_nonneg hs.1,Int.tdiv_eq_ediv_of_nonneg hs.1,
    Int.tmod_eq_emod_of_nonneg hsecs,Int.tdiv_eq_ediv_of_nonneg hsecs,and_self]

theorem Tm.Valid.not_refused {tm : Tm} (h : tm.Valid) : tm.refused=false := by
  have hsec := h.sec
  have hmin := h.min
  have hhour := h.hour
  have hmon := h.mon
  have hyear := h.year
  have hmday : tm.mday≤31 := h.mday.2.trans (by
    rw [getD_eq_getElem _ _ (by simp [monthLengths]; omega)]
    exact monthLengths_le _ _ (getElem_mem _))
  simp only [Tm.refused,Bool.or_eq_false_iff,decide_eq_false_iff_not]
  omega

theorem gmmktime_gmtime_nonneg {t : ℤ} (h0 : 0≤t) (h1 : t<2^31) : gmmktime (gmtime t)=t := by
  have hbroken := offtime_broken t 0
  rw [add_zero] at hbroken
  rw [gmmktime,gmtime,hbroken.not_refused h0,if_neg Bool.false_ne_true,
    secs_eq (hbroken.year h0),hbroken.seconds]
  exact int32_eq (by omega) h1

/-- `gmmktime` and `gmtime` are inverse to each other. -/
theorem gmmktime_gmtime :
    (∀ t : ℤ, 0≤t → t<2^31 → gmmktime (gmtime t)=t) ∧ ∀ tm : Tm, tm.Valid →
        let r := gmtime (gmmktime tm)
        r.year=tm.year ∧ r.mon=tm.mon ∧ r.mday=tm.mday ∧ r.hour=tm.hour ∧
          r.min = tm.min ∧ r.sec=tm.sec := by
  constructor
  · exact fun t h0 h1 => gmmktime_gmtime_nonneg h0 h1
  · intro tm h
    have hsec := h.sec
    have hmin := h.min
    have hhour := h.hour
    have hmon := h.mon
    have hyear := h.year
    have hday := daysToMonth_lt (y := tm.year+1900) (k := tm.mon.toNat) (d := tm.mday-1)
      (by omega) (by have := h.mday; omega)
    have hfirst := daysBefore_mono (show 1970≤tm.year+1900 by omega)
    have hlast := daysBefore_mono (show tm.year+1900+1≤2038 by omega)
    rw [daysBefore_epoch] at hfirst
    rw [daysBefore_succ, show daysBefore 2038=24837 by decide] at hlast
    have hseconds : tm.seconds=86400*(daysBefore (tm.year+1900) +
        (daysToMonth (tm.year+1900) tm.mon.toNat+(tm.mday-1))) +
        (tm.hour*3600 + tm.min*60+tm.sec) := by
      rw [Tm.seconds,dayNumber]
      ring
    have hmday := h.mday
    rw [gmmktime,h.not_refused,if_neg Bool.false_ne_true,secs_eq hyear.1,hseconds,
      int32_eq (by omega) (by omega)]
    obtain ⟨hy,hm,hd,hh,hmi,hs⟩ := gmtime_of_day (y := tm.year+1900) (k := tm.mon.toNat)
      (d := tm.mday-1) (s := tm.hour*3600 + tm.min*60+tm.sec) (by omega) (by omega)
      (by omega) (by omega) (by omega)
    dsimp only
    rw [hy,hm,hd,hh,hmi,hs]
    omega

theorem gmmktime_gmtime_leap : gmmktime (gmtime 951782400)=951782400 :=
  gmmktime_gmtime.1 951782400 (by decide) (by decide)

end Pmon.Time
