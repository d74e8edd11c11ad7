import Pmon.TimeUtc

/-!
# Daylight saving time

`localtime` reads the rules of both switches as universal time, while they are given in local time.
-/

namespace Pmon.Time
open Calendar
open Tftp (int32 int32_eq)

inductive Rule.Falls (y : ℤ) (r : Rule) : ℤ → Prop
  | julian (htype : r.type = .julianDay) (hday : 1≤r.day ∧ r.day≤365) :
    Falls y r (if isLeap y ∧ 60≤r.day then r.day else r.day-1)
  | day (htype : r.type = .dayOfYear) (hday : 0≤r.day ∧ r.day≤365) : Falls y r r.day
  | week {d : ℤ} (htype : r.type = .monthNthDayOfWeek) (hmon : 1≤r.mon ∧ r.mon≤12)
    (hday : 0≤r.day ∧ r.day≤6) (hd : 0≤d ∧ d<(monthLengths y).getD (r.mon-1).toNat 0)
    (hwday : (4+daysBefore y+daysToMonth y (r.mon-1).toNat+d)%7=r.day)
    (hweek : 1≤r.week ∧ r.week≤4 ∧ 7*(r.week-1)≤d ∧ d<7*r.week ∨
      r.week=5 ∧ (monthLengths y).getD (r.mon-1).toNat 0≤d+7) :
    Falls y r (daysToMonth y (r.mon-1).toNat+d)

def Rule.Switch (y : ℤ) (r : Rule) (off s : ℤ) : Prop :=
  0≤r.time ∧ r.time<90000 ∧ ∃ d, r.Falls y d ∧ s=86400*(daysBefore y+d)+r.time+off

def Daylight (s e t : ℤ) : Prop := if s<e then s≤t ∧ t<e else ¬(e≤t ∧ t<s)

variable {y t s e : ℤ} {r : Rule}

theorem yearStart_eq (n : ℕ) (y₀ : ℤ) (hy : y₀≤y) (hn : y-y₀<n)
    (h0 : 86400*daysBefore y≤t) (h1 : t<86400*daysBefore (y+1)) :
    yearStart n y₀ (t-86400*daysBefore y₀) (86400*daysBefore y₀) =
      (y,86400*daysBefore y) := by
  induction n generalizing y₀ with
  | zero => omega
  | succ n ih =>
    have hsucc := daysBefore_succ y₀
    rw [yearStart,yearLengths_isleap]
    rcases hy.lt_or_eq with hlt | rfl
    · have hmono := daysBefore_mono (show y₀+1≤y by omega)
      have hrest := ih (y₀+1) hlt (by push_cast at hn; omega)
      rw [hsucc,mul_add,←sub_sub] at hrest
      rw [if_pos (by omega),mul_comm (yearLength y₀),hrest]
    · rw [if_neg (by omega)]

theorem daysBefore_century (x : ℤ) :
    daysBefore (x+1)=365*(x-1969)+24*(x/100)+x%100/4+x/100/4-477 := by
  have hepoch : leapsBefore 1970=477 := by decide
  have hfour : x/4=25*(x/100)+x%100/4 := by omega
  have hcentury : x/400=x/100/4 := by omega
  rw [daysBefore,hepoch,leapsBefore,add_sub_cancel_right,hfour,hcentury]
  ring

theorem weekday_first {m : ℤ} (hy : 1970≤y) (hm : 1 ≤ m ∧ m≤12) :
    let yy0 := if m≤2 then y-1 else y
    let dow := ((26*((m+9).tmod 12+1)-2).tdiv 10+1+yy0.tmod 100 +
      (yy0.tmod 100).tdiv 4+(yy0.tdiv 100).tdiv 4-2*yy0.tdiv 100).tmod 7
    (if dow<0 then dow+7 else dow)=(4+daysBefore y+daysToMonth y (m-1).toNat)%7 := by
  have hneg : ∀ x : ℤ, (if x.tmod 7<0 then x.tmod 7+7 else x.tmod 7)=x%7 := fun x => by
    have := Int.tmod_add_mul_tdiv x 7
    have := Int.tmod_lt_of_pos x (show (0 : ℤ)<7 by norm_num)
    have := Int.lt_tmod_of_pos x (show (0 : ℤ)<7 by norm_num)
    split <;> omega
  have hyy : ∀ x : ℤ, 0≤x → x.tmod 100=x%100 ∧ (x%100).tdiv 4=x%100/4 ∧
      x.tdiv 100=x/100 ∧ (x/100).tdiv 4=x/100/4 := fun x hx =>
    ⟨Int.tmod_eq_emod_of_nonneg hx,Int.tdiv_eq_ediv_of_nonneg (by omega),
      Int.tdiv_eq_ediv_of_nonneg hx,Int.tdiv_eq_ediv_of_nonneg (by omega)⟩
  have hprev := daysBefore_century (y-1)
  have hnext := daysBefore_century y
  rw [sub_add_cancel] at hprev
  rw [daysBefore_succ,yearLength] at hnext
  dsimp only
  rw [hneg]
  obtain ⟨h1,h2⟩ := hm
  interval_cases m
  all_goals
    simp only [Int.reduceLE,if_true,if_false]
    obtain ⟨ha,hb,hc,hd⟩ := hyy y (by omega)
    obtain ⟨ha',hb',hc',hd'⟩ := hyy (y-1) (by omega)
    simp only [ha,hb,hc,hd,ha',hb',hc',hd',daysToMonth,monthLengths]
    by_cases h : isLeap y=true
    · rw [if_pos h] at hnext
      simp [h]
      omega
    · rw [if_neg h] at hnext
      simp [h]
      omega

theorem weekLoop_eq {len d d₀ : ℤ} (hlen : 28≤len ∧ len≤31) (hd₀ : 0≤d₀ ∧ d₀<7)
    (hd : 0≤d ∧ d<len) (hsame : d%7=d₀) {w : ℤ}
    (hw : 1≤w ∧ w≤4 ∧ 7*(w-1)≤d ∧ d<7*w ∨ w=5 ∧ len≤d+7) :
    weekLoop len (w-1).toNat d₀=d := by
  have hrange : 1≤w ∧ w≤5 := by omega
  obtain ⟨h1,h5⟩ := hrange
  interval_cases w
  all_goals
    simp only [Int.reduceSub,Int.reduceToNat,weekLoop]
    repeat' split
    all_goals omega

theorem Rule.Falls.ruleDay_eq {d : ℤ} (h : r.Falls y d) (hy : 1970≤y) : ruleDay y r=d := by
  cases h with
  | julian htype hday =>
    rw [ruleDay,htype]
    have hsame : isleap y=isLeap y := rfl
    simp only [hsame,ge_iff_le]
    split <;> omega
  | day htype hday => rw [ruleDay,htype]
  | @week d htype hmon hday hd hwday hweek =>
    rw [ruleDay,htype]
    have hfirst := weekday_first hy hmon
    have hlen : 28≤(monthLengths y).getD (r.mon-1).toNat 0 ∧
        (monthLengths y).getD (r.mon-1).toNat 0≤31 := by
      obtain ⟨h1,h12⟩ := hmon
      generalize r.mon=m at h1 h12
      unfold monthLengths
      interval_cases m <;> split <;> simp
    dsimp only at hfirst ⊢
    rw [hfirst,monLengths_isleap,←daysToMonth]
    congr 1
    refine weekLoop_eq hlen ?_ hd ?_ hweek <;> split <;> omega

/-- The code finds a switch without its offset, in 32 bits. -/
theorem Rule.Switch.transtime_eq {off : ℤ} (h : r.Switch y off s) (hy : 1970≤y) :
    transtime (86400*daysBefore y) y r 0=int32 (s-off) := by
  obtain ⟨-,-,d,hfalls,rfl⟩ := h
  have htype : r.type ≠ .none := by cases hfalls <;> simp_all
  rw [transtime,if_neg htype,hfalls.ruleDay_eq hy]
  congr 1
  ring

/-- `t` lies between two readings of a switch. -/
def Between (x x' t : ℤ) : Prop := ¬(x≤t ↔ x'≤t)

theorem daylight_parity (s e t : ℤ) : Daylight s e t ↔ (s<e ↔ ¬(s≤t ↔ e≤t)) := by
  rw [Daylight]
  split_ifs with h
  · simp only [h,true_iff]
    omega
  · simp only [h,false_iff,not_not]
    omega

/-- Two readings of both switches agree at `t` when `t` lies between the readings of both or of
neither; when the readings differ in the order of the switches, when it lies between those of one. -/
theorem daylight_iff (s s' e e' t : ℤ) : (Daylight s' e' t ↔ Daylight s e t) ↔
    ((s<e ↔ s'<e') ↔ (Between s s' t ↔ Between e e' t)) := by
  rw [daylight_parity,daylight_parity,Between,Between]
  by_cases hse : s<e <;> by_cases hse' : s'<e' <;> by_cases hs : s≤t <;> by_cases hs' : s'≤t <;>
    by_cases he : e≤t <;> by_cases he' : e'≤t <;> simp [hse,hse',hs,hs',he,he']

theorem dstAt_eq_one_iff (tz : Tz) (hdst : tz.hasdst=true) (hy : 1970≤y)
    (h0 : 86400*daysBefore y≤t) (h1 : t<86400*daysBefore (y+1))
    (hs : tz.dststart.Switch y tz.stdoffset s) (he : tz.dstend.Switch y tz.dstoffset e) :
    dstAt tz t=1 ↔ Daylight (int32 (s-tz.stdoffset)) (int32 (e-tz.dstoffset)) t := by
  have hpos := daysBefore_mono hy
  rw [daysBefore_epoch] at hpos
  have hyears : y-1970<((t.natAbs+1 : ℕ) : ℤ) := by
    have hlong : 365*(y-1970)≤daysBefore y := by
      unfold daysBefore leapsBefore
      omega
    omega
  have hyear := yearStart_eq (t.natAbs+1) 1970 hy hyears h0 h1
  rw [daysBefore_epoch,mul_zero,sub_zero] at hyear
  have htype : tz.dststart.type ≠ .none := by
    obtain ⟨-,-,d,hfalls,-⟩ := hs
    cases hfalls <;> simp_all
  rw [dstAt,if_pos hdst,if_pos htype,hyear]
  dsimp only
  rw [hs.transtime_eq hy,he.transtime_eq hy,Daylight]
  split_ifs <;> simp_all

/-- `localtime` is right about daylight saving time exactly when `t` lies between the readings, as
local and as universal time, of both switches or of neither, or of one if they differ in the order
of the switches. -/
theorem localtime_isdst_iff (env : Option (List Char)) (z : Zone)
    (hdst : (tzset env z).tz.hasdst=true) (hy : 1970≤y)
    (h0 : 86400*daysBefore y≤t) (h1 : t<86400*daysBefore (y+1))
    (hs : (tzset env z).tz.dststart.Switch y (tzset env z).tz.stdoffset s)
    (he : (tzset env z).tz.dstend.Switch y (tzset env z).tz.dstoffset e) :
    ((localtime env z t).1.isdst=1 ↔ Daylight s e t) ↔
      ((s<e ↔ int32 (s-(tzset env z).tz.stdoffset) < int32 (e-(tzset env z).tz.dstoffset)) ↔
        (Between s (int32 (s-(tzset env z).tz.stdoffset)) t ↔
          Between e (int32 (e-(tzset env z).tz.dstoffset)) t)) := by
  rw [←daylight_iff,←dstAt_eq_one_iff _ hdst hy h0 h1 hs he]
  rfl

def met : Zone := tzset (some "MET-1MST-2,M3.5.0,M10.5.0/3".toList) Zone.init

theorem met_start : met.tz.dststart.Switch 2000 met.tz.stdoffset 954032400 := by
  refine ⟨by decide +kernel,by decide +kernel,85,?_,by decide +kernel⟩
  exact .week (d := 25) (by decide +kernel) (by decide +kernel) (by decide +kernel)
    (by decide +kernel) (by decide +kernel) (by decide +kernel)

theorem met_end : met.tz.dstend.Switch 2000 met.tz.dstoffset 972781200 := by
  refine ⟨by decide +kernel,by decide +kernel,302,?_,by decide +kernel⟩
  exact .week (d := 28) (by decide +kernel) (by decide +kernel) (by decide +kernel)
    (by decide +kernel) (by decide +kernel) (by decide +kernel)

theorem localtime_isdst_iff_summer :
    (localtime (some "MET-1MST-2,M3.5.0,M10.5.0/3".toList) Zone.init 960000000).1.isdst=1 :=
  ((localtime_isdst_iff _ _ (by decide +kernel) (y := 2000) (by decide) (by decide) (by decide)
    met_start met_end).mpr (by unfold Between; decide +kernel)).mpr (by rw [Daylight]; decide)

theorem localtime_isdst_late : met.tz.dststart.Switch 2000 met.tz.stdoffset 954032400 ∧
      met.tz.dstend.Switch 2000 met.tz.dstoffset 972781200 ∧
      Daylight 954032400 972781200 954034200 ∧
      (localtime (some "MET-1MST-2,M3.5.0,M10.5.0/3".toList) Zone.init 954034200).1.isdst=0 :=
  ⟨met_start,met_end, by rw [Daylight]; decide, by decide +kernel⟩

end Pmon.Time
