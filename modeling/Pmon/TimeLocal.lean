import Pmon.Calendar
import Pmon.Time

/-!
# Local time there and back

`mktime` takes the offset of the standard zone away once more instead of giving it back.
-/

namespace Pmon.Time
open Calendar
open Tftp (int32 int32_eq)
variable (n : ℕ) (y : ℤ)

theorem yearLengths_isleap : yearLengths (isleap y)=yearLength y := rfl

theorem monLengths_isleap : monLengths (isleap y)=monthLengths y := by
  have hsame : isleap y=isLeap y := rfl
  rw [hsame,monLengths,monthLengths]
  split <;> rfl

def Tm.seconds (tm : Tm) : ℤ :=
  86400*dayNumber (tm.year+1900) tm.mon.toNat tm.mday+tm.hour*3600 + tm.min*60+tm.sec

variable {tz : List Char} {tm : Tm} {z : Zone} {days off rem : ℤ}

theorem remUp_spec (days : ℤ) (h : -rem<n) :
    86400*(remUp n rem days).2+(remUp n rem days).1=86400*days+rem ∧
      0≤(remUp n rem days).1 := by
  induction n generalizing rem days with
  | zero => exact ⟨rfl,by simp only [remUp]; omega⟩
  | succ n ih =>
    rw [remUp]
    split
    · have hrest := ih (days-1) (by push_cast at h; omega : -(rem+86400)<n)
      omega
    · exact ⟨rfl,by omega⟩

theorem remDown_spec (days : ℤ) (hpos : 0≤rem) (h : rem<n) :
    86400*(remDown n rem days).2+(remDown n rem days).1=86400*days+rem ∧
      0≤(remDown n rem days).1 ∧ (remDown n rem days).1<86400 := by
  induction n generalizing rem days with
  | zero => omega
  | succ n ih =>
    rw [remDown]
    split
    · have hrest := ih (days+1) (by omega : 0≤rem-86400) (by push_cast at h; omega)
      omega
    · exact ⟨rfl,by omega,by omega⟩

theorem yearUp_spec (hpos : 0≤days) (h : days<n) :
    daysBefore (yearUp n y days).1+(yearUp n y days).2=daysBefore y+days ∧
      0≤(yearUp n y days).2 ∧ (yearUp n y days).2<yearLength (yearUp n y days).1 := by
  induction n generalizing y days with
  | zero => omega
  | succ n ih =>
    rw [yearUp,yearLengths_isleap]
    have hlen := yearLength_pos y
    split
    · exact ⟨rfl,hpos,by assumption⟩
    · have hrest := ih (y+1) (by omega : 0≤days-yearLength y) (by push_cast at h; omega)
      rw [daysBefore_succ] at hrest
      exact ⟨by omega,hrest.2⟩

theorem yearDown_spec (hneg : days<0) (h : -days<n) :
    daysBefore (yearDown n y days).1+(yearDown n y days).2=daysBefore y+days ∧
      0≤(yearDown n y days).2 ∧ (yearDown n y days).2<yearLength (yearDown n y days).1 := by
  induction n generalizing y days with
  | zero => omega
  | succ n ih =>
    rw [yearDown,yearLengths_isleap]
    have hlen := yearLength_pos (y-1)
    have hstep := daysBefore_succ (y-1)
    rw [sub_add_cancel] at hstep
    split
    · rename_i hmore
      have hrest := ih (y-1) hmore (by push_cast at h; omega)
      exact ⟨by omega,hrest.2⟩
    · dsimp only
      exact ⟨by omega,by omega,by omega⟩

theorem monthLoop_spec (ip : List ℤ) (mon : ℤ) (hpos : 0≤days) (h : days < ip.sum)
    (hmax : ∀ len∈ip, len≤31) : ∃ k < ip.length, (monthLoop ip mon days).1=mon+k ∧
      (ip.take k).sum+(monthLoop ip mon days).2=days ∧
      0≤(monthLoop ip mon days).2 ∧ (monthLoop ip mon days).2<31 := by
  induction ip generalizing mon days with
  | nil => simp at h; omega
  | cons len ip ih =>
    rw [monthLoop]
    rw [List.sum_cons] at h
    have hlen := hmax len List.mem_cons_self
    split
    · obtain ⟨k,hk,hmon,hsum,hlow,hhigh⟩ := ih (mon+1) (by omega : 0≤days-len)
        (by omega) fun l hl => hmax l (List.mem_cons_of_mem _ hl)
      refine ⟨k+1,Nat.succ_lt_succ hk,?_,?_,hlow,hhigh⟩
      · rw [hmon]
        push_cast
        ring
      · rw [List.take_succ_cons,List.sum_cons]
        omega
    · exact ⟨0,Nat.zero_lt_succ _,by simp,by simp,hpos,by simp only; omega⟩

theorem monthLengths_le : ∀ len∈monthLengths y, len≤31 := by
  intro len hlen
  unfold monthLengths at hlen
  split at hlen <;> simp at hlen <;> omega

structure Broken (total : ℤ) (tm : Tm) : Prop where
  seconds : tm.seconds=total
  sec : 0≤tm.sec ∧ tm.sec<60
  min : 0 ≤ tm.min ∧ tm.min<60
  hour : 0≤tm.hour ∧ tm.hour<24
  mday : 1≤tm.mday ∧ tm.mday≤31
  mon : 0≤tm.mon ∧ tm.mon<12
  year : 0≤total → 70≤tm.year
  isdst : tm.isdst=0

theorem timeOfDay (h0 : 0≤rem) (h1 : rem<86400) :
    rem.tdiv 3600*3600+(rem.tmod 3600).tdiv 60*60+(rem.tmod 3600).tmod 60=rem ∧
      (0≤(rem.tmod 3600).tmod 60 ∧ (rem.tmod 3600).tmod 60<60) ∧
      (0≤(rem.tmod 3600).tdiv 60 ∧ (rem.tmod 3600).tdiv 60<60) ∧
      (0≤rem.tdiv 3600 ∧ rem.tdiv 3600<24) := by
  rw [Int.tmod_eq_emod_of_nonneg h0,Int.tdiv_eq_ediv_of_nonneg h0]
  have hmod : 0≤rem%3600 := Int.emod_nonneg _ (by norm_num)
  rw [Int.tmod_eq_emod_of_nonneg hmod,Int.tdiv_eq_ediv_of_nonneg hmod]
  omega

theorem yearLoop_spec (days : ℤ) (r : ℤ × ℤ)
    (hr : (if days≥0 then yearUp (days.natAbs+1) 1970 days
      else yearDown (days.natAbs+1) 1970 days)=r) :
    daysBefore r.1+r.2=days ∧ 0≤r.2 ∧ r.2<yearLength r.1 := by
  have hepoch := daysBefore_epoch
  split at hr
  · rename_i hpos
    obtain ⟨hsum,hrange⟩ := yearUp_spec (days.natAbs+1) 1970 hpos (by omega)
    subst hr
    exact ⟨by omega,hrange⟩
  · rename_i hneg
    obtain ⟨hsum,hrange⟩ := yearDown_spec (days.natAbs+1) 1970 (by omega : days<0) (by omega)
    subst hr
    exact ⟨by omega,hrange⟩

theorem year_ge_of_day {y d : ℤ} (hd : d<yearLength y) (h : 0≤daysBefore y+d) : 1970≤y := by
  by_contra hlt
  have hmono := daysBefore_mono (show y+1≤1970 by omega)
  rw [daysBefore_succ,daysBefore_epoch] at hmono
  omega

theorem offtime_broken (clock offset : ℤ) : Broken (clock+offset) (offtime clock offset) := by
  have hclock := Int.tmod_add_mul_tdiv clock 86400
  unfold offtime
  dsimp only
  generalize hdays : clock.tdiv 86400=days at hclock ⊢
  generalize hrem : clock.tmod 86400+offset=rem
  have hup := remUp_spec (rem.natAbs+1) days (by omega : -rem<((rem.natAbs+1 : ℕ) : ℤ))
  generalize remUp (rem.natAbs+1) rem days=r₁ at hup ⊢
  obtain ⟨rem₁,days₁⟩ := r₁
  have hdown := remDown_spec (rem₁.natAbs+1) days₁ hup.2 (by omega)
  generalize remDown (rem₁.natAbs+1) rem₁ days₁=r₂ at hdown ⊢
  obtain ⟨rem₂,days₂⟩ := r₂
  dsimp only at hdown ⊢
  obtain ⟨hday,hlow,hhigh⟩ := hdown
  obtain ⟨htime,hsec,hmin,hhour⟩ := timeOfDay hlow hhigh
  generalize hy : (if days₂≥0 then yearUp (days₂.natAbs+1) 1970 days₂
    else yearDown (days₂.natAbs+1) 1970 days₂)=r₃
  obtain ⟨hyear,hylow,hyhigh⟩ := yearLoop_spec days₂ r₃ hy
  obtain ⟨y,yday⟩ := r₃
  dsimp only at hyear hylow hyhigh ⊢
  obtain ⟨k,hk,hmon,hmday,hmlow,hmhigh⟩ := monthLoop_spec (monthLengths y) 0 hylow
    (by rw [sum_monthLengths]; exact hyhigh) (monthLengths_le y)
  rw [monLengths_isleap]
  generalize monthLoop (monthLengths y) 0 yday=r₄ at hmon hmday hmlow hmhigh ⊢
  obtain ⟨mon,mday⟩ := r₄
  have hk12 : k<12 := hk
  have hmonk : mon.toNat=k := by omega
  exact
    { seconds := by
        have hy' : y-1900+1900=y := by ring
        simp only [Tm.seconds,dayNumber,daysToMonth,hy',hmonk]
        omega
      sec := hsec
      min := hmin
      hour := hhour
      mday := by dsimp only; omega
      mon := by dsimp only; omega
      year := by
        intro htotal
        have := year_ge_of_day hyhigh (by omega)
        dsimp only
        omega
      isdst := rfl }

theorem yearSecs_eq : yearSecs n y=86400*(daysBefore (y+n)-daysBefore y) := by
  induction n generalizing y with
  | zero => simp [yearSecs]
  | succ n ih =>
    have hnext : y+1+(n : ℤ)=y+((n+1 : ℕ) : ℤ) := by push_cast; ring
    rw [yearSecs,ih,yearLengths_isleap,daysBefore_succ,hnext]
    ring

theorem secs_eq (h : 70≤tm.year) : tm.secs=int32 tm.seconds := by
  have hyears : (1970 : ℤ)+((tm.year+1900-1970).toNat : ℤ)=tm.year+1900 := by omega
  unfold Tm.secs
  dsimp only
  rw [monLengths_isleap,yearSecs_eq,hyears,daysBefore_epoch]
  unfold Tm.seconds dayNumber daysToMonth
  congr 1
  ring

theorem Broken.not_refused {total : ℤ} (h : Broken total tm) (hpos : 0≤total) :
    tm.refused=false := by
  have h1 := h.sec
  have h2 := h.min
  have h3 := h.hour
  have h4 := h.mday
  have h5 := h.mon
  have h6 := h.year hpos
  simp only [Tm.refused,Bool.or_eq_false_iff,decide_eq_false_iff_not]
  omega

theorem Broken.unique {a b : ℤ} {ntm : Tm} (ha : Broken a tm) (hb : Broken b ntm)
    (h : tm.same ntm=true) : a=b := by
  simp only [Tm.same,Tm.sameDay,Bool.and_eq_true,beq_iff_eq] at h
  obtain ⟨⟨⟨hyear,hmon⟩,⟨⟨hmday,hhour⟩,hmin⟩,hsec⟩,-⟩ := h
  rw [←ha.seconds,←hb.seconds]
  simp only [Tm.seconds,hyear,hmon,hmday,hhour,hmin,hsec]

theorem Tm.same_self (tm : Tm) : tm.same tm=true := by
  simp [Tm.same,Tm.sameDay]

structure Standard (tz : List Char) (off : ℤ) : Prop where
  accepted : (tzparse tz Zone.init.tz).1=true
  hasdst : (tzparse tz Zone.init.tz).2.hasdst=false
  stdoffset : (tzparse tz Zone.init.tz).2.stdoffset=off

theorem getsecs_indep {strp rest : List Char} {o : ℤ} (h : (getsecs strp o).2=some rest) (o' : ℤ) :
    getsecs strp o'=getsecs strp o := by
  unfold getsecs at h ⊢
  cases hh : getnum strp 0 24 with
  | none => simp [hh] at h
  | some p => rfl

theorem getoffset_indep {strp rest : List Char} {o : ℤ} (h : (getoffset strp o).2=some rest)
    (o' : ℤ) : getoffset strp o'=getoffset strp o := by
  unfold getoffset at h ⊢
  cases strp with
  | nil => simp at h
  | cons c cs =>
    dsimp only at h ⊢
    split at h
    · rename_i hminus
      simp only [if_pos hminus]
      have hsecs : ∃ rest, (getsecs cs o).2=some rest := by
        generalize getsecs cs o=r at h
        obtain ⟨v,rest⟩ := r
        cases rest with
        | none => simp at h
        | some rest => exact ⟨rest,rfl⟩
      obtain ⟨rest',hrest'⟩ := hsecs
      rw [getsecs_indep hrest' o']
    · rename_i hminus
      simp only [if_neg hminus]
      split at h
      · rename_i hdigit
        simp only [if_pos hdigit]
        exact getsecs_indep h o'
      · rename_i hdigit
        simp only [if_neg hdigit]
        split at h
        · rename_i hplus
          simp only [if_pos hplus]
          exact getsecs_indep h o'
        · simp at h

theorem tzparseDst_hasdst {name : List Char} {tz : Tz} (h : (tzparseDst name tz).1=true) :
    (tzparseDst name tz).2.hasdst=true := by
  unfold tzparseDst at h ⊢
  dsimp only at h ⊢
  by_cases hlen : name.length-(getzname name).length<3 ∨
      32≤name.length-(getzname name).length
  · simp [if_pos hlen] at h
  · rw [if_neg hlen] at h ⊢
    split at h
    · simp at h
    · split at h
      · rfl
      · split at h
        · rfl
        · simp at h
      · simp at h

theorem tzparse_standard_iff (name : List Char) (tz : Tz) (off : ℤ) :
    ((tzparse name tz).1=true ∧ (tzparse name tz).2.hasdst=false ∧
        (tzparse name tz).2.stdoffset=off) ↔
      ¬ (name.length-(getzname name).length<3 ∨ 32≤name.length-(getzname name).length) ∧
        getzname name≠[] ∧ getoffset (getzname name) tz.stdoffset=(off,some []) := by
  unfold tzparse
  by_cases hlen : name.length-(getzname name).length<3 ∨
      32≤name.length-(getzname name).length
  · simp [hlen]
  · rw [if_neg hlen]
    by_cases hrest : getzname name=[]
    · simp [hrest]
    · rw [if_neg hrest]
      generalize getoffset (getzname name) tz.stdoffset=r
      obtain ⟨v,rest⟩ := r
      cases rest with
      | none => simp
      | some rest =>
        cases rest with
        | nil => simp [hlen,hrest]
        | cons c cs =>
          constructor
          · rintro ⟨hacc,hdst,-⟩
            have := tzparseDst_hasdst hacc
            rw [hdst] at this
            cases this
          · rintro ⟨-,-,heq⟩
            simp at heq

theorem Standard.tzparse (h : Standard tz off) (z : Tz) :
    (Time.tzparse tz z).1=true ∧ (Time.tzparse tz z).2.hasdst=false ∧
      (Time.tzparse tz z).2.stdoffset=off := by
  have hinit := (tzparse_standard_iff tz _ off).1 ⟨h.accepted,h.hasdst,h.stdoffset⟩
  rw [tzparse_standard_iff]
  refine ⟨hinit.1,hinit.2.1,?_⟩
  rw [getoffset_indep (by rw [hinit.2.2] : _=some []) z.stdoffset]
  exact hinit.2.2

def Zone.Parsed (z : Zone) : Prop := ∀ e, z.envval=some e → ∃ z₀, z.tz=(tzparse e z₀).2

theorem Zone.Parsed.tzset (h : z.Parsed) (env : Option (List Char)) :
    (Time.tzset env z).Parsed := by
  have hreset : ∀ z : Zone, z.Parsed → z.reset.Parsed := by
    intro z hz
    unfold Zone.reset
    split
    · exact hz
    · intro e he
      simp at he
  unfold Time.tzset
  split
  · rename_i c cs
    split
    · exact h
    · have hnew : Zone.Parsed ⟨(tzparse (c::cs) z.tz).2,some (c::cs)⟩ := fun e he => by
        obtain rfl := Option.some.inj he
        exact ⟨z.tz,rfl⟩
      dsimp only
      split
      · exact hnew
      · exact hreset _ hnew
  · exact hreset z h

def Zone.after (history : List (Option (List Char))) : Zone :=
  history.foldl (fun z env => tzset env z) Zone.init

theorem Zone.after_parsed (history : List (Option (List Char))) : (Zone.after history).Parsed := by
  have hrun : ∀ z : Zone, z.Parsed → (history.foldl (fun z env => tzset env z) z).Parsed := by
    induction history with
    | nil => exact fun z hz => hz
    | cons env history ih => exact fun z hz => ih _ (hz.tzset env)
  exact hrun _ fun e he => by simp [Zone.init] at he

structure Zone.IsStandard (tz : List Char) (off : ℤ) (z : Zone) : Prop where
  stdoffset : z.tz.stdoffset=off
  hasdst : z.tz.hasdst=false
  again : tzset (some tz) z=z

theorem Standard.tzset (h : Standard tz off) (hz : z.Parsed) :
    Zone.IsStandard tz off (Time.tzset (some tz) z) := by
  have hparse := h.tzparse
  cases tz with
  | nil =>
    have := (h.tzparse z.tz).1
    simp [Time.tzparse,getzname] at this
  | cons c cs =>
    by_cases henv : z.envval=some (c::cs)
    · obtain ⟨z₀,hz₀⟩ := hz _ henv
      have hsame : Time.tzset (some (c::cs)) z=z := by
        unfold Time.tzset
        exact if_pos henv
      rw [hsame]
      exact ⟨hz₀ ▸ (hparse z₀).2.2,hz₀ ▸ (hparse z₀).2.1,hsame⟩
    · have hset : Time.tzset (some (c::cs)) z =
          ⟨(Time.tzparse (c::cs) z.tz).2,some (c::cs)⟩ := by
        unfold Time.tzset
        simp only [if_neg henv,(hparse z.tz).1,if_true]
      rw [hset]
      refine ⟨(hparse z.tz).2.2,(hparse z.tz).2.1,?_⟩
      unfold Time.tzset
      exact if_pos rfl

theorem Zone.IsStandard.localtime (h : z.IsStandard tz off) (t : ℤ) :
    (Time.localtime (some tz) z t).2=z ∧ Broken (t-off) (Time.localtime (some tz) z t).1 := by
  have hdst : dstAt z.tz t=0 := by
    unfold dstAt
    rw [h.hasdst]
    rfl
  have hlocal : Time.localtime (some tz) z t=({offtime t (-off) with isdst := 0},z) := by
    unfold Time.localtime
    simp only [h.again,hdst,h.stdoffset]
    rfl
  have hbroken := offtime_broken t (-off)
  rw [hlocal]
  exact ⟨rfl,{hbroken with isdst := rfl}⟩

/-- Without daylight saving `mktime` undoes `localtime` exactly if the offset is zero. -/
theorem mktime_localtime_iff (history : List (Option (List Char))) {tz : List Char} {off t : ℤ}
    (hstd : Standard tz off) (hoff : -86400≤off ∧ off≤86400)
    (ht : 86400≤t ∧ t<2^31-86400) :
    (let z := tzset (some tz) (Zone.after history)
     let r := localtime (some tz) z t
     (mktime (some tz) r.2 r.1).1=t) ↔ off=0 := by
  have hzone := hstd.tzset (Zone.after_parsed history)
  generalize tzset (some tz) (Zone.after history)=z at hzone
  dsimp only
  obtain ⟨hz,hbroken⟩ := hzone.localtime t
  rw [hz]
  generalize htm : (localtime (some tz) z t).1=tm at hbroken
  have hpos : 0≤t-off := by omega
  have hsecs : tm.secs=t-off := by
    rw [secs_eq (hbroken.year hpos),hbroken.seconds]
    exact int32_eq (by omega) (by omega)
  have hwrap : ∃ k : ℤ, int32 (t-off-off)=t-off-off+k*2^32 := by
    refine ⟨-((t-off-off+2^31)/2^32),?_⟩
    unfold int32
    have := Int.emod_add_mul_ediv (t-off-off+2^31) (2^32)
    omega
  obtain ⟨k,hk⟩ := hwrap
  obtain ⟨-, hagain⟩ := hzone.localtime (int32 (t-off-off))
  unfold mktime
  rw [hbroken.not_refused hpos]
  simp only [Bool.false_eq_true,if_false,hbroken.isdst,if_true,hsecs,hzone.stdoffset]
  split
  · -- the fields agree, so the offset was taken away zero times too often
    rename_i hsame
    have heq := hbroken.unique hagain hsame
    omega
  · rename_i hdiffer
    constructor
    · intro h
      omega
    · intro hzero
      have hback : int32 (t-off-off)=t := by
        rw [hzero,sub_zero,sub_zero]
        exact int32_eq (by omega) (by omega)
      rw [hback,htm] at hdiffer
      exact absurd tm.same_self hdiffer

theorem mktime_localtime_utc :
    (let tz := ['U', 'T', 'C', '0']
     let z := tzset (some tz) (Zone.after [])
     let r := localtime (some tz) z 951782400
     (mktime (some tz) r.2 r.1).1=951782400) :=
  (mktime_localtime_iff [] (t := 951782400) ⟨by decide, by decide,rfl⟩ (by decide)
    (by decide)).2 rfl

theorem mktime_localtime_east :
    Standard ['M', 'E', 'T', '-', '1'] (-3600) ∧ (let tz := ['M', 'E', 'T', '-', '1']
       let z := tzset (some tz) (Zone.after [])
       let r := localtime (some tz) z 951782400
       (mktime (some tz) r.2 r.1).1 = -1) :=
  ⟨⟨by decide, by decide, by decide⟩, by decide +kernel⟩

end Pmon.Time
