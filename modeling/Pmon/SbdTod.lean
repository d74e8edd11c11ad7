import Pmon.TimeUtc

/-!
# The clock chip (`sbdtod.c`)

The registers are a store that does not tick. `rtc_gmtime` and `rtc_mktime` are `gmtime` and
`gmmktime` under other names.
-/

namespace Pmon.SbdTod
open Calendar Time

def RTC_SEC : ℕ := 0x00
def RTC_MIN : ℕ := 0x02
def RTC_HRS : ℕ := 0x04
def RTC_WDAY : ℕ := 0x06
def RTC_DAY : ℕ := 0x07
def RTC_MONTH : ℕ := 0x08
def RTC_YEAR : ℕ := 0x09
def RTC_STATUSA : ℕ := 0x0a
def RTC_STATUSB : ℕ := 0x0b
def RTC_STATUSD : ℕ := 0x0d
def RTC_CENTURY : ℕ := 0x0e
def RTC_NTODREGS : ℕ := RTC_CENTURY+1
abbrev Regs := ℕ → UInt8
def rtcBis (r : Regs) (reg : ℕ) (bits : UInt8) : Regs := Function.update r reg (r reg ||| bits)
def rtcBic (r : Regs) (reg : ℕ) (bits : UInt8) : Regs := Function.update r reg (r reg &&& ~~~bits)

/-- `rtcload`: the registers and, with a valid battery, the copy of them; `none` while it waits for
an update to end. -/
def rtcload (r : Regs) : Option (Regs × Option Regs) :=
  let r := rtcBis r RTC_STATUSB 0x06
  if r RTC_STATUSD &&& 0x80 = 0 then some (r,none)
  else if r RTC_STATUSA &&& 0x80 ≠ 0 then none
  else some (r,some r)

def _sbd_gettod (r : Regs) : Option (ℤ × Regs) := match rtcload r with
  | none => none
  | some (r,none) => some (-1,r)
  | some (r,some rtclk) =>
    let cent : ℤ := (rtclk RTC_CENTURY).toNat
    if cent<19 ∨ cent>22 then some (-1,r)
    else
      let year : ℤ := (rtclk RTC_YEAR).toNat+cent*100
      let year := if year<1970 then year+100 else year
      some (gmmktime
        { sec := (rtclk RTC_SEC).toNat
          min := (rtclk RTC_MIN).toNat
          hour := (rtclk RTC_HRS).toNat
          mday := (rtclk RTC_DAY).toNat
          mon := (rtclk RTC_MONTH).toNat-1
          year := year-1900
          wday := 0
          yday := 0
          isdst := 0
          gmtoff := 0 },r)

/-- Conversion of an `int` to `unsigned char`. -/
def uchar (n : ℤ) : UInt8 := UInt8.ofNat (n%256).toNat

/-- The broken-down time in the copy of the registers. -/
def fill (rtclk : Regs) (tm : Tm) : Regs := fun i =>
  if i=RTC_SEC then uchar tm.sec
  else if i=RTC_MIN then uchar tm.min
  else if i=RTC_HRS then uchar tm.hour
  else if i=RTC_WDAY then uchar (tm.wday+1)
  else if i=RTC_YEAR then uchar ((tm.year+1900).tmod 100)
  else if i=RTC_CENTURY then uchar ((tm.year+1900).tdiv 100)
  else if i=RTC_MONTH then uchar (tm.mon+1)
  else if i=RTC_DAY then uchar tm.mday
  else rtclk i

/-- `_sbd_settod`; `junk` is what the local copy holds when it is not loaded. -/
def _sbd_settod (junk r : Regs) (t : ℤ) : Option Regs := match rtcload r with
  | none => none
  | some (r,copy) =>
    let rtclk := fill (copy.getD junk) (gmtime t)
    let r := rtcBis r RTC_STATUSB 0x80
    let r := fun i => if i<RTC_NTODREGS then rtclk i else r i
    some (rtcBic r RTC_STATUSB 0x80)

theorem toNat_uchar {n : ℤ} (h0 : 0≤n) (h1 : n<256) : ((uchar n).toNat : ℤ)=n := by
  rw [uchar,UInt8.toNat_ofNat']
  omega

/-- The century fits its register, and the year its two digits. -/
theorem year_lt {t : ℤ} {tm : Tm} (h : Broken t tm) (h1 : t<2^31) : tm.year<300 := by
  by_contra hge
  have hmono := daysBefore_mono (show 2200≤tm.year+1900 by omega)
  have hfirst : daysBefore 2200=84006 := by decide
  have hmonths : 0≤daysToMonth (tm.year+1900) tm.mon.toNat :=
    List.sum_nonneg fun l hl => monthLengths_nonneg _ l (List.mem_of_mem_take hl)
  have hseconds := h.seconds
  rw [Tm.seconds,dayNumber] at hseconds
  have := h.sec
  have := h.min
  have := h.hour
  have := h.mday
  omega

section Load
variable {r : Regs} (hvalid : r RTC_STATUSD &&& 0x80 ≠ 0) (hidle : r RTC_STATUSA &&& 0x80 = 0)
include hvalid hidle

theorem rtcload_eq :
    rtcload r=some (rtcBis r RTC_STATUSB 0x06,some (rtcBis r RTC_STATUSB 0x06)) := by
  have hother : ∀ i≠RTC_STATUSB, rtcBis r RTC_STATUSB 0x06 i=r i := fun i hi =>
    Function.update_of_ne hi ..
  rw [rtcload,hother _ (by decide),hother _ (by decide),if_neg hvalid,
    if_neg (not_not.mpr hidle)]

/-- The registers behind `_sbd_settod`, but for the status register that `rtcload` rewrites. -/
theorem settod_eq (junk : Regs) (t : ℤ) : ∃ r', _sbd_settod junk r t=some r' ∧
    ∀ i<RTC_NTODREGS, i≠RTC_STATUSB → r' i=fill r (gmtime t) i := by
  rw [_sbd_settod,rtcload_eq hvalid hidle]
  refine ⟨_,rfl,fun i hi hne => ?_⟩
  dsimp only [rtcBic]
  rw [Function.update_of_ne hne,if_pos hi]
  unfold fill
  rw [Option.getD_some,rtcBis,Function.update_of_ne hne]

end Load

/-- What is read from registers that hold a time. -/
theorem gettod_of_fill {r rtclk : Regs} {t : ℤ} {tm : Tm} (hvalid : r RTC_STATUSD &&& 0x80 ≠ 0)
    (hidle : r RTC_STATUSA &&& 0x80 = 0)
    (hreg : ∀ i<RTC_NTODREGS, i≠RTC_STATUSB → r i=fill rtclk tm i) (h : Broken t tm)
    (h0 : 0≤t) (h1 : t<2^31) : (_sbd_gettod r).map Prod.fst=some (gmmktime tm) := by
  have hclock : ∀ i<RTC_NTODREGS, i≠RTC_STATUSB →
      rtcBis r RTC_STATUSB 0x06 i=fill rtclk tm i := fun i hi hne => by
    rw [rtcBis,Function.update_of_ne hne,hreg i hi hne]
  have hfirst := h.year h0
  have hlast := year_lt h h1
  have hsec : ((fill rtclk tm RTC_SEC).toNat : ℤ)=tm.sec :=
    toNat_uchar h.sec.1 (by have := h.sec; omega)
  have hmin : ((fill rtclk tm RTC_MIN).toNat : ℤ) = tm.min :=
    toNat_uchar h.min.1 (by have := h.min; omega)
  have hhour : ((fill rtclk tm RTC_HRS).toNat : ℤ)=tm.hour :=
    toNat_uchar h.hour.1 (by have := h.hour; omega)
  have hmday : ((fill rtclk tm RTC_DAY).toNat : ℤ)=tm.mday :=
    toNat_uchar (by have := h.mday; omega) (by have := h.mday; omega)
  have hmon : ((fill rtclk tm RTC_MONTH).toNat : ℤ)=tm.mon+1 :=
    toNat_uchar (by have := h.mon; omega) (by have := h.mon; omega)
  have hyear : ((fill rtclk tm RTC_YEAR).toNat : ℤ)=(tm.year+1900)%100 := by
    have hmod : (tm.year+1900).tmod 100=(tm.year+1900)%100 :=
      Int.tmod_eq_emod_of_nonneg (by omega)
    rw [←hmod]
    exact toNat_uchar (by omega) (by omega)
  have hcent : ((fill rtclk tm RTC_CENTURY).toNat : ℤ)=(tm.year+1900)/100 := by
    have hdiv : (tm.year+1900).tdiv 100=(tm.year+1900)/100 :=
      Int.tdiv_eq_ediv_of_nonneg (by omega)
    rw [←hdiv]
    exact toNat_uchar (by omega) (by omega)
  rw [_sbd_gettod,rtcload_eq hvalid hidle]
  dsimp only
  rw [hclock RTC_CENTURY (by decide) (by decide),hclock RTC_YEAR (by decide) (by decide),
    hclock RTC_SEC (by decide) (by decide),hclock RTC_MIN (by decide) (by decide),
    hclock RTC_HRS (by decide) (by decide),hclock RTC_DAY (by decide) (by decide),
    hclock RTC_MONTH (by decide) (by decide),hsec,hmin,hhour,hmday,hmon,hyear,hcent,
    if_neg (by omega),add_sub_cancel_right,
    show (tm.year+1900)%100+(tm.year+1900)/100*100=tm.year+1900 by omega,
    if_neg (by omega),add_sub_cancel_right]
  rfl

/-- With a valid battery and no update the clock returns the time it was set to. -/
theorem gettod_settod (junk r : Regs) (hvalid : r RTC_STATUSD &&& 0x80 ≠ 0)
    (hidle : r RTC_STATUSA &&& 0x80 = 0) (t : ℤ) (h0 : 0 ≤ t) (h1 : t < 2 ^ 31) :
    ((_sbd_settod junk r t).bind fun r => (_sbd_gettod r).map Prod.fst)=some t := by
  obtain ⟨r',hset,hreg⟩ := settod_eq hvalid hidle junk t
  have hbroken := offtime_broken t 0
  rw [add_zero] at hbroken
  have hread := gettod_of_fill (by rw [hreg _ (by decide) (by decide)]; exact hvalid)
    (by rw [hreg _ (by decide) (by decide)]; exact hidle) hreg hbroken h0 h1
  rw [hset,Option.bind_some,hread]
  exact congrArg some (gmmktime_gmtime_nonneg h0 h1)

theorem gettod_settod_leap : ((_sbd_settod (fun _ => 0) (fun i => if i=0x0d then 0x80 else 0)
    951782400).bind fun r => (_sbd_gettod r).map Prod.fst)=some 951782400 :=
  gettod_settod _ _ (by decide +kernel) (by decide +kernel) _ (by decide) (by decide)

end Pmon.SbdTod
