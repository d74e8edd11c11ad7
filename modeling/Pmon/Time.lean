import Pmon.Rsa
import Pmon.Tftp

/-!
# Calendar time and time zones

Seconds since 1970, broken-down time, and the zone parsed from `TZ`. `long` and `time_t` have 32
bits; sums that may leave that range are wrapped.
-/

namespace Pmon.Time
open Rsa (isdigit)
open Tftp (int32)

structure Tm where
  sec : ℤ
  min : ℤ
  hour : ℤ
  mday : ℤ
  mon : ℤ
  year : ℤ
  wday : ℤ
  yday : ℤ
  isdst : ℤ
  gmtoff : ℤ

def isleap (y : ℤ) : Bool := y%4 == 0 && (y%100 != 0 || y%400 == 0)

def monLengths (leap : Bool) : List ℤ :=
  if leap then [31,29,31,30,31,30,31,31,30,31,30,31]
  else [31,28,31,30,31,30,31,31,30,31,30,31]

def yearLengths (leap : Bool) : ℤ := if leap then 366 else 365

def remUp : ℕ → ℤ → ℤ → ℤ × ℤ
  | 0, rem, days => (rem,days)
  | n+1, rem, days => if rem<0 then remUp n (rem+86400) (days-1) else (rem,days)

def remDown : ℕ → ℤ → ℤ → ℤ × ℤ
  | 0, rem, days => (rem,days)
  | n+1, rem, days => if rem≥86400 then remDown n (rem-86400) (days+1) else (rem,days)

def yearUp : ℕ → ℤ → ℤ → ℤ × ℤ
  | 0, y, days => (y,days)
  | n+1, y, days =>
    if days<yearLengths (isleap y) then (y,days)
    else yearUp n (y+1) (days-yearLengths (isleap y))

def yearDown : ℕ → ℤ → ℤ → ℤ × ℤ
  | 0, y, days => (y,days)
  | n+1, y, days =>
    let y := y-1
    let days := days+yearLengths (isleap y)
    if days<0 then yearDown n y days else (y,days)

def monthLoop : List ℤ → ℤ → ℤ → ℤ × ℤ
  | [], mon, days => (mon,days)
  | len::ip, mon, days => if days≥len then monthLoop ip (mon+1) (days-len) else (mon,days)

def offtime (clock offset : ℤ) : Tm :=
  let days := clock.tdiv 86400
  let rem := clock.tmod 86400
  let rem := rem+offset
  let (rem,days) := remUp (rem.natAbs+1) rem days
  let (rem,days) := remDown (rem.natAbs+1) rem days
  let hour := rem.tdiv 3600
  let rem := rem.tmod 3600
  let wday := (4+days).tmod 7
  let (y,days) := if days≥0 then yearUp (days.natAbs+1) 1970 days
    else yearDown (days.natAbs+1) 1970 days
  let (mon,mday) := monthLoop (monLengths (isleap y)) 0 days
  { sec := rem.tmod 60
    min := rem.tdiv 60
    hour
    mday := mday+1
    mon
    year := y-1900
    wday := if wday<0 then wday+7 else wday
    yday := days
    isdst := 0
    gmtoff := offset }

def getzname : List Char → List Char
  | [] => []
  | c::cs =>
    if isdigit c || c == ',' || c == '-' || c == '+' then c::cs else getzname cs

def getnumLoop (max : ℤ) : List Char → ℤ → Option (ℤ × List Char)
  | [], num => some (num,[])
  | c::cs, num =>
    if isdigit c then
      let num := num*10+((c.toNat : ℤ) - '0'.toNat)
      if num>max then none else getnumLoop max cs num
    else some (num,c::cs)

def getnum (strp : List Char) (min max : ℤ) : Option (ℤ × List Char) := match strp with
  | [] => none
  | c::_ =>
    if !isdigit c then none
    else
      match getnumLoop max strp 0 with
      | none => none
      | some (num,rest) => if num < min then none else some (num,rest)

def getsecs (strp : List Char) (secs : ℤ) : ℤ × Option (List Char) := match getnum strp 0 24 with
  | none => (secs,none)
  | some (h,strp) =>
    let secs := h*3600
    match strp with
    | ':' :: strp =>
      match getnum strp 0 59 with
      | none => (secs,none)
      | some (m,strp) =>
        let secs := secs+m*60
        match strp with
        | ':' :: strp =>
          match getnum strp 0 59 with
          | none => (secs,none)
          | some (s,strp) => (secs+s,some strp)
        | _ => (secs,some strp)
    | _ => (secs,some strp)

def getoffset (strp : List Char) (offset : ℤ) : ℤ × Option (List Char) := match strp with
  | [] => (offset,none)
  | c::cs =>
    if c = '-' then
      match getsecs cs offset with
      | (secs,none) => (secs,none)
      | (secs,some rest) => (-secs,some rest)
    else if isdigit c then getsecs (c::cs) offset
    else if c = '+' then getsecs cs offset
    else (offset,none)

inductive RuleType where
  | none
  | julianDay
  | dayOfYear
  | monthNthDayOfWeek
  deriving DecidableEq

structure Rule where
  type : RuleType
  day : ℤ
  week : ℤ
  mon : ℤ
  time : ℤ

def Rule.zero : Rule := ⟨.none,0,0,0,0⟩

def getruleDate (strp : List Char) (r : Rule) : Rule × Option (List Char) := match strp with
  | 'J' :: strp =>
    let r := {r with type := .julianDay}
    match getnum strp 1 365 with
    | none => (r,none)
    | some (n,strp) => ({r with day := n},some strp)
  | 'M' :: strp =>
    let r := {r with type := .monthNthDayOfWeek}
    match getnum strp 1 12 with
    | some (n, '.' :: strp) =>
      let r := {r with mon := n}
      match getnum strp 1 5 with
      | some (n, '.' :: strp) =>
        let r := {r with week := n}
        match getnum strp 0 6 with
        | none => (r,none)
        | some (n,strp) => ({r with day := n},some strp)
      | some (n,_) => ({r with week := n},none)
      | none => (r,none)
    | some (n,_) => ({r with mon := n},none)
    | none => (r,none)
  | c::cs =>
    if isdigit c then
      let r := {r with type := .dayOfYear}
      match getnum (c::cs) 0 365 with
      | none => (r,none)
      | some (n,strp) => ({r with day := n},some strp)
    else (r,none)
  | [] => (r,none)

def getrule (strp : List Char) (r : Rule) : Rule × Option (List Char) :=
  match getruleDate strp r with
  | (r,none) => (r,none)
  | (r,some ('/' :: strp)) =>
    let (time,rest) := getsecs strp r.time
    ({r with time},rest)
  | (r,some strp) => ({r with time := 7200},some strp)

structure Tz where
  stdnam : List Char
  dstnam : List Char
  stdoffset : ℤ
  dstoffset : ℤ
  dststart : Rule
  dstend : Rule
  hasdst : Bool

def strncpy (buf src : List Char) (n : ℕ) : List Char := src.take n++buf.drop n

def tzparseDst (name : List Char) (tz : Tz) : Bool × Tz :=
  let rest := getzname name
  let dstlen := name.length-rest.length
  if dstlen<3 ∨ 32≤dstlen then (false,tz)
  else
    let tz := {tz with dstnam := strncpy tz.dstnam name dstlen}
    let r : Tz × Option (List Char) := if rest≠[] ∧ rest.head?≠some ',' then
        let r := getoffset rest tz.dstoffset
        ({tz with dstoffset := r.1},r.2)
      else ({tz with dstoffset := tz.stdoffset-3600},some rest)
    match r with
    | (tz,none) => (false,tz)
    | (tz,some name) =>
      let tz := {tz with hasdst := true}
      match name with
      | [] => (true,tz)
      | ',' :: name =>
        match getrule name tz.dststart with
        | (start,some (',' :: name)) =>
          let r := getrule name tz.dstend
          (r.2 == some [],{tz with dststart := start, dstend := r.1})
        | (start,_) => (false,{tz with dststart := start})
      | _ => (false,tz)

def tzparse (name : List Char) (tz : Tz) : Bool × Tz :=
  let tz := {tz with dststart := Rule.zero, dstend := Rule.zero}
  let rest := getzname name
  let stdlen := name.length-rest.length
  if stdlen<3 ∨ 32 ≤ stdlen then (false,tz)
  else
    let tz := {tz with stdnam := strncpy tz.stdnam name stdlen}
    if rest=[] then (false,tz)
    else
      let r := getoffset rest tz.stdoffset
      let tz := {tz with stdoffset := r.1}
      match r.2 with
      | none => (false,tz)
      | some [] =>
        let blank := [' ', ' ', ' ', Char.ofNat 0]
        (true,{tz with dstnam := blank++tz.dstnam.drop 4, dstoffset := 0, hasdst := false})
      | some name => tzparseDst name tz

structure Zone where
  tz : Tz
  envval : Option (List Char)

def ucat : List Char := ['U', 'C', 'T']++List.replicate 29 (Char.ofNat 0)
def Zone.init : Zone := ⟨⟨ucat, ucat,0,0,Rule.zero,Rule.zero,false⟩,none⟩

def Zone.reset (z : Zone) : Zone := match z.envval with
  | none => z
  | some _ => ⟨(tzparse ['U', 'T', 'C', '0'] z.tz).2,none⟩

def tzset (env : Option (List Char)) (z : Zone) : Zone := match env with
  | some (c::cs) =>
    if z.envval=some (c::cs) then z
    else
      let r := tzparse (c::cs) z.tz
      if r.1 then ⟨r.2,some (c::cs)⟩ else Zone.reset ⟨r.2,some (c::cs)⟩
  | _ => z.reset

def weekLoop (len : ℤ) : ℕ → ℤ → ℤ
  | 0, d => d
  | n+1, d => if d+7≥len then d else weekLoop len n (d+7)

def ruleDay (year : ℤ) (r : Rule) : ℤ :=
  let leap := isleap year
  match r.type with
  | .none => 0
  | .julianDay => r.day-1 + if leap ∧ r.day≥60 then 1 else 0
  | .dayOfYear => r.day
  | .monthNthDayOfWeek =>
    let m1 := (r.mon+9).tmod 12+1
    let yy0 := if r.mon≤2 then year-1 else year
    let yy1 := yy0.tdiv 100
    let yy2 := yy0.tmod 100
    let dow := ((26*m1-2).tdiv 10+1+yy2+yy2.tdiv 4+yy1.tdiv 4-2*yy1).tmod 7
    let dow := if dow<0 then dow+7 else dow
    let d := r.day-dow
    let d := if d<0 then d+7 else d
    let d := weekLoop ((monLengths leap).getD (r.mon-1).toNat 0) (r.week-1).toNat d
    ((monLengths leap).take (r.mon-1).toNat).sum+d

def transtime (janfirst year : ℤ) (r : Rule) (offset : ℤ) : ℤ :=
  if r.type = .none then -1 else int32 (janfirst+ruleDay year r*86400+r.time+offset)

def yearStart : ℕ → ℤ → ℤ → ℤ → ℤ × ℤ
  | 0, yr, _, tjan => (yr,tjan)
  | n+1, yr, tyr, tjan =>
    let yl := yearLengths (isleap yr)*86400
    if tyr≥yl then yearStart n (yr+1) (tyr-yl) (tjan+yl) else (yr,tjan)

def dstAt (tz : Tz) (tgmt : ℤ) : ℤ :=
  if tz.hasdst then
    if tz.dststart.type ≠ .none then
      let (yr,tjan) := yearStart (tgmt.natAbs+1) 1970 tgmt 0
      let stim := transtime tjan yr tz.dststart 0
      let etim := transtime tjan yr tz.dstend 0
      if stim<etim then if tgmt≥stim ∧ tgmt<etim then 1 else 0
      else if tgmt≥etim ∧ tgmt<stim then 0 else 1
    else -1
  else 0

def localtime (env : Option (List Char)) (z : Zone) (tp : ℤ) : Tm × Zone :=
  let z := tzset env z
  let dst := dstAt z.tz tp
  let tm := offtime tp (if dst=1 then -z.tz.dstoffset else -z.tz.stdoffset)
  ({tm with isdst := dst},z)

def yearSecs : ℕ → ℤ → ℤ
  | 0, _ => 0
  | n+1, yr => yearLengths (isleap yr)*86400+yearSecs n (yr+1)

def Tm.refused (tm : Tm) : Bool :=
  tm.sec>61 || tm.min>59 || tm.hour>23 || tm.mday>31 || tm.mon>12 || tm.year<70

def Tm.secs (tm : Tm) : ℤ :=
  let months := ((monLengths (isleap (tm.year+1900))).take tm.mon.toNat).sum
  int32 (tm.sec + tm.min*60+tm.hour*3600+(tm.mday-1)*86400+months*86400 +
    yearSecs (tm.year+1900-1970).toNat 1970)

def gmmktime (tm : Tm) : ℤ := if tm.refused then -1 else tm.secs

def Tm.sameDay (tm ntm : Tm) : Bool :=
  ntm.mday == tm.mday && ntm.hour == tm.hour && ntm.min == tm.min && ntm.sec == tm.sec

def Tm.same (tm ntm : Tm) : Bool := ntm.year == tm.year && ntm.mon == tm.mon && tm.sameDay ntm &&
    (tm.isdst<0 || ntm.isdst == tm.isdst)

def mktime (env : Option (List Char)) (z : Zone) (tm : Tm) : ℤ × Tm × Zone :=
  if tm.refused then (-1,tm,z)
  else
    let secs := tm.secs
    let (secs,tm,ntm,z') := if tm.isdst=0 then
        let secs := int32 (secs-z.tz.stdoffset)
        let r := localtime env z secs
        (secs,tm,r.1,r.2)
      else if tm.isdst>0 then
        let secs := int32 (secs-z.tz.dstoffset)
        let r := localtime env z secs
        (secs,{tm with isdst := 1},r.1,r.2)
      else
        let secs := int32 (secs-z.tz.stdoffset)
        let r := localtime env z secs
        if tm.sameDay r.1 then (secs,tm,r.1,r.2)
        else (int32 (secs+r.2.tz.stdoffset-r.2.tz.dstoffset),tm,r.1,r.2)
    if tm.same ntm then (secs,ntm,z') else (-1,tm,z')

end Pmon.Time
