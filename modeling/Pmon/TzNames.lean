import Mathlib.Data.List.TakeWhile
import Pmon.TimeLocal

/-!
# The zone that earlier values of `TZ` leave

Every field is written anew but for the names: `strncpy` stores no terminator, so the end of a longer
name stays behind a shorter one.
-/

namespace Pmon.Time
open List

def nul : Char := Char.ofNat 0

/-- The string in a name buffer, as `tzname` has it. -/
def cname (buf : List Char) : List Char := buf.takeWhile (· ≠ nul)

/-- The zone name that a string begins with. -/
def zname (name : List Char) : List Char := name.take (name.length-(getzname name).length)

/-- What follows the standard offset of `TZ`. -/
def dstpart (name : List Char) : List Char := ((getoffset (getzname name) 0).2).getD []

/-- The zone without its names. -/
def Tz.rest (tz : Tz) : ℤ × ℤ × Rule × Rule × Bool :=
  (tz.stdoffset,tz.dstoffset,tz.dststart,tz.dstend,tz.hasdst)

/-- The rules behind the daylight offset, the last part of `tzparseDst`. -/
def tzrules (name : List Char) (tz : Tz) : Bool × Tz := match name with
  | [] => (true,tz)
  | ',' :: name =>
    match getrule name tz.dststart with
    | (start,some (',' :: name)) =>
      let r := getrule name tz.dstend
      (r.2 == some [],{tz with dststart := start, dstend := r.1})
    | (start,_) => (false,{tz with dststart := start})
  | _ => (false,tz)

/-- The daylight offset: an hour from the standard one unless it is given. -/
def dstoffset (rest : List Char) (tz : Tz) : ℤ × Option (List Char) :=
  if rest≠[] ∧ rest.head?≠some ',' then getoffset rest tz.dstoffset
  else (tz.stdoffset-3600,some rest)

variable {name : List Char} {tz : Tz}

theorem length_zname (name : List Char) :
    (zname name).length=name.length-(getzname name).length := by
  rw [zname,length_take]
  omega

/-- The zone when the name and the offset of daylight saving are known. -/
def Tz.daylight (tz : Tz) (name : List Char) (v : ℤ) : Tz :=
  {tz with dstnam := strncpy tz.dstnam name (zname name).length, dstoffset := v, hasdst := true}

/-- The zone when the standard name and offset are known. -/
def Tz.standard (tz : Tz) (name : List Char) (v : ℤ) : Tz :=
  { tz with
    dststart := Rule.zero
    dstend := Rule.zero
    stdnam := strncpy tz.stdnam name (zname name).length
    stdoffset := v }

theorem tzrules_eq (name : List Char) {tz tz' : Tz} (hstart : tz'.dststart=tz.dststart)
    (hend : tz'.dstend=tz.dstend) : tzrules name tz'=((tzrules name tz).1,
      {tz' with dststart := (tzrules name tz).2.dststart, dstend := (tzrules name tz).2.dstend}) := by
  unfold tzrules
  rw [hstart,hend]
  split
  · rw [←hstart,←hend]
  · split <;> simp [←hend]
  · rw [←hstart,←hend]

/-- The lengths a zone name may have. -/
def Named (name : List Char) : Prop := 3≤(zname name).length ∧ (zname name).length<32

theorem tzparseDst_eq (hname : Named name) (tz : Tz) : tzparseDst name tz =
    match dstoffset (getzname name) tz with
    | (v,none) => (false,{tz.daylight name v with hasdst := tz.hasdst})
    | (v,some rest) => tzrules rest (tz.daylight name v) := by
  unfold tzparseDst dstoffset Tz.daylight
  rw [Named,length_zname] at hname
  rw [length_zname]
  dsimp only
  rw [if_neg (by omega)]
  by_cases hgiven : getzname name≠[] ∧ (getzname name).head?≠some ','
  · rw [if_pos hgiven,if_pos hgiven]
    cases getoffset (getzname name) tz.dstoffset with
    | mk v rest => cases rest <;> rfl
  · rw [if_neg hgiven,if_neg hgiven]
    rfl

theorem tzparseDst_spec (h : (tzparseDst name tz).1=true) :
    (tzparseDst name tz).2.stdnam=tz.stdnam ∧
    (tzparseDst name tz).2.dstnam=strncpy tz.dstnam name (zname name).length ∧ Named name ∧
    ∀ tz' : Tz, tz'.stdoffset=tz.stdoffset → tz'.dststart=tz.dststart → tz'.dstend=tz.dstend →
      (tzparseDst name tz').1=true ∧ (tzparseDst name tz').2.rest=(tzparseDst name tz).2.rest := by
  have hname : Named name := by
    rw [Named,length_zname]
    unfold tzparseDst at h
    dsimp only at h
    split at h
    · cases h
    · omega
  have heq := tzparseDst_eq hname
  rcases hoff : dstoffset (getzname name) tz with ⟨v,_ | rest⟩
  · rw [heq,hoff] at h
    cases h
  rw [heq,hoff] at h ⊢
  dsimp only at h ⊢
  have hself := tzrules_eq rest (Eq.refl (tz.daylight name v).dststart) rfl
  refine ⟨by rw [hself]; rfl,by rw [hself]; rfl,hname,fun tz' hstd hstart hend => ?_⟩
  have hoff' : dstoffset (getzname name) tz'=(v,some rest) := by
    unfold dstoffset at hoff ⊢
    split at hoff
    · rename_i hgiven
      rw [if_pos hgiven,getoffset_indep (o := tz.dstoffset) (by rw [hoff]),hoff]
    · rename_i hgiven
      rw [if_neg hgiven,hstd,hoff]
  rw [heq,hoff']
  dsimp only
  rw [tzrules_eq rest (show (tz'.daylight name v).dststart=(tz.daylight name v).dststart from hstart)
    hend]
  refine ⟨h,?_⟩
  rw [hself]
  exact Prod.ext hstd rfl

theorem tzparse_eq (hname : Named name) (hrest : getzname name≠[]) (tz : Tz) : tzparse name tz =
    match getoffset (getzname name) tz.stdoffset with
    | (v,none) => (false,tz.standard name v)
    | (v,some []) => (true,{ tz.standard name v with
        dstnam := [' ', ' ', ' ',nul]++tz.dstnam.drop 4, dstoffset := 0, hasdst := false })
    | (v,some rest) => tzparseDst rest (tz.standard name v) := by
  unfold tzparse Tz.standard
  rw [Named,length_zname] at hname
  rw [length_zname]
  dsimp only
  rw [if_neg (by omega),if_neg hrest]
  rcases getoffset (getzname name) tz.stdoffset with ⟨v,_ | _ | _⟩ <;> rfl

/-- What an accepted value does to a zone. -/
theorem tzparse_spec (h : (tzparse name tz).1=true) :
    (tzparse name tz).2.stdnam=strncpy tz.stdnam name (zname name).length ∧ Named name ∧
    ((dstpart name=[] ∧ ∃ rest, (tzparse name tz).2.dstnam=[' ', ' ', ' ',nul]++rest) ∨
      Named (dstpart name) ∧ (tzparse name tz).2.dstnam =
        strncpy tz.dstnam (dstpart name) (zname (dstpart name)).length) ∧
    ∀ tz' : Tz, (tzparse name tz').1=true ∧ (tzparse name tz').2.rest=(tzparse name tz).2.rest := by
  obtain ⟨hname,hrest⟩ : Named name ∧ getzname name≠[] := by
    rw [Named,length_zname]
    unfold tzparse at h
    dsimp only at h
    split at h
    · cases h
    · split at h
      · cases h
      · exact ⟨by omega,by assumption⟩
  have heq := tzparse_eq hname hrest
  rcases hoff : getoffset (getzname name) tz.stdoffset with ⟨v,_ | rest⟩
  · rw [heq,hoff] at h
    cases h
  have hindep : ∀ o, getoffset (getzname name) o=(v,some rest) := fun o => by
    rw [getoffset_indep (o := tz.stdoffset) (by rw [hoff]),hoff]
  have hpart : dstpart name=rest := by
    rw [dstpart,hindep]
    rfl
  simp only [heq,hindep] at h ⊢
  rw [hpart]
  cases rest with
  | nil => exact ⟨rfl,hname,.inl ⟨rfl,_,rfl⟩,fun tz' => ⟨rfl,rfl⟩⟩
  | cons c cs =>
    obtain ⟨hstd,hdst,hnamed,hsame⟩ := tzparseDst_spec h
    exact ⟨hstd,hname,.inr ⟨hnamed,hdst⟩,fun tz' => hsame _ rfl rfl rfl⟩

theorem getElem?_strncpy (buf : List Char) {n : ℕ} (hn : n≤name.length) :
    (strncpy buf name n)[n]?=buf[n]? := by
  have hlen : (name.take n).length=n := by rw [length_take,min_eq_left hn]
  rw [strncpy,getElem?_append_right (by omega),hlen,Nat.sub_self,getElem?_drop,Nat.add_zero]

theorem length_zname_le (name : List Char) : (zname name).length≤name.length := by
  rw [length_zname]
  omega

theorem cname_append (a rest : List Char) : cname (a++nul::rest)=cname a := by
  unfold cname
  induction a with
  | nil => rfl
  | cons c a ih => rw [cons_append,takeWhile_cons,takeWhile_cons,ih]

theorem cname_strncpy {buf : List Char} (hbuf : buf[(zname name).length]?=some nul) :
    cname (strncpy buf name (zname name).length)=cname (zname name) := by
  have hcopy : name.take (zname name).length=zname name := by rw [length_zname,zname]
  rw [←head?_drop] at hbuf
  obtain ⟨rest,hrest⟩ := head?_eq_some_iff.mp hbuf
  rw [strncpy,hcopy,hrest,cname_append]

section Set
variable {tz : List Char} (hacc : (tzparse tz Zone.init.tz).1=true)
include hacc

/-- The zone was parsed over buffers that end where those before do. -/
theorem Zone.Parsed.tzset_eq {z : Zone} (hz : z.Parsed) : ∃ z₀,
    (Time.tzset (some tz) z).tz=(Time.tzparse tz z₀).2 ∧
    z₀.stdnam[(zname tz).length]?=z.tz.stdnam[(zname tz).length]? ∧
    (dstpart tz≠[] → z₀.dstnam[(zname (dstpart tz)).length]? =
      z.tz.dstnam[(zname (dstpart tz)).length]?) := by
  have hparse := (tzparse_spec hacc).2.2.2
  have hname := (tzparse_spec hacc).2.1
  cases tz with
  | nil => exact absurd hname.1 (by simp [zname])
  | cons c cs =>
    by_cases henv : z.envval=some (c::cs)
    · obtain ⟨z₀,hz₀⟩ := hz _ henv
      have hspec := tzparse_spec (hparse z₀).1
      rw [←hz₀] at hspec
      have hset : Time.tzset (some (c::cs)) z=z := if_pos henv
      refine ⟨z₀,by rw [hset,hz₀],?_,fun hdst => ?_⟩
      · rw [hspec.1,getElem?_strncpy _ (length_zname_le _)]
      · rw [(hspec.2.2.1.resolve_left fun h => hdst h.1).2,getElem?_strncpy _ (length_zname_le _)]
    · refine ⟨z.tz,?_,rfl,fun _ => rfl⟩
      unfold Time.tzset
      simp only [if_neg henv,(hparse z.tz).1,if_true]

theorem tzset_names {z : Zone} (hz : z.Parsed) :
    (tzset (some tz) z).tz.rest=(tzparse tz Zone.init.tz).2.rest ∧
    (z.tz.stdnam[(zname tz).length]?=some nul →
      cname (tzset (some tz) z).tz.stdnam=cname (zname tz)) ∧
    ((dstpart tz≠[] → z.tz.dstnam[(zname (dstpart tz)).length]?=some nul) →
      cname (tzset (some tz) z).tz.dstnam =
        if dstpart tz=[] then [' ', ' ', ' '] else cname (zname (dstpart tz))) := by
  obtain ⟨z₀,htz,hstd,hdst⟩ := hz.tzset_eq hacc
  have hspec := tzparse_spec hacc
  obtain ⟨hstdnam,-,hdstnam,-⟩ := tzparse_spec (hspec.2.2.2 z₀).1
  rw [htz]
  refine ⟨(hspec.2.2.2 z₀).2,fun h => ?_,fun h => ?_⟩
  · rw [hstdnam]
    exact cname_strncpy (hstd.trans h)
  · rcases hdstnam with ⟨hempty,rest,hrest⟩ | ⟨hnamed,hcopy⟩
    · rw [if_pos hempty,hrest]
      rfl
    · have hne : dstpart tz≠[] := fun hempty => by
        have := hnamed.1
        rw [hempty] at this
        exact absurd this (by simp [zname])
      rw [if_neg hne,hcopy]
      exact cname_strncpy ((hdst hne).trans (h hne))

end Set

theorem ucat_nul {n : ℕ} (h : 3≤n ∧ n<32) : ucat[n]?=some nul := by
  have hlen : n-3<29 := by omega
  rw [ucat,getElem?_append_right h.1]
  exact (getElem?_replicate ..).trans (if_pos hlen)

/-- Offsets, flag and rules depend on `TZ` only; the names do where the buffers end already. -/
theorem tzset_zone (history : List (Option (List Char))) {tz : List Char} (hnul : nul∉tz)
    (hacc : (tzparse tz Zone.init.tz).1=true) :
    (tzset (some tz) (Zone.after history)).tz.rest=(tzset (some tz) Zone.init).tz.rest ∧
    ((Zone.after history).tz.stdnam[(zname tz).length]?=some nul →
      cname (tzset (some tz) (Zone.after history)).tz.stdnam=zname tz ∧
      cname (tzset (some tz) Zone.init).tz.stdnam=zname tz) ∧
    ((dstpart tz≠[] →
        (Zone.after history).tz.dstnam[(zname (dstpart tz)).length]?=some nul) →
      cname (tzset (some tz) (Zone.after history)).tz.dstnam =
        cname (tzset (some tz) Zone.init).tz.dstnam) := by
  have hinit := tzset_names hacc (Zone.after_parsed [])
  have hpast := tzset_names hacc (Zone.after_parsed history)
  have hspec := tzparse_spec hacc
  have hname : cname (zname tz)=zname tz := List.takeWhile_eq_self_iff.mpr fun c hc => by
    rw [decide_eq_true_eq]
    rintro rfl
    exact hnul (mem_of_mem_take hc)
  rw [hname] at hinit hpast
  refine ⟨hpast.1.trans hinit.1.symm, fun h => ⟨hpast.2.1 h,hinit.2.1 (ucat_nul hspec.2.1)⟩,
    fun h => (hpast.2.2 h).trans (hinit.2.2 fun hdst => ?_).symm⟩
  exact ucat_nul (hspec.2.2.1.resolve_left fun h => hdst h.1).1

theorem tzset_zone_again :
    cname (tzset (some "XYZ0".toList) (Zone.after [some "ABC0".toList])).tz.stdnam =
      "XYZ".toList :=
  ((tzset_zone [some "ABC0".toList] (by decide) (by decide)).2.1 (by decide)).1

/-- A shorter name keeps the end of the one before. -/
theorem tzset_tail :
    cname (tzset (some "XYZ0".toList) (Zone.after [some "ABCDEF0".toList])).tz.stdnam =
      "XYZDEF".toList ∧
    cname (tzset (some "XYZ0".toList) Zone.init).tz.stdnam = "XYZ".toList := by
  decide

end Pmon.Time
