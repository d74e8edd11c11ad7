import Mathlib.Tactic

/-!
# The Gregorian calendar

Days are counted from the first of January 1970; the days before a year have a closed form.
-/

namespace Pmon.Calendar

def isLeap (y : ℤ) : Bool := y%4 == 0 && (y%100 != 0 || y%400 == 0)
def yearLength (y : ℤ) : ℤ := if isLeap y then 366 else 365

def monthLengths (y : ℤ) : List ℤ :=
  [31, if isLeap y then 29 else 28,31,30,31,30,31,31,30,31,30,31]

def leapsBefore (y : ℤ) : ℤ := (y-1)/4-(y-1)/100+(y-1)/400
def daysBefore (y : ℤ) : ℤ := 365*(y-1970)+(leapsBefore y-leapsBefore 1970)
theorem daysBefore_epoch : daysBefore 1970=0 := by decide

theorem daysBefore_succ (y : ℤ) : daysBefore (y+1)=daysBefore y+yearLength y := by
  have hleap : isLeap y=true ↔ y%4=0 ∧ (y%100≠0 ∨ y%400=0) := by
    simp [isLeap]
  unfold daysBefore leapsBefore yearLength
  by_cases h : isLeap y=true
  · rw [if_pos h]
    rw [hleap] at h
    omega
  · rw [if_neg h]
    rw [hleap] at h
    omega

theorem yearLength_pos (y : ℤ) : 365≤yearLength y := by
  unfold yearLength
  split <;> norm_num

theorem daysBefore_mono {y z : ℤ} (h : y≤z) : daysBefore y≤daysBefore z := by
  obtain ⟨n,rfl⟩ := Int.le.dest h
  induction n with
  | zero => simp
  | succ n ih =>
    have hstep := daysBefore_succ (y+n)
    have hpos := yearLength_pos (y+n)
    have := ih (by omega)
    rw [Nat.cast_succ,←add_assoc]
    omega

theorem sum_monthLengths (y : ℤ) : (monthLengths y).sum=yearLength y := by
  unfold monthLengths yearLength
  split <;> norm_num

def daysToMonth (y : ℤ) (mon : ℕ) : ℤ := ((monthLengths y).take mon).sum
def dayNumber (y : ℤ) (mon : ℕ) (mday : ℤ) : ℤ := daysBefore y+daysToMonth y mon+(mday-1)

end Pmon.Calendar
