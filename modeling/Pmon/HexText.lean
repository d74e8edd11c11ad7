import Mathlib.Tactic
import Mathlib.Data.Nat.Log

/-!
# Upper-case hexadecimal text of a fixed width

`hexText w n` has the `w` lowest digits of `n`; `formatX` is `%0wX`, which grows for larger numbers.
-/

namespace Pmon.HexText

def hexChar (d : ℕ) : Char := if d<10 then Char.ofNat (48+d) else Char.ofNat (55+d)

def hexText : ℕ → ℕ → List Char
  | 0, _ => []
  | w+1, n => hexChar (n/16^w%16)::hexText w n

@[simp] theorem hexText_zero (n : ℕ) : hexText 0 n=[] := rfl
theorem hexText_succ (w n : ℕ) : hexText (w+1) n=hexChar (n/16^w%16)::hexText w n := rfl

@[simp] theorem length_hexText (w n : ℕ) : (hexText w n).length=w := by
  induction w with
  | zero => rfl
  | succ w ih => rw [hexText_succ,List.length_cons,ih]

def formatX (w n : ℕ) : List Char := hexText (max w (Nat.toDigits 16 n).length) n

theorem formatX_eq {w n : ℕ} (hw : 0<w) (hn : n<16^w) : formatX w n=hexText w n := by
  have hlength : (Nat.toDigits 16 n).length≤w :=
    (Nat.length_toDigits_le_iff (by decide) hw).mpr hn
  rw [formatX,max_eq_left hlength]

theorem hexText_add (v w n : ℕ) : hexText (v+w) n=hexText v (n/16^w)++hexText w n := by
  induction v with
  | zero => rw [Nat.zero_add,hexText_zero,List.nil_append]
  | succ v ih =>
    have hdigit : n/16^(v+w)%16=n/16^w/16^v%16 := by
      rw [Nat.div_div_eq_div_mul,←pow_add,Nat.add_comm w v]
    rw [Nat.add_right_comm,hexText_succ,hexText_succ,ih,hdigit,List.cons_append]

theorem hexText_mod (w n : ℕ) : hexText w (n%16^w)=hexText w n := by
  suffices h : ∀ v, v≤w → hexText v (n%16^w)=hexText v n from h w le_rfl
  intro v
  induction v with
  | zero => intro _; rfl
  | succ v ih =>
    intro hv
    have hsplit : 16^w=16^v*16*16^(w-(v+1)) := by
      rw [←pow_succ,←pow_add]
      congr 1
      omega
    have hdigit : n%16^w/16^v%16=n/16^v%16 := by
      rw [hsplit,mul_assoc,Nat.mod_mul_right_div_self,Nat.mod_mul_right_mod]
    rw [hexText_succ,hexText_succ,ih (by omega),hdigit]

def bytesText (bs : List UInt8) : List Char := bs.flatMap fun b => hexText 2 b.toNat
@[simp] theorem bytesText_nil : bytesText []=[] := rfl

theorem bytesText_cons (b : UInt8) (bs : List UInt8) :
    bytesText (b::bs)=hexText 2 b.toNat++bytesText bs := rfl

@[simp] theorem length_bytesText (bs : List UInt8) : (bytesText bs).length=2*bs.length := by
  induction bs with
  | nil => rfl
  | cons b bs ih =>
    rw [bytesText_cons,List.length_append,length_hexText,ih,List.length_cons]
    omega

end Pmon.HexText
