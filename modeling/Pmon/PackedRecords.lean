import Pmon.ByteStore

/-!
# Length-prefixed records packed into consecutive bytes

A record is one byte with its total size, and then the body.
-/

namespace Pmon.PackedRecords
open ByteStore List

def record (body : List UInt8) : List UInt8 := UInt8.ofNat (body.length+1)::body
def packed (bodies : List (List UInt8)) : List UInt8 := bodies.flatMap record
@[simp] theorem length_record (body : List UInt8) : (record body).length=body.length+1 := rfl
@[simp] theorem packed_nil : packed []=[] := rfl

@[simp] theorem packed_cons (body : List UInt8) (rest : List (List UInt8)) :
    packed (body::rest)=record body++packed rest := by simp [packed]

@[simp] theorem packed_append (xs ys : List (List UInt8)) :
    packed (xs++ys)=packed xs++packed ys := by simp [packed]

@[simp] theorem length_packed_cons (body : List UInt8) (rest : List (List UInt8)) :
    (packed (body::rest)).length=body.length+1+(packed rest).length := by simp

theorem length_packed (bodies : List (List UInt8)) :
    (packed bodies).length=(bodies.map fun body => body.length+1).sum := by
  induction bodies with
  | nil => rfl
  | cons body rest ih => rw [length_packed_cons,ih,map_cons,sum_cons]

theorem toNat_size {n : ℕ} (h : n<256) : (UInt8.ofNat n).toNat=n := by
  simp only [UInt8.toNat_ofNat']
  omega

theorem holds_packed_cons (m : ℕ → UInt8) (e : ℕ) (body : List UInt8) (rest : List (List UInt8)) :
    Holds m e (packed (body::rest)) ↔ m e = UInt8.ofNat (body.length+1) ∧ Holds m (e+1) body ∧
        Holds m (e+(body.length+1)) (packed rest) := by
  rw [packed_cons,holds_append,record,holds_cons,and_assoc]
  simp

theorem holds_packed_append (m : ℕ → UInt8) (e : ℕ) (xs ys : List (List UInt8)) :
    Holds m e (packed (xs++ys)) ↔
      Holds m e (packed xs) ∧ Holds m (e+(packed xs).length) (packed ys) := by
  rw [packed_append,holds_append]

/-- What a loop finds at the start of a record: size, body, later records, and fuel for these. -/
structure AtRecord (m : ℕ → UInt8) (e fuel : ℕ) (body : List UInt8) (rest : List (List UInt8)) :
    Prop where
  hsize : (m e).toNat=body.length+1
  hbody : Holds m (e+1) body
  hrest : Holds m (e+(body.length+1)) (packed rest)
  hfuel : (packed rest).length≤fuel

section
variable {m m' : ℕ → UInt8} {e fuel top : ℕ} {body body' : List UInt8}
  {bodies pre post rest : List (List UInt8)}

theorem atRecord (h : Holds m e (packed (body::rest))) (hlt : body.length+1<256)
    (hfuel : (packed (body::rest)).length≤fuel) :
    ∃ f, fuel=f+1 ∧ AtRecord m e f body rest := by
  have hcons := (holds_packed_cons m e body rest).mp h
  have hlen := length_packed_cons body rest
  have hsize : (m e).toNat=body.length+1 := by
    rw [hcons.1]
    exact toNat_size hlt
  exact ⟨fuel-1,by omega,hsize,hcons.2.1,hcons.2.2,by omega⟩

theorem AtRecord.holds_record (h : AtRecord m e fuel body rest) : Holds m e (record body) := by
  refine ⟨?_,h.hbody⟩
  rw [←h.hsize,UInt8.ofNat_toNat]

theorem atRecord_behind (h : Holds m e (packed (pre++body::post)))
    (hlt : body.length+1<256) :
    ∃ fuel, AtRecord m (e+(packed pre).length) fuel body post := by
  have hrest := ((holds_packed_append m e pre (body::post)).mp h).2
  obtain ⟨fuel,-,hat⟩ := atRecord hrest hlt le_rfl
  exact ⟨fuel,hat⟩

theorem length_packed_replace (hlen : body'.length=body.length) :
    (packed (pre++body'::post)).length=(packed (pre++body::post)).length := by
  simp [hlen]

theorem holds_packed_replace (h : Holds m e (packed (pre++body::post)))
    (hlen : body'.length=body.length) (hsame : ∀ q, q<e+(packed pre).length+1 ∨
      e+(packed pre).length+1+body.length≤q → m' q=m q)
    (hbody : Holds m' (e+(packed pre).length+1) body') :
    Holds m' e (packed (pre++body'::post)) := by
  obtain ⟨hpre,hrest⟩ := (holds_packed_append _ _ _ _).mp h
  obtain ⟨hsize,-,hpost⟩ := (holds_packed_cons _ _ _ _).mp hrest
  rw [holds_packed_append,holds_packed_cons,hlen]
  refine ⟨holds_congr (fun q _ hq => hsame q (Or.inl (by omega))) hpre,?_,hbody,?_⟩
  · rw [hsame _ (Or.inl (by omega))]
    exact hsize
  · exact holds_congr (fun q hq _ => hsame q (Or.inr (by omega))) hpost

theorem holds_packed_snoc (h : Holds m e (packed bodies))
    (hrec : Holds m (e+(packed bodies).length) (record body)) :
    Holds m e (packed (bodies++[body])) := by
  rw [holds_packed_append]
  exact ⟨h,by simpa using hrec⟩

inductive Walk (m : ℕ → UInt8) (top : ℕ) (B : List UInt8 → Prop) :
    ℕ → ℕ → List (List UInt8) → Prop where
  | nil (fuel : ℕ) : Walk m top B fuel top []
  | cons {fuel e : ℕ} {body : List UInt8} {rest : List (List UInt8)} (hbody : B body)
      (hat : AtRecord m e fuel body rest) (hfit : e+(body.length+1)≤top)
      (hrest : Walk m top B fuel (e+(body.length+1)) rest) :
      Walk m top B (fuel+1) e (body::rest)

theorem walk {B : List UInt8 → Prop} (hB : ∀ body, B body → body.length+1<256)
    (h : Holds m e (packed bodies)) (hb : ∀ body∈bodies, B body)
    (hfuel : (packed bodies).length≤fuel) :
    Walk m (e+(packed bodies).length) B fuel e bodies := by
  induction bodies generalizing e fuel with
  | nil => exact .nil fuel
  | cons body rest ih =>
    have hbody := hb body mem_cons_self
    obtain ⟨fuel,rfl,hat⟩ := atRecord h (hB body hbody) hfuel
    have hnext := ih hat.hrest (fun q hq => hb q (mem_cons_of_mem _ hq)) hat.hfuel
    rw [Nat.add_assoc,←length_packed_cons] at hnext
    exact .cons hbody hat (by rw [length_packed_cons]; omega) hnext

def FirstAt (S : List UInt8 → Prop) (bodies : List (List UInt8)) (e r : ℕ) : Prop :=
  (r=0 ∧ ∀ body∈bodies, ¬ S body) ∨
    ∃ pre body post, bodies=pre++body::post ∧ S body ∧ (∀ q∈pre, ¬ S q) ∧
      r=e+(packed pre).length

variable {S : List UInt8 → Prop}

theorem FirstAt.cons {r : ℕ} (hno : ¬ S body) (h : FirstAt S rest (e+(body.length+1)) r) :
    FirstAt S (body::rest) e r := by
  rcases h with ⟨h0,hall⟩ | ⟨pre,q,post,rfl,hq,hpre,hpos⟩
  · exact .inl ⟨h0,forall_mem_cons.mpr ⟨hno,hall⟩⟩
  · refine .inr ⟨body::pre,q,post,rfl,hq,forall_mem_cons.mpr ⟨hno,hpre⟩,?_⟩
    rw [hpos,length_packed_cons]
    omega

theorem Walk.firstAt {B : List UInt8 → Prop} [DecidablePred S] {loop : ℕ → ℕ → ℕ}
    (h : Walk m top B fuel e bodies) (hnil : ∀ fuel, loop fuel top=0)
    (hcons : ∀ {fuel e body rest}, B body → AtRecord m e fuel body rest →
      e+(body.length+1)≤top → loop (fuel+1) e =
        if S body then e else loop fuel (e+(body.length+1))) :
    FirstAt S bodies e (loop fuel e) := by
  induction h with
  | nil fuel => exact .inl ⟨hnil fuel,by simp⟩
  | @cons fuel e body rest hbody hat hfit hrest ih =>
    rw [hcons hbody hat hfit]
    by_cases hsel : S body
    · rw [if_pos hsel]
      exact .inr ⟨[],body,rest,rfl,hsel,by simp,by simp⟩
    · rw [if_neg hsel]
      exact ih.cons hsel
end
end Pmon.PackedRecords
