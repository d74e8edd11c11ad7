import Mathlib.Tactic

/-!
# Commands on blocks of memory

`copy`, `fill` and `search` walk over 32-bit addresses that wrap around at the end.
-/

namespace Pmon.MemCommands
open List Function

abbrev Mem := ℕ → UInt8
def up (a k : ℕ) : ℕ := (a+k)%2^32
def down (a : ℕ) : ℕ := (a+(2^32-1))%2^32

section

def copyUp : ℕ → ℕ → ℕ → Mem → Mem
  | 0, _, _, m => m
  | n+1, fr, dst, m => copyUp n (up fr 1) (up dst 1) (update m dst (m fr))

def copyDown : ℕ → ℕ → ℕ → Mem → Mem
  | 0, _, _, m => m
  | n+1, fr, dst, m =>
    copyDown n (down fr) (down dst) (update m (down dst) (m (down fr)))

def copy (fr dst n : ℕ) (m : Mem) : Mem :=
  if dst<fr then copyUp n fr dst m else copyDown n (up fr n) (up dst n) m

def moved (fr dst n : ℕ) (m : Mem) : Mem := fun a =>
  if dst≤a ∧ a<dst+n then m (fr+(a-dst)) else m a

variable {fr dst n : ℕ} {m : Mem}

theorem copyUp_eq (hlt : dst<fr) (hfr : fr+n≤2^32) : copyUp n fr dst m=moved fr dst n m := by
  induction n generalizing fr dst m with
  | zero => funext a; rw [copyUp,moved,if_neg (by omega)]
  | succ n ih =>
    rw [copyUp]
    rcases Nat.eq_zero_or_pos n with rfl | hn
    · funext a
      rw [copyUp,moved,update_apply]
      grind
    · rw [up,up,Nat.mod_eq_of_lt (by omega),Nat.mod_eq_of_lt (by omega),
        ih (by omega) (by omega)]
      funext a
      simp only [moved,update_apply]
      grind

theorem copyDown_eq (hle : fr≤dst) (hdst : dst+n≤2^32) :
    copyDown n (up fr n) (up dst n) m=moved fr dst n m := by
  induction n generalizing m with
  | zero => funext a; rw [copyDown,moved,if_neg (by omega)]
  | succ n ih =>
    have hback : ∀ {a}, a+n<2^32 → down (up a (n+1))=up a n := fun h => by
      rw [down,up,up]
      omega
    have hfr : up fr n=fr+n := Nat.mod_eq_of_lt (by omega)
    have hend : up dst n=dst+n := Nat.mod_eq_of_lt (by omega)
    rw [copyDown,hback (by omega),hback (by omega),ih (by omega)]
    funext a
    simp only [moved,update_apply,hfr,hend]
    grind

/-- `copy` moves a block, whether it overlaps its source or not. -/
theorem copy_moved (fr dst n : ℕ) (m : Mem) (hfr : fr+n≤2^32) (hdst : dst+n≤2^32) :
    copy fr dst n m=moved fr dst n m := by
  rw [copy]
  split
  · exact copyUp_eq ‹_› hfr
  · exact copyDown_eq (by omega) hdst

theorem copy_moved_overlapping : copy 0xfffffffd 0xfffffffe 2 (fun a => a.toUInt8) =
      moved 0xfffffffd 0xfffffffe 2 (fun a => a.toUInt8) :=
  copy_moved _ _ _ _ (by decide) (by decide)
end
section

def valueOf (big : Bool) (bs : List UInt8) : ℕ :=
  (if big then bs else bs.reverse).foldl (fun v b => v*256 + b.toNat) 0

def bytesOf (big : Bool) (w : ℕ) : List UInt8 :=
  let bs := [w/2^24%256,w/2^16%256,w/2^8%256,w%256].map Nat.toUInt8
  if big then bs else bs.reverse

def fillWord (big : Bool) (pat : List UInt8) : ℕ :=
  if pat.length=1 then
    let w := valueOf big pat
    let w := w ||| w <<< 8
    w ||| w <<< 16
  else if pat.length=2 then
    let w := valueOf big pat
    w ||| w <<< 16
  else valueOf big pat

def storeWord (big : Bool) (a w : ℕ) (m : Mem) : Mem := fun x =>
  if a≤x ∧ x<a+4 then (bytesOf big w).getD (x-a) 0 else m x

def wordLoop (big : Bool) (w last : ℕ) : ℕ → ℕ → Mem → Option Mem
  | 0, _, _ => none
  | n+1, fr, m =>
    if fr≤last then wordLoop big w last n (up fr 4) (storeWord big fr w m) else some m

def byteLoop (pat : List UInt8) (last : ℕ) : ℕ → ℕ → ℕ → Mem → Option Mem
  | 0, _, _, _ => none
  | n+1, fr, i, m =>
    if fr≤last then
      byteLoop pat last n (up fr 1) (if pat.length ≤ i+1 then 0 else i+1)
        (update m fr (pat.getD i 0))
    else some m

def fill (big : Bool) (pat : List UInt8) (fr last n : ℕ) (m : Mem) : Option Mem :=
  if (pat.length=1 ∨ pat.length=2 ∨ pat.length=4) ∧ fr%4=0 ∧ last%4=3 then
    wordLoop big (fillWord big pat) last n fr m
  else byteLoop pat last n fr 0 m

def filled (pat : List UInt8) (fr last : ℕ) (m : Mem) : Mem := fun a =>
  if fr≤a ∧ a≤last then pat.getD ((a-fr)%pat.length) 0 else m a

variable {big : Bool} {pat : List UInt8} {fr last n i w : ℕ} {m : Mem}

theorem byteLoop_eq (hi : i<pat.length) (hlast : last+1<2^32) (hfr : fr≤last+1)
    (hn : last+2≤fr+n) : byteLoop pat last n fr i m=some fun a =>
      if fr≤a ∧ a≤last then pat.getD ((i+(a-fr))%pat.length) 0 else m a := by
  induction n generalizing fr i m with
  | zero => omega
  | succ n ih =>
    have hnext : (if pat.length ≤ i+1 then 0 else i+1)=(i+1)%pat.length := by
      split
      · rw [show i+1=pat.length by omega,Nat.mod_self]
      · rw [Nat.mod_eq_of_lt (by omega)]
    rw [byteLoop]
    split
    · rw [up,Nat.mod_eq_of_lt (by omega),hnext,
        ih (Nat.mod_lt _ (by omega)) (by omega) (by omega)]
      congr 1
      funext a
      rw [Nat.mod_add_mod,update_apply]
      rcases Nat.lt_trichotomy a fr with h | rfl | h
      · rw [if_neg (by omega),if_neg (by omega),if_neg (by omega)]
      · rw [if_neg (by omega),if_pos rfl,if_pos (by omega),Nat.sub_self,Nat.add_zero,
          Nat.mod_eq_of_lt hi]
      · rw [if_neg (by omega : ¬a=fr),show i+1+(a-(fr+1))=i+(a-fr) by omega]
        exact if_congr (by omega) rfl rfl
    · congr 1
      funext a
      rw [if_neg (by omega)]

theorem wordLoop_eq (hlast : last+1<2^32) (hfr : fr≤last+1) (hn : last+2≤fr+n)
    (hstart : fr%4=0) (hend : last%4=3) : wordLoop big w last n fr m=some fun a =>
      if fr≤a ∧ a≤last then (bytesOf big w).getD ((a-fr)%4) 0 else m a := by
  induction n generalizing fr m with
  | zero => omega
  | succ n ih =>
    rw [wordLoop]
    split
    · rw [up,Nat.mod_eq_of_lt (by omega),ih (by omega) (by omega) (by omega)]
      congr 1
      funext a
      rw [storeWord]
      by_cases h : fr≤a ∧ a<fr+4
      · rw [if_neg (by omega),if_pos h,if_pos (by omega),Nat.mod_eq_of_lt (by omega)]
      · rw [if_neg h]
        rcases Nat.lt_or_ge a fr with hlow | hhigh
        · rw [if_neg (by omega),if_neg (by omega)]
        · rw [show a-fr=a-(fr+4)+4 by omega,Nat.add_mod_right]
          exact if_congr (by omega) rfl rfl
    · congr 1
      funext a
      rw [if_neg (by omega)]

theorem bytesOf_valueOf (big : Bool) (a b c d : UInt8) :
    bytesOf big (valueOf big [a,b,c,d])=[a,b,c,d] := by
  have ha := a.toNat_lt
  have hb := b.toNat_lt
  have hc := c.toNat_lt
  have hd := d.toNat_lt
  have hbyte : ∀ {v : ℕ} {x : UInt8}, v%256 = x.toNat → (v%256).toUInt8=x := fun h => by
    rw [h]
    exact UInt8.ofNat_toNat
  cases big
  all_goals
    simp only [valueOf,bytesOf,foldl,reverse_cons,reverse_nil,nil_append,
      cons_append,map_cons,map_nil,if_true,if_false,Bool.false_eq_true]
    rw [hbyte (x := a) (by omega),hbyte (x := b) (by omega),hbyte (x := c) (by omega),
      hbyte (x := d) (by omega)]

theorem or_shift {v k : ℕ} (h : v < 2 ^ k) : v ||| v <<< k = v * 2 ^ k + v := by
  rw [Nat.shiftLeft_eq,Nat.or_comm,Nat.mul_comm,Nat.two_pow_add_eq_or_of_lt h]

theorem fillWord_one (big : Bool) (a : UInt8) : fillWord big [a]=valueOf big [a,a,a,a] := by
  have ha := a.toNat_lt
  have hv : valueOf big [a] = a.toNat := by cases big <;> simp [valueOf]
  rw [fillWord,if_pos length_singleton,hv]
  dsimp only
  rw [or_shift ha,or_shift (by omega)]
  cases big <;> simp [valueOf] <;> omega

theorem fillWord_two (big : Bool) (a b : UInt8) :
    fillWord big [a,b]=valueOf big [a,b,a,b] := by
  have ha := a.toNat_lt
  have hb := b.toNat_lt
  rw [fillWord,if_neg (by simp),if_pos (by simp)]
  cases big <;> simp only [valueOf] <;> simp <;> rw [or_shift (by omega)] <;> omega

theorem fillWord_bytes (hpat : pat.length=1 ∨ pat.length=2 ∨ pat.length=4) (k : ℕ) :
    (bytesOf big (fillWord big pat)).getD (k%4) 0=pat.getD (k%pat.length) 0 := by
  have hk : k%4<4 := Nat.mod_lt _ (by decide)
  match pat, hpat with
  | [a], _ =>
    rw [fillWord_one,bytesOf_valueOf,length_singleton,Nat.mod_one]
    interval_cases k%4 <;> rfl
  | [a,b], _ =>
    rw [fillWord_two,bytesOf_valueOf,length_cons,length_singleton,
      ←Nat.mod_mod_of_dvd k (by decide : 2 ∣ 4)]
    interval_cases k%4 <;> rfl
  | [a,b,c,d], _ => rw [fillWord,if_neg (by simp),if_neg (by simp),bytesOf_valueOf]; rfl

/-- `fill` repeats the pattern over the block, by words or by bytes. -/
theorem fill_filled (big : Bool) (pat : List UInt8) (fr last : ℕ) (m : Mem) (hpat : pat≠[])
    (hle : fr≤last) (hlast : last≤0xfffffffb) :
    ∀ n, last+2≤fr+n → fill big pat fr last n m=some (filled pat fr last m) := by
  intro n hn
  rw [fill]
  split
  · rename_i hword
    rw [wordLoop_eq (by omega) (by omega) hn hword.2.1 hword.2.2]
    simp only [fillWord_bytes hword.1]
    rfl
  · rw [byteLoop_eq (length_pos_iff.mpr hpat) (by omega) (by omega) hn]
    simp only [Nat.zero_add]
    rfl

theorem fill_filled_pair :
    fill true [1,2] 4 11 9 (fun _ => 0)=some (filled [1,2] 4 11 fun _ => 0) :=
  fill_filled true [1,2] 4 11 _ (by simp) (by decide) (by decide) 9 (by decide)
end
section

def PATSZ : ℕ := 80

inductive Arg where
  | text (s : List UInt8)
  | number (a : ℕ)

def Arg.bytes : Arg → List UInt8
  | text s => s
  | number a => [a.toUInt8]

def schar (b : UInt8) : ℤ := if b.toNat<128 then b.toNat else b.toNat-256

def found (m : Mem) : List UInt8 → ℕ → Bool
  | [], _ => true
  | b::s, adr => schar b=schar (m adr) && found m s (up adr 1)

def searchLoop (m : Mem) (pat : List UInt8) (last : ℕ) : ℕ → ℕ → Option (List ℕ)
  | 0, _ => none
  | n+1, fr =>
    if fr≤last then
      (searchLoop m pat last n (up fr 1)).map fun l => if found m pat fr then fr::l else l
    else some []

/-- `outside` is a store past `pat`, `running` a loop that has not ended. -/
inductive Searched where
  | outside
  | small
  | running
  | shown (l : List ℕ)

def search (m : Mem) (args : List Arg) (fr last n : ℕ) : Searched :=
  let pat := args.flatMap Arg.bytes
  if PATSZ<pat.length then .outside
  else if last≤fr then .small
  else
    match searchLoop m pat ((last+2^32-(pat.length-1))%2^32) n fr with
    | none => .running
    | some l => .shown l

variable {m : Mem} {pat : List UInt8} {fr last n a : ℕ}

theorem schar_inj {b c : UInt8} : schar b=schar c ↔ b=c := by
  rw [←UInt8.toNat_inj]
  have hb := b.toNat_lt
  have hc := c.toNat_lt
  unfold schar
  split <;> split <;> omega

/-- The pattern stands at `a`, behind the end of memory from its beginning. -/
def Occurs (m : Mem) (pat : List UInt8) (a : ℕ) : Prop :=
  ∀ i<pat.length, m (up a i)=pat.getD i 0

theorem found_iff (ha : a<2^32) : found m pat a ↔ Occurs m pat a := by
  induction pat generalizing a with
  | nil => simp [found,Occurs]
  | cons b s ih =>
    have hnext : ∀ i, up (up a 1) i=up a (i+1) := fun i => by simp only [up]; omega
    have hhere : up a 0=a := Nat.mod_eq_of_lt ha
    have hlt : up a 1<2^32 := Nat.mod_lt _ (by decide)
    rw [found,Bool.and_eq_true,decide_eq_true_iff,schar_inj,ih hlt,Occurs,
      Occurs,length_cons,Nat.forall_lt_succ_left]
    simp only [hnext,hhere,getD_cons_zero,getD_cons_succ,eq_comm (a := b)]

theorem occurs_low (h : a+pat.length≤2^32) :
    Occurs m pat a ↔ ∀ i<pat.length, m (a+i)=pat.getD i 0 := by
  refine forall₂_congr fun i hi => ?_
  rw [up,Nat.mod_eq_of_lt (by omega)]

theorem searchLoop_eq (hlast : last+1<2^32) (hpos : 0<n) (hn : last+2≤fr+n) :
    searchLoop m pat last n fr=some ((range' fr (last+1-fr)).filter (found m pat)) := by
  induction n generalizing fr with
  | zero => omega
  | succ n ih =>
    rw [searchLoop]
    split
    · rw [up,Nat.mod_eq_of_lt (by omega),ih (by omega) (by omega),
        show last+1-fr=last+1-(fr+1)+1 by omega,range'_succ,Option.map_some,
        filter_cons]
    · rw [show last+1-fr=0 by omega]
      rfl

theorem searchLoop_endless (m : Mem) (pat : List UInt8) (n fr : ℕ) (h : fr<2^32) :
    searchLoop m pat (2^32-1) n fr=none := by
  induction n generalizing fr with
  | zero => rfl
  | succ n ih =>
    rw [searchLoop,if_pos (by omega),ih (up fr 1) (Nat.mod_lt _ (by decide)),Option.map_none]

/-- The addresses of the pattern between `fr` and `last`, in ascending order. -/
structure Matches (m : Mem) (pat : List UInt8) (fr last : ℕ) (l : List ℕ) : Prop where
  ascending : l.Pairwise (· < ·)
  mem_iff : ∀ a, a∈l ↔ fr≤a ∧ a+pat.length-1≤last ∧ ∀ i<pat.length, m (a+i)=pat.getD i 0

theorem matches_filter (hpat : pat≠[]) (hlast : last<2^32) (hfits : pat.length≤last+1) :
    Matches m pat fr last ((range' fr (last+1-pat.length+1-fr)).filter (found m pat)) := by
  have hpos := length_pos_iff.mpr hpat
  refine ⟨(pairwise_lt_range' 1 one_pos).filter _, fun a => ?_⟩
  rw [mem_filter,mem_range'_1,and_assoc]
  constructor
  · rintro ⟨hfr,hend,hfound⟩
    exact ⟨hfr, by omega,(occurs_low (by omega)).mp ((found_iff (by omega)).mp hfound)⟩
  · rintro ⟨hfr,hend,hsame⟩
    exact ⟨hfr, by omega,(found_iff (by omega)).mpr ((occurs_low (by omega)).mpr hsame)⟩

theorem matches_nil {l : List ℕ} (hlong : last+1<pat.length) :
    Matches m pat fr last l ↔ l=[] := by
  constructor
  · intro h
    refine eq_nil_iff_forall_not_mem.mpr fun a ha => ?_
    have := ((h.mem_iff a).mp ha).2.1
    omega
  · rintro rfl
    exact ⟨.nil,fun a => ⟨fun h => absurd h not_mem_nil,fun h => by omega⟩⟩

/-- A search that starts below its end shows where the pattern is, exactly when the pattern fits
into `pat` and either fits into memory up to the end or the wrapped loop ends and meets no match. -/
theorem search_shown_iff (m : Mem) (args : List Arg) (fr last : ℕ) (hlt : fr<last)
    (hlast : last<0xffffffff) (hpat : args.flatMap Arg.bytes≠[]) :
    (∀ n, 2^32≤n → ∃ l, search m args fr last n = .shown l ∧
      Matches m (args.flatMap Arg.bytes) fr last l) ↔
    (args.flatMap Arg.bytes).length≤PATSZ ∧ ((args.flatMap Arg.bytes).length≤last+1 ∨
      (args.flatMap Arg.bytes).length≠last+2 ∧
        ∀ a, fr≤a → a+(args.flatMap Arg.bytes).length≤2^32+last+1 →
          ¬Occurs m (args.flatMap Arg.bytes) a) := by
  have hpos := length_pos_iff.mpr hpat
  unfold search
  generalize args.flatMap Arg.bytes=pat at *
  dsimp only
  by_cases hroom : PATSZ<pat.length
  · simp only [if_pos hroom,reduceCtorEq,false_and,exists_false]
    constructor
    · exact fun h => absurd (le_refl (2^32)) (h _)
    · exact fun h => absurd h.1 (by omega)
  simp only [if_neg hroom,if_neg (Nat.not_le.mpr hlt)]
  have hsize : pat.length≤80 := Nat.not_lt.mp hroom
  rcases Nat.lt_or_ge (last+1) pat.length with hlong | hfits
  · have hto : (last+2^32-(pat.length-1))%2^32=2^32+last+1-pat.length := by omega
    rw [hto]
    rcases eq_or_ne pat.length (last+2) with heq | hne
    · have hend : 2^32+last+1-pat.length=2^32-1 := by omega
      rw [hend]
      simp only [searchLoop_endless m pat _ fr (by omega),reduceCtorEq,false_and,exists_false]
      constructor
      · exact fun h => absurd (le_refl (2^32)) (h _)
      · exact fun h => absurd heq (h.2.resolve_left (by omega)).1
    · -- the loop ends, and what it shows starts behind the block
      have hloop : ∀ n, 2^32≤n → searchLoop m pat (2^32+last+1-pat.length) n fr=
          some ((range' fr (2^32+last+1-pat.length+1-fr)).filter (found m pat)) := fun n hn =>
        searchLoop_eq (by omega) (by omega) (by omega)
      have hnone : (range' fr (2^32+last+1-pat.length+1-fr)).filter (found m pat)=[] ↔
          ∀ a, fr≤a → a+pat.length≤2^32+last+1 → ¬Occurs m pat a := by
        rw [filter_eq_nil_iff]
        refine forall_congr' fun a => ?_
        rw [mem_range'_1]
        constructor
        · exact fun h hfr hend hocc => h ⟨hfr,by omega⟩ ((found_iff (by omega)).mpr hocc)
        · exact fun h ha hfound => h ha.1 (by omega) ((found_iff (by omega)).mp hfound)
      constructor
      · intro h
        obtain ⟨l,hl,hmatch⟩ := h (2^32) le_rfl
        rw [hloop _ le_rfl] at hl
        cases hl
        exact ⟨by omega,.inr ⟨hne,hnone.mp ((matches_nil hlong).mp hmatch)⟩⟩
      · rintro ⟨-,hshort | ⟨-,hocc⟩⟩ n hn
        · omega
        · exact ⟨_,by rw [hloop n hn],(matches_nil hlong).mpr (hnone.mpr hocc)⟩
  · have hto : (last+2^32-(pat.length-1))%2^32=last+1-pat.length := by omega
    rw [hto]
    refine ⟨fun _ => ⟨by omega,.inl hfits⟩,fun _ n hn => ⟨_,?_,
      matches_filter hpat (by omega) hfits⟩⟩
    rw [searchLoop_eq (by omega) (by omega) (by omega)]

theorem search_shown_iff_zero :
    (∃ l, search (fun _ => 0) [.number 256,.text [0]] 0 2 (2^32) = .shown l ∧ 0∈l ∧ 1∈l) ∧
      ∃ l, search (fun _ => 0) [.text [1,1,1,1]] 0 1 (2^32) = .shown l ∧ l=[] := by
  constructor
  · obtain ⟨l,hl,hmatch⟩ := (search_shown_iff (fun _ => 0) [.number 256,.text [0]] 0 2 (by decide)
      (by decide) (by simp [Arg.bytes])).mpr ⟨by decide,.inl (by decide)⟩ (2^32) le_rfl
    refine ⟨l,hl,(hmatch.mem_iff 0).mpr ?_,(hmatch.mem_iff 1).mpr ?_⟩ <;> simp [Arg.bytes] <;> grind
  · obtain ⟨l,hl,hmatch⟩ := (search_shown_iff (fun _ => 0) [.text [1,1,1,1]] 0 1 (by decide)
      (by decide) (by simp [Arg.bytes])).mpr ⟨by decide,.inr ⟨by decide,fun a _ _ hocc =>
        absurd (hocc 0 (by decide)) (by simp [Arg.bytes])⟩⟩ (2^32) le_rfl
    exact ⟨l,hl,(matches_nil (by decide)).mp hmatch⟩

theorem search_long : search (fun _ => 0) [.text (List.replicate 81 0)] 0 100 102 = .outside ∧
      ∀ n, search (fun _ => 0) [.text [1,1,1]] 0 1 n = .running := by
  refine ⟨rfl, fun n => ?_⟩
  have hend := searchLoop_endless (fun _ => 0) [1,1,1] n 0 (by decide)
  simp [search,Arg.bytes,PATSZ] at hend ⊢
  rw [hend]
end
end Pmon.MemCommands
