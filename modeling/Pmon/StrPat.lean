import Mathlib.Data.List.TakeWhile
import Pmon.SetEnv

/-!
# Wildcards

Behind an asterisk `strpat` goes to the first place where the following characters stand, and never
to a later one.
-/

namespace Pmon.SetEnv
open List

/-- The meaning of a pattern. -/
def Matches : List UInt8 → List UInt8 → Prop
  | [], s => s=[]
  | c :: pat, s =>
    if c=star then ∃ t, t <:+ s ∧ Matches pat t
    else ∃ d t, s=d::t ∧ (c=query ∨ c=d) ∧ Matches pat t

/-- A character that stands for itself. -/
def literal (c : UInt8) : Bool := c != star && c != query

/-- `t` is what is left of `s` from the first `q` on, and there is a `q` to look for. -/
structure AtFirst (q s t : List UInt8) : Prop where
  ne_nil : q≠[]
  here : q <+: t
  first : ∀ u, u <:+ s → q <+: u → u <:+ t

/-- A match in which each asterisk ends at the first place where the characters up to the next
wildcard stand; only if no wildcard follows may it end at a later one. -/
def Leftmost : List UInt8 → List UInt8 → Prop
  | [], s => s=[]
  | c :: pat, s =>
    if c=star then ∃ t, t <:+ s ∧ Leftmost pat t ∧
      ((∀ b ∈ pat, literal b) ∨ AtFirst (pat.takeWhile literal) s t)
    else ∃ d t, s=d::t ∧ (c=query ∨ c=d) ∧ Leftmost pat t

variable {s t p q pat lits : List UInt8}

theorem Leftmost.matches (h : Leftmost pat s) : Matches pat s := by
  induction pat generalizing s with
  | nil => exact h
  | cons c pat ih =>
    rw [Leftmost] at h
    rw [Matches]
    split_ifs at h ⊢
    · obtain ⟨t,ht,hrest,-⟩ := h
      exact ⟨t,ht,ih hrest⟩
    · obtain ⟨d,t,hd,hc,hrest⟩ := h
      exact ⟨d,t,hd,hc,ih hrest⟩

theorem AtFirst.unique {u : List UInt8} (h : AtFirst q s t) (h' : AtFirst q s u) (ht : t <:+ s)
    (hu : u <:+ s) : t=u :=
  (h'.first t ht h.here).eq_of_length_le (h.first u hu h'.here).length_le

/-- What `strposn` finds is the first place. -/
theorem strposn_spec (hq : q≠[]) :
    (strposn p q=none ∧ ∀ u, u <:+ p → ¬q <+: u) ∨
      ∃ t, strposn p q=some t ∧ t <:+ p ∧ AtFirst q p t := by
  rw [strposn,if_neg hq]
  induction p with
  | nil =>
    refine .inl ⟨rfl,fun u hu hpre => hq ?_⟩
    rw [suffix_nil.mp hu] at hpre
    exact prefix_nil.mp hpre
  | cons c p ih =>
    rw [strposnScan]
    by_cases hpre : q <+: c::p
    · rw [if_pos ( isPrefixOf_iff_prefix.mpr hpre)]
      exact .inr ⟨_,rfl,suffix_rfl,hq,hpre,fun u hu _ => hu⟩
    · rw [if_neg fun h => hpre ( isPrefixOf_iff_prefix.mp h)]
      have hhere : ∀ u, u <:+ c::p → q <+: u → u <:+ p := fun u hu hu' =>
        (suffix_cons_iff.mp hu).resolve_left (by rintro rfl; exact hpre hu')
      rcases ih with ⟨hnone,hout⟩ | ⟨t,ht,hsuffix,hfirst⟩
      · exact .inl ⟨hnone,fun u hu hu' => hout u (hhere u hu hu') hu'⟩
      · exact .inr ⟨t,ht,hsuffix.trans (suffix_cons c p),hq,hfirst.here,
          fun u hu hu' => hfirst.first u (hhere u hu hu') hu'⟩

/-- Literal characters stand for themselves, in every meaning that takes them one by one. -/
theorem literal_run {P : List UInt8 → List UInt8 → Prop}
    (hstep : ∀ {c pat s}, literal c → (P (c::pat) s ↔ ∃ t, s=c::t ∧ P pat t))
    (h : ∀ c∈lits, literal c) :
    P (lits ++ pat) t ↔ lits <+: t ∧ P pat (t.drop lits.length) := by
  induction lits generalizing t with
  | nil => simp
  | cons c lits ih =>
    rw [forall_mem_cons] at h
    rw [cons_append,hstep h.1]
    constructor
    · rintro ⟨u,rfl,hrest⟩
      obtain ⟨hpre,hmatch⟩ := (ih h.2).mp hrest
      exact ⟨cons_prefix_cons.mpr ⟨rfl,hpre⟩,hmatch⟩
    · rintro ⟨⟨u,rfl⟩,hmatch⟩
      exact ⟨lits++u,rfl,(ih h.2).mpr ⟨⟨u,rfl⟩,hmatch⟩⟩

/-- One literal character, in the clause that both meanings have for it. -/
theorem literal_step {c : UInt8} {Q : Prop} {R : List UInt8 → Prop} (hc : literal c) :
    (if c=star then Q else ∃ d t, s=d::t ∧ (c=query ∨ c=d) ∧ R t) ↔ ∃ t, s=c::t ∧ R t := by
  rw [literal,Bool.and_eq_true,bne_iff_ne,bne_iff_ne] at hc
  rw [if_neg hc.1]
  constructor
  · rintro ⟨d,t,rfl,heq,hrest⟩
    exact ⟨t,by rw [heq.resolve_left hc.2],hrest⟩
  · rintro ⟨t,rfl,hrest⟩
    exact ⟨c,t,rfl,.inr rfl,hrest⟩

theorem leftmost_literal (h : ∀ c∈lits, literal c) :
    Leftmost (lits ++ pat) t ↔ lits <+: t ∧ Leftmost pat (t.drop lits.length) :=
  literal_run (fun hc => by rw [Leftmost]; exact literal_step hc) h

theorem leftmost_literal_end (h : ∀ c∈lits, literal c) : Leftmost lits t ↔ t=lits := by
  have hsplit : Leftmost (lits++[]) t ↔ lits <+: t ∧ Leftmost [] (t.drop lits.length) :=
    leftmost_literal h
  rw [append_nil] at hsplit
  rw [hsplit,Leftmost]
  constructor
  · rintro ⟨⟨u,rfl⟩,hrest⟩
    rw [drop_left] at hrest
    rw [hrest,append_nil]
  · rintro rfl
    exact ⟨prefix_rfl,drop_length⟩

section
variable {e : UInt8}

theorem suffix_concat_of_ne_nil (ht : t <:+ s++[e]) (hne : t≠[]) : ∃ u, u <:+ s ∧ t=u++[e] := by
  obtain ⟨v,hv⟩ := ht
  obtain ⟨u,b,rfl⟩ := eq_nil_or_concat' t |>.resolve_left hne
  rw [←append_assoc] at hv
  obtain ⟨rfl,hb⟩ := append_inj' hv rfl
  exact ⟨u,⟨v,rfl⟩,by rw [hb]⟩

theorem concat_suffix_concat : t++[e] <:+ s++[e] ↔ t <:+ s := by
  constructor
  · rintro ⟨v,hv⟩
    rw [←append_assoc] at hv
    exact ⟨v,(append_inj' hv rfl).1⟩
  · rintro ⟨v,rfl⟩
    exact ⟨v,by rw [append_assoc]⟩

theorem prefix_of_concat (h : lits <+: t++[e]) (hlits : e∉lits) : lits <+: t :=
  (prefix_concat_iff.mp h).resolve_left (by rintro rfl; exact hlits (by simp))

/-- The anchor at the end does not change where characters first stand. -/
theorem atFirst_concat (hlits : e∉lits) : AtFirst lits (s++[e]) (t++[e]) ↔ AtFirst lits s t := by
  constructor
  · rintro ⟨hne,hhere,hfirst⟩
    exact ⟨hne,prefix_of_concat hhere hlits,fun u hu hpre => concat_suffix_concat.mp
      (hfirst _ (concat_suffix_concat.mpr hu) (hpre.trans (prefix_append u [e])))⟩
  · rintro ⟨hne,hhere,hfirst⟩
    refine ⟨hne,hhere.trans (prefix_append t [e]),fun u hu hpre => ?_⟩
    obtain ⟨v,hv,rfl⟩ := suffix_concat_of_ne_nil hu (by rintro rfl; exact hne (prefix_nil.mp hpre))
    exact concat_suffix_concat.mpr (hfirst v hv (prefix_of_concat hpre hlits))

/-- Literals that end with the anchor stand at the end only. -/
theorem strposn_last (hs : e∉s) (h : ∃ t, strposn (s++[e]) (lits++[e])=some t) : lits <:+ s ∧
    strposn (s++[e]) (lits++[e])=some (lits++[e]) := by
  obtain ⟨t,ht⟩ := h
  rcases strposn_spec (p := s++[e]) (q := lits++[e]) (by simp) with ⟨hnone,-⟩ | ⟨u,hu,hsuffix,hfirst⟩
  · rw [hnone] at ht
    cases ht
  · obtain ⟨v,hv,rfl⟩ := suffix_concat_of_ne_nil hsuffix
      (by rintro rfl; simpa using prefix_nil.mp hfirst.here)
    rcases prefix_concat_iff.mp hfirst.here with heq | hpre
    · obtain rfl := (append_inj' heq rfl).1
      exact ⟨hv,hu⟩
    · exact absurd (hv.subset (hpre.subset (by simp))) hs
end

/-- The byte that marks the end of both strings. -/
def eanchor : UInt8 := 0xa4

theorem eanchor_literal : literal eanchor=true := by decide

theorem exists_wildcard (h : ¬∀ b ∈ pat, literal b) :
    ∃ w rest, pat=pat.takeWhile literal++w::rest ∧ literal w=false := by
  have hne : pat.dropWhile literal≠[] := fun hnil => h (dropWhile_eq_nil_iff.mp hnil)
  obtain ⟨w,rest,hw⟩ := exists_cons_of_ne_nil hne
  refine ⟨w,rest,by rw [←hw,takeWhile_append_dropWhile],?_⟩
  have := head_dropWhile_not literal hne
  simpa [hw] using this

theorem strpatLoop_star (n : ℕ) (hp : p≠[]) (pat : List UInt8) :
    strpatLoop (n+1) p (star :: pat) =
      (strposn p (pat.takeWhile literal)).elim false fun t =>
        strpatLoop n (t.drop (pat.takeWhile literal).length)
          (pat.drop (pat.takeWhile literal).length) := by
  obtain ⟨c,p,rfl⟩ := exists_cons_of_ne_nil hp
  have hliteral : (fun t => t != star && t != query)=literal := rfl
  rw [strpatLoop,if_pos rfl,hliteral]
  dsimp only
  cases strposn (c::p) (pat.takeWhile literal) <;> rfl

/-- An asterisk with literals up to the end: they stand at the end of the string. -/
theorem strpatLoop_star_last {n : ℕ} (hs : eanchor∉s) (hall : ∀ b ∈ pat, literal b) :
    strpatLoop (n+2) (s++[eanchor]) (star::(pat++[eanchor])) ↔ Leftmost (star :: pat) s := by
  have hlits : ∀ b ∈ pat++[eanchor], literal b := fun b hb =>
    (mem_append.mp hb).elim (hall b) fun h => mem_singleton.mp h ▸ eanchor_literal
  have hright : Leftmost (star :: pat) s ↔ pat <:+ s := by
    rw [Leftmost,if_pos rfl]
    simp only [leftmost_literal_end hall]
    constructor
    · rintro ⟨t,ht,rfl,-⟩
      exact ht
    · exact fun h => ⟨pat,h,rfl,.inl hall⟩
  rw [hright,strpatLoop_star _ (by simp),takeWhile_eq_self_iff.mpr hlits]
  cases hpos : strposn (s++[eanchor]) (pat++[eanchor]) with
  | none =>
    refine iff_of_false (by simp) fun h => ?_
    rcases strposn_spec (p := s++[eanchor]) (q := pat++[eanchor]) (by simp) with
      ⟨-,hout⟩ | ⟨t,ht,-⟩
    · exact hout _ (concat_suffix_concat.mpr h) prefix_rfl
    · rw [hpos] at ht
      cases ht
  | some t =>
    obtain ⟨hsuffix,hlast⟩ := strposn_last hs ⟨t,hpos⟩
    obtain rfl := Option.some.inj (hpos.symm.trans hlast)
    simp [strpatLoop,hsuffix]

/-- An asterisk with a wildcard behind it: what is between them stands at the first place. -/
theorem strpatLoop_star_next {n : ℕ} {w : UInt8} {rest : List UInt8} (hlits : ∀ b∈lits, literal b)
    (hend : eanchor∉lits) (hw : literal w=false)
    (hrest : ∀ u, u <:+ s → (strpatLoop (n+1) (u++[eanchor]) (w::rest++[eanchor]) ↔
      Leftmost (w::rest) u)) :
    strpatLoop (n+2) (s++[eanchor]) (star::(lits++w::rest++[eanchor])) ↔
      Leftmost (star::(lits++w::rest)) s := by
  have hstop : ¬literal w=true := by simp [hw]
  have htake : (lits++w::rest).takeWhile literal=lits := by
    rw [takeWhile_append_of_pos hlits,takeWhile_cons_of_neg hstop,append_nil]
  have htake' : (lits++w::rest++[eanchor]).takeWhile literal=lits := by
    rw [append_assoc,takeWhile_append_of_pos hlits,cons_append,takeWhile_cons_of_neg hstop,
      append_nil]
  have hmore : ¬∀ b∈lits++w::rest, literal b := fun h => hstop (h w (by simp))
  rw [strpatLoop_star _ (by simp),htake',Leftmost,if_pos rfl,htake]
  simp only [hmore,false_or,leftmost_literal hlits]
  rw [append_assoc,drop_left]
  by_cases hne : lits=[]
  · -- an empty string is found at the end, where the wildcard finds nothing
    subst hne
    have hfalse : strpatLoop (n+1) [] (w::rest++[eanchor])=false := by simp [strpatLoop]
    rw [strposn,if_pos rfl]
    refine iff_of_false (by simpa using hfalse) ?_
    rintro ⟨t,-,-,hfirst⟩
    exact hfirst.ne_nil rfl
  rcases strposn_spec (p := s++[eanchor]) hne with ⟨hnone,hout⟩ | ⟨t,ht,hsuffix,hfirst⟩
  · rw [hnone]
    refine iff_of_false (by simp) ?_
    rintro ⟨t,ht,-,hfirst⟩
    exact hout _ (concat_suffix_concat.mpr ht) (hfirst.here.trans (prefix_append t [eanchor]))
  · obtain ⟨u,hu,rfl⟩ := suffix_concat_of_ne_nil hsuffix
      (by rintro rfl; exact hne (prefix_nil.mp hfirst.here))
    have hfirst' := (atFirst_concat hend).mp hfirst
    rw [ht,Option.elim_some,drop_append_of_le_length hfirst'.here.length_le,
      hrest _ ((drop_suffix _ _).trans hu)]
    constructor
    · exact fun h => ⟨u,hu,⟨hfirst'.here,h⟩,hfirst'⟩
    · rintro ⟨t,ht,⟨-,h⟩,hat⟩
      rwa [hat.unique hfirst' ht hu] at h

theorem strpatLoop_iff {n : ℕ} (hn : pat.length+2≤n) (hs : eanchor∉s) (hp : eanchor ∉ pat) :
    strpatLoop n (s++[eanchor]) (pat++[eanchor]) ↔ Leftmost pat s := by
  have hanchor : eanchor≠star ∧ eanchor≠query := by decide
  induction n generalizing s pat with
  | zero => omega
  | succ n ih =>
    obtain ⟨n,rfl⟩ : ∃ k, n=k+1 := ⟨n-1,by omega⟩
    rcases pat with _ | ⟨c,pat⟩
    · rcases s with _ | ⟨d,s⟩
      · simp [strpatLoop,Leftmost,hanchor]
      · rw [mem_cons,not_or] at hs
        simp [strpatLoop,Leftmost,hanchor,hs.1]
    rw [mem_cons,not_or] at hp
    rw [length_cons] at hn
    by_cases hc : c=star
    · subst hc
      by_cases hall : ∀ b ∈ pat, literal b
      · exact strpatLoop_star_last hs hall
      · obtain ⟨w,rest,hsplit,hw⟩ := exists_wildcard hall
        have hlits : ∀ b∈pat.takeWhile literal, literal b := fun b hb => mem_takeWhile_imp hb
        have hend : eanchor∉pat.takeWhile literal := fun h =>
          hp.2 (( takeWhile_prefix _).subset h)
        have hlen := congrArg length hsplit
        rw [length_append,length_cons] at hlen
        rw [hsplit] at hp ⊢
        exact strpatLoop_star_next hlits hend hw fun u hu => ih (by rw [length_cons]; omega)
          (fun h => hs (hu.subset h)) fun h => hp.2 (mem_append_right _ h)
    · rw [Leftmost,if_neg hc]
      rcases s with _ | ⟨d,s⟩
      · -- a `?` may take the anchor, but nothing is left for the anchor of the pattern then
        have hnone : strpatLoop (n+1) [] (pat++[eanchor])=false := by
          rcases pat with _ | ⟨x,pat⟩ <;> simp [strpatLoop,hanchor]
        simp [strpatLoop,hc,hnone,Ne.symm hp.1]
      · rw [mem_cons,not_or] at hs
        have hrest := ih (by omega : pat.length+2≤n+1) hs.2 hp.2
        rw [cons_append,cons_append,strpatLoop,if_neg hc]
        by_cases heq : c=query ∨ c=d
        · simp [heq,hrest]
        · simp [heq]

/-- Behind the last asterisk only characters that stand for themselves, and between two asterisks at
least one of them, with question marks at most behind them. -/
def Simple : List UInt8 → Prop
  | [] => True
  | c :: pat => (c=star → (∀ b ∈ pat, literal b) ∨ ∃ lits k rest, lits≠[] ∧
      (∀ b∈lits, literal b) ∧ pat=lits++(replicate k query++star::rest)) ∧ Simple pat

theorem matches_literal (h : ∀ c∈lits, literal c) :
    Matches (lits ++ pat) t ↔ lits <+: t ∧ Matches pat (t.drop lits.length) :=
  literal_run (fun hc => by rw [Matches]; exact literal_step hc) h

/-- Question marks before an asterisk match the more, the more is left of the string. -/
theorem matches_query_mono {k : ℕ} (h : Matches (replicate k query++star :: pat) t)
    (ht : t <:+ s) : Matches (replicate k query++star :: pat) s := by
  induction k generalizing s t with
  | zero =>
    rw [replicate_zero,nil_append,Matches,if_pos rfl] at h ⊢
    obtain ⟨u,hu,hmatch⟩ := h
    exact ⟨u,hu.trans ht,hmatch⟩
  | succ k ih =>
    rw [replicate_succ,cons_append,Matches,if_neg (by decide)] at h ⊢
    obtain ⟨d,u,rfl,-,hmatch⟩ := h
    obtain ⟨d',v,rfl⟩ := exists_cons_of_ne_nil (ne_nil_of_mem (ht.subset mem_cons_self))
    refine ⟨d',v,rfl,.inl rfl,ih hmatch ?_⟩
    rcases suffix_cons_iff.mp ht with heq | hv
    · exact (cons.inj heq).2 ▸ suffix_rfl
    · exact (suffix_cons d u).trans hv

theorem drop_suffix_drop (h : t <:+ s) (n : ℕ) : t.drop n <:+ s.drop n := by
  obtain ⟨v,rfl⟩ := h
  refine ⟨((v++t).drop n).take v.length,?_⟩
  nth_rewrite 2 [←take_append_drop v.length ((v++t).drop n)]
  rw [drop_drop,Nat.add_comm,←drop_drop,drop_left]

/-- The first place is as good as any for a simple pattern. -/
theorem leftmost_of_simple (hsimple : Simple pat) (h : Matches pat s) : Leftmost pat s := by
  induction pat generalizing s with
  | nil => exact h
  | cons c pat ih =>
    rw [Matches] at h
    rw [Leftmost]
    split_ifs at h ⊢ with hc
    · obtain ⟨t,ht,hmatch⟩ := h
      rcases hsimple.1 hc with hall | ⟨lits,k,rest,hne,hlits,rfl⟩
      · exact ⟨t,ht,ih hsimple.2 hmatch,.inl hall⟩
      have htake : (lits++(replicate k query++star::rest)).takeWhile literal=lits := by
        rw [takeWhile_append_of_pos hlits]
        cases k with
        | zero => simp [takeWhile_cons_of_neg (show ¬literal star=true by decide)]
        | succ k => simp [replicate_succ,takeWhile_cons_of_neg (show ¬literal query=true by decide)]
      obtain ⟨hpre,hrest⟩ := (matches_literal hlits).mp hmatch
      rcases strposn_spec (p := s) hne with ⟨-,hout⟩ | ⟨u,-,hu,hfirst⟩
      · exact absurd hpre (hout t ht)
      · have hmatch' : Matches (lits++(replicate k query++star::rest)) u :=
          (matches_literal hlits).mpr ⟨hfirst.here,
            matches_query_mono hrest (drop_suffix_drop (hfirst.first t ht hpre) _)⟩
        exact ⟨u,hu,ih hsimple.2 hmatch',.inr (by rwa [htake])⟩
    · obtain ⟨d,t,hd,heq,hmatch⟩ := h
      exact ⟨d,t,hd,heq,ih hsimple.2 hmatch⟩

/-- `strpat` is right about a string exactly when a match is to be had with each asterisk at its
first place. -/
theorem strpat_right_iff (s pat : List UInt8) (hs : ∀ c∈s, c<128) (hp : ∀ c ∈ pat, c<128) :
    (strpat s pat ↔ Matches pat s) ↔ (Matches pat s → Leftmost pat s) := by
  have hstep : strpat s pat=strpatLoop (pat.length+2) (s++[0xa4]) (pat++[0xa4]) := by
    rw [strpat,strpatLoop,if_neg (by decide),if_pos (Or.inr rfl)]
  have hloop : strpat s pat ↔ Leftmost pat s := by
    rw [hstep]
    exact strpatLoop_iff le_rfl (fun h => absurd (hs _ h) (by decide))
      fun h => absurd (hp _ h) (by decide)
  rw [hloop]
  exact ⟨fun h => h.mpr,fun h => ⟨Leftmost.matches,h⟩⟩

/-- `a*c?*` is simple, and matches `xacb` rightly not, `abcd` rightly. -/
theorem strpat_right_iff_simple :
    (strpat [120,97,99,98] [97,star,99,query,star] ↔
      Matches [97,star,99,query,star] [120,97,99,98]) ∧
    (strpat [97,98,99,100] [97,star,99,query,star] ↔
      Matches [97,star,99,query,star] [97,98,99,100]) := by
  have hsimple : Simple [97,star,99,query,star] :=
    ⟨fun h => absurd h (by decide),fun _ => .inr ⟨[99],1,[],by simp,by decide +kernel,rfl⟩,
      fun h => absurd h (by decide),fun h => absurd h (by decide),fun _ => .inl (by simp),trivial⟩
  exact ⟨(strpat_right_iff _ _ (by decide +kernel) (by decide +kernel)).mpr
      (leftmost_of_simple hsimple),
    (strpat_right_iff _ _ (by decide +kernel) (by decide +kernel)).mpr
      (leftmost_of_simple hsimple)⟩

theorem strpat_star_any : strpat [97] [star,query]=false ∧ Matches [star,query] [97] :=
  ⟨by decide,[97],suffix_rfl,97,[],rfl,Or.inl rfl,rfl⟩

end Pmon.SetEnv
