import Mathlib.Data.List.TakeWhile
import Pmon.ValidPc

/-!
# Words of a command line

Words that were rendered bare or between quotes come back from `argvize`. `g` joins its operands
without quotes.
-/

namespace Pmon.ArgWords
open List
open ValidPc (argvize argvizeLoop blank text MAX_AC)

structure Bare (w : List UInt8) : Prop where
  nonempty : w≠[]
  dark : ∀ b∈w, blank b=false
  unquoted : ∀ b∈w.head?, ¬(b=39 ∨ b=34)

inductive Rendered (w : List UInt8) : List UInt8 → Prop
  | bare (hw : w≠[]) (hspace : 32∉w) (hquote : ∀ b∈w.head?, ¬(b=39 ∨ b=34)) :
    Rendered w w
  | quoted {q : UInt8} (hq : q=39 ∨ q=34) (hw : q∉w) : Rendered w (q::(w++[q]))

inductive Joined : List (List UInt8) → List UInt8 → Prop
  | nil : Joined [] []
  | one {w t : List UInt8} (h : Rendered w t) : Joined [w] t
  | cons {w t s : List UInt8} {ws : List (List UInt8)} (h : Rendered w t) (k : ℕ)
    (hs : Joined ws s) : Joined (w::ws) (t++(List.replicate (k+1) 32++s))

abbrev Printable (b : UInt8) : Prop := 32≤b ∧ b≤126

variable {w s t : List UInt8} {ws : List (List UInt8)} {b : UInt8} {n : ℕ}

theorem blank_of_printable (h : Printable b) (hspace : b≠32) : blank b=false := by
  obtain ⟨hlow,hhigh⟩ := h
  have hne : b.toNat≠32 := fun heq => hspace (UInt8.toNat_inj.mp heq)
  rw [UInt8.le_iff_toNat_le] at hlow hhigh
  have h32 : (32 : UInt8).toNat=32 := rfl
  have h126 : (126 : UInt8).toNat=126 := rfl
  have h128 : (128 : UInt8).toNat=128 := rfl
  rw [blank,decide_eq_false_iff_not,UInt8.le_iff_toNat_le,UInt8.le_iff_toNat_le]
  omega

theorem argvizeLoop_blank (n : ℕ) (hb : blank b=true) (s : List UInt8) :
    argvizeLoop n (b::s)=argvizeLoop n s := by
  cases n with
  | zero => rfl
  | succ n => rw [argvizeLoop,argvizeLoop,dropWhile_cons_of_pos hb]

theorem argvizeLoop_spaces (n k : ℕ) (s : List UInt8) :
    argvizeLoop n (List.replicate k 32++s)=argvizeLoop n s := by
  induction k with
  | zero => rfl
  | succ k ih => exact (argvizeLoop_blank n (by decide) _).trans ih

theorem argvizeLoop_bare (hw : Bare w) (hs : ∀ b∈s.head?, blank b=true) :
    argvizeLoop (n+1) (w++s)=w::argvizeLoop n (s.drop 1) := by
  obtain ⟨hne,hdark,hquote⟩ := hw
  cases w with
  | nil => exact absurd rfl hne
  | cons c w =>
    have hc : blank c=false := hdark c mem_cons_self
    have hw : ∀ b∈w, (!blank b)=true := fun b hb => by
      rw [hdark b (mem_cons_of_mem c hb)]
      rfl
    have hend : s.takeWhile (!blank ·)=[] ∧ s.dropWhile (!blank ·)=s := by
      cases s with
      | nil => exact ⟨rfl,rfl⟩
      | cons b s => simp [hs b rfl]
    rw [argvizeLoop,cons_append,dropWhile_cons_of_neg (by rw [hc]; decide)]
    dsimp only
    rw [if_neg (hquote c rfl),takeWhile_append_of_pos hw,dropWhile_append_of_pos hw,
      hend.1,hend.2,append_nil]

theorem argvizeLoop_quoted {q : UInt8} (hq : q=39 ∨ q=34) (hw : q∉w) :
    argvizeLoop (n+1) (q::(w++q::s))=w::argvizeLoop n (s.drop 1) := by
  have hdark : ¬blank q=true := by rcases hq with rfl | rfl <;> decide
  have hne : ∀ b∈w, decide (b≠q)=true := fun b hb =>
    decide_eq_true fun heq => hw (heq ▸ hb)
  rw [argvizeLoop,dropWhile_cons_of_neg hdark]
  dsimp only
  rw [if_pos hq,takeWhile_append_of_pos hne,dropWhile_append_of_pos hne,
    takeWhile_cons_of_neg (by simp),dropWhile_cons_of_neg (by simp),append_nil]
  rfl

theorem Rendered.argvizeLoop_eq (h : Rendered w t) (hw : ∀ b∈w, Printable b)
    (hs : ∀ b∈s.head?, blank b=true) :
    argvizeLoop (n+1) (t++s)=w::argvizeLoop n (s.drop 1) := by
  cases h with
  | bare hne hspace hquote =>
    refine argvizeLoop_bare ⟨hne,fun b hb => ?_,hquote⟩ hs
    exact blank_of_printable (hw b hb) fun heq => hspace (heq ▸ hb)
  | quoted hq hnot =>
    rw [cons_append,append_assoc]
    exact argvizeLoop_quoted hq hnot

theorem Joined.argvizeLoop_eq (h : Joined ws s) (hws : ∀ w∈ws, ∀ b∈w, Printable b)
    (hn : ws.length≤n) : argvizeLoop n s=ws := by
  induction h generalizing n with
  | nil => cases n <;> rfl
  | @one w t h =>
    obtain ⟨m,rfl⟩ := Nat.exists_eq_add_of_le' hn
    have hword := h.argvizeLoop_eq (n := m) (s := []) (hws w mem_cons_self) (by simp)
    rw [append_nil] at hword
    exact hword.trans (by cases m <;> rfl)
  | @cons w t s ws h k _ ih =>
    obtain ⟨m,rfl⟩ : ∃ m, n=m+1 := Nat.exists_eq_add_of_le' (Nat.le_of_add_left_le hn)
    rw [h.argvizeLoop_eq (hws w mem_cons_self) (by simp [replicate_succ,blank])]
    rw [replicate_succ,cons_append,drop_one,tail_cons,argvizeLoop_spaces]
    rw [ih (fun v hv => hws v (mem_cons_of_mem w hv)) (Nat.le_of_succ_le_succ hn)]

/-- Up to a hundred words come back as they were written. -/
theorem argvize_joined (h : Joined ws s) (hws : ∀ w∈ws, ∀ b∈w, Printable b)
    (hlen : ws.length≤100) : argvize s=ws :=
  h.argvizeLoop_eq hws hlen

theorem argvize_joined_two : argvize (text "b  'a c'")=[text "b",text "a c"] := argvize_joined
    (.cons (t := text "b")
      (.bare (by decide +kernel) (by decide +kernel) (by decide +kernel)) 1
      (.one (.quoted (.inl rfl) (by decide +kernel))))
    (by decide +kernel) (by decide +kernel)

def clientcmd (av : List (List UInt8)) : List UInt8 := av.flatMap (· ++ [32])

/-- The arguments that `go` hands to `initstack`, unless the text runs off `clientcmd`. -/
def goArgs (operands : List (List UInt8)) : Option (List (List UInt8)) :=
  let cmd := clientcmd (text "g" :: operands)
  if cmd.length<LINESZ then some (argvize cmd) else none

theorem clientcmd_cons (w : List UInt8) (ws : List (List UInt8)) :
    clientcmd (w::ws)=w++32::clientcmd ws := by
  rw [clientcmd,flatMap_cons,append_assoc]
  rfl

def Closed (s : List UInt8) : Prop := s=[] ∨ [32] <:+ s

theorem Closed.suffix (h : Closed s) (ht : t <:+ s) : Closed t := by
  rcases h with rfl | h
  · exact .inl (suffix_nil.mp ht)
  · rcases t.eq_nil_or_concat with rfl | ⟨t',b,rfl⟩
    · exact .inl rfl
    · exact .inr (suffix_of_suffix_length_le h ht (by simp))

theorem closed_clientcmd (ws : List (List UInt8)) : Closed (clientcmd ws) := by
  rcases ws.eq_nil_or_concat with rfl | ⟨ws,w,rfl⟩
  · exact .inl rfl
  · refine .inr ⟨clientcmd ws++w,?_⟩
    simp [clientcmd]

theorem length_clientcmd_argvizeLoop (n : ℕ) (hs : Closed s) :
    (clientcmd (argvizeLoop n s)).length ≤ s.length := by
  induction n generalizing s with
  | zero => exact Nat.zero_le _
  | succ n ih =>
    have hskip := dropWhile_suffix blank (l := s)
    have hle := hskip.length_le
    have hclosed := hs.suffix hskip
    rw [argvizeLoop]
    cases hd : s.dropWhile blank with
    | nil => exact Nat.zero_le _
    | cons c r =>
      rw [hd] at hle hclosed
      have hr := hclosed.suffix (suffix_cons c r)
      dsimp only
      split
      · have hparts := congrArg List.length (r.takeWhile_append_dropWhile (p := (· ≠ c)))
        have hrest := ih (hr.suffix ((drop_suffix 2 _).trans (dropWhile_suffix (· ≠ c))))
        rw [clientcmd_cons]
        simp only [length_append,length_cons,length_drop] at hparts hrest hle ⊢
        omega
      · have hparts := congrArg List.length (r.takeWhile_append_dropWhile (p := (!blank ·)))
        have hrest := ih (hr.suffix ((drop_suffix 1 _).trans (dropWhile_suffix (!blank ·))))
        -- the word does not reach the end of the text
        have hend : r.dropWhile (!blank ·)≠[] := by
          intro hnil
          have hc := head?_dropWhile_not blank s
          rw [hd] at hc
          have hdark := dropWhile_eq_nil_iff.mp hnil
          rcases hclosed with hnone | hlast
          · cases hnone
          · rcases mem_cons.mp (hlast.mem mem_cons_self) with rfl | hmem
            · cases hc
            · exact absurd (hdark 32 hmem) (by decide)
        have hpos := length_pos_iff.mpr hend
        rw [clientcmd_cons]
        simp only [length_append,length_cons,length_drop] at hparts hrest hle ⊢
        omega

theorem argvizeLoop_clientcmd (hws : ∀ w∈ws, Bare w) (hn : ws.length≤n) :
    argvizeLoop n (clientcmd ws)=ws := by
  induction ws generalizing n with
  | nil => cases n <;> rfl
  | cons w ws ih =>
    obtain ⟨m,rfl⟩ : ∃ m, n=m+1 := Nat.exists_eq_add_of_le' (Nat.le_of_add_left_le hn)
    rw [clientcmd_cons,argvizeLoop_bare (hws w mem_cons_self) (by simp [blank])]
    exact congrArg (w :: ·) (ih (fun v hv => hws v (mem_cons_of_mem w hv))
      (Nat.le_of_succ_le_succ hn))

theorem bare_of_argvizeLoop (h : argvizeLoop n (clientcmd ws)=ws) : ∀ w∈ws, Bare w := by
  induction ws generalizing n with
  | nil => exact fun w hw => absurd hw not_mem_nil
  | cons w ws ih =>
    -- a text that starts with a blank is too short for its words
    have hfirst : ∀ b r, w++32::clientcmd ws=b::r → blank b=false := by
      intro b r hr
      by_contra hb
      rw [clientcmd_cons,hr,argvizeLoop_blank n (Bool.eq_true_of_not_eq_false hb)] at h
      have hclosed : Closed r := by
        refine (closed_clientcmd (w::ws)).suffix ?_
        rw [clientcmd_cons,hr]
        exact suffix_cons b r
      have hle := length_clientcmd_argvizeLoop n hclosed
      rw [h,clientcmd_cons,hr,length_cons] at hle
      omega
    cases n with
    | zero => cases h
    | succ n =>
    cases w with
    | nil => exact absurd (hfirst 32 _ rfl) (by decide)
    | cons c w =>
      have hdark := hfirst c _ rfl
      have hsplit := h
      rw [clientcmd_cons,cons_append,argvizeLoop,
        dropWhile_cons_of_neg (by rw [hdark]; decide)] at hsplit
      dsimp only at hsplit
      split at hsplit
      · have hword := (List.cons.inj hsplit).1
        have hmem : c∈(w++32::clientcmd ws).takeWhile (· ≠ c) := hword ▸ mem_cons_self
        have hne := mem_takeWhile_imp hmem
        exact absurd rfl (of_decide_eq_true hne)
      · rename_i hquote
        have hword := (List.cons.inj (List.cons.inj hsplit).1).2
        have hbare : Bare (c::w) := by
          refine ⟨cons_ne_nil c w,fun b hb => ?_,fun b hb => ?_⟩
          · rcases mem_cons.mp hb with rfl | hb
            · exact hdark
            · have hb' := mem_takeWhile_imp (hword ▸ hb)
              exact (Bool.not_eq_true' _).mp hb'
          · obtain rfl : c=b := Option.some.inj hb
            exact hquote
        rw [clientcmd_cons,argvizeLoop_bare hbare (by simp [blank])] at h
        exact forall_mem_cons.mpr ⟨hbare,ih (List.cons.inj h).2⟩

theorem length_le_clientcmd (hws : ∀ w∈ws, Bare w) : 2*ws.length≤(clientcmd ws).length := by
  induction ws with
  | nil => exact le_rfl
  | cons w ws ih =>
    obtain ⟨hw,hrest⟩ := forall_mem_cons.mp hws
    have hpos := length_pos_iff.mpr hw.nonempty
    have := ih hrest
    rw [clientcmd_cons,length_append,length_cons,length_cons]
    omega

/-- The client gets the operands exactly when none needed quotes and `clientcmd` has room for them.
-/
theorem goArgs_iff (operands : List (List UInt8)) : goArgs operands=some (text "g" :: operands) ↔
      (∀ w∈operands, Bare w) ∧ (clientcmd (text "g" :: operands)).length<LINESZ := by
  rw [goArgs]
  constructor
  · intro h
    split at h
    · rename_i hfits
      have hbare := bare_of_argvizeLoop (Option.some.inj h)
      exact ⟨fun w hw => hbare w (mem_cons_of_mem _ hw),hfits⟩
    · cases h
  · rintro ⟨hbare,hfits⟩
    have hall : ∀ w∈text "g" :: operands, Bare w := forall_mem_cons.mpr
        ⟨⟨by decide +kernel, by decide +kernel, by decide +kernel⟩,hbare⟩
    have hlen := length_le_clientcmd hall
    rw [if_pos hfits]
    rw [LINESZ] at hfits
    exact congrArg some (argvizeLoop_clientcmd hall (by rw [MAX_AC]; omega))

theorem goArgs_splits_operand : argvize (text "g 'a b'")=[text "g",text "a b"] ∧
      goArgs [text "a b"]=some [text "g",text "a",text "b"] := by
  decide +kernel

end Pmon.ArgWords
