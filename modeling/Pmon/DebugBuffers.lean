import Pmon.DebugReplies

/-!
# Buffers of the remote debugger

The words of a request go into an array of eight, and its first two into replies of 80 bytes. No
size is tested.
-/

namespace Pmon.DebugRequest
open List
open BptTable (Env)
open DebugPacket (MAXMSG putpkt)
variable {c : Config}

def IsQuote (ch : Char) : Prop := ch = '\x27' ∨ ch = '\x22'

instance (ch : Char) : Decidable (IsQuote ch) := inferInstanceAs (Decidable (_ ∨ _))

inductive Splits : List Char → List (List Char) → Prop
  | blank {gap : List Char} (hgap : ∀ ch∈gap, ch ≤ ' ') : Splits gap []
  | word {gap w tail : List Char} {first : Char} {av : List (List Char)}
      (hgap : ∀ ch∈gap, ch ≤ ' ') (hfirst : ' ' < first) (hquote : ¬ IsQuote first)
      (hw : ∀ ch∈w, ' ' < ch) (hstop : ∀ ch∈tail.head?, ch ≤ ' ')
      (hrest : Splits (tail.drop 1) av) : Splits (gap++first::(w++tail)) ((first::w)::av)
  | quoted {gap w tail : List Char} {q : Char} {av : List (List Char)}
      (hgap : ∀ ch∈gap, ch ≤ ' ') (hquote : IsQuote q) (hw : ∀ ch∈w, ch≠q)
      (hstop : ∀ ch∈tail.head?, ch=q) (hrest : Splits (tail.drop 2) av) :
      Splits (gap++q::(w++tail)) (w::av)

theorem IsQuote.blank_lt {ch : Char} (h : IsQuote ch) : ' ' < ch := by
  rcases h with rfl | rfl <;> decide

theorem span_append {p : Char → Bool} (run tail : List Char) (hrun : ∀ ch∈run, p ch=true)
    (htail : ∀ ch∈tail.head?, p ch=false) :
    (run++tail).takeWhile p=run ∧ (run++tail).dropWhile p=tail := by
  rw [takeWhile_append_of_pos hrun,dropWhile_append_of_pos hrun]
  cases tail with
  | nil => exact ⟨append_nil run,rfl⟩
  | cons ch tail =>
    have hch : ¬ p ch=true := by
      rw [htail ch rfl]
      exact Bool.false_ne_true
    rw [takeWhile_cons_of_neg hch,dropWhile_cons_of_neg hch,append_nil]
    exact ⟨rfl,rfl⟩

theorem Splits.argvizeLoop_eq {s : List Char} {av : List (List Char)} (h : Splits s av) {n : ℕ}
    (hn : av.length≤n) : argvizeLoop n s=av := by
  induction h generalizing n with
  | blank hgap =>
    cases n with
    | zero => rfl
    | succ n =>
      have hskip := (span_append (p := (· ≤ ' ')) _ []
        (fun ch hch => decide_eq_true (hgap ch hch)) (by simp)).2
      rw [append_nil] at hskip
      rw [argvizeLoop,hskip]
  | @word gap w tail first av hgap hfirst hquote hw hstop _ ih =>
    obtain ⟨n,rfl⟩ : ∃ m, n=m+1 := ⟨n-1,by rw [length_cons] at hn; omega⟩
    have hskip := (span_append (p := (· ≤ ' ')) gap (first::(w++tail))
      (fun ch hch => decide_eq_true (hgap ch hch)) (by simpa using hfirst)).2
    have hspan := span_append (p := (' ' < ·)) w tail
      (fun ch hch => decide_eq_true (hw ch hch)) (fun ch hch => by simpa using hstop ch hch)
    rw [argvizeLoop,hskip]
    dsimp only
    rw [if_neg (show ¬ (_ ∨ _) from hquote),hspan.1,hspan.2,ih (Nat.le_of_succ_le_succ hn)]
  | @quoted gap w tail q av hgap hquote hw hstop _ ih =>
    obtain ⟨n,rfl⟩ : ∃ m, n=m+1 := ⟨n-1,by rw [length_cons] at hn; omega⟩
    have hskip := (span_append (p := (· ≤ ' ')) gap (q::(w++tail))
      (fun ch hch => decide_eq_true (hgap ch hch)) (by simpa using hquote.blank_lt)).2
    have hspan := span_append (p := (· ≠ q)) w tail
      (fun ch hch => decide_eq_true (hw ch hch)) (fun ch hch => by simpa using hstop ch hch)
    rw [argvizeLoop,hskip]
    dsimp only
    rw [if_pos (show _ ∨ _ from hquote),hspan.1,hspan.2,ih (Nat.le_of_succ_le_succ hn)]

theorem head_dropWhile {p : Char → Bool} {l : List Char} {ch : Char}
    (h : ch∈(l.dropWhile p).head?) : p ch=false := by
  have := head?_dropWhile_not p l
  rw [Option.mem_def.mp h] at this
  exact this

theorem splits_argvizeLoop {n : ℕ} {s : List Char} (hn : s.length≤n) :
    Splits s (argvizeLoop n s) := by
  induction n generalizing s with
  | zero =>
    obtain rfl := length_eq_zero_iff.mp (Nat.le_zero.mp hn)
    exact .blank (by simp)
  | succ n ih =>
    have hsplit := takeWhile_append_dropWhile (p := (· ≤ ' ')) (l := s)
    have hgap : ∀ ch∈s.takeWhile (· ≤ ' '), ch ≤ ' ' := fun ch hch =>
      of_decide_eq_true (all_eq_true.mp all_takeWhile ch hch)
    have hhead := fun ch => @head_dropWhile (· ≤ ' ') s ch
    rw [argvizeLoop]
    generalize s.dropWhile (· ≤ ' ')=rest at hsplit hhead ⊢
    cases rest with
    | nil =>
      rw [append_nil] at hsplit
      exact .blank (hsplit ▸ hgap)
    | cons q t =>
      have hlen : t.length≤n := by
        have := congrArg List.length hsplit
        rw [length_append,length_cons] at this
        omega
      have hq : ' ' < q := by simpa using hhead q rfl
      dsimp only
      rw [←hsplit]
      have hshort (p : Char → Bool) (k : ℕ) : ((t.dropWhile p).drop k).length≤n := by
        have := (t.dropWhile_sublist p).length_le
        rw [length_drop]
        omega
      split
      · rename_i hquote
        have ht := takeWhile_append_dropWhile (p := (· ≠ q)) (l := t)
        have hrule : Splits (_++q::(t.takeWhile (· ≠ q)++t.dropWhile (· ≠ q))) _ :=
          .quoted hgap hquote
            (fun ch hch => of_decide_eq_true (all_eq_true.mp all_takeWhile ch hch))
            (fun ch hch => by simpa using head_dropWhile hch) (ih (hshort _ 2))
        rwa [ht] at hrule
      · rename_i hquote
        have ht := takeWhile_append_dropWhile (p := (' ' < ·)) (l := t)
        have hrule : Splits (_++q::(t.takeWhile (' ' < ·)++t.dropWhile (' ' < ·))) _ :=
          .word hgap hq hquote
            (fun ch hch => of_decide_eq_true (all_eq_true.mp all_takeWhile ch hch))
            (fun ch hch => by simpa using head_dropWhile hch) (ih (hshort _ 1))
        rwa [ht] at hrule

structure RequestString (rxstr : List Char) : Prop where
  length : rxstr.length<MAXMSG
  chars : ∀ ch∈rxstr, 0 < ch.toNat ∧ ch.toNat<128

def Fits (c : Config) (rxstr : List Char) : Prop := (argvize rxstr).length≤8 ∧
    ∀ (env : Env) (junk : Junk c) (s : State c), Installed env s.table →
      ∀ msg∈(dbgTurn env junk rxstr s).replies,
        msg.length+1≤80 ∧ ∀ seq, (putpkt seq (some (msg.map Char.toNat))).length≤80

def FittingWords (c : Config) (av : List (List Char)) : Prop := 2≤av.length ∧ av.length≤8 ∧
    ∀ w∈room c av, (av[0]?.getD []).length+1+(av[1]?.getD []).length+w≤73

theorem length_putpkt (seq : ℕ) (text : List ℕ) :
    (putpkt seq (some text)).length=text.length+7 := by
  simp only [putpkt,DebugPacket.frame,DebugPacket.csumBytes,length_append,
    length_cons,length_nil]
  omega

theorem request_words {junk : Junk c} {av : List (List Char)} (h : 2≤av.length) :
    (request junk av).pid=av[0]?.getD [] ∧ (request junk av).req=av[1]?.getD [] := by
  have h0 : av[0]?=some (av.get ⟨0,by omega⟩) := getElem?_eq_getElem _
  have h1 : av[1]?=some (av.get ⟨1,by omega⟩) := getElem?_eq_getElem _
  rw [request,h0,h1]
  exact ⟨rfl,rfl⟩

theorem Fits.reply_le {rxstr : List Char} (h : Fits c rxstr) {env : Env} {junk : Junk c}
    {s : State c} (hinst : Installed env s.table) {msg : List Char}
    (hmsg : msg∈(dbgTurn env junk rxstr s).replies) : msg.length≤73 := by
  have hframe := (h.2 env junk s hinst msg hmsg).2 0
  rw [length_putpkt,length_map] at hframe
  omega

theorem Fits.two_le {rxstr : List Char} (h : Fits c rxstr) : 2≤(argvize rxstr).length := by
  by_contra hfew
  have hbad : dbgTurn longEnv longJunk rxstr (longState c 0) =
      (request longJunk (argvize rxstr)).bad (longState c 0) := if_pos (by omega)
  have hle := h.reply_le (installed_long c 0) (by rw [hbad]; exact mem_singleton_self _)
  have hreq : (request (longJunk : Junk c) (argvize rxstr)).req=List.replicate MAXMSG 'a' := by
    have hnone : (argvize rxstr)[1]?=none := getElem?_eq_none (by omega)
    rw [request,hnone]
    rfl
  rw [Request.answer,length_reply,hreq,length_replicate,MAXMSG] at hle
  omega

/-- A request stays within the buffers exactly when its words leave room for the longest reply. -/
theorem fits_iff (c : Config) (rxstr : List Char) (h : RequestString rxstr) :
    Fits c rxstr ↔ ∃ av, Splits rxstr av ∧ FittingWords c av := by
  have hshort : rxstr.length≤MAX_AC := by
    have := h.length
    unfold MAXMSG at this
    unfold MAX_AC
    omega
  constructor
  · intro hfits
    refine ⟨argvize rxstr,splits_argvizeLoop hshort,hfits.two_le,hfits.1, fun w hw => ?_⟩
    obtain ⟨s,hinst,msg,hmsg,hlen⟩ := doReq_reaches hw
    have hle := hfits.reply_le hinst hmsg
    rw [hlen,(request_words hfits.two_le).1,(request_words hfits.two_le).2] at hle
    exact hle
  · rintro ⟨av,hsplit,htwo,height,hroom⟩
    have hav : argvize rxstr=av := hsplit.argvizeLoop_eq (height.trans (by decide))
    refine ⟨hav ▸ height, fun env junk s hinst msg hmsg => ?_⟩
    rw [dbgTurn,hav] at hmsg
    obtain ⟨w,hw,hlen⟩ := doReq_within hinst msg hmsg
    rw [(request_words htwo).1,(request_words htwo).2] at hlen
    have hle := hlen.trans (hroom w hw)
    refine ⟨by omega, fun seq => ?_⟩
    rw [length_putpkt,length_map]
    omega

theorem fits_short : Fits wideConfig ['1', ' ', 'r', ' ', '8', ' ', '0'] := by
  refine (fits_iff wideConfig _ ⟨by decide, by simp⟩).mpr ⟨_,splits_argvizeLoop le_rfl,?_⟩
  unfold FittingWords
  decide +kernel

theorem not_fits_nine :
    RequestString ['1', ' ', 'r', ' ', '8', ' ', '0', ' ', '1', ' ', '1', ' ', '1', ' ', '1', ' ', '1'] ∧
      ¬ Fits wideConfig
        ['1', ' ', 'r', ' ', '8', ' ', '0', ' ', '1', ' ', '1', ' ', '1', ' ', '1', ' ', '1'] := by
  refine ⟨⟨by decide, by simp⟩, fun h => ?_⟩
  exact absurd h.1 (by decide +kernel)

end Pmon.DebugRequest
