import Pmon.BptTable

/-!
# Command strings of breakpoints

The functions that remove an entry free its string and leave the pointer behind, which `clrbpts`
frees again.
-/

namespace Pmon.BptTable
open List
open Go (NO_BPT)

def Released (s : Table) (b : Slot) : Prop := ∃ p, b.cmdstr=some p ∧ p∈s.freed

instance (s : Table) (b : Slot) : Decidable (Released s b) :=
  inferInstanceAs (Decidable (∃ p∈b.cmdstr, p∈s.freed))

/-- No block was freed twice, and no plain breakpoint has a command string. -/
structure Sound (s : Table) : Prop where
  freedOnce : s.freed.Nodup
  plain : ∀ b∈s.bpt, b.addr≠NO_BPT → b.plain=true → b.cmdstr=none

structure Owned (s : Table) : Prop extends Sound s where
  freedLt : ∀ p∈s.freed, p<s.blocks.length
  heldLt : ∀ b∈s.bpt, ∀ p, b.cmdstr=some p → p<s.blocks.length
  apart : (s.bpt.filterMap Slot.cmdstr).Nodup
  live : ∀ b∈s.bpt, b.addr≠NO_BPT → ¬ Released s b

theorem owned_start (funcs : WatchFuncs) : Owned (Table.start funcs) := by
  have hunused : ∀ b∈(Table.start funcs).bpt, b=Slot.unused := fun b hb =>
    eq_of_mem_replicate hb
  have hnone : (Table.start funcs).bpt.filterMap Slot.cmdstr=[] := by
    rw [filterMap_eq_nil_iff]
    intro b hb
    rw [hunused b hb]
    rfl
  refine ⟨⟨nodup_nil,?_⟩,?_,?_,?_,?_⟩
  · intro b hb huse
    rw [hunused b hb] at huse
    exact absurd rfl huse
  · exact fun p hp => absurd hp not_mem_nil
  · intro b hb p hp
    rw [hunused b hb] at hp
    cases hp
  · rw [hnone]
    exact nodup_nil
  · rintro b hb huse ⟨p,hp,hfreed⟩
    exact absurd hfreed not_mem_nil

section
variable {s t : Table} {l₁ l₂ : List Slot} {b c : Slot}

theorem mem_replaced {d : Slot} (hd : d∈l₁++c::l₂) : d=c ∨ d∈l₁++b::l₂ := by
  simp only [mem_append,mem_cons] at hd ⊢
  tauto

section
variable (h : Owned s) (hbpt : s.bpt=l₁++b::l₂)
include h hbpt

theorem Owned.cmdstr_ne {d : Slot} (hd : d∈l₁++l₂) {p : ℕ} (hp : b.cmdstr=some p) :
    d.cmdstr≠some p := by
  intro hdp
  have hnodup := h.apart
  rw [hbpt,filterMap_append,filterMap_cons_some hp,nodup_middle,←filterMap_append] at hnodup
  exact (nodup_cons.mp hnodup).1 (mem_filterMap.mpr ⟨d,hd,hdp⟩)

theorem Owned.release (hb : ¬ Released s b) (htbpt : t.bpt=l₁++c::l₂) (hc : c.addr=NO_BPT)
    (hptr : c.cmdstr=b.cmdstr) (hblocks : t.blocks=s.blocks)
    (hfreed : t.freed=s.freed++b.cmdstr.toList) : Owned t := by
  have hmem : ∀ d∈t.bpt, d=c ∨ d∈l₁++l₂ := by
    intro d hd
    rw [htbpt] at hd
    simp only [mem_append,mem_cons] at hd ⊢
    tauto
  have hold : ∀ d∈l₁++l₂, d∈s.bpt := by
    intro d hd
    rw [hbpt]
    simp only [mem_append,mem_cons] at hd ⊢
    tauto
  have hbmem : b∈s.bpt := by simp [hbpt]
  refine ⟨⟨?_,?_⟩,?_,?_,?_,?_⟩
  · rw [hfreed,nodup_append']
    refine ⟨h.freedOnce,?_,?_⟩
    · cases b.cmdstr <;> simp
    · intro p hp hp'
      exact hb ⟨p,Option.mem_toList.mp hp',hp⟩
  · intro d hd huse
    rcases hmem d hd with rfl | hd
    · exact absurd hc huse
    · exact h.plain d (hold d hd) huse
  · intro p hp
    rw [hfreed,mem_append] at hp
    rw [hblocks]
    rcases hp with hp | hp
    · exact h.freedLt p hp
    · exact h.heldLt b hbmem p (Option.mem_toList.mp hp)
  · intro d hd p hp
    rw [hblocks]
    rcases hmem d hd with rfl | hd
    · exact h.heldLt b hbmem p (hptr ▸ hp)
    · exact h.heldLt d (hold d hd) p hp
  · have happart := h.apart
    rw [hbpt,filterMap_append,filterMap_cons] at happart
    rw [htbpt,filterMap_append,filterMap_cons,hptr]
    exact happart
  · rintro d hd huse ⟨p,hp,hpf⟩
    rcases hmem d hd with rfl | hd
    · exact huse hc
    · rw [hfreed,mem_append] at hpf
      rcases hpf with hpf | hpf
      · exact h.live d (hold d hd) huse ⟨p,hp,hpf⟩
      · exact h.cmdstr_ne hbpt hd (Option.mem_toList.mp hpf) hp

theorem Owned.fill (htbpt : t.bpt=l₁++c::l₂) (hfreed : t.freed=s.freed)
    (hptr : c.cmdstr=none ∧ t.blocks=s.blocks ∨
      c.cmdstr=some s.blocks.length ∧ c.plain=false ∧ ∃ text, t.blocks=s.blocks++[text]) :
    Owned t := by
  have hmem : ∀ d∈t.bpt, d=c ∨ d∈s.bpt := by
    intro d hd
    rw [htbpt] at hd
    rw [hbpt]
    exact mem_replaced hd
  have hlen : s.blocks.length≤t.blocks.length := by
    rcases hptr with ⟨-,hblocks⟩ | ⟨-,-,text,hblocks⟩ <;> simp [hblocks]
  -- the pointers of the table, with that of the entry taken out
  have hrest : ((l₁++l₂).filterMap Slot.cmdstr).Nodup := by
    refine h.apart.sublist ?_
    rw [hbpt]
    exact ((sublist_cons_self b l₂).append_left l₁).filterMap _
  refine ⟨⟨?_,?_⟩,?_,?_,?_,?_⟩
  · rw [hfreed]
    exact h.freedOnce
  · intro d hd huse hplain
    rcases hmem d hd with rfl | hd
    · rcases hptr with ⟨hnone,-⟩ | ⟨-,hnot,-⟩
      · exact hnone
      · rw [hnot] at hplain
        cases hplain
    · exact h.plain d hd huse hplain
  · intro p hp
    rw [hfreed] at hp
    exact (h.freedLt p hp).trans_le hlen
  · intro d hd p hp
    rcases hmem d hd with rfl | hd
    · rcases hptr with ⟨hnone,-⟩ | ⟨hsome,-,text,hblocks⟩
      · rw [hnone] at hp
        cases hp
      · rw [hsome] at hp
        cases hp
        simp [hblocks]
    · exact (h.heldLt d hd p hp).trans_le hlen
  · rw [htbpt,filterMap_append]
    rcases hptr with ⟨hnone,-⟩ | ⟨hsome,-⟩
    · rw [filterMap_cons_none hnone,←filterMap_append]
      exact hrest
    · rw [filterMap_cons_some hsome,nodup_middle,←filterMap_append,nodup_cons]
      refine ⟨?_,hrest⟩
      intro hin
      obtain ⟨d,hd,hdp⟩ := mem_filterMap.mp hin
      have hds : d∈s.bpt := by
        rw [hbpt]
        simp only [mem_append,mem_cons] at hd ⊢
        tauto
      exact absurd (h.heldLt d hds _ hdp) (lt_irrefl _)
  · rintro d hd huse ⟨p,hp,hpf⟩
    rw [hfreed] at hpf
    rcases hmem d hd with rfl | hd
    · rcases hptr with ⟨hnone,-⟩ | ⟨hsome,-⟩
      · rw [hnone] at hp
        cases hp
      · rw [hsome] at hp
        cases hp
        exact absurd (h.freedLt _ hpf) (lt_irrefl _)
    · exact h.live d hd huse ⟨p,hp,hpf⟩
end

theorem Owned.of_watchpoints (h : Owned s) (wps : List Watchpoint) :
    Owned {s with watchpoints := wps} :=
  ⟨⟨h.freedOnce,h.plain⟩,h.freedLt,h.heldLt,h.apart,h.live⟩
end

variable {s : Table}
variable {t : Table} {adr len wpt : ℕ}

theorem Owned.of_cleared (h : Owned s) (hadr : adr≠NO_BPT) (hclear : Cleared wpt adr len s t) :
    Owned t := by
  cases hclear with
  | absent => exact h
  | @found l₁ l₂ b wps hbpt hsame =>
    have huse := h.live b (by rw [hbpt]; simp) (hsame.1 ▸ hadr)
    exact h.release hbpt huse rfl rfl rfl rfl rfl

theorem Owned.of_slotCleared (h : Owned s) (hclear : SlotCleared s t) : Owned t := by
  cases hclear with
  | unused => exact h
  | @found l₁ l₂ b wps hbpt huse =>
    have hlive := h.live b (by rw [hbpt]; simp) huse
    exact h.release hbpt hlive rfl rfl rfl rfl rfl

theorem Owned.clrbpts (h : Owned s) (hnone : ∀ b∈s.bpt, ¬ Released s b) : Owned (clrbpts s) := by
  have hptrs : (BptTable.clrbpts s).bpt.filterMap Slot.cmdstr=s.bpt.filterMap Slot.cmdstr := by
    rw [BptTable.clrbpts,filterMap_map]
    rfl
  have hunused : ∀ b∈(BptTable.clrbpts s).bpt, b.addr=NO_BPT := by
    intro b hb
    obtain ⟨c,-,rfl⟩ := mem_map.mp hb
    rfl
  refine ⟨⟨?_,?_⟩,?_,?_,?_,?_⟩
  · change (s.freed++s.bpt.filterMap Slot.cmdstr).Nodup
    rw [nodup_append']
    refine ⟨h.freedOnce,h.apart,?_⟩
    intro p hp hheld
    obtain ⟨b,hb,hbp⟩ := mem_filterMap.mp hheld
    exact hnone b hb ⟨p,hbp,hp⟩
  · exact fun b hb huse => absurd (hunused b hb) huse
  · intro p hp
    rcases mem_append.mp hp with hp | hheld
    · exact h.freedLt p hp
    · obtain ⟨b,hb,hbp⟩ := mem_filterMap.mp hheld
      exact h.heldLt b hb p hbp
  · intro b hb p hp
    obtain ⟨c,hc,rfl⟩ := mem_map.mp hb
    exact h.heldLt c hc p hp
  · rw [hptrs]
    exact h.apart
  · exact fun b hb huse => absurd (hunused b hb) huse

theorem Owned.attach (env : Env) (left : ℕ) {l₁ l₂ : List Slot} {b c : Slot} (h : Owned s)
    (hbpt : s.bpt=l₁++b::l₂) (str : Option (List Char)) (wps : List Watchpoint) :
    Owned (attach env left l₁.length c str
      {s with watchpoints := wps, bpt := l₁++c::l₂}) := by
  unfold BptTable.attach
  simp only [set_split]
  cases str with
  | none => exact h.fill hbpt rfl rfl (.inl ⟨rfl,rfl⟩)
  | some text =>
    dsimp only
    split
    · exact h.fill hbpt rfl rfl (.inr ⟨rfl,rfl,text,rfl⟩)
    · exact h.fill hbpt rfl rfl (.inl ⟨rfl,rfl⟩)

theorem Owned.setbp (env : Env) (av : List (List Char)) (h : Owned s)
    (hadr : ∀ r∈requests env av Pending.none, r.adr≠NO_BPT) : Owned (setbp env av s).2 := by
  refine setbpArgs_preserves (Q := fun r => r.adr≠NO_BPT) env ?_ ?_ av _ s h hadr
  · intro r s t hr hs henter
    have hclear := hs.of_cleared hr (clrbpt_cleared r.wpt r.adr r.len s)
    have hspec := enter_entered env r.wpt r.adr r.len s
    rw [henter] at hspec
    cases hspec with
    | full => exact hclear
    | refused => exact hclear.of_watchpoints _
  · intro r s t j b left str hr hs henter
    have hclear := hs.of_cleared hr (clrbpt_cleared r.wpt r.adr r.len s)
    have hspec := enter_entered env r.wpt r.adr r.len s
    rw [henter] at hspec
    cases hspec with
    | placed hbpt => exact hclear.attach env left hbpt str _

def Slot.takes (wpt adr len : ℕ) (b : Slot) : Bool := b.addr=NO_BPT || b.same wpt adr len

theorem Cleared.taken (hclear : Cleared wpt adr len s t) {l₁ l₂ : List Slot} {b : Slot}
    (hbpt : t.bpt=l₁++b::l₂) (hfree : b.addr=NO_BPT) (hused : ∀ c∈l₁, c.addr≠NO_BPT) :
    ∃ d, s.bpt.find? (Slot.takes wpt adr len)=some d ∧ d.cmdstr=b.cmdstr := by
  -- entries in use that are not the breakpoint are passed over
  have hpass : ∀ c : Slot, c.addr≠NO_BPT → c.same wpt adr len=false →
      (!c.takes wpt adr len)=true := by
    intro c huse hsame
    simp [Slot.takes,huse,hsame]
  cases hclear with
  | absent habsent =>
    refine ⟨b,find?_eq_some_iff_append.mpr ⟨by simp [Slot.takes,hfree],l₁,l₂,hbpt,?_⟩,rfl⟩
    intro c hc
    exact hpass c (hused c hc) (habsent c (by rw [hbpt]; exact mem_append_left _ hc))
  | @found k₁ k₂ d wps hs hsame hbefore =>
    have hdtakes : d.takes wpt adr len=true := by
      simp [Slot.takes,Slot.same,hsame]
    rcases append_eq_append_iff.mp hbpt with ⟨m,hl₁,hrest⟩ | ⟨m,hk₁,hrest⟩
    · cases m with
      | nil =>
        -- the entry just cleared is the first free one
        rw [append_nil] at hl₁
        rw [nil_append,List.cons.injEq] at hrest
        refine ⟨d,find?_eq_some_iff_append.mpr ⟨hdtakes,k₁,k₂,hs,?_⟩,by rw [←hrest.1]⟩
        exact fun c hc => hpass c (hused c (hl₁ ▸ hc)) (hbefore c hc)
      | cons e m =>
        rw [cons_append,List.cons.injEq] at hrest
        have hin : e∈l₁ := by simp [hl₁]
        rw [←hrest.1] at hin
        exact absurd rfl (hused _ hin)
    · cases m with
      | nil =>
        rw [append_nil] at hk₁
        rw [nil_append,List.cons.injEq] at hrest
        refine ⟨d,find?_eq_some_iff_append.mpr ⟨hdtakes,k₁,k₂,hs,?_⟩,by rw [hrest.1]⟩
        exact fun c hc => hpass c (hused c (hk₁ ▸ hc)) (hbefore c hc)
      | cons e m =>
        -- the first free entry lies before the one just cleared
        rw [cons_append,List.cons.injEq] at hrest
        obtain ⟨rfl,-⟩ := hrest
        refine ⟨b,find?_eq_some_iff_append.mpr
          ⟨by simp [Slot.takes,hfree],l₁,m++d::k₂,by rw [hs,hk₁]; simp,?_⟩,rfl⟩
        exact fun c hc => hpass c (hused c hc) (hbefore c (by simp [hk₁,hc]))

theorem Owned.setbpt (env : Env) (h : Owned s) (hadr : adr≠NO_BPT)
    (htaken : ∀ b, s.bpt.find? (Slot.takes wpt adr len)=some b → b.cmdstr=none) :
    Owned (setbpt env wpt adr len s).2 := by
  have hcleared := clrbpt_cleared wpt adr len s
  have hclear := h.of_cleared hadr hcleared
  have hspec := enter_entered env wpt adr len s
  unfold BptTable.setbpt
  generalize enter env wpt adr len s=r at hspec
  obtain ⟨placed,t⟩ := r
  cases hspec with
  | full => exact hclear
  | refused => exact hclear.of_watchpoints _
  | @placed l₁ l₂ b wps hbpt hfree hused =>
    obtain ⟨d,hd,hptr⟩ := hcleared.taken hbpt hfree hused
    dsimp only
    rw [set_split]
    exact hclear.fill hbpt rfl rfl (.inl ⟨hptr ▸ htaken d hd,rfl⟩)

def NoneReleased (s : Table) : Prop := ∀ b∈s.bpt, ¬ Released s b

instance (s : Table) : Decidable (NoneReleased s) :=
  inferInstanceAs (Decidable (∀ b∈s.bpt, ¬ Released s b))

/-- The calls that keep the ownership: no address is the mark of an unused entry, `setbpt` takes an
entry without a string, and breakpoints are forgotten only while no entry points to a released
block. -/
def Call.StringsOk (s : Table) : Call → Prop
  | .setbp env av => ∀ r∈requests env av Pending.none, r.adr≠NO_BPT
  | .setbpt _ wpt adr len => adr≠NO_BPT ∧
      ∀ b, s.bpt.find? (Slot.takes wpt adr len)=some b → b.cmdstr=none
  | .clrbpt _ adr _ => adr≠NO_BPT
  | .clrbp av => ClrbpOk NoneReleased av s
  | .clrbpts => NoneReleased s
  | .dlInitialise keepBpts => keepBpts=true ∨ NoneReleased s

theorem Owned.step {c : Call} (h : Owned s) (hok : c.StringsOk s) :
    ∃ t, step s c=some t ∧ Owned t := by
  cases c with
  | setbp env av => exact ⟨_,rfl,h.setbp env av hok⟩
  | setbpt env wpt adr len => exact ⟨_,rfl,h.setbpt env hok.1 hok.2⟩
  | clrbpt wpt adr len => exact ⟨_,rfl,h.of_cleared hok (clrbpt_cleared ..)⟩
  | clrbp av =>
    obtain ⟨r,t,hrun,ht⟩ := clrbp_preserves (I := Owned) (fun s hq hs => hs.clrbpts hq)
      (fun j s hs => hs.of_slotCleared (clrslot_cleared j s)) av s h hok
    exact ⟨t,by rw [BptTable.step,hrun]; rfl,ht⟩
  | clrbpts => exact ⟨_,rfl,h.clrbpts hok⟩
  | dlInitialise keepBpts =>
    refine ⟨_,rfl,?_⟩
    cases keepBpts with
    | true => exact h.of_watchpoints _
    | false => exact (h.clrbpts (hok.resolve_left Bool.false_ne_true)).of_watchpoints _

/-- After any run of such calls no block was freed twice, and no breakpoint got an old string. -/
theorem run_strings_sound (funcs : WatchFuncs) (cs : List Call)
    (hok : Throughout Call.StringsOk (Table.start funcs) cs) :
    ∃ s, run (Table.start funcs) cs=some s ∧ Sound s := by
  obtain ⟨s,hrun,hs⟩ := run_preserves (fun s c hs hc => hs.step hc) (owned_start funcs) hok
  exact ⟨s,hrun,hs.toSound⟩

def setWithString : Call := .setbp plainEnv [['-', 's'],['r'],['f']]

theorem run_strings_sound_twice :
    ∃ s, run (Table.start r4k) [setWithString,setWithString,.clrbpts]=some s ∧ Sound s := by
  have hadr : ∀ r∈requests plainEnv [['-', 's'],['r'],['f']] Pending.none, r.adr≠NO_BPT := by
    decide
  refine run_strings_sound r4k _ ⟨hadr,?_⟩
  rintro _ ⟨⟩
  refine ⟨hadr,?_⟩
  rintro _ ⟨⟩
  refine ⟨?_, fun _ _ => trivial⟩
  change NoneReleased _
  decide

theorem run_strings_dangling :
    (∃ s, run (Table.start r4k) [setWithString,.clrbp [['0']],.clrbpts]=some s ∧ ¬ Sound s) ∧
      ∃ s, run (Table.start r4k) [setWithString,.clrbp [['0']],.setbpt plainEnv 0 0x80020000 4] =
        some s ∧ ¬ Sound s := by
  refine ⟨⟨_,rfl, fun h => ?_⟩,⟨_,rfl, fun h => ?_⟩⟩
  · exact absurd h.freedOnce (by decide)
  · exact absurd (h.plain _ mem_cons_self (by decide) rfl) (by decide)

end Pmon.BptTable
