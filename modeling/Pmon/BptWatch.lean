import Pmon.BptTable

/-!
# Hardware breakpoints and the watchpoints of the processor

All functions change the two tables together but `dl_initialise`, which may keep the breakpoints
while it resets the watchpoints.
-/

namespace Pmon.BptTable
open List
open Go (NO_BPT)
open LoadFn (Monitor)
variable {e : ℕ × ℕ × ℕ}

def Slot.hardware (b : Slot) : Option (ℕ × ℕ × ℕ) :=
  if b.addr≠NO_BPT ∧ b.wpt≠0 then some (b.wpt,b.addr,b.len) else none

def Watchpoint.armed (wp : Watchpoint) : Option (ℕ × ℕ × ℕ) :=
  if wp.len≠0 then some (wp.type,wp.va,wp.len) else none

def hardware (bpt : List Slot) : List (ℕ × ℕ × ℕ) := bpt.filterMap Slot.hardware
def armed (wps : List Watchpoint) : List (ℕ × ℕ × ℕ) := wps.filterMap Watchpoint.armed
def Matched (s : Table) : Prop := (hardware s.bpt).Perm (armed s.watchpoints)

def Wellset (wps : List Watchpoint) : Prop :=
  ∀ wp∈wps, wp.capabilities<2^16 ∧ (wp.len≠0 → wp.asid = -1)

variable {wps : List Watchpoint} {b : Slot} {wp : Watchpoint}

theorem Slot.hardware_of_ne (haddr : b.addr≠NO_BPT) (hwpt : b.wpt≠0) :
    b.hardware=some (b.wpt,b.addr,b.len) := if_pos ⟨haddr,hwpt⟩

theorem Slot.hardware_of_addr (h : b.addr=NO_BPT) : b.hardware=none :=
  if_neg fun hboth => hboth.1 h

theorem Slot.hardware_of_wpt (h : b.wpt=0) : b.hardware=none := if_neg fun hboth => hboth.2 h
theorem Watchpoint.armed_of_len (h : wp.len=0) : wp.armed=none := if_neg fun hne => hne h

theorem Watchpoint.armed_of_ne (h : wp.len≠0) :
    wp.armed=some (wp.type,wp.va,wp.len) := if_pos h

theorem armed_cons_some (h : wp.armed=some e) :
    armed (wp::wps)=e::armed wps := filterMap_cons_some h

theorem armed_cons_none (h : wp.armed=none) :
    armed (wp::wps)=armed wps := filterMap_cons_none h

theorem len_ne_zero_of_mem_armed (h : e∈armed wps) : e.2.2≠0 := by
  obtain ⟨wp,-,hwp⟩ := mem_filterMap.mp h
  rw [Watchpoint.armed] at hwp
  split at hwp
  · cases hwp
    assumption
  · cases hwp

theorem addr_ne_of_mem_hardware {bpt : List Slot} (h : e∈hardware bpt) : e.2.1≠NO_BPT := by
  obtain ⟨b,-,hb⟩ := mem_filterMap.mp h
  rw [Slot.hardware] at hb
  split at hb
  · rename_i hboth
    cases hb
    exact hboth.1
  · cases hb

theorem armed_clear_perm {type va len : ℕ} (hset : Wellset wps) (hmem : (type,va,len)∈armed wps)
    : (armed wps).Perm ((type,va,len)::armed (mipsWatchpointClear type (-1) va len wps)) := by
  have hlen := len_ne_zero_of_mem_armed hmem
  induction wps with
  | nil => exact absurd hmem not_mem_nil
  | cons wp wps ih =>
    rw [mipsWatchpointClear]
    split
    · rename_i hsame
      have harmed : wp.armed=some (type,va,len) := by
        rw [Watchpoint.armed_of_ne (hsame.2.2.2 ▸ hlen),hsame.1,hsame.2.2.1,hsame.2.2.2]
      rw [armed_cons_some harmed,armed_cons_none (Watchpoint.armed_of_len rfl)]
    · rename_i hother
      have hrest : (type,va,len)∈armed wps := by
        by_cases hwp : wp.len=0
        · rwa [armed_cons_none (Watchpoint.armed_of_len hwp)] at hmem
        · rw [armed_cons_some (Watchpoint.armed_of_ne hwp),mem_cons] at hmem
          rcases hmem with heq | hmem
          · simp only [Prod.mk.injEq] at heq
            have hasid := (hset wp mem_cons_self).2 hwp
            exact absurd ⟨heq.1.symm,hasid,heq.2.1.symm,heq.2.2.symm⟩ hother
          · exact hmem
      have hperm := ih (fun w hw => hset w (mem_cons_of_mem _ hw)) hrest
      cases hwp : wp.armed with
      | none =>
        rw [armed_cons_none hwp,armed_cons_none hwp]
        exact hperm
      | some e =>
        rw [armed_cons_some hwp,armed_cons_some hwp]
        exact (hperm.cons e).trans (List.Perm.swap _ _ _)

theorem armed_clear_of_not_mem {type va len : ℕ} {asid : ℤ} (hmem : (type,va,len)∉armed wps) :
    armed (mipsWatchpointClear type asid va len wps)=armed wps := by
  induction wps with
  | nil => rfl
  | cons wp wps ih =>
    have hrest : (type,va,len)∉armed wps := by
      intro hin
      refine hmem ?_
      cases hwp : wp.armed with
      | none => rwa [armed_cons_none hwp]
      | some e =>
        rw [armed_cons_some hwp]
        exact mem_cons_of_mem _ hin
    rw [mipsWatchpointClear]
    split
    · rename_i hsame
      have hzero : wp.len=0 := by
        by_contra hne
        refine hmem ?_
        rw [armed_cons_some (Watchpoint.armed_of_ne hne),←hsame.1,←hsame.2.2.1,←hsame.2.2.2]
        exact mem_cons_self
      rw [armed_cons_none (Watchpoint.armed_of_len rfl),
        armed_cons_none (Watchpoint.armed_of_len hzero)]
    · cases hwp : wp.armed with
      | none => rw [armed_cons_none hwp,armed_cons_none hwp,ih hrest]
      | some e => rw [armed_cons_some hwp,armed_cons_some hwp,ih hrest]

theorem Wellset.clear (h : Wellset wps) (type : ℕ) (asid : ℤ) (va len : ℕ) :
    Wellset (mipsWatchpointClear type asid va len wps) := by
  induction wps with
  | nil => exact h
  | cons wp wps ih =>
    have hrest := ih fun w hw => h w (mem_cons_of_mem _ hw)
    rw [mipsWatchpointClear]
    split
    · intro w hw
      rcases mem_cons.mp hw with rfl | hw
      · exact ⟨(h wp mem_cons_self).1,fun hne => absurd rfl hne⟩
      · exact h w (mem_cons_of_mem _ hw)
    · intro w hw
      rcases mem_cons.mp hw with rfl | hw
      · exact h w mem_cons_self
      · exact hrest w hw

theorem armed_reset (wps : List Watchpoint) : armed (mipsWatchpointReset wps)=[] := by
  rw [armed,filterMap_eq_nil_iff]
  intro wp hwp
  obtain ⟨w,-,rfl⟩ := mem_map.mp hwp
  exact Watchpoint.armed_of_len rfl

theorem Wellset.reset (h : Wellset wps) : Wellset (mipsWatchpointReset wps) := by
  intro wp hwp
  obtain ⟨w,hw,rfl⟩ := mem_map.mp hwp
  exact ⟨(h w hw).1,fun hne => absurd rfl hne⟩

section
variable {σ : Type} (funcs : WatchFuncs) (M : Monitor σ)

theorem Watchpoint.arm_spec (wp : Watchpoint) (len : ℕ) :
    (wp.arm funcs M len).2.type=wp.type ∧ (wp.arm funcs M len).2.va=wp.va ∧
      (wp.arm funcs M len).2.asid=wp.asid ∧
      (wp.arm funcs M len).2.capabilities=wp.capabilities ∧
      (wp.arm funcs M len).2.len = if (wp.arm funcs M len).1 = .ok then len else 0 := by
  rw [Watchpoint.arm]
  dsimp only
  split
  · exact ⟨rfl,rfl,rfl,rfl,rfl⟩
  · split <;> exact ⟨rfl,rfl,rfl,rfl,rfl⟩

structure Added (type va len : ℕ) (wps : List Watchpoint) (r : WpRes × List Watchpoint) :
    Prop where
  ok : r.1 = .ok → len≠0 → (armed r.2).Perm ((type,va,len)::armed wps)
  failed : r.1 ≠ .ok → armed r.2=armed wps
  wellset : Wellset r.2

variable {type va len : ℕ} {wps : List Watchpoint} {wp : Watchpoint}

theorem Added.cons {r : WpRes × List Watchpoint} (h : Added type va len wps r)
    (hwp : wp.capabilities<2^16 ∧ (wp.len≠0 → wp.asid = -1)) :
    Added type va len (wp::wps) (r.1,wp::r.2) := by
  refine ⟨?_,?_,?_⟩
  · intro hok hlen
    have hperm := h.ok hok hlen
    cases harmed : wp.armed with
    | none =>
      rw [armed_cons_none harmed,armed_cons_none harmed]
      exact hperm
    | some e =>
      rw [armed_cons_some harmed,armed_cons_some harmed]
      exact (hperm.cons e).trans (List.Perm.swap _ _ _)
  · intro hfail
    have hsame := h.failed hfail
    cases harmed : wp.armed with
    | none => rw [armed_cons_none harmed,armed_cons_none harmed,hsame]
    | some e => rw [armed_cons_some harmed,armed_cons_some harmed,hsame]
  · intro w hw
    rcases mem_cons.mp hw with rfl | hw
    · exact hwp
    · exact h.wellset w hw

theorem Added.arm {w : Watchpoint} (hfree : wp.len=0) (hcap : w.capabilities<2^16)
    (htype : w.type=type) (hva : w.va=va) (hasid : w.asid = -1) (hset : Wellset wps) :
    Added type va len (wp::wps) ((w.arm funcs M len).1,(w.arm funcs M len).2::wps) := by
  obtain ⟨harmtype,harmva,harmasid,harmcap,harmlen⟩ := w.arm_spec funcs M len
  have hold : armed (wp::wps)=armed wps := armed_cons_none (Watchpoint.armed_of_len hfree)
  refine ⟨?_,?_,?_⟩
  · intro hok hlen
    rw [if_pos hok] at harmlen
    have hne : (w.arm funcs M len).2.len≠0 := by rwa [harmlen]
    rw [armed_cons_some (Watchpoint.armed_of_ne hne),hold,harmtype,harmva,harmlen,htype,hva]
  · intro hfail
    rw [if_neg hfail] at harmlen
    rw [armed_cons_none (Watchpoint.armed_of_len harmlen),hold]
  · intro x hx
    rcases mem_cons.mp hx with rfl | hx
    · exact ⟨harmcap ▸ hcap,fun _ => harmasid.trans hasid⟩
    · exact hset x hx

theorem watchpointSetLoop_added (type va pa len : ℕ) (hset : Wellset wps) {res : WpRes}
    (hres : res ≠ .ok) :
    Added type va len wps (watchpointSetLoop funcs M type (-1) va pa len wps res) := by
  induction wps generalizing res with
  | nil => exact ⟨fun hok => absurd hok hres,fun _ => rfl,hset⟩
  | cons wp wps ih =>
    have hrest : Wellset wps := fun w hw => hset w (mem_cons_of_mem _ hw)
    have hwp := hset wp mem_cons_self
    rw [watchpointSetLoop]
    split
    · rename_i hkind
      -- a kind the watchpoint has fits a half word
      have htype : type%2^16=type := by
        refine Nat.mod_eq_of_lt (lt_of_le_of_lt ?_ hwp.1)
        rw [←hkind]
        exact Nat.and_le_left
      split
      · exact (ih hrest (by decide)).cons hwp
      · rename_i hfree
        have hfree : wp.len=0 := by simpa using hfree
        dsimp only
        split
        · exact Added.arm funcs M hfree hwp.1 htype rfl rfl hrest
        · split
          · exact Added.arm funcs M hfree hwp.1 htype rfl rfl hrest
          · refine ⟨fun hok => (by cases hok),fun _ => ?_,?_⟩
            · rw [armed_cons_none (Watchpoint.armed_of_len hfree)]
              exact armed_cons_none (Watchpoint.armed_of_len hfree)
            · intro w hw
              rcases mem_cons.mp hw with rfl | hw
              · exact ⟨hwp.1,fun hne => absurd hfree hne⟩
              · exact hrest w hw
    · exact (ih hrest hres).cons hwp

theorem mipsWatchpointSet_added (type va pa len : ℕ) (hset : Wellset wps) :
    Added type va len wps (mipsWatchpointSet funcs M type (-1) va pa len wps) := by
  rw [mipsWatchpointSet]
  split
  · exact ⟨fun hok => (by cases hok),fun _ => rfl,hset⟩
  · exact watchpointSetLoop_added funcs M type va pa len hset (by decide)
end

structure Paired (s : Table) : Prop where
  matched : Matched s
  wellset : Wellset s.watchpoints

theorem paired_start (funcs : WatchFuncs) : Paired (Table.start funcs) := by
  have hbpt : hardware (Table.start funcs).bpt=[] := by
    rw [hardware,filterMap_eq_nil_iff]
    intro b hb
    rw [eq_of_mem_replicate hb]
    rfl
  have hwps : ∀ wp∈(Table.start funcs).watchpoints, wp.len=0 ∧ wp.capabilities<2^16 := by
    intro wp hwp
    obtain ⟨⟨c,i⟩,hc,rfl⟩ := mem_map.mp hwp
    exact ⟨rfl,funcs.capabilities_lt c (fst_mem_of_mem_zipIdx hc)⟩
  have harmed : armed (Table.start funcs).watchpoints=[] := by
    rw [armed,filterMap_eq_nil_iff]
    exact fun wp hwp => Watchpoint.armed_of_len (hwps wp hwp).1
  refine ⟨?_,fun wp hwp => ⟨(hwps wp hwp).2,fun hne => absurd (hwps wp hwp).1 hne⟩⟩
  rw [Matched,hbpt,harmed]

section
variable {s t : Table} {l₁ l₂ : List Slot} {b c : Slot}

theorem hardware_replace (h : c.hardware=b.hardware) :
    hardware (l₁++c::l₂)=hardware (l₁++b::l₂) := by
  rw [hardware,hardware,filterMap_append,filterMap_append,filterMap_cons,filterMap_cons,h]

theorem hardware_perm (l₁ l₂ : List Slot) (h : b.hardware=some e) :
    (hardware (l₁++b::l₂)).Perm (e::hardware (l₁++l₂)) := by
  rw [hardware,hardware,filterMap_append,filterMap_cons_some h,filterMap_append]
  exact perm_middle

theorem hardware_none (h : b.hardware=none) : hardware (l₁++b::l₂)=hardware (l₁++l₂) := by
  rw [hardware,hardware,filterMap_append,filterMap_cons_none h,filterMap_append]

theorem Paired.remove (h : Paired s) (hbpt : s.bpt=l₁++b::l₂) (htbpt : t.bpt=l₁++c::l₂)
    (hc : c.addr=NO_BPT) (hwps : t.watchpoints = if b.wpt≠0 then
      mipsWatchpointClear b.wpt (-1) b.addr b.len s.watchpoints else s.watchpoints) : Paired t := by
  have hmatched := h.matched
  rw [Matched,hbpt] at hmatched
  have hgone : hardware t.bpt=hardware (l₁++l₂) := by
    rw [htbpt,hardware_none (Slot.hardware_of_addr hc)]
  by_cases hwpt : b.wpt=0
  · rw [if_neg (by simpa using hwpt)] at hwps
    rw [hardware_none (Slot.hardware_of_wpt hwpt)] at hmatched
    refine ⟨?_,by rw [hwps]; exact h.wellset⟩
    rw [Matched,hgone,hwps]
    exact hmatched
  · rw [if_pos hwpt] at hwps
    refine ⟨?_,by rw [hwps]; exact h.wellset.clear _ _ _ _⟩
    rw [Matched,hgone,hwps]
    by_cases haddr : b.addr=NO_BPT
    · -- an entry that was not in use has no watchpoint
      rw [hardware_none (Slot.hardware_of_addr haddr)] at hmatched
      have hnot : (b.wpt,b.addr,b.len)∉armed s.watchpoints := by
        intro hin
        exact addr_ne_of_mem_hardware (hmatched.mem_iff.mpr hin) haddr
      rw [armed_clear_of_not_mem hnot]
      exact hmatched
    · have hperm := hardware_perm l₁ l₂ (Slot.hardware_of_ne haddr hwpt)
      have hin := hmatched.mem_iff.mp (hperm.mem_iff.mpr mem_cons_self)
      exact ((hperm.symm.trans hmatched).trans (armed_clear_perm h.wellset hin)).cons_inv

theorem Paired.relabel (h : Paired s) (hbpt : s.bpt=l₁++b::l₂)
    (htbpt : t.bpt=l₁++c::l₂) (hsame : c.hardware=b.hardware)
    (hwps : t.watchpoints=s.watchpoints) : Paired t := by
  refine ⟨?_,by rw [hwps]; exact h.wellset⟩
  rw [Matched,htbpt,hardware_replace hsame,←hbpt,hwps]
  exact h.matched
end

variable {s : Table}
variable {t : Table} {adr len wpt : ℕ}

theorem Paired.of_cleared (h : Paired s) (hclear : Cleared wpt adr len s t) : Paired t := by
  cases hclear with
  | absent => exact h
  | @found l₁ l₂ b wps hbpt hsame hbefore hwps =>
    obtain ⟨rfl,rfl,rfl⟩ := hsame
    exact h.remove hbpt rfl rfl hwps

theorem Paired.of_slotCleared (h : Paired s) (hclear : SlotCleared s t) : Paired t := by
  cases hclear with
  | unused => exact h
  | found hbpt huse hwps => exact h.remove hbpt rfl rfl hwps

theorem foldl_clear_armed (bpt : List Slot) {wps : List Watchpoint} (hset : Wellset wps)
    (hperm : (hardware bpt).Perm (armed wps)) : armed (bpt.foldl (fun wps b =>
        if b.addr≠NO_BPT ∧ b.wpt≠0 then mipsWatchpointClear b.wpt (-1) b.addr b.len wps
        else wps) wps)=[] ∧ Wellset (bpt.foldl (fun wps b =>
        if b.addr≠NO_BPT ∧ b.wpt≠0 then mipsWatchpointClear b.wpt (-1) b.addr b.len wps
        else wps) wps) := by
  induction bpt generalizing wps with
  | nil => exact ⟨hperm.symm.eq_nil,hset⟩
  | cons b bpt ih =>
    rw [foldl_cons]
    by_cases hb : b.addr≠NO_BPT ∧ b.wpt≠0
    · rw [if_pos hb]
      have hcons : hardware (b::bpt)=(b.wpt,b.addr,b.len)::hardware bpt :=
        filterMap_cons_some (Slot.hardware_of_ne hb.1 hb.2)
      rw [hcons] at hperm
      have hclear := armed_clear_perm hset (hperm.mem_iff.mp mem_cons_self)
      exact ih (hset.clear _ _ _ _) (hperm.trans hclear).cons_inv
    · rw [if_neg hb]
      have hskip : hardware (b::bpt)=hardware bpt := filterMap_cons_none (if_neg hb)
      rw [hskip] at hperm
      exact ih hset hperm

theorem Paired.clrbpts (h : Paired s) : Paired (clrbpts s) := by
  obtain ⟨harmed,hset⟩ := foldl_clear_armed s.bpt h.wellset h.matched
  refine ⟨?_,hset⟩
  have hnone : hardware (BptTable.clrbpts s).bpt=[] := by
    rw [hardware,filterMap_eq_nil_iff]
    intro b hb
    obtain ⟨c,-,rfl⟩ := mem_map.mp hb
    exact Slot.hardware_of_addr rfl
  rw [Matched,hnone]
  exact harmed ▸ List.Perm.nil

theorem Paired.of_entered {env : Env} {r : Option (ℕ × Slot)} (h : Paired s)
    (hproper : wpt≠0 → adr≠NO_BPT ∧ len≠0) (hspec : Entered env wpt adr len s r t) :
    Paired t := by
  have hadded := mipsWatchpointSet_added env.funcs env.monitor wpt adr 0 len h.wellset
  cases hspec with
  | full => exact h
  | @refused res wps hwpt hset hres =>
    rw [hset] at hadded
    refine ⟨?_,hadded.wellset⟩
    have hmatched := h.matched
    rw [Matched,←hadded.failed hres] at hmatched
    exact hmatched
  | @placed l₁ l₂ b wps hbpt hfree hused hwps =>
    have hmatched := h.matched
    rw [Matched,hbpt,hardware_none (Slot.hardware_of_addr hfree)] at hmatched
    rcases hwps with ⟨rfl,rfl⟩ | ⟨hwpt,hset⟩
    · refine ⟨?_,h.wellset⟩
      rw [Matched,hardware_none (Slot.hardware_of_wpt rfl)]
      exact hmatched
    · obtain ⟨hadr,hlen⟩ := hproper hwpt
      rw [hset] at hadded
      refine ⟨?_,hadded.wellset⟩
      have hperm := hardware_perm l₁ l₂ (Slot.hardware_of_ne
        (b := {b with addr := adr, len := len, wpt := wpt}) hadr hwpt)
      exact (hperm.trans (hmatched.cons _)).trans (hadded.ok rfl hlen).symm

theorem Paired.attach {env : Env} {j : ℕ} {b : Slot} {u : Table}
    (hspec : Entered env wpt adr len u (some (j,b)) t) (h : Paired t) (left : ℕ)
    (str : Option (List Char)) : Paired (attach env left j b str t) := by
  cases hspec with
  | placed =>
    unfold BptTable.attach
    simp only [set_split]
    cases str with
    | none => exact h.relabel rfl rfl rfl rfl
    | some text =>
      dsimp only
      split <;> exact h.relabel rfl rfl rfl rfl

theorem Paired.setbp (env : Env) (av : List (List Char)) (h : Paired s)
    (hproper : ∀ r∈requests env av Pending.none, r.wpt≠0 → r.adr≠NO_BPT ∧ r.len≠0) :
    Paired (setbp env av s).2 := by
  refine setbpArgs_preserves (Q := fun r => r.wpt≠0 → r.adr≠NO_BPT ∧ r.len≠0) env ?_ ?_ av _
    s h hproper
  · intro r s t hr hs henter
    have hspec := enter_entered env r.wpt r.adr r.len s
    rw [henter] at hspec
    exact (hs.of_cleared (clrbpt_cleared ..)).of_entered hr hspec
  · intro r s t j b left str hr hs henter
    have hspec := enter_entered env r.wpt r.adr r.len s
    rw [henter] at hspec
    exact Paired.attach hspec ((hs.of_cleared (clrbpt_cleared ..)).of_entered hr hspec) left str

theorem Paired.setbpt (env : Env) (h : Paired s) (hproper : wpt≠0 → adr≠NO_BPT ∧ len≠0) :
    Paired (setbpt env wpt adr len s).2 := by
  have hspec := enter_entered env wpt adr len s
  have hpaired := (h.of_cleared (clrbpt_cleared wpt adr len s)).of_entered hproper hspec
  unfold BptTable.setbpt
  generalize enter env wpt adr len s=r at hspec hpaired
  obtain ⟨placed,t⟩ := r
  cases hspec with
  | full => exact hpaired
  | refused => exact hpaired
  | placed =>
    dsimp only
    rw [set_split]
    exact hpaired.relabel rfl rfl rfl rfl

/-- The calls that keep the tables together: hardware breakpoints have a length and a proper
address, `db` stays within the table, and a download keeps no hardware breakpoint. -/
def Call.WatchOk (s : Table) : Call → Prop
  | .setbp env av =>
      ∀ r∈requests env av Pending.none, r.wpt≠0 → r.adr≠NO_BPT ∧ r.len≠0
  | .setbpt _ wpt adr len => wpt≠0 → adr≠NO_BPT ∧ len≠0
  | .clrbpt _ _ _ => True
  | .clrbp av => ClrbpOk (fun _ => True) av s
  | .clrbpts => True
  | .dlInitialise keepBpts => keepBpts=true → hardware s.bpt=[]

theorem Paired.step {c : Call} (h : Paired s) (hok : c.WatchOk s) :
    ∃ t, step s c=some t ∧ Paired t := by
  cases c with
  | setbp env av => exact ⟨_,rfl,h.setbp env av hok⟩
  | setbpt env wpt adr len => exact ⟨_,rfl,h.setbpt env hok⟩
  | clrbpt wpt adr len => exact ⟨_,rfl,h.of_cleared (clrbpt_cleared ..)⟩
  | clrbp av =>
    obtain ⟨r,t,hrun,ht⟩ := clrbp_preserves (I := Paired) (fun s _ hs => hs.clrbpts)
      (fun j s hs => hs.of_slotCleared (clrslot_cleared j s)) av s h hok
    exact ⟨t,by rw [BptTable.step,hrun]; rfl,ht⟩
  | clrbpts => exact ⟨_,rfl,h.clrbpts⟩
  | dlInitialise keepBpts =>
    refine ⟨_,rfl,?_⟩
    cases keepBpts with
    | true =>
      refine ⟨?_,h.wellset.reset⟩
      change (hardware s.bpt).Perm (armed (mipsWatchpointReset s.watchpoints))
      rw [hok rfl,armed_reset]
    | false =>
      have hclear := h.clrbpts
      refine ⟨?_,hclear.wellset.reset⟩
      have hnone := (foldl_clear_armed s.bpt h.wellset h.matched).1
      have hmatched := hclear.matched
      change (hardware (BptTable.clrbpts s).bpt).Perm (armed (BptTable.clrbpts s).watchpoints)
        at hmatched
      change (hardware (BptTable.clrbpts s).bpt).Perm
        (armed (mipsWatchpointReset (BptTable.clrbpts s).watchpoints))
      rw [armed_reset]
      exact hnone ▸ hmatched

/-- After any run of such calls hardware breakpoints and set watchpoints correspond one to one. -/
theorem run_watch_matched (funcs : WatchFuncs) (cs : List Call)
    (hok : Throughout Call.WatchOk (Table.start funcs) cs) :
    ∃ s, run (Table.start funcs) cs=some s ∧ Matched s := by
  obtain ⟨s,hrun,hs⟩ := run_preserves (fun s c hs hc => hs.step hc) (paired_start funcs) hok
  exact ⟨s,hrun,hs.matched⟩

def setHardware : Call := .setbp plainEnv [['-', 'w'],['f']]

theorem run_watch_matched_removed :
    ∃ s, run (Table.start r4k) [setHardware,.clrbpts,.dlInitialise true]=some s ∧
      Matched s := by
  refine run_watch_matched r4k _ ⟨?_,?_⟩
  · change ∀ r∈requests plainEnv [['-', 'w'],['f']] Pending.none,
      r.wpt≠0 → r.adr≠NO_BPT ∧ r.len≠0
    decide
  · rintro _ ⟨⟩
    refine ⟨trivial,?_⟩
    rintro _ ⟨⟩
    refine ⟨fun _ => ?_, fun _ _ => trivial⟩
    decide

theorem run_watch_unmatched :
    ∃ s, run (Table.start r4k) [setHardware,.dlInitialise true]=some s ∧ ¬ Matched s := by
  refine ⟨_,rfl, fun h => ?_⟩
  exact absurd h.length_eq (by decide)

end Pmon.BptTable
