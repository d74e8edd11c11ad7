import Pmon.FastLoad
import Pmon.SDump

/-!
# Loading only the symbols of a fast record

With `YFLAG` the data are passed over, but the first data group ends the record.
-/

namespace Pmon.FastSyms
open LoadFn FastLoad List

def symsOnly : FastFlags := {onlySyms := true}

variable {σ : Type} {item : Item} {s : FastLoader σ} {len : ℕ} {status : DlCode}

structure View (σ : Type) where
  offset : ℕ
  chksum : ℤ
  syms : σ
  nextaddr : ℕ
  newsyms : List (List Char × ℕ)

def view (s : FastLoader σ) : View σ := ⟨s.offset,s.chksum,s.syms,s.nextaddr,s.newsyms⟩

def moved (offset a : ℕ) : Item → ℕ
  | .zero zcnt => (a+zcnt*3)%2^32
  | .byte _ => (a+1)%2^32
  | .data _ => (a+3)%2^32
  | .address addr => (addr+offset)%2^32
  | _ => a

def added : Item → ℕ
  | .zero zcnt => sum12 2 zcnt
  | .byte bdat => sum12 2 bdat
  | .data bdat => sum12 4 bdat
  | .address addr => sum12 6 addr
  | _ => 0

def follow (M : FastMonitor σ) (v : View σ) : Item → Option (View σ)
  | .clear => some {v with chksum := 0}
  | .compare zcnt => if (zcnt : ℤ)=v.chksum%2^12 then some {v with chksum := 0} else none
  | .symbol name =>
    (M.newsym v.syms (cname name) v.nextaddr).map fun syms =>
      {v with syms := syms, newsyms := v.newsyms++[(cname name,v.nextaddr)]}
  | .openSymbol _ => none
  | .bad _ => none
  | item =>
    some {v with chksum := v.chksum+added item, nextaddr := moved v.offset v.nextaddr item}

def followAll (M : FastMonitor σ) : View σ → List Item → Option (View σ)
  | v, [] => some v
  | v, item::is => (follow M v item).bind fun v => followAll M v is

def after (status : DlCode) : Item → DlCode
  | .finish => .done
  | _ => status

theorem moved_lt {offset a : ℕ} (ha : a<2^32) (item : Item) : moved offset a item<2^32 := by
  cases item <;> first | exact ha | exact Nat.mod_lt _ (by decide)

variable {M : FastMonitor σ}
variable {v : View σ}

theorem follow_nextaddr {v' : View σ} (h : follow M v item=some v') :
    v'.nextaddr=moved v.offset v.nextaddr item ∧ v'.offset=v.offset := by
  cases item with
  | compare zcnt =>
    rw [follow] at h
    split at h <;> cases h
    exact ⟨rfl,rfl⟩
  | symbol name =>
    rw [follow,Option.map_eq_some_iff] at h
    obtain ⟨syms,-,rfl⟩ := h
    exact ⟨rfl,rfl⟩
  | openSymbol name => cases h
  | bad code => cases h
  | _ =>
    cases h
    exact ⟨rfl,rfl⟩

def plain : FastFlags := {}

theorem view_storeNext (bs : List UInt8) (hs : s.nextaddr<2^32) : view (storeNext bs s) =
      {view s with nextaddr := (s.nextaddr+bs.length)%2^32} := by
  induction bs generalizing s with
  | nil =>
    have hmod : (s.nextaddr+0)%2^32=s.nextaddr := Nat.mod_eq_of_lt hs
    rw [storeNext,length_nil,hmod]
    rfl
  | cons b bs ih =>
    have hmod : ((s.nextaddr+1)%2^32+bs.length)%2^32 =
        (s.nextaddr+(b::bs).length)%2^32 := by
      rw [Nat.mod_add_mod,length_cons,Nat.add_assoc,Nat.add_comm 1]
    rw [storeNext,ih (Nat.mod_lt _ (by decide))]
    rw [hmod]
    rfl

variable {status' : DlCode} {is : List Item} {len' : ℕ}

theorem view_fill {flags : FastFlags} {bs : List UInt8} {s' : FastLoader σ}
    (hs : s.nextaddr<2^32) (h : fill M flags bs len status s = .next len' status' s') :
    status'=status ∧ view s'={view s with nextaddr := (s.nextaddr+bs.length)%2^32} := by
  unfold fill dlCheckloadaddr at h
  split at h
  · cases h
  · rename_i l hcheck
    split at hcheck
    · cases hcheck
    · cases hcheck
      cases h
      exact ⟨rfl,view_storeNext bs hs⟩

theorem exec_plain {s' : FastLoader σ} (hs : s.nextaddr<2^32)
    (h : exec M plain len status s item = .next len' status' s') :
    follow M (view s) item=some (view s') ∧ status'=after status item := by
  cases item with
  | clear =>
    cases h
    exact ⟨rfl,rfl⟩
  | compare zcnt =>
    unfold exec at h
    dsimp only at h
    split at h
    · cases h
    · rename_i hsum
      cases h
      have heq : (zcnt : ℤ)=s.chksum%2^12 := by
        by_contra hne
        exact hsum ⟨rfl,hne⟩
      exact ⟨if_pos heq,rfl⟩
  | zero zcnt =>
    change fill M plain _ len status (s.addSum _)=_ at h
    obtain ⟨rfl,hview⟩ := view_fill (s := s.addSum _) hs h
    rw [length_replicate] at hview
    exact ⟨congrArg some hview.symm,rfl⟩
  | byte bdat =>
    change fill M plain _ len status (s.addSum _)=_ at h
    obtain ⟨rfl,hview⟩ := view_fill (s := s.addSum _) hs h
    exact ⟨congrArg some hview.symm,rfl⟩
  | address addr =>
    cases h
    exact ⟨rfl,rfl⟩
  | finish =>
    cases h
    refine ⟨congrArg some ?_,rfl⟩
    simp [view,added,moved]
  | symbol name =>
    unfold exec at h
    dsimp only at h
    rw [if_neg (show ¬ plain.noSyms=true from nofun)] at h
    split at h
    · cases h
    · rename_i syms hnew
      cases h
      refine ⟨?_,rfl⟩
      rw [follow]
      exact Option.map_eq_some_iff.mpr ⟨syms,hnew,rfl⟩
  | openSymbol name => cases h
  | data bdat =>
    change fill M plain _ len status (s.addSum _)=_ at h
    obtain ⟨rfl,hview⟩ := view_fill (s := s.addSum _) hs h
    exact ⟨congrArg some hview.symm,rfl⟩
  | bad code => cases h

theorem exec_plain_ne_leave {s' : FastLoader σ} :
    exec M plain len status s item ≠ .leave len' status' s' := by
  have hfill : ∀ (bs : List UInt8) (t : FastLoader σ),
      fill M plain bs len status t ≠ .leave len' status' s' := by
    intro bs t
    unfold fill
    split <;> exact nofun
  cases item with
  | zero zcnt => exact hfill _ _
  | byte bdat => exact hfill _ _
  | data bdat => exact hfill _ _
  | compare zcnt =>
    unfold exec
    dsimp only
    split <;> exact nofun
  | symbol name =>
    unfold exec
    dsimp only
    split
    · exact nofun
    · split <;> exact nofun
  | _ => exact nofun

theorem run_plain (his : ∀ code, .bad code∈is → IsError code) (hstatus : IsStatus status)
    (hs : s.nextaddr<2^32) (h : IsStatus (run M plain is len status s).1) :
    followAll M (view s) is=some (view (run M plain is len status s).2.2) ∧
      (run M plain is len status s).1=is.foldl after status := by
  induction is generalizing len status s with
  | nil => exact ⟨rfl,rfl⟩
  | cons item is ih =>
    have hsound : (exec M plain len status s item).Sound :=
      exec_sound M plain (fun code hcode => his code (hcode ▸ mem_cons_self)) hstatus s
    rw [run] at h ⊢
    cases hexec : exec M plain len status s item with
    | next len' status' s' =>
      rw [hexec] at h hsound
      obtain ⟨hfollow,rfl⟩ := exec_plain hs hexec
      have hs' : s'.nextaddr<2^32 := by
        rw [show s'.nextaddr=(view s').nextaddr from rfl,(follow_nextaddr hfollow).1]
        exact moved_lt hs item
      rw [followAll,hfollow]
      exact ih (fun code hcode => his code (mem_cons_of_mem _ hcode)) hsound hs' h
    | leave len' status' s' => exact absurd hexec exec_plain_ne_leave
    | fail code s' =>
      rw [hexec] at h hsound
      exact absurd h hsound.1

def Item.isData : Item → Bool
  | .data _ => true
  | _ => false

def throughData : List Item → List Item
  | [] => []
  | item::is => if Item.isData item then [item] else item::throughData is

def afterData : List Item → List Item
  | [] => []
  | item::is => if Item.isData item then is else afterData is

theorem throughData_append (is : List Item) : throughData is++afterData is=is := by
  induction is with
  | nil => rfl
  | cons item is ih =>
    rw [throughData,afterData]
    split
    · rfl
    · rw [cons_append,ih]

theorem exec_symsOnly (h : follow M (view s) item=some v) :
    ∃ s', view s'=v ∧ s'.mem=s.mem ∧ exec M symsOnly len status s item =
      if Item.isData item then .leave len status s' else .next len (after status item) s' := by
  cases item with
  | compare zcnt =>
    rw [follow] at h
    split at h
    · rename_i hsum
      cases h
      refine ⟨{s with chksum := 0},rfl,rfl,?_⟩
      unfold exec
      dsimp only
      rw [if_neg fun hbad => hbad.2 hsum]
      rfl
    · cases h
  | symbol name =>
    rw [follow,Option.map_eq_some_iff] at h
    obtain ⟨syms,hnew,rfl⟩ := h
    change M.newsym s.syms (cname name) s.nextaddr=some syms at hnew
    refine ⟨{ s with
      syms := syms
      newsyms := s.newsyms++[(cname name,s.nextaddr)]
      named := s.named++[name.length+1] },rfl,rfl,?_⟩
    unfold exec
    dsimp only
    rw [if_neg (show ¬ symsOnly.noSyms=true from nofun),hnew]
    rfl
  | finish =>
    cases h
    refine ⟨{s with entry := s.nextaddr},?_,rfl,rfl⟩
    simp [view,added,moved]
  | openSymbol name => cases h
  | bad code => cases h
  | clear =>
    cases h
    exact ⟨{s with chksum := 0},rfl,rfl,rfl⟩
  | zero zcnt =>
    cases h
    exact ⟨(s.addSum (sum12 2 zcnt)).pass (zcnt*3),rfl,rfl,rfl⟩
  | byte bdat =>
    cases h
    exact ⟨(s.addSum (sum12 2 bdat)).pass 1,rfl,rfl,rfl⟩
  | address addr =>
    cases h
    exact ⟨{s.addSum (sum12 6 addr) with nextaddr := (addr+s.offset)%2^32},rfl,rfl,rfl⟩
  | data bdat =>
    cases h
    exact ⟨(s.addSum (sum12 4 bdat)).pass 3,rfl,rfl,rfl⟩

theorem run_symsOnly (h : followAll M (view s) is=some v) :
    followAll M (view s) (throughData is)=some (view (run M symsOnly is len status s).2.2) ∧
      (run M symsOnly is len status s).2.2.mem=s.mem ∧
      (run M symsOnly is len status s).1=(throughData is).foldl after status := by
  induction is generalizing len status s with
  | nil => exact ⟨rfl,rfl,rfl⟩
  | cons item is ih =>
    rw [followAll,Option.bind_eq_some_iff] at h
    obtain ⟨v',hfollow,hrest⟩ := h
    obtain ⟨s',rfl,hmem,hexec⟩ := exec_symsOnly (s := s) hfollow
    rw [run,hexec,throughData]
    cases hdata : Item.isData item with
    | true =>
      have hafter : after status item=status := by
        cases item <;> first | rfl | cases hdata
      rw [if_pos rfl,if_pos rfl,followAll,hfollow,foldl_cons,hafter]
      exact ⟨rfl,hmem,rfl⟩
    | false =>
      rw [if_neg Bool.false_ne_true,if_neg Bool.false_ne_true,followAll,hfollow,←hmem]
      exact ih hrest

structure KeepsUp (offset nextaddr : ℕ) (is : List Item) : Prop where
  symbol : ∀ name, .symbol name∉afterData is
  finish : .finish∈afterData is → .finish∈throughData is
  address : is.foldl (moved offset) nextaddr=(throughData is).foldl (moved offset) nextaddr

theorem foldl_after (is : List Item) (status : DlCode) :
    is.foldl after status = if .finish∈is then .done else status := by
  induction is generalizing status with
  | nil => rfl
  | cons item is ih =>
    rw [foldl_cons,ih]
    by_cases hitem : item = .finish
    · subst hitem
      rw [after,ite_self,if_pos mem_cons_self]
    · have hafter : after status item=status := by
        cases item <;> first | rfl | exact absurd rfl hitem
      have hmem : .finish∈item::is ↔ .finish∈is := by
        rw [mem_cons,or_iff_right fun h => hitem h.symm]
      rw [hafter]
      simp only [hmem]

theorem followAll_append (v : View σ) (is js : List Item) :
    followAll M v (is++js)=(followAll M v is).bind fun v => followAll M v js := by
  induction is generalizing v with
  | nil => rfl
  | cons item is ih =>
    rw [cons_append,followAll,followAll,Option.bind_assoc]
    simp only [ih]

theorem follow_newsyms {v' : View σ} (h : follow M v item=some v') :
    ∃ calls, v'.newsyms=v.newsyms++calls ∧ (calls=[] ↔ ∀ name, item ≠ .symbol name) := by
  cases item with
  | compare zcnt =>
    rw [follow] at h
    split at h <;> cases h
    exact ⟨[],(append_nil _).symm,iff_of_true rfl nofun⟩
  | symbol name =>
    rw [follow,Option.map_eq_some_iff] at h
    obtain ⟨syms,-,rfl⟩ := h
    exact ⟨_,rfl,iff_of_false (cons_ne_nil _ _) fun hno => hno name rfl⟩
  | openSymbol name => cases h
  | bad code => cases h
  | _ =>
    cases h
    exact ⟨[],(append_nil _).symm,iff_of_true rfl nofun⟩

theorem followAll_spec {v' : View σ} (h : followAll M v is=some v') :
    v'.nextaddr=is.foldl (moved v.offset) v.nextaddr ∧
      (v'.newsyms=v.newsyms ↔ ∀ name, .symbol name∉is) := by
  suffices hspec : v'.nextaddr=is.foldl (moved v.offset) v.nextaddr ∧
      ∃ calls, v'.newsyms=v.newsyms++calls ∧ (calls=[] ↔ ∀ name, .symbol name∉is) by
    obtain ⟨hnext,calls,hcalls,hnil⟩ := hspec
    rw [hcalls,append_right_eq_self]
    exact ⟨hnext,hnil⟩
  induction is generalizing v with
  | nil =>
    cases h
    exact ⟨rfl,[],(append_nil _).symm,iff_of_true rfl fun name => not_mem_nil⟩
  | cons item is ih =>
    rw [followAll,Option.bind_eq_some_iff] at h
    obtain ⟨w,hfollow,hrest⟩ := h
    obtain ⟨hnext,hoffset⟩ := follow_nextaddr hfollow
    obtain ⟨first,hfirst,hfirstnil⟩ := follow_newsyms hfollow
    obtain ⟨hend,more,hmore,hmorenil⟩ := ih hrest
    refine ⟨by rw [hend,hnext,hoffset,foldl_cons],first++more,?_,?_⟩
    · rw [hmore,hfirst,append_assoc]
    · rw [append_eq_nil_iff,hfirstnil,hmorenil,←forall_and]
      simp only [mem_cons,not_or,ne_eq,eq_comm]

/-- A record is followed by its symbols alone exactly when nothing that counts is behind its first
group. -/
theorem dlFastload_symsOnly_iff (M : FastMonitor σ) {recbuf : Buffer} {recsize : ℤ}
    {s : FastLoader σ} (hs : s.nextaddr<2^32)
    (hok : IsStatus (dlFastload M plain recbuf recsize s).1) :
    ((dlFastload M symsOnly recbuf recsize s).1=(dlFastload M plain recbuf recsize s).1 ∧
      (dlFastload M symsOnly recbuf recsize s).2.2.newsyms =
        (dlFastload M plain recbuf recsize s).2.2.newsyms ∧
      (dlFastload M symsOnly recbuf recsize s).2.2.nextaddr =
        (dlFastload M plain recbuf recsize s).2.2.nextaddr ∧
      (dlFastload M symsOnly recbuf recsize s).2.2.mem=s.mem) ↔
    KeepsUp s.offset s.nextaddr (recordItems recbuf recsize) := by
  have hsize : recsize.tmod 4=0 := by
    by_contra hne
    rw [dlFastload,if_pos hne] at hok
    exact isError_badLen.1 hok
  rw [dlFastload_eq M plain hsize] at hok ⊢
  rw [dlFastload_eq M symsOnly hsize]
  generalize his : recordItems recbuf recsize=is at hok ⊢
  have hbad : ∀ code, .bad code∈is → IsError code :=
    fun code hcode => mem_recordItems_bad (his ▸ hcode)
  obtain ⟨hall,hcode⟩ := run_plain hbad (.inl rfl) hs hok
  obtain ⟨hpart,hmem,hcode'⟩ := @run_symsOnly σ s 0 .cont M _ is hall
  have hrest := hall
  rw [←throughData_append is,followAll_append,hpart] at hrest
  have hsymbols := (followAll_spec hrest).2
  have hnext := (followAll_spec hall).1
  have hnext' := (followAll_spec hpart).1
  rw [throughData_append] at hsymbols
  -- the status tells whether the end was seen
  have hstatus : (throughData is).foldl after .cont=is.foldl after .cont ↔
      (.finish∈afterData is → .finish∈throughData is) := by
    have hmem : .finish∈is ↔ .finish∈throughData is ∨ .finish∈afterData is := by
      rw [←mem_append,throughData_append]
    rw [foldl_after,foldl_after]
    by_cases hbefore : .finish∈throughData is <;> by_cases hbehind : .finish∈afterData is <;>
      simp [hmem,hbefore,hbehind]
  rw [hcode,hcode',hstatus,and_iff_left hmem]
  constructor
  · rintro ⟨hfinish,hcalls,haddr⟩
    exact ⟨hsymbols.mp hcalls.symm,hfinish,hnext.symm.trans (haddr.symm.trans hnext')⟩
  · rintro ⟨hsymbol,hfinish,haddr⟩
    exact ⟨hfinish,(hsymbols.mpr hsymbol).symm,hnext'.trans (haddr.symm.trans hnext.symm)⟩

def textBuffer (text : String) : Buffer := fun i => (text.toUTF8.data[i]?).getD 0

def fastMonitor : FastMonitor Unit where
  toMonitor := SDump.promMonitor
  clienttos memorysize := K0BASE+memorysize

def clearFast : FastLoader Unit where
  toLoader := SDump.clearLoader
  nextaddr := 0x80100000
  memorysize := 0x01000000
  sp := 0
  a3 := 0
  newsyms := []
  named := []

theorem dlFastload_symsOnly_iff_before :
    (dlFastload fastMonitor symsOnly (textBuffer "/Sa,AAAA") 8 clearFast).2.2.nextaddr =
      (dlFastload fastMonitor plain (textBuffer "/Sa,AAAA") 8 clearFast).2.2.nextaddr := by
  have hafter : afterData (recordItems (textBuffer "/Sa,AAAA") 8)=[] := by decide +kernel
  have hkeeps : KeepsUp clearFast.offset clearFast.nextaddr
      (recordItems (textBuffer "/Sa,AAAA") 8) := by
    refine ⟨?_,?_, by decide +kernel⟩
    · rw [hafter]
      exact fun name => not_mem_nil
    · rw [hafter]
      exact fun h => absurd h not_mem_nil
  exact ((dlFastload_symsOnly_iff fastMonitor (by decide) (.inl (by decide +kernel))).mpr
    hkeeps).2.2.1

theorem dlFastload_symsOnly_behind :
    (dlFastload fastMonitor plain (textBuffer "AAAA/Sa,") 8 clearFast).1 = .cont ∧
      (dlFastload fastMonitor plain (textBuffer "AAAA/Sa,") 8 clearFast).2.2.newsyms =
        [(['a'],0x80100003)] ∧
      (dlFastload fastMonitor symsOnly (textBuffer "AAAA/Sa,") 8 clearFast).2.2.newsyms=[] := by
  decide +kernel

end Pmon.FastSyms
