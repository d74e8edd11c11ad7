import Pmon.MallocSafe

/-!
# The heap over `sbrk`

`sbrk` gives out the memory from the end of the monitor up to `heaptop`, which `chg_heaptop` moves.
So what the allocator is given is fresh, whatever it is asked for.
-/

namespace Pmon.Malloc
open List Function

/-- `chg_heaptop` for a number; `inRam` is `_pmon_in_ram`. -/
def Brk.chgHeaptop (b : Brk) (inRam : Bool) (top : ℕ) : Bool × Brk :=
  if inRam then (true,b)
  else if k0ToPhys top<k0ToPhys b.allocp1 then (false,b)
  else (true,{b with heaptop := top})

/-- The answers to `k` calls of `sbrk`. -/
def sbrkAnswers (n : ℕ) : ℕ → Brk → List (Option ℕ)
  | 0, _ => []
  | k+1, b => (sbrk b n).1::sbrkAnswers n k (sbrk b n).2

inductive Req where
  | malloc (nbytes : ℕ)
  | free (block : Block)
  | store (ptr size : ℕ → ℕ)
  | heaptop (inRam : Bool) (top : ℕ)

/-- `malloc` calls `sbrk` at most `k` times, and with success for each core it takes. -/
def serve (base k : ℕ) : State × Brk → Req → Option (State × Brk)
  | (s,b), .malloc nbytes =>
    let n := 8*rnunits (nunits nbytes)
    (step base s (.malloc nbytes (sbrkAnswers n k b))).map fun s' =>
      (s',(fun b => (sbrk b n).2)^[s'.cores.length-s.cores.length] b)
  | (s,b), .free block => (step base s (.free block)).map (·,b)
  | (s,b), .store ptr size => (step base s (.store ptr size)).map (·,b)
  | (s,b), .heaptop inRam top => some (s,(b.chgHeaptop inRam top).2)

def Req.Valid (base : ℕ) (s : State) : Req → Prop
  | .malloc nbytes => nbytes<2^31
  | .free block => block∈s.live
  | .store ptr size => Allowed base s (.store ptr size)
  | .heaptop _ _ => True

def Valids (base k : ℕ) : State × Brk → List Req → Prop
  | _, [] => True
  | σ, r::reqs => r.Valid base σ.1 ∧ ∀ σ', serve base k σ r=some σ' → Valids base k σ' reqs

/-- The cores are behind the end of the monitor and below `allocp1`, which is not above the top. -/
structure Grown (stop : ℕ) (cores : List (ℕ × ℕ)) (b : Brk) : Prop where
  le : stop≤b.allocp1
  lt : b.allocp1<2^32
  top : b.allocp1=stop ∨ k0ToPhys b.allocp1≤k0ToPhys b.top
  cores : ∀ x, CoreByte cores x → stop≤x ∧ x<b.allocp1

variable {base stop k : ℕ} {s : State} {cores : List (ℕ × ℕ)} {b : Brk}

theorem sbrk_cases (hlt : b.allocp1<2^32) {n : ℕ} (hn : n<3*2^30) : sbrk b n=(none,b) ∨
    sbrk b n=(some b.allocp1,{b with allocp1 := b.allocp1+n}) ∧ b.allocp1+n<2^32 ∧
      k0ToPhys (b.allocp1+n)≤k0ToPhys b.top := by
  unfold sbrk
  split
  · rename_i hle
    unfold k0ToPhys at hle ⊢
    have hsum : b.allocp1+n<2^32 := by omega
    rw [Nat.mod_eq_of_lt hsum]
    exact .inr ⟨rfl,hsum,by omega⟩
  · exact .inl rfl

theorem rnunits_lt {nbytes : ℕ} (h : nbytes<2^31) : 8*rnunits (nunits nbytes)<3*2^30 := by
  unfold rnunits nunits
  omega

section

variable (h : Grown stop cores b)
include h

theorem Grown.core {units : ℕ} (hlt : b.allocp1+8*units<2^32)
    (htop : k0ToPhys (b.allocp1+8*units)≤k0ToPhys b.top) :
    Grown stop ((b.allocp1,units)::cores) {b with allocp1 := b.allocp1+8*units} := by
  have hle := h.le
  refine ⟨Nat.le_add_right_of_le hle,hlt,.inr htop,fun x hx => ?_⟩
  dsimp only
  rcases coreByte_cons.mp hx with hx | hx
  · dsimp only at hx
    omega
  · have := h.cores x hx
    omega

/-- Every core that the loop takes is the next one of `sbrk`. -/
theorem Grown.mallocLoop {nu fuel q : ℕ} (hn : 8*rnunits nu<3*2^30) {heap : Heap}
    {r : Result} (hr : mallocLoop fuel nu (sbrkAnswers (8*rnunits nu) k b) heap q=some r) :
    Grown stop (r.cores++cores) ((fun b => (sbrk b (8*rnunits nu)).2)^[r.cores.length] b) := by
  induction k generalizing cores b heap q r with
  | zero =>
    unfold Malloc.mallocLoop sbrkAnswers at hr
    split at hr
    · cases hr
    · split at hr <;> obtain rfl := Option.some.inj hr <;> exact h
  | succ k ih =>
    rw [sbrkAnswers] at hr
    unfold Malloc.mallocLoop at hr
    split at hr
    · cases hr
    split at hr
    · obtain rfl := Option.some.inj hr
      exact h
    rcases sbrk_cases h.lt hn with hnone | ⟨hsome,hlt,htop⟩
    · simp only [hnone] at hr
      obtain rfl := Option.some.inj hr
      exact h
    · simp only [hsome] at hr
      split at hr
      · cases hr
      obtain ⟨r',hr',rfl⟩ := Option.map_eq_some_iff.mp hr
      have hgrown := ih (h.core hlt htop) hr'
      dsimp only
      rw [length_cons,iterate_succ_apply,hsome]
      refine ⟨hgrown.le,hgrown.lt,hgrown.top,fun x hx => ?_⟩
      obtain ⟨core,hcore,hx⟩ := hx
      exact hgrown.cores x ⟨core,perm_middle.mem_iff.mpr hcore,hx⟩

theorem Grown.chgHeaptop (inRam : Bool) (top : ℕ) :
    Grown stop cores (b.chgHeaptop inRam top).2 := by
  unfold Brk.chgHeaptop
  split
  · exact h
  split
  · exact h
  · rename_i hle
    refine ⟨h.le,h.lt,.inr ?_,h.cores⟩
    unfold Brk.top
    dsimp only
    unfold k0ToPhys at hle ⊢
    split <;> omega
end

theorem Grown.fresh (h : Grown stop s.cores b) (hstop : base+8 ≤ stop) {nbytes cp : ℕ}
    (hreq : nbytes<2^31)
    (hcp : (sbrkAnswers (8*rnunits (nunits nbytes)) k b).head?=some (some cp)) :
    Fresh base s (rnunits (nunits nbytes)) cp := by
  cases k with
  | zero => cases hcp
  | succ k =>
    rw [sbrkAnswers,head?_cons] at hcp
    rcases sbrk_cases h.lt (rnunits_lt hreq) with hnone | ⟨hsome,hlt,-⟩
    · rw [hnone] at hcp
      cases hcp
    · rw [hsome] at hcp
      obtain rfl := Option.some.inj (Option.some.inj hcp)
      refine ⟨hstop.trans h.le,hlt.le,fun x hx _ hcore => ?_⟩
      have := h.cores x hcore
      omega

theorem Grown.serve (h : Grown stop s.cores b) (hs : Holds base s) (hbase : 0<base)
    (hstop : base+8 ≤ stop) {r : Req} (hr : r.Valid base s) :
    ∃ s' b', serve base k (s,b) r=some (s',b') ∧ Holds base s' ∧ Grown stop s'.cores b' := by
  cases r with
  | malloc nbytes =>
    obtain ⟨s',hstep,hs'⟩ := step_holds hbase hs
      (show Allowed base s (.malloc nbytes _) from ⟨hr,fun cp => h.fresh (k := k) hstop hr⟩)
    refine ⟨s',_,by rw [Malloc.serve,hstep]; rfl,hs',?_⟩
    obtain ⟨r,hloop,rfl⟩ := Option.map_eq_some_iff.mp hstep
    dsimp only
    rw [length_append,Nat.add_sub_cancel]
    exact h.mallocLoop (rnunits_lt hr) hloop
  | free block =>
    obtain ⟨s',hstep,hs'⟩ := step_holds hbase hs (show Allowed base s (.free block) from hr)
    refine ⟨s',b,by rw [Malloc.serve,hstep]; rfl,hs',?_⟩
    obtain ⟨heap,-,rfl⟩ := Option.map_eq_some_iff.mp hstep
    exact h
  | store ptr size =>
    obtain ⟨s',hstep,hs'⟩ := step_holds hbase hs (show Allowed base s (.store ptr size) from hr)
    refine ⟨s',b,by rw [Malloc.serve,hstep]; rfl,hs',?_⟩
    obtain rfl := Option.some.inj hstep
    exact h
  | heaptop inRam top => exact ⟨s,_,rfl,hs,h.chgHeaptop inRam top⟩

/-- Whatever is asked for, the heap keeps its order between the monitor and the top. -/
theorem serve_grown (hbase : 0<base) (hstop : base+8 ≤ stop) (hlt : stop<2^32)
    (hs : Initial s) (top k : ℕ) {reqs : List Req} (hreqs : Valids base k (s,⟨stop,top⟩) reqs) :
    ∃ s' b, reqs.foldlM (serve base k) (s,⟨stop,top⟩)=some (s',b) ∧ Sound base s' ∧
      Grown stop s'.cores b := by
  have hrun : ∀ {s b}, Holds base s → Grown stop s.cores b → Valids base k (s,b) reqs →
      ∃ s' b', reqs.foldlM (serve base k) (s,b)=some (s',b') ∧ Sound base s' ∧
        Grown stop s'.cores b' := by
    clear hreqs
    induction reqs with
    | nil => exact fun {s b} hs h _ => ⟨s,b,rfl,hs.sound,h⟩
    | cons r reqs ih =>
      intro s b hs h hreqs
      obtain ⟨s',b',hserve,hs',h'⟩ := h.serve (k := k) hs hbase hstop hreqs.1
      rw [foldlM_cons,hserve]
      exact ih hs' h' (hreqs.2 _ hserve)
  refine hrun (.inl hs) ⟨le_rfl,hlt,.inl rfl,fun x hx => ?_⟩ hreqs
  obtain ⟨core,hcore,-⟩ := hs.cores ▸ hx
  cases hcore

theorem serve_grown_sample : ∃ s' b, [Req.malloc 100].foldlM (serve 0x80008000 1)
    (sampleState,⟨0x80010000,0⟩)=some (s',b) ∧ Sound 0x80008000 s' ∧
      Grown 0x80010000 s'.cores b :=
  serve_grown (by norm_num) (by norm_num) (by norm_num) ⟨rfl,rfl,rfl⟩ 0 1
    ⟨by norm_num [Req.Valid],fun _ _ => trivial⟩

end Pmon.Malloc
