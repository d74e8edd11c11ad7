import Pmon.LinkedRing

/-!
# The storage allocator

The free blocks form a ring of headers that starts at the static header `base`; a header is a link
and a size in units of eight bytes. `malloc` takes the tail of the first block that is large enough,
or asks `sbrk`; `free` merges a block with its neighbours. `sbrk` answers with the addresses in a
list, `none` for 0. The loops have a bound on their steps, and `none` stands for one that has not
ended.
-/

namespace Pmon.Malloc
open LinkedRing

/-- The headers by address, and `allocp`. -/
structure Heap where
  ptr : ℕ → ℕ
  size : ℕ → ℕ
  allocp : ℕ

def nunits (nbytes : ℕ) : ℕ := (nbytes+7)%2^32/8+1
def rnunits (nu : ℕ) : ℕ := 128*((nu+127)%2^32/128)

def leavesAt (h : Heap) (p q : ℕ) : Bool :=
  (decide (q<p) && decide (p<h.ptr q)) ||
    (decide (h.ptr q≤q) && (decide (q<p) || decide (p<h.ptr q)))

def joinUpper (h : Heap) (p q : ℕ) : Heap :=
  if p+8*h.size p=h.ptr q then
    { h with
      size := Function.update h.size p (h.size p+h.size (h.ptr q))
      ptr := Function.update h.ptr p (h.ptr (h.ptr q)) }
  else {h with ptr := Function.update h.ptr p (h.ptr q)}

def joinLower (h : Heap) (p q : ℕ) : Heap :=
  if q+8*h.size q=p then
    { h with
      size := Function.update h.size q (h.size q+h.size p)
      ptr := Function.update h.ptr q (h.ptr p) }
  else {h with ptr := Function.update h.ptr q p}

def insert (h : Heap) (p q : ℕ) : Heap :=
  {joinLower (joinUpper h p q) p q with allocp := q}

def free (fuel : ℕ) (h : Heap) (ap : ℕ) : Option Heap :=
  (walk h.ptr (leavesAt h (ap-8)) fuel h.allocp).map (insert h (ap-8))

def morecore (fuel : ℕ) (h : Heap) (nu cp : ℕ) : Option Heap :=
  free fuel {h with size := Function.update h.size cp (rnunits nu)} (cp+8)

def stopsAt (h : Heap) (nu q : ℕ) : Bool :=
  decide (nu≤h.size (h.ptr q)) || decide (h.ptr q=h.allocp)

def take (h : Heap) (nu q : ℕ) : ℕ × Heap :=
  let p := h.ptr q
  if h.size p=nu then
    (p,{h with ptr := Function.update h.ptr q (h.ptr p), allocp := q})
  else
    let rest := h.size p-nu
    (p+8*rest,
      { h with
        size := Function.update (Function.update h.size p rest) (p+8*rest) nu
        allocp := q })

structure Result where
  block : Option ℕ
  heap : Heap
  cores : List (ℕ × ℕ)

def mallocLoop (fuel nu : ℕ) : List (Option ℕ) → Heap → ℕ → Option Result
  | answers, h, q =>
    match walk h.ptr (stopsAt h nu) fuel q with
    | none => none
    | some q =>
      if nu≤h.size (h.ptr q) then
        some ⟨some ((take h nu q).1+8),(take h nu q).2,[]⟩
      else
        match answers with
        | some cp::answers =>
          match morecore fuel h nu cp with
          | none => none
          | some h' =>
            (mallocLoop fuel nu answers h' h'.allocp).map fun r =>
              {r with cores := (cp,rnunits nu)::r.cores}
        | _ => some ⟨none,h,[]⟩

def start (base : ℕ) (h : Heap) : Heap :=
  { ptr := Function.update h.ptr base base
    size := Function.update h.size base 0
    allocp := base }

def malloc (base fuel : ℕ) (h : Heap) (nbytes : ℕ) (answers : List (Option ℕ)) :
    Option Result :=
  let h := if h.allocp=0 then start base h else h
  mallocLoop fuel (nunits nbytes) answers h h.allocp

structure Brk where
  allocp1 : ℕ
  heaptop : ℕ

def k0ToPhys (a : ℕ) : ℕ := a%2^29
def Brk.top (b : Brk) : ℕ := if b.heaptop=0 then 0x80020000 else b.heaptop

def sbrk (b : Brk) (n : ℕ) : Option ℕ × Brk :=
  if (k0ToPhys b.allocp1+n)%2^32≤k0ToPhys b.top then
    (some b.allocp1,{b with allocp1 := (b.allocp1+n)%2^32})
  else (none,b)

structure Block where
  addr : ℕ
  nbytes : ℕ
deriving DecidableEq

/-- The heap with the blocks handed out and not freed, and the areas taken from `sbrk`. -/
structure State where
  heap : Heap
  live : List Block
  cores : List (ℕ × ℕ)

def State.units (s : State) : ℕ := (s.cores.map Prod.snd).sum
def State.fuel (s : State) : ℕ := s.units+2

inductive Op where
  | malloc (nbytes : ℕ) (answers : List (Option ℕ))
  | free (b : Block)
  | store (ptr size : ℕ → ℕ)

def step (base : ℕ) (s : State) : Op → Option State
  | .malloc nbytes answers =>
    (Malloc.malloc base s.fuel s.heap nbytes answers).map fun r =>
      { heap := r.heap
        live := (r.block.map fun ap => (⟨ap-8,nbytes⟩ : Block)).toList++s.live
        cores := r.cores++s.cores }
  | .free b =>
    (Malloc.free s.fuel s.heap (b.addr+8)).map fun h =>
      {s with heap := h, live := s.live.erase b}
  | .store ptr size => some {s with heap := {s.heap with ptr, size}}

def run (base : ℕ) : State → List Op → Option State
  | s, [] => some s
  | s, op::ops => (step base s op).bind fun s => run base s ops

end Pmon.Malloc
