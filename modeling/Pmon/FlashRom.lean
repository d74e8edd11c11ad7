import Pmon.ByteStore

/-!
# The flash ROM driver

`flashrom.c` as `sbdflash8.c` and `sbdflash16.c` include it: one bank, `virtoffs` zero, and a board
header that fixes the device width, the columns, how many of them one access reaches (a group) and
how addresses and data are munged. A group value is the list of its bytes in memory order. A `Chip`
decides, event by event, what a pulse leaves in a cell, whether a poll fails, whether `malloc` finds
memory and what the protection probe answers. Messages, interrupt mask, cache flushes and unlock
cycles are not modelled.
-/

namespace Pmon.FlashRom
open ByteStore

inductive DevCode where
  | ok
  | fail
  | devProtected
  | devPartial
  | noMem
  | fatal
  deriving DecidableEq

abbrev Flags := BitVec 32
def progReboot : Flags := 0x01
def progMerge : Flags := 0x04
def progCodeEb : Flags := 0x08
def progStream : Flags := 0x10
def fsect : Flags := 0x30
def fcmd : Flags := 0x50
def mode (flags : Flags) : Flags := flags &&& 0x78

/-- A board header: the geometry and the munging macros, which see the mode bits only. -/
structure Board where
  widthLog2 : ℕ
  ncolsLog2 : ℕ
  groupLog2 : ℕ
  readContiguous : Flags → Bool
  fromrline : Flags → ℕ → ℕ
  frompline : Flags → ℕ → ℕ
  swapped : Flags → Bool
  width_le : widthLog2≤1
  group_le : groupLog2≤ncolsLog2
  rline_eq : fromrline=frompline
  contiguous_plain : ∀ m, readContiguous m=true → (∀ x, frompline m x=x) ∧ swapped m=false
  pline_dvd : ∀ m x, 2^ncolsLog2*2^widthLog2 ∣ x →
    2^ncolsLog2*2^widthLog2 ∣ frompline m x
  pline_pline : ∀ m x, frompline m (frompline m x)=x
  pline_div : ∀ m x, frompline m x/(4*2^ncolsLog2)=x/(4*2^ncolsLog2)

namespace Board
variable (b : Board)

def width : ℕ := 2^b.widthLog2
def ncols : ℕ := 2^b.ncolsLog2
def group : ℕ := 2^b.groupLog2
def linesz : ℕ := b.ncols*b.width
def groupsz : ℕ := b.group*b.width
def ngroups : ℕ := 2^(b.ncolsLog2-b.groupLog2)

def munge (m : Flags) (bytes : List UInt8) : List UInt8 :=
  if b.swapped m then bytes.reverse else bytes

def frompeek (m : Flags) (cells : ℕ → UInt8) (addr : ℕ) : List UInt8 :=
  b.munge m (readCells cells addr b.groupsz)

def fromconvert (toflgs fromflgs : Flags) (val : List UInt8) : List UInt8 :=
  if b.swapped toflgs≠b.swapped fromflgs then val.reverse else val

end Board

theorem xor_div_four {k : ℕ} (hk : k < 4) (x : ℕ) : (x ^^^ k) / 4 = x / 4 := by
  have h := Nat.xor_div_two_pow (a := x) (b := k) (n := 2)
  have hz : k/2^2=0 := Nat.div_eq_of_lt hk
  rw [hz,Nat.xor_zero] at h
  exact h

def flash8El : Board where
  widthLog2 := 0
  ncolsLog2 := 0
  groupLog2 := 0
  readContiguous _ := true
  fromrline _ x := x
  frompline _ x := x
  swapped _ := false
  width_le := by decide
  group_le := le_rfl
  rline_eq := rfl
  contiguous_plain _ _ := ⟨fun _ => rfl,rfl⟩
  pline_dvd _ _ h := h
  pline_pline _ _ := rfl
  pline_div _ _ := rfl

def flash16Eb : Board where
  widthLog2 := 1
  ncolsLog2 := 0
  groupLog2 := 0
  readContiguous m := m == progCodeEb
  fromrline m x := if m = progCodeEb then x else x ^^^ 2
  frompline m x := if m = progCodeEb then x else x ^^^ 2
  swapped m := m == progStream
  width_le := le_rfl
  group_le := le_rfl
  rline_eq := rfl
  contiguous_plain m h := by
    have hm : m=progCodeEb := by simpa using h
    subst hm
    exact ⟨fun x => if_pos rfl, by decide⟩
  pline_dvd m x hx := by
    split
    · exact hx
    · have h2 : x%2=0 := Nat.mod_eq_zero_of_dvd (by simpa using hx)
      have h : (x ^^^ 2)%2^1=x%2^1 ^^^ 2%2^1 := Nat.xor_mod_two_pow
      rw [pow_one,h2] at h
      exact Nat.dvd_of_mod_eq_zero h
  pline_pline m x := by
    split
    · rfl
    · rw [Nat.xor_assoc,Nat.xor_self,Nat.xor_zero]
  pline_div m x := by
    split
    · rfl
    · exact xor_div_four (by decide) x

inductive Frombootsects where
  | fbNone
  | fbTop
  | fbBot
  deriving DecidableEq

inductive Family where
  | amd
  | ibcs
  | atmel
  deriving DecidableEq

def bootsecs (am29dl : Bool) : List ℕ :=
  if am29dl then [0x2000,0x2000,0x2000,0x2000,0x2000,0x2000,0x2000]
  else [0x4000,0x2000,0x2000]

structure Geometry where
  board : Board
  /-- `devsize_log2`; `devsize` is this power of two. -/
  devsizeLog2 : ℕ
  secsizeLog2 : ℕ
  boot : Frombootsects
  am29dl : Bool
  family : Family
  secsize_le : secsizeLog2≤devsizeLog2
  word_le : board.widthLog2 ≤ secsizeLog2
  boot_fits : boot ≠ .fbNone → (bootsecs am29dl).sum<2^secsizeLog2
  /-- The device fits an `unsigned int`. -/
  size_lt : 2^devsizeLog2*2^board.ncolsLog2<2^32

/-- A device whose sectors have at least eight lines. The address that a sector is erased by,
`fromlineaddr (..) + frompline (0, FSECT)`, is in the sector then, like that of its first line. -/
structure Fromcookie extends Geometry where
  eight_le : 3 ≤ secsizeLog2

instance : Coe Fromcookie Geometry := ⟨Fromcookie.toGeometry⟩

namespace Geometry
variable (fcp : Geometry)

def devsize : ℕ := 2^fcp.devsizeLog2
def secsize : ℕ := 2^fcp.secsizeLog2
def banksize : ℕ := fcp.devsize*fcp.board.ncols
def size : ℕ := fcp.banksize

def nsec : ℕ := fcp.devsize/fcp.secsize +
    if fcp.boot = .fbNone then 0 else (bootsecs fcp.am29dl).length

end Geometry

def foffs2addr (fcp : Geometry) (offs : ℕ) : ℕ × ℕ :=
  (offs/fcp.banksize,offs%fcp.banksize/fcp.board.width/fcp.board.ncols)

structure Sector where
  secno : ℕ
  soffs : ℕ
  ssize : ℕ
  deriving DecidableEq

def topBoot (noffs offs : ℕ) : List ℕ → ℕ → ℕ → Sector
  | [], soffs, secno => ⟨secno-1,noffs,soffs-noffs⟩
  | ssize::rest, soffs, secno =>
    if soffs-ssize≤offs then ⟨secno-1,soffs-ssize,ssize⟩
    else topBoot noffs offs rest (soffs-ssize) (secno-1)

def botBoot (bootspace offs : ℕ) : List ℕ → ℕ → ℕ → Sector
  | [], soffs, secno => ⟨secno,soffs,bootspace-soffs⟩
  | ssize::rest, soffs, secno =>
    if offs<soffs+ssize then ⟨secno,soffs,ssize⟩
    else botBoot bootspace offs rest (soffs+ssize) (secno+1)

def findsector (fcp : Geometry) (offs : ℕ) : Option Sector :=
  let (bank,addr) := foffs2addr fcp offs
  let secsize := fcp.secsize*fcp.board.ncols
  let sizes := (bootsecs fcp.am29dl).map (· * fcp.board.ncols)
  if bank≥1 then none
  else
    let offs := addr*fcp.board.linesz
    if fcp.boot = .fbTop ∧ fcp.banksize-secsize≤offs then
      some (topBoot (fcp.banksize-secsize) offs sizes fcp.banksize fcp.nsec)
    else if fcp.boot = .fbBot ∧ offs<secsize then
      some (botBoot secsize offs sizes 0 0)
    else
      let soffs := offs-offs%secsize
      some ⟨soffs/secsize +
        (if fcp.boot = .fbBot then (bootsecs fcp.am29dl).length else 0),soffs,secsize⟩

/-- What a chip may do: programming clears bits only, and may fail at any time. -/
structure Chip where
  burn : ℕ → ℕ → UInt8 → UInt8 → UInt8
  burn_clears : ∀ t addr old val, burn t addr old val &&& old = burn t addr old val
  fault : ℕ → Bool
  mallocOk : ℕ → Bool
  fromautoselect : ℕ → ℕ → Bool

structure Tiny where
  offset : ℕ
  flags : Flags
  buffer : List UInt8

/-- The cells and the static variables of the driver; `tick` counts the commands to the chip. -/
structure Flash where
  cells : ℕ → UInt8
  protect : Option (List Bool)
  copied : Bool
  tick : ℕ
  allocated : List ℕ
  freed : List ℕ
  tiny : Option Tiny

def Flash.next (s : Flash) : Flash := {s with tick := s.tick+1}

def probeLoop (fcp : Geometry) (chip : Chip) : ℕ → ℕ → Bool → ℕ → List Bool × ℕ
  | 0, _, _, t => ([],t)
  | fuel+1, soffs, prot, t =>
    let block := 0x4000*fcp.board.linesz
    let top := (fcp.size+2^32-block)%2^32
    if soffs<fcp.size then
      let ssize := ((findsector fcp soffs).map Sector.ssize).getD 0
      if fcp.family = .atmel ∧ (block ≤ soffs ∨ soffs<top) then
        let r := probeLoop fcp chip fuel (soffs+ssize) prot t
        (false::r.1,r.2)
      else if fcp.family = .atmel ∧ soffs≠0 ∧ soffs≠top then
        let r := probeLoop fcp chip fuel (soffs+ssize) prot t
        (prot::r.1,r.2)
      else
        let prot := (List.range fcp.board.ngroups).any fun g =>
          chip.fromautoselect (t+g) (soffs+g*fcp.board.groupsz)
        let r := probeLoop fcp chip fuel (soffs+ssize) prot (t+fcp.board.ngroups)
        (prot::r.1,r.2)
    else ([],t)

def sectorinfo (fcp : Geometry) (chip : Chip) (s : Flash) (offs : ℕ) : Bool × ℕ × ℕ × Flash :=
  match findsector fcp offs with
  | none => (true,0,0,s)
  | some sec =>
    match s.protect with
    | some protect => (protect.getD sec.secno true,sec.soffs,sec.ssize,s)
    | none =>
      if chip.mallocOk s.tick then
        let r := probeLoop fcp chip fcp.size 0 false (s.tick+1)
        (r.1.getD sec.secno true,sec.soffs,sec.ssize,{s with protect := some r.1, tick := r.2})
      else (true,sec.soffs,sec.ssize,s.next)

section
variable (b : Board) (m : Flags) (cells : ℕ → UInt8)

def readGroups (lp : ℕ) : ℕ → ℕ → List UInt8
  | 0, _ => []
  | n+1, col => b.frompeek m cells (lp+col*b.width)++readGroups lp n (col+b.group)

def readLines : ℕ → ℕ → List UInt8
  | 0, _ => []
  | nl+1, o =>
    readGroups b m cells (b.fromrline m o) b.ngroups 0++readLines nl (o+b.linesz)
end

def readAlign (fcp : Geometry) (m : Flags) (cells : ℕ → UInt8) (offs : ℕ) : List UInt8 :=
  if (offs+fcp.board.linesz)%2^32>fcp.size then List.replicate fcp.board.linesz 0
  else readLines fcp.board m cells 1 offs

def readLoop (fcp : Geometry) (m : Flags) (cells : ℕ → UInt8) : ℕ → ℕ → ℕ → List UInt8
  | 0, _, _ => []
  | fuel+1, offs, nb =>
    let linesz := fcp.board.linesz
    if nb=0 then []
    else if offs%linesz≠0 then
      let o := offs%linesz
      let n := min (linesz-o) nb
      ((readAlign fcp m cells (offs-o)).drop o).take n ++
        readLoop fcp m cells fuel (offs+n) (nb-n)
    else if nb<linesz then (readAlign fcp m cells offs).take nb
    else
      let n := nb-nb%linesz
      readLines fcp.board m cells (nb/linesz) offs ++
        readLoop fcp m cells fuel (offs+n) (nb-n)

def fromreadbytes (fcp : Geometry) (cells : ℕ → UInt8) (offs nb : ℕ) (flags : Flags) :
    DevCode × List UInt8 :=
  if (offs+nb)%2^32>fcp.size then (.fail,[])
  else if fcp.board.readContiguous (mode flags) then (.ok,readCells cells offs nb)
  else (.ok,readLoop fcp (mode flags) cells (nb+1) offs nb)

structure Fromvec where
  offs : ℕ
  mem : List UInt8
  nb : ℕ
  erase : ℕ
  scratch : Option ℕ

section
variable (fcp : Geometry) (chip : Chip)

def fromlineaddr (m : Flags) (addr : ℕ) : ℕ := fcp.board.frompline m (addr*fcp.board.linesz)

def eraseColumn (cp : ℕ) (s : Flash) : Flash :=
  let sec := (findsector fcp cp).getD ⟨0,0,0⟩
  let column := fun a => a%fcp.board.linesz/fcp.board.groupsz
  { s with
    cells := fun a =>
      if sec.soffs≤a ∧ a<sec.soffs+sec.ssize ∧ column a=column cp then 0xff
      else s.cells a
    tick := s.tick+1 }

def programGroup (cp : ℕ) (val : List UInt8) (s : Flash) : Flash := { s with
    cells := fun a =>
      if cp≤a ∧ a<cp+fcp.board.groupsz then
        chip.burn s.tick a (s.cells a) (val.getD (a-cp) 0)
      else s.cells a
    tick := s.tick+1 }

def frompollIbcs (fp : ℕ) (expect : List UInt8) (flags : Flags) (s : Flash) : DevCode :=
  if chip.fault s.tick then .fatal
  else if fcp.board.frompeek (mode flags) s.cells fp≠expect then .fatal
  else .ok

def frompollAmd (fp : ℕ) (expect : List UInt8) (flags : Flags) (s : Flash) : DevCode :=
  let expect := fcp.board.fromconvert (mode fcmd) (mode flags) expect
  if chip.fault s.tick then .fatal
  else if fcp.board.frompeek (mode fcmd) s.cells fp≠expect then .fatal
  else .ok

def frompoll (fp : ℕ) (expect : List UInt8) (flags : Flags) (s : Flash) : DevCode :=
  match fcp.family with
  | .ibcs => frompollIbcs fcp chip fp expect flags s
  | .amd => frompollAmd fcp chip fp expect flags s
  | .atmel => .fail

def startErase (fp : ℕ) : ℕ → ℕ → ℕ → Flash → Flash
  | 0, _, _, s => s
  | n+1, col, e, s =>
    startErase fp n (col + fcp.board.group) (e >>> fcp.board.group)
      (if e%2=1 then eraseColumn fcp (fp+col*fcp.board.width) s else s)

def pollErase (fp : ℕ) : ℕ → ℕ → ℕ → DevCode → Flash → DevCode × Flash
  | 0, _, _, status, s => (status,s)
  | n+1, col, e, status, s =>
    if e%2=1 then
      let stat := frompoll fcp chip (fp+col*fcp.board.width)
        (List.replicate fcp.board.groupsz 0xff) fsect s
      pollErase fp n (col + fcp.board.group) (e >>> fcp.board.group)
        (if stat ≠ .ok then stat else status) s.next
    else pollErase fp n (col + fcp.board.group) (e >>> fcp.board.group) status s

def startGroups (flags : Flags) (fp : ℕ) : ℕ → ℕ → List UInt8 → ℕ → Flash → ℕ × Flash
  | 0, _, _, prog, s => (prog,s)
  | n+1, col, mp, prog, s =>
    let cp := fp+col*fcp.board.width
    let nv := mp.take fcp.board.groupsz
    if fcp.board.frompeek (mode flags) s.cells cp≠nv then
      startGroups flags fp n (col+fcp.board.group) (mp.drop fcp.board.groupsz)
        (prog ||| 1 <<< col) (programGroup fcp chip cp (fcp.board.munge (mode flags) nv) s)
    else
      startGroups flags fp n (col+fcp.board.group) (mp.drop fcp.board.groupsz) prog s

def pollGroups (flags : Flags) (fp : ℕ) : ℕ → ℕ → List UInt8 → ℕ → DevCode → Flash → DevCode × Flash
  | 0, _, _, _, status, s => (status,s)
  | n+1, col, mp, prog, status, s =>
    if prog%2=1 then
      let stat := frompoll fcp chip (fp+col*fcp.board.width)
        (mp.take fcp.board.groupsz) flags s
      pollGroups flags fp n (col+fcp.board.group) (mp.drop fcp.board.groupsz)
        (prog >>> fcp.board.group) (if stat ≠ .ok then stat else status) s.next
    else
      pollGroups flags fp n (col+fcp.board.group) (mp.drop fcp.board.groupsz)
        (prog >>> fcp.board.group) status s

def programLine (flags : Flags) (addr : ℕ) (mp : List UInt8) (status : DevCode) (s : Flash) :
    DevCode × Flash :=
  let fp := fromlineaddr fcp (mode flags) addr
  let r := startGroups fcp chip flags fp fcp.board.ngroups 0 mp 0 s
  if r.1=0 then (status,r.2)
  else pollGroups fcp chip flags fp fcp.board.ngroups 0 mp r.1 status r.2

def programLines (flags : Flags) : ℕ → ℕ → List UInt8 → DevCode → Flash → DevCode × Flash
  | 0, _, _, status, s => (status,s)
  | n+1, addr, mp, status, s =>
    let r := programLine fcp chip flags addr mp status s
    programLines flags n (addr+1) (mp.drop fcp.board.linesz) r.1 r.2

def pageGroups (flags : Flags) (fp : ℕ) : ℕ → ℕ → List UInt8 → Flash → Flash
  | 0, _, _, s => s
  | n+1, col, mp, s =>
    pageGroups flags fp n (col+fcp.board.group) (mp.drop fcp.board.groupsz)
      { s with cells := applyWrites (writesAt (fp+col*fcp.board.width)
          (fcp.board.munge (mode flags) (mp.take fcp.board.groupsz))) s.cells }

def pageLines (flags : Flags) : ℕ → ℕ → List UInt8 → Flash → Flash
  | 0, _, _, s => s
  | n+1, addr, mp, s =>
    pageLines flags n (addr+1) (mp.drop fcp.board.linesz)
      (pageGroups fcp flags (fromlineaddr fcp (mode flags) addr) fcp.board.ngroups 0 mp s)

def pollPage (flags : Flags) (fp : ℕ) : ℕ → ℕ → List UInt8 → DevCode → Flash → DevCode × Flash
  | 0, _, _, status, s => (status,s)
  | n+1, col, mp, status, s =>
    let stat := frompollAmd fcp chip (fp+col*fcp.board.width)
      (mp.take fcp.board.groupsz) flags s
    pollPage flags fp n (col+fcp.board.group) (mp.drop fcp.board.groupsz)
      (if stat ≠ .ok then stat else status) s.next

/-- One entry of a program vector. The sector to erase is named by its first line: the term
`frompline (0, FSECT)` of the source stays inside it. -/
def programEntry (flags : Flags) (v : Fromvec) (status : DevCode) (s : Flash) : DevCode × Flash :=
  let b := fcp.board
  let addr := (foffs2addr fcp v.offs).2
  match fcp.family with
  | .atmel =>
    let s := pageLines fcp flags (v.nb/b.linesz) addr v.mem s
    pollPage fcp chip flags (fromlineaddr fcp (mode flags) (addr+v.nb/b.linesz-1))
      b.ngroups 0 (v.mem.drop (v.nb-b.linesz)) status s
  | _ =>
    let fp := fromlineaddr fcp (mode fsect) addr
    let s := startErase fcp fp b.ngroups 0 v.erase s
    let r := pollErase fcp chip fp b.ngroups 0 v.erase status s
    programLines fcp chip flags (v.nb/b.linesz) addr v.mem r.1 r.2

def programEntries (flags : Flags) : List Fromvec → DevCode → Flash → DevCode × Flash
  | [], status, s => (status,s)
  | v::vec, status, s =>
    let r := programEntry fcp chip flags v status s
    programEntries flags vec r.1 r.2

def fromprogramvec (flags : Flags) (vec : List Fromvec) (s : Flash) : Option DevCode × Flash :=
  if !s.copied && !chip.mallocOk s.tick then (some .noMem,s.next)
  else
    let s := if s.copied then s else {s.next with copied := true}
    let r := programEntries fcp chip flags vec .ok s
    if flags &&& progReboot ≠ 0 then (none,r.2) else (some r.1,r.2)

def maskGroups (flags : Flags) (cells : ℕ → UInt8) (fp : ℕ) : ℕ → ℕ → List UInt8 → ℕ → ℕ × Bool
  | 0, _, _, erase => (erase,false)
  | n+1, col, mp, erase =>
    let ov := fcp.board.frompeek (mode flags) cells (fp+col*fcp.board.width)
    let nv := mp.take fcp.board.groupsz
    if (nv.zip ov).any fun p => p.1 &&& ~~~p.2 != 0 then
      let erase := erase ||| (2 ^ fcp.board.group - 1) <<< col
      if erase=2^fcp.board.ncols-1 then (erase,true)
      else maskGroups flags cells fp n (col+fcp.board.group)
        (mp.drop fcp.board.groupsz) erase
    else maskGroups flags cells fp n (col+fcp.board.group) (mp.drop fcp.board.groupsz) erase

def maskLines (flags : Flags) (cells : ℕ → UInt8) : ℕ → ℕ → List UInt8 → ℕ → ℕ
  | 0, _, _, erase => erase
  | n+1, addr, mp, erase =>
    let r := maskGroups fcp flags cells (fromlineaddr fcp (mode flags) addr)
      fcp.board.ngroups 0 mp erase
    if r.2 then r.1 else maskLines flags cells n (addr+1) (mp.drop fcp.board.linesz) r.1

def fromerasemask (flags : Flags) (cells : ℕ → UInt8) (offs nb : ℕ) (mem : List UInt8) : ℕ :=
  maskLines fcp flags cells (nb/fcp.board.linesz) (foffs2addr fcp offs).2 mem 0

def overlay (buf : List UInt8) (k : ℕ) (data : List UInt8) : List UInt8 :=
  buf.take k++data++buf.drop (k+data.length)

def planLoop (flags : Flags) : ℕ → ℕ → ℕ → List UInt8 → Flash → DevCode × List Fromvec × Flash
  | 0, _, nb, _, s => (if nb=0 then .ok else .fail,[],s)
  | fuel+1, o, nb, mem, s =>
    if nb=0 then (.ok,[],s)
    else
      let (prot,soffs,ssize,s) := sectorinfo fcp chip s o
      if prot then (.devProtected,[],s)
      else
        let n := min (ssize-(o-soffs)) nb
        let erase := fromerasemask fcp flags s.cells o n mem
        if n≠ssize ∧ (erase≠0 ∨ fcp.family = .atmel) then
          if flags &&& progMerge = 0 then (.devPartial,[],s)
          else if !chip.mallocOk s.tick then (.noMem,[],s.next)
          else
            -- a partial sector needs erasing: merge flash and data
            let sbuf := overlay (fromreadbytes fcp s.cells soffs ssize flags).2
              (o-soffs) (mem.take n)
            let v : Fromvec := ⟨soffs,sbuf,ssize,
              fromerasemask fcp flags s.cells soffs ssize sbuf,some s.tick⟩
            let r := planLoop flags fuel (o+n) (nb-n) (mem.drop n)
              {s.next with allocated := s.allocated++[s.tick]}
            (r.1,v::r.2.1,r.2.2)
        else
          let v : Fromvec := ⟨o,mem,n,erase,none⟩
          let r := planLoop flags fuel (o+n) (nb-n) (mem.drop n) s
          (r.1,v::r.2.1,r.2.2)

def freeVec (vec : List Fromvec) (s : Flash) : Flash :=
  {s with freed := s.freed++vec.filterMap Fromvec.scratch}

def fromprogramaligned (offs : ℕ) (buf : List UInt8) (nbytes : ℕ) (flags : Flags)
    (s : Flash) : Option DevCode × Flash :=
  if nbytes=0 then (some .ok,s)
  else
    let (ret,vec,s) := planLoop fcp chip flags nbytes offs nbytes buf s
    if ret = .ok then
      match fromprogramvec fcp chip flags vec s with
      | (none,s) => (none,s)
      | (some ret,s) => (some ret,freeVec vec s)
    else (some ret,freeVec vec s)

def tinyFlush (self : Bool) (ho : ℕ) (s : Flash) : Option DevCode × Flash := match s.tiny with
  | none => (some .ok,s)
  | some t =>
    if self=false ∨ ho≠t.offset then
      let r := fromprogramaligned fcp chip t.offset t.buffer fcp.board.linesz t.flags s
      (r.1,{r.2 with tiny := none})
    else (some .ok,s)

def tinyFill (flags : Flags) (ho : ℕ) (s : Flash) : DevCode × Flash := match s.tiny with
  | some _ => (.ok,s)
  | none =>
    let r := fromreadbytes fcp s.cells ho fcp.board.linesz flags
    if r.1 = .ok then (.ok,{s with tiny := some ⟨ho,flags,r.2⟩}) else (r.1,s)

def tinyStore (bo : ℕ) (data : List UInt8) (s : Flash) : Flash :=
  {s with tiny := s.tiny.map fun t => ⟨t.offset,t.flags,overlay t.buffer bo data⟩}

def tinyLoop (self : Bool) (flags : Flags) :
    ℕ → ℕ → Option (List UInt8) → ℕ → Flash → Option DevCode × Flash
  | 0, _, _, _, s => (some .ok,s)
  | fuel+1, offs, mem, nb, s =>
    let bo := offs%fcp.board.linesz
    let n := min nb (fcp.board.linesz-bo)
    let r := tinyFlush fcp chip self (offs-bo) s
    match mem with
    | none => r
    | some mem =>
      if r.1≠some .ok then r
      else
        let r' := tinyFill fcp flags (offs-bo) r.2
        if r'.1 ≠ .ok then (some r'.1,r'.2)
        else
          let s := tinyStore bo (mem.take n) r'.2
          if nb-n≠0 then tinyLoop self flags fuel (offs+n) (some (mem.drop n)) (nb-n) s
          else (some .ok,s)

def fromprogramtiny (self : Bool) (offs : ℕ) (mem : Option (List UInt8)) (nb : ℕ)
    (flags : Flags) (s : Flash) : Option DevCode × Flash :=
  tinyLoop fcp chip self (flags &&& ~~~progReboot) (nb + 1) offs mem nb s

def programEdge (lo bo : ℕ) (data : List UInt8) (flags : Flags) (s : Flash) :
    Option DevCode × Flash :=
  let r := fromreadbytes fcp s.cells lo fcp.board.linesz flags
  if r.1 = .ok then
    fromprogramaligned fcp chip lo (overlay r.2 bo data) fcp.board.linesz
      (flags &&& ~~~progReboot) s
  else (some r.1,s)

def programRest (offs : ℕ) (mem : List UInt8) (nb : ℕ) (flags : Flags) (s : Flash) :
    Option DevCode × Flash :=
  let n := nb%fcp.board.linesz
  let r := if n=0 then (some DevCode.ok,s)
    else programEdge fcp chip (offs+(nb-n)) 0 ((mem.drop (nb-n)).take n) flags s
  if nb-n>0 ∧ r.1=some .ok then fromprogramaligned fcp chip offs mem (nb-n) flags r.2
  else r

def programParts (offs : ℕ) (mem : List UInt8) (nb : ℕ) (flags : Flags) (s : Flash) :
    Option DevCode × Flash :=
  let bo := offs%fcp.board.linesz
  if bo=0 then programRest fcp chip offs mem nb flags s
  else
    let n := min (fcp.board.linesz-bo) nb
    let r := programEdge fcp chip (offs-bo) bo (mem.take n) flags s
    if r.1=some .ok then programRest fcp chip (offs+n) (mem.drop n) (nb-n) flags r.2
    else r

def fromprogrambytes (offs : ℕ) (mem : Option (List UInt8)) (nb : ℕ) (flags : Flags)
    (s : Flash) : Option DevCode × Flash :=
  if (offs+nb)%2^32>fcp.size then (some .fail,s)
  else if fcp.board.linesz>1 then
    if nb<fcp.board.linesz then fromprogramtiny fcp chip true offs mem nb flags s
    else
      let s := (fromprogramtiny fcp chip false 0 none 0 0 s).2
      programParts fcp chip offs (mem.getD []) nb flags s
  else if nb=0 then (some .ok,s)
  else programParts fcp chip offs (mem.getD []) nb flags s
end
end Pmon.FlashRom
