import Pmon.Tftp

/-!
# Reading over TFTP

The buffer of a handle is a window of the file, and the calls act on an offset, until a read fails.
-/

namespace Pmon.Tftp
open List
variable {es : List Event} {o : Outcome Tftpfile Event} {cs : List Copy}

def blk (file : List UInt8) (b : ℕ) : List UInt8 := (file.drop (segsize*(b-1))).take segsize

theorem length_blk (file : List UInt8) (b : ℕ) :
    (blk file b).length = min segsize (file.length-segsize*(b-1)) := by
  simp [blk]

theorem take_drop_blk (file : List UInt8) (b : ℕ) {k n : ℕ} (h : k+n ≤ segsize) :
    ((blk file b).drop k).take n=(file.drop (segsize*(b-1)+k)).take n := by
  rw [blk,drop_take,take_take,drop_drop,Nat.min_eq_left (by omega)]

def Carries (file : List UInt8) (es : List Event) : Prop :=
  ∀ e∈es, ∀ d, e.reply = .datagram d → 4≤d.len → d.opcode = .data → 1≤d.block.toNat →
    d.payload=blk file d.block.toNat ∧ d.len=4+d.payload.length

theorem Carries.suffix {file : List UInt8} {es' : List Event} (h : Carries file es)
    (hs : es' <:+ es) : Carries file es' := fun e he => h e (hs.subset he)

structure SameWindow (tfp tfp' : Tftpfile) : Prop where
  flags : tfp'.flags=tfp.flags
  block : tfp'.block=tfp.block
  start : tfp'.start=tfp.start
  stop : tfp'.stop=tfp.stop
  foffs : tfp'.foffs=tfp.foffs

theorem SameWindow.trans {t u v : Tftpfile} (h : SameWindow t u) (h' : SameWindow u v) :
    SameWindow t v :=
  ⟨h'.flags.trans h.flags,h'.block.trans h.block,h'.start.trans h.start,h'.stop.trans h.stop,
    h'.foffs.trans h.foffs⟩

variable {tfp : Tftpfile}

theorem tftprrq_of_eof (heof : tfp.eof=true) (h : tftprrq tfp es=some o) :
    o.value<0 ∨ o.value=0 ∧ o.state=tfp := by
  cases es with
  | nil => cases h
  | cons e es =>
    unfold tftprrq rounds rrqRound at h
    by_cases hsent : e.sent=false
    · rw [if_pos hsent] at h
      cases h
      exact Or.inl (Int.negSucc_lt_zero 0)
    · rw [if_neg hsent,if_pos heof] at h
      cases h
      exact Or.inr ⟨rfl,rfl⟩

structure Waiting (tfp t : Tftpfile) : Prop extends SameWindow tfp t where
  eof : t.eof=false

inductive Rrq (tfp : Tftpfile) (e : Event) : Round Tftpfile → Prop where
  | failed {v : ℤ} {t : Tftpfile} (hv : v<0) : Rrq tfp e (.done v t)
  | again {t : Tftpfile} {k : ℕ} (ht : Waiting tfp t) : Rrq tfp e (.again t k)
  | taken {d : Dgram} {t : Tftpfile} (hreply : e.reply = .datagram d) (hlen : 4≤d.len)
      (hopcode : d.opcode = .data) (hblock : d.block.toNat=tfp.block) (ht : SameWindow tfp t)
      (hbuf : t.buf=overwrite d.payload tfp.buf)
      (heof : t.eof=decide ((d.len : ℤ)-4<segsize)) : Rrq tfp e (.done (d.len-4) t)

theorem rrqReceive_rrq {t : Tftpfile} {e : Event} {d : Dgram} (hreply : e.reply = .datagram d)
    (ht : Waiting tfp t) (hbuf : t.buf=overwrite d.payload tfp.buf) (rexmt : ℕ) :
    Rrq tfp e (rrqReceive t rexmt d) := by
  unfold rrqReceive
  by_cases herror : d.opcode = .error
  · rw [if_pos herror]
    exact .failed (by decide)
  rw [if_neg herror]
  by_cases hdata : d.opcode = .data
  · rw [if_pos hdata]
    by_cases hblock : d.block.toInt=t.block
    · rw [if_pos hblock]
      by_cases hlen : 4≤d.len
      · refine .taken hreply hlen hdata ((toNat_of_toInt hblock).trans ht.block)
          ⟨ht.flags,ht.block,ht.start,ht.stop,ht.foffs⟩ hbuf ?_
        rw [ht.eof,Bool.false_or]
      · exact .failed (by omega)
    · rw [if_neg hblock]
      by_cases hstale : d.block.toInt≠t.block-1
      · rw [if_pos hstale]
        exact .failed (by decide)
      · rw [if_neg hstale]
        exact .again ht
  · rw [if_neg hdata]
    exact .again ht

theorem rrqRound_rrq (heof : tfp.eof=false) (rexmt : ℕ) (e : Event) :
    Rrq tfp e (rrqRound tfp rexmt e) := by
  have hwait : ∀ t : Tftpfile, t.flags=tfp.flags → t.block=tfp.block → t.start=tfp.start →
      t.stop=tfp.stop → t.foffs=tfp.foffs → t.eof=tfp.eof → Waiting tfp t :=
    fun t h₁ h₂ h₃ h₄ h₅ h₆ => ⟨⟨h₁,h₂,h₃,h₄,h₅⟩,h₆.trans heof⟩
  unfold rrqRound
  by_cases hsent : e.sent=false
  · rw [if_pos hsent]
    exact .failed (by decide)
  rw [if_neg hsent,if_neg (by simp [heof])]
  cases hreply : e.reply with
  | selectError => exact .failed (by decide)
  | timeout =>
    dsimp only
    split
    · exact .failed (by decide)
    · exact .again (hwait tfp rfl rfl rfl rfl rfl rfl)
  | recvError => exact .failed (by decide)
  | datagram d =>
    dsimp only
    split
    · exact rrqReceive_rrq hreply (by apply hwait <;> rfl) rfl rexmt
    · split
      · exact .again (hwait _ rfl rfl rfl rfl rfl rfl)
      · exact rrqReceive_rrq hreply (by apply hwait <;> rfl) rfl rexmt

theorem tftprrq_block {file : List UInt8} (heof : tfp.eof=false) (hblock : 1≤tfp.block)
    (hes : Carries file es) (h : tftprrq tfp es=some o) :
    o.value<0 ∨ SameWindow tfp o.state ∧ o.value=(blk file tfp.block).length ∧
      o.state.buf.take (blk file tfp.block).length=blk file tfp.block ∧
      o.state.eof=decide ((blk file tfp.block).length<segsize) := by
  refine rounds_done (P := Waiting tfp) (Q := fun e => Carries file [e])
    (R := fun v t => v<0 ∨ SameWindow tfp t ∧ v=(blk file tfp.block).length ∧
      t.buf.take (blk file tfp.block).length=blk file tfp.block ∧
      t.eof=decide ((blk file tfp.block).length<segsize)) ?_ ?_
    ⟨⟨rfl,rfl,rfl,rfl,rfl⟩,heof⟩ (fun e he f hf => ?_) h
  · intro t k e t' k' ht _ hround
    have hr := rrqRound_rrq ht.eof k e
    rw [hround] at hr
    cases hr with
    | again ht' => exact ⟨ht.toSameWindow.trans ht'.toSameWindow,ht'.eof⟩
  · intro t k e v t' ht he hround
    have hr := rrqRound_rrq ht.eof k e
    rw [hround] at hr
    cases hr with
    | failed hv => exact Or.inl hv
    | @taken d _ hreply hlen hopcode hblk ht' hbuf heof' =>
      have hb := hblk.trans ht.block
      obtain ⟨hpay,hsize⟩ := he e (mem_singleton_self e) d hreply hlen hopcode (by omega)
      rw [hb] at hpay
      rw [hpay] at hsize hbuf
      refine Or.inr ⟨ht.toSameWindow.trans ht',by omega,?_,?_⟩
      · rw [hbuf,overwrite,take_left]
      · rw [heof']
        congr 1
        rw [eq_iff_iff]
        omega
  · rw [mem_singleton.mp hf]
    exact hes e he

/-- The window is a block of the file. -/
structure Active (file : List UInt8) (tfp : Tftpfile) : Prop where
  block : 1≤tfp.block
  start : tfp.start=segsize*(tfp.block-1 : ℕ)
  inside : segsize*(tfp.block-1)≤file.length
  stop : tfp.stop=tfp.start+(blk file tfp.block).length
  buf : tfp.buf.take (blk file tfp.block).length=blk file tfp.block
  eof : tfp.eof=decide ((blk file tfp.block).length<segsize)

structure Finished (file : List UInt8) (tfp : Tftpfile) : Prop where
  start : tfp.start=file.length
  stop : tfp.stop=file.length
  eof : tfp.eof=true

/-- An open file between two reads. -/
structure Reading (file : List UInt8) (tfp : Tftpfile) : Prop where
  flags : tfp.flags = .rdonly
  foffs : tfp.start≤tfp.foffs
  window : Active file tfp ∨ Finished file tfp

section
variable {file : List UInt8} {tfp : Tftpfile}

theorem Reading.start_nonneg (h : Reading file tfp) : 0≤tfp.start := by
  rcases h.window with ha | hf
  · rw [ha.start]
    positivity
  · rw [hf.start]
    positivity

theorem Reading.at_end (h : Reading file tfp) (hempty : tfp.stop≤tfp.start) :
    (file.length : ℤ)≤tfp.foffs := by
  have hfoffs := h.foffs
  rcases h.window with ha | hf
  · have hstart := ha.start
    have hstop := ha.stop
    have hlen := length_blk file tfp.block
    have hinside := ha.inside
    unfold segsize at hstart hlen hinside
    omega
  · rw [hf.start] at hfoffs
    exact hfoffs

theorem Reading.seek (h : Reading file tfp) {o : ℤ} (ho : tfp.start≤o) :
    Reading file {tfp with foffs := o} := by
  refine ⟨h.flags,ho,?_⟩
  rcases h.window with ha | hf
  · exact Or.inl ⟨ha.block,ha.start,ha.inside,ha.stop,ha.buf,ha.eof⟩
  · exact Or.inr ⟨hf.start,hf.stop,hf.eof⟩

theorem Reading.copy (h : Reading file tfp) {n : ℕ} (hin : tfp.foffs+n≤tfp.stop)
    (hn : n<2^32) (dst : ℤ) :
    tfp.copy dst n=⟨dst,n,(file.drop tfp.foffs.toNat).take n⟩ := by
  have hcount : ((n : ℤ)%2^32).toNat=n := by omega
  have hfoffs := h.foffs
  rw [Tftpfile.copy,hcount]
  congr 1
  rcases h.window with ha | hf
  · have hstart := ha.start
    have hstop := ha.stop
    have hlen := length_blk file tfp.block
    have hk : (tfp.foffs-tfp.start).toNat+n≤(blk file tfp.block).length := by omega
    have hle := hlen.trans_le (Nat.min_le_left _ _)
    have hbuf : (tfp.buf.drop (tfp.foffs-tfp.start).toNat).take n =
        ((blk file tfp.block).drop (tfp.foffs-tfp.start).toNat).take n := by
      rw [←ha.buf,drop_take,take_take,Nat.min_eq_left (by omega)]
    have hoffs : segsize*(tfp.block-1)+(tfp.foffs-tfp.start).toNat = tfp.foffs.toNat := by
      omega
    rw [hbuf,take_drop_blk _ _ (by omega),hoffs]
  · have hzero : n=0 := by
      have hstop := hf.stop
      have hstart := hf.start
      omega
    rw [hzero,take_zero,take_zero]

theorem Active.next (hsize : file.length<65535*segsize) (h : Active file tfp)
    (hfull : tfp.eof=false) : tfp.nxtblk.block=tfp.block+1 ∧ tfp.stop=segsize*tfp.block ∧
      segsize*tfp.block≤file.length := by
  have hstart := h.start
  have hstop := h.stop
  have hblock := h.block
  have hlen := length_blk file tfp.block
  have heof := h.eof
  rw [hfull,eq_comm,decide_eq_false_iff_not] at heof
  unfold segsize at *
  refine ⟨Nat.mod_eq_of_lt (by omega),by omega,by omega⟩

theorem Active.stop_of_eof (h : Active file tfp) (hlast : tfp.eof=true) :
    tfp.stop=file.length := by
  have hstart := h.start
  have hstop := h.stop
  have hinside := h.inside
  have hlen := length_blk file tfp.block
  have heof := h.eof
  rw [hlast,eq_comm,decide_eq_true_iff] at heof
  unfold segsize at *
  omega

theorem Reading.refill (hsize : file.length<65535*segsize) (h : Reading file tfp)
    (hsome : tfp.start<tfp.stop) (hused : tfp.stop≤tfp.foffs) (hes : Carries file es)
    {r : Outcome Tftpfile Event} (hr : tftprrq tfp.nxtblk es=some r) :
    r.value<0 ∨ r.state.foffs=tfp.foffs ∧
      Reading file {r.state with start := r.state.stop, stop := int32 (r.state.stop+r.value)} := by
  have hsmall : file.length<65535*512 := hsize
  rcases h.window with ha | hf
  · cases hlast : tfp.eof with
    | true =>
      have hend := ha.stop_of_eof hlast
      have hlast' : tfp.nxtblk.eof=true := hlast
      rcases tftprrq_of_eof hlast' hr with hv | ⟨hv,htfp⟩
      · exact Or.inl hv
      · rw [htfp,hv]
        refine Or.inr ⟨rfl,h.flags,hused,Or.inr ⟨hend,?_,hlast⟩⟩
        change int32 (tfp.stop+0)=file.length
        rw [int32_eq (by omega) (by omega)]
        omega
    | false =>
      obtain ⟨hnext,hstop,hinside⟩ := ha.next hsize hlast
      have hlast' : tfp.nxtblk.eof=false := hlast
      rcases tftprrq_block hlast' (by omega) hes hr with
        hv | ⟨hsame,hv,hbuf,heof⟩
      · exact Or.inl hv
      · rw [hnext] at hv hbuf heof
        have hlen := length_blk file (tfp.block+1)
        have hblk := hsame.block.trans hnext
        have hrstop : r.state.stop=tfp.stop := hsame.stop
        refine Or.inr ⟨hsame.foffs,hsame.flags.trans h.flags,?_,Or.inl ?_⟩
        · change r.state.stop≤r.state.foffs
          rw [hrstop,hsame.foffs]
          exact hused
        · refine ⟨?_,?_,?_,?_,?_,?_⟩
          all_goals dsimp only
          all_goals rw [hblk]
          · omega
          · rw [hrstop,hstop,Nat.add_sub_cancel]
          · exact hinside
          · unfold segsize at *
            rw [hrstop,hv,int32_eq (by omega) (by omega)]
          · exact hbuf
          · exact heof
  · have hstart := hf.start
    have hstop := hf.stop
    omega

theorem Reading.stop_le (h : Reading file tfp) :
    tfp.stop≤file.length ∧ tfp.stop-tfp.start ≤ segsize := by
  rcases h.window with ha | hf
  · have hstart := ha.start
    have hstop := ha.stop
    have hinside := ha.inside
    have hlen := length_blk file tfp.block
    unfold segsize at *
    omega
  · rw [hf.start,hf.stop]
    omega
end

def Tiled : ℤ → List Copy → Prop
  | _, [] => True
  | p, c::cs => c.dst=p ∧ c.count=c.bytes.length ∧ Tiled (p+c.count) cs

def copied (cs : List Copy) : List UInt8 := cs.flatMap Copy.bytes

theorem Tiled.append {ds : List Copy} {p : ℤ} (h : Tiled p cs)
    (h' : Tiled (p+(copied cs).length) ds) : Tiled p (cs++ds) := by
  induction cs generalizing p with
  | nil => simpa [copied] using h'
  | cons c cs ih =>
    obtain ⟨hdst,hcount,htail⟩ := h
    refine ⟨hdst,hcount,ih htail ?_⟩
    have hlen : (copied (c::cs)).length=c.count+(copied cs).length := by
      simp [copied,hcount]
    rw [hlen] at h'
    rw [add_assoc]
    exact_mod_cast h'

structure Brings (file : List UInt8) (o : ℤ) (r : ℕ) (p : ℤ) (cs : List Copy) : Prop where
  tiled : Tiled p cs
  bytes : copied cs=(file.drop o.toNat).take r
  length : (copied cs).length=r

theorem Brings.nil (file : List UInt8) (o p : ℤ) : Brings file o 0 p [] :=
  ⟨trivial,by simp [copied],rfl⟩

theorem Brings.append {file : List UInt8} {o p : ℤ} {r s : ℕ} {ds : List Copy} (ho : 0≤o)
    (h : Brings file o r p cs) (h' : Brings file (o+r) s (p+r) ds) :
    Brings file o (r+s) p (cs++ds) := by
  have happ : copied (cs++ds)=copied cs++copied ds := flatMap_append
  refine ⟨h.tiled.append (by rw [h.length]; exact h'.tiled),?_,?_⟩
  · have hoffs : (o+r).toNat = o.toNat+r := by omega
    rw [happ,h.bytes,h'.bytes,hoffs,←drop_drop,←take_add]
  · rw [happ,length_append,h.length,h'.length]

/-- A read fails, or brings bytes from the offset on, fewer only at the end of the file. -/
structure Sequential (file : List UInt8) (tfp : Tftpfile) (nb : ℕ) (dst : ℤ) (es : List Event)
    (rest : ℤ → ℤ) (o : Outcome Tftpfile Event) (cs : List Copy) : Prop where
  events : o.events <:+ es
  result : o.value = -1 ∨ ∃ r≤nb, o.value=rest (nb-r : ℕ) ∧
    Brings file tfp.foffs r dst cs ∧ (r<nb → (file.length : ℤ)≤tfp.foffs+r) ∧
    o.state.foffs=tfp.foffs+r ∧ Reading file o.state

theorem Sequential.prepend {file : List UInt8} {tfp t : Tftpfile} {nb k : ℕ} {dst : ℤ}
    {fs : List Event} {rest : ℤ → ℤ} {copies : List Copy}
    (h : Sequential file t (nb-k) (dst+k) fs rest o cs) (hfs : fs <:+ es) (hk : k≤nb)
    (ho : 0≤tfp.foffs) (hcopies : Brings file tfp.foffs k dst copies)
    (hto : t.foffs=tfp.foffs+k) : Sequential file tfp nb dst es rest o (copies++cs) := by
  refine ⟨h.events.trans hfs,h.result.imp_right ?_⟩
  rintro ⟨r,hr,hvalue,hb,hshort,hof,hread⟩
  rw [hto] at hb hshort hof
  have hleft : nb-k-r=nb-(k+r) := by omega
  rw [hleft] at hvalue
  exact ⟨k+r,by omega,hvalue,hcopies.append ho hb,by omega,by omega,hread⟩

section
variable {file : List UInt8} (hsize : file.length<65535*segsize)
include hsize
variable {tfp : Tftpfile}

theorem Reading.drain (h : Reading file tfp) (nb : ℕ) (dst : ℤ) :
    ∃ (k : ℕ) (cs : List Copy), tfp.drain nb dst=(cs,{tfp with foffs := tfp.foffs+k},(k : ℤ)) ∧
      k≤nb ∧ Brings file tfp.foffs k dst cs ∧ (tfp.stop≤tfp.foffs+k ∨ k=nb) := by
  have hstop := h.stop_le
  have hstart := h.start_nonneg
  have hfoffs := h.foffs
  have hsmall : file.length<65535*512 := hsize
  unfold Tftpfile.drain
  by_cases hin : tfp.start≤tfp.foffs ∧ tfp.foffs<tfp.stop
  · obtain ⟨k,hk⟩ := Int.eq_ofNat_of_zero_le
      (show 0 ≤ min (tfp.stop-tfp.foffs) (nb : ℤ) by omega)
    have hcopy := h.copy (n := k) (by omega) (by unfold segsize at hstop; omega) dst
    refine ⟨k,[⟨dst,k,(file.drop tfp.foffs.toNat).take k⟩],?_,by omega,?_,by omega⟩
    · rw [if_pos hin]
      dsimp only
      rw [hk,int32_eq (by omega) (by omega),←hcopy]
    · have hlen : ((file.drop tfp.foffs.toNat).take k).length=k := by
        rw [length_take,length_drop]
        omega
      exact ⟨⟨rfl,hlen.symm,trivial⟩,by simp [copied],by simpa [copied] using hlen⟩
  · refine ⟨0,[],?_,by omega,Brings.nil _ _ _,by omega⟩
    rw [if_neg hin]
    simp

theorem tftpreadLoop_sequential {nread : ℤ} {fuel : ℕ} (h : Reading file tfp) {nb : ℕ} {dst : ℤ}
    (hes : Carries file es) (hrun : tftpreadLoop nread fuel tfp nb dst es=some (o,cs)) :
    Sequential file tfp nb dst es (nread - ·) o cs := by
  induction fuel generalizing tfp nb dst es cs with
  | zero => cases hrun
  | succ fuel ih =>
    unfold tftpreadLoop at hrun
    by_cases hgo : (nb : ℤ)≠0 ∧ tfp.start<tfp.stop
    · rw [if_pos hgo] at hrun
      obtain ⟨k,copies,hdrain,hk,hbrings,-⟩ := h.drain hsize nb dst
      rw [hdrain] at hrun
      dsimp only at hrun
      have hstart := h.start_nonneg
      have hfoffs := h.foffs
      have h' : Reading file {tfp with foffs := tfp.foffs+k} := h.seek (by omega)
      have hnb : ((nb : ℤ)-k)=(nb-k : ℕ) := by omega
      rw [hnb] at hrun
      by_cases hused : tfp.stop≤tfp.foffs+k
      · rw [if_pos hused] at hrun
        split at hrun
        · cases hrun
        · next r hr =>
          obtain ⟨e,hsuf⟩ := rounds_suffix hr
          have hevents := (suffix_cons e _).trans hsuf
          by_cases hneg : r.value<0
          · rw [if_pos hneg] at hrun
            cases hrun
            exact ⟨hevents,Or.inl rfl⟩
          · rw [if_neg hneg] at hrun
            obtain ⟨⟨o',cs'⟩,hloop,heq⟩ := Option.map_eq_some_iff.mp hrun
            cases heq
            obtain ⟨hto,hread⟩ := (h'.refill hsize hgo.2 hused hes hr).resolve_left hneg
            exact (ih hread (hes.suffix hevents) hloop).prepend hevents hk (by omega) hbrings hto
      · rw [if_neg hused] at hrun
        obtain ⟨⟨o',cs'⟩,hloop,heq⟩ := Option.map_eq_some_iff.mp hrun
        cases heq
        exact (ih h' hes hloop).prepend (suffix_refl _) hk (by omega) hbrings rfl
    · rw [if_neg hgo] at hrun
      cases hrun
      refine ⟨suffix_refl _,Or.inr ⟨0,by omega,by simp,Brings.nil _ _ _,?_,by simp,h⟩⟩
      intro hnb
      have hend := h.at_end (by omega)
      omega

theorem tftpread_sequential (h : Reading file tfp) {nb : ℕ} (hes : Carries file es)
    (hrun : tftpread tfp nb es=some (o,cs)) :
    Sequential file tfp nb 0 es ((nb : ℤ) - ·) o cs := by
  unfold tftpread at hrun
  rw [if_neg (by simp [h.flags])] at hrun
  exact tftpreadLoop_sequential hsize h hes hrun

theorem tftpopenRead_reading {port : ℕ} {es' : List Event} (hes : Carries file es)
    (hopen : tftpopenRead port es=some (some tfp,es')) :
    Reading file tfp ∧ tfp.foffs=0 ∧ es' <:+ es := by
  have hsmall := hsize
  unfold tftpopenRead at hopen
  obtain ⟨r,hr,heq⟩ := Option.map_eq_some_iff.mp hopen
  by_cases hneg : r.value<0
  · rw [if_pos hneg] at heq
    cases heq
  · rw [if_neg hneg] at heq
    cases heq
    obtain ⟨e,hsuf⟩ := rounds_suffix hr
    have hnew : (newHandle port .rdonly 1).eof=false := rfl
    obtain ⟨hsame,hv,hbuf,heof⟩ := (tftprrq_block hnew le_rfl hes hr).resolve_left hneg
    have hlen := length_blk file 1
    have hblock : r.state.block=1 := hsame.block
    have hstart : r.state.start=0 := hsame.start
    have hfoffs : r.state.foffs=0 := hsame.foffs
    refine ⟨⟨hsame.flags,?_,Or.inl ⟨?_,?_,?_,?_,?_,?_⟩⟩,hfoffs,
      (suffix_cons e _).trans hsuf⟩
    all_goals dsimp only
    · rw [hstart,hfoffs]
    all_goals rw [hblock]
    · rw [hstart]
      rfl
    · omega
    · rw [hv]
      change int32 (r.state.start+(blk file 1).length)=r.state.start+(blk file 1).length
      unfold segsize at hlen
      rw [int32_eq (by omega) (by omega)]
    · exact hbuf
    · exact heof
end

inductive Call where
  | read (n : ℕ)
  | lseek (offs how : ℤ)

structure Result where
  value : ℤ
  copies : List Copy

def calls : Tftpfile → List Event → List Call → List Result
  | _, _, [] => []
  | tfp, es, .read n::cs =>
    match tftpread tfp n es with
    | none => []
    | some (o,copies) =>
      ⟨o.value,copies⟩ :: if o.value = -1 then [] else calls o.state o.events cs
  | tfp, es, .lseek offs how::cs =>
    match tftplseek tfp offs how with
    | (value,tfp) => ⟨value,[]⟩::calls tfp es cs

def SequentialFile (file : List UInt8) : ℤ → List Call → List Result → Prop
  | _, _, [] => True
  | _, [], _::_ => False
  | o, .read n::cs, r::rs =>
    r.value = -1 ∨ ∃ k≤n, r.value=(k : ℕ) ∧ Brings file o k 0 r.copies ∧
      (k<n → (file.length : ℤ)≤o+k) ∧ SequentialFile file (o+k) cs rs
  | o, .lseek _ _::cs, r::rs =>
    r.value = -1 ∧ SequentialFile file o cs rs ∨ 0≤r.value ∧ SequentialFile file r.value cs rs

theorem tftplseek_reading {file : List UInt8} {tfp : Tftpfile} (h : Reading file tfp)
    (offs how : ℤ) : tftplseek tfp offs how=(-1,tfp) ∨ ∃ o, 0≤o ∧
      tftplseek tfp offs how=(o,{tfp with foffs := o}) ∧
      Reading file {tfp with foffs := o} := by
  have hstart := h.start_nonneg
  unfold tftplseek
  split
  · exact Or.inl rfl
  · generalize (if how=0 then offs else int32 (tfp.foffs+offs))=noffs
    split
    · next hflags =>
      rw [h.flags] at hflags
      cases hflags
    · by_cases hlow : noffs<tfp.start
      · rw [if_pos hlow]
        exact Or.inl rfl
      · rw [if_neg hlow]
        rw [not_lt] at hlow
        exact Or.inr ⟨noffs,hstart.trans hlow,rfl,h.seek hlow⟩

theorem calls_sequentialFile {file : List UInt8} (hsize : file.length<65535*segsize)
    {tfp : Tftpfile} (h : Reading file tfp) (hes : Carries file es) (cs : List Call) :
    SequentialFile file tfp.foffs cs (calls tfp es cs) := by
  induction cs generalizing tfp es with
  | nil => trivial
  | cons c cs ih =>
    cases c with
    | read n =>
      unfold calls
      split
      · trivial
      · next o copies hread =>
        obtain ⟨hsuf,hres⟩ := tftpread_sequential hsize h hes hread
        rcases hres with hfail | ⟨r,hr,hvalue,hbrings,hshort,hfoffs,hreading⟩
        · exact Or.inl hfail
        · have hval : o.value=(r : ℕ) := by omega
          rw [if_neg (by omega)]
          refine Or.inr ⟨r,hr,hval,hbrings,hshort,?_⟩
          rw [←hfoffs]
          exact ih hreading (hes.suffix hsuf)
    | lseek offs how =>
      unfold calls
      rcases tftplseek_reading h offs how with heq | ⟨o,ho,heq,hreading⟩
      · rw [heq]
        exact Or.inl ⟨rfl,ih h hes⟩
      · rw [heq]
        exact Or.inr ⟨ho,ih hreading hes⟩

/-- Whatever the network does, the calls on a handle give what a sequential file gives. -/
theorem tftp_reads_sequentially (file : List UInt8) (hsize : file.length<65535*segsize)
    (port : ℕ) (es es' : List Event) (hes : Carries file es) (tfp : Tftpfile)
    (hopen : tftpopenRead port es=some (some tfp,es')) (cs : List Call) :
    SequentialFile file 0 cs (calls tfp es' cs) := by
  obtain ⟨hreading,hfoffs,hsuf⟩ := tftpopenRead_reading hsize hes hopen
  rw [←hfoffs]
  exact calls_sequentialFile hsize hreading (hes.suffix hsuf) cs

def strayEvents : List Event := [⟨true,.timeout⟩,⟨true,.datagram ⟨7,4,.ack,9,[]⟩⟩,
    ⟨true,.datagram ⟨7,7,.data,1,[1,2,3]⟩⟩,⟨true,.timeout⟩]

theorem strayEvents_carries : Carries [1,2,3] strayEvents := by
  intro e he d hd
  simp only [strayEvents,mem_cons,not_mem_nil,or_false] at he
  rcases he with rfl | rfl | rfl | rfl <;> cases hd <;> decide

def strayHandle : Tftpfile :=
  { port := 7, block := 1, flags := .rdonly, eof := true, start := 0, stop := 3, foffs := 0
    buf := [1,2,3]++List.replicate 509 0 }

def strayCalls : List Call := [.read 2,.lseek (-1) 1,.read 5]

theorem tftp_reads_sequentially_stray :
    (calls strayHandle [⟨true,.timeout⟩] strayCalls).map Result.value=[2,1,2] ∧
      SequentialFile [1,2,3] 0 strayCalls (calls strayHandle [⟨true,.timeout⟩] strayCalls) :=
  ⟨by decide +kernel,tftp_reads_sequentially [1,2,3] (by decide) 69 strayEvents
    [⟨true,.timeout⟩] strayEvents_carries strayHandle (by decide +kernel) strayCalls⟩

end Pmon.Tftp
