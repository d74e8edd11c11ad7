import Pmon.FlashRomProgram

/-!
# The tiny write cache of the flash driver

Short transfers are collected in a buffer of one line. A longer transfer ignores the status of the
write-back it forces, and a flush takes a pending line zero for its own line.
-/

namespace Pmon.FlashRom
open ByteStore List
section
variable (fcp : Fromcookie) (chip : Chip) {m : Flags} {V : ℕ → UInt8} {s : Flash}

structure Tiny.Ok (m : Flags) (t : Tiny) : Prop where
  one_lt : 1<fcp.board.linesz
  dvd : fcp.board.linesz ∣ t.offset
  lt : t.offset<fcp.size
  length : t.buffer.length=fcp.board.linesz
  mode_eq : mode t.flags=m

inductive Content (m : Flags) (V : ℕ → UInt8) (s : Flash) : Prop where
  | flushed (htiny : s.tiny=none) (hview : fcp.board.view m s.cells=V)
  | pending (t : Tiny) (htiny : s.tiny=some t) (hok : t.Ok fcp m)
      (hview : Patched (fcp.board.view m s.cells) V t.offset t.buffer)

theorem Content.writeBack {t : Tiny} (htiny : s.tiny=some t) (h : Content fcp m V s)
    (r : Option DevCode × Flash)
    (hr : fromprogramaligned fcp chip t.offset t.buffer fcp.board.linesz t.flags s=r)
    (hok : r.1=some .ok) : fcp.board.view m r.2.cells=V := by
  cases h with
  | flushed hnone => simp [hnone] at htiny
  | pending t' htiny' ht hview =>
    obtain rfl : t=t' := Option.some.inj (htiny.symm.trans htiny')
    have hpatch := fromprogramaligned_spec fcp chip t.flags t.offset t.buffer _ s ht.dvd
      dvd_rfl (fcp.line_le_size ht.dvd ht.lt) ht.length.ge r hr hok
    rw [ht.mode_eq,take_of_length_le ht.length.le] at hpatch
    exact hpatch.unique hview

theorem tinyFlush_content {ho : ℕ} (h : Content fcp m V s) (r : Option DevCode × Flash)
    (hr : tinyFlush fcp chip true ho s=r) (hok : r.1=some .ok) :
    Content fcp m V r.2 ∧ ∀ t, r.2.tiny=some t → t.offset=ho := by
  rw [tinyFlush] at hr
  cases htiny : s.tiny with
  | none =>
    simp only [htiny] at hr
    subst hr
    exact ⟨h,fun t ht => by simp [htiny] at ht⟩
  | some t =>
    simp only [htiny] at hr
    split at hr
    · subst hr
      have hview := h.writeBack fcp chip htiny
        (fromprogramaligned fcp chip t.offset t.buffer fcp.board.linesz t.flags s) rfl hok
      exact ⟨.flushed rfl hview,fun t ht => by simp at ht⟩
    · rename_i hsame
      subst hr
      refine ⟨h,fun t' ht' => ?_⟩
      obtain rfl : t=t' := Option.some.inj (htiny.symm.trans ht')
      by_contra hne
      exact hsame (.inr (Ne.symm hne))

theorem fromreadbytes_end (cells : ℕ → UInt8) (flags : Flags) :
    (fromreadbytes fcp cells fcp.size fcp.board.linesz flags).1 = .fail := by
  have hpos := fcp.board.linesz_pos
  have hfit := fcp.size_add_linesz
  rw [fromreadbytes,Nat.mod_eq_of_lt hfit,if_pos (by omega)]

variable {flags : Flags}

theorem tinyFill_content {ho : ℕ} (hone : 1<fcp.board.linesz) (h : Content fcp m V s)
    (hline : ∀ t, s.tiny=some t → t.offset=ho) (hdvd : fcp.board.linesz ∣ ho)
    (hle : ho≤fcp.size) (hmode : mode flags=m) (r : DevCode × Flash)
    (hr : tinyFill fcp flags ho s=r) (hok : r.1 = .ok) :
    Content fcp m V r.2 ∧ ∃ t, r.2.tiny=some t ∧ t.offset=ho := by
  rw [tinyFill] at hr
  cases htiny : s.tiny with
  | some t =>
    simp only [htiny] at hr
    subst hr
    exact ⟨h,t,htiny,hline t htiny⟩
  | none =>
    simp only [htiny] at hr
    have hlt : ho<fcp.size := by
      rcases Nat.lt_or_eq_of_le hle with hlt | rfl
      · exact hlt
      · have hfail := fromreadbytes_end fcp s.cells flags
        rw [if_neg (by rw [hfail]; decide)] at hr
        subst hr
        exact absurd (hok.symm.trans hfail) (by decide)
    rw [fromreadbytes_eq fcp s.cells flags (fcp.line_le_size hdvd hlt),if_pos rfl] at hr
    subst hr
    refine ⟨.pending _ rfl ⟨hone,hdvd,hlt,length_readCells _ _ _,hmode⟩ ?_,_,rfl,rfl⟩
    cases h with
    | pending t htiny' => simp [htiny] at htiny'
    | flushed _ hview =>
      rw [←hview,hmode]
      exact patched_self (holds_readCells _ _ _)

theorem tinyStore_content {t : Tiny} {bo : ℕ} {data : List UInt8} (h : Content fcp m V s)
    (htiny : s.tiny=some t) (hfit : bo+data.length≤fcp.board.linesz) :
    Content fcp m (applyWrites (writesAt (t.offset+bo) data) V) (tinyStore bo data s) := by
  cases h with
  | flushed hnone => simp [hnone] at htiny
  | pending t' htiny' ht hview =>
    obtain rfl : t=t' := Option.some.inj (htiny.symm.trans htiny')
    have hpatch := hview.write (ht.length ▸ hfit : bo+data.length≤t.buffer.length)
    refine .pending ⟨t.offset,t.flags,overlay t.buffer bo data⟩ (by simp [tinyStore,htiny])
      ⟨ht.one_lt,ht.dvd,ht.lt,?_,ht.mode_eq⟩ hpatch
    rw [overlay,length_append,length_append,length_take,length_drop,ht.length]
    omega

theorem tinyLoop_content (fuel : ℕ) {offs : ℕ} {mem : List UInt8} (hone : 1<fcp.board.linesz)
    (hfuel : mem.length<fuel) (hin : offs+mem.length≤fcp.size) (hmode : mode flags=m)
    (h : Content fcp m V s) (r : Option DevCode × Flash)
    (hr : tinyLoop fcp chip true flags fuel offs (some mem) mem.length s=r) (hok : r.1=some .ok)
    : Content fcp m (applyWrites (writesAt offs mem) V) r.2 := by
  induction fuel generalizing offs mem V s with
  | zero => omega
  | succ fuel ih =>
    have hbo := Nat.mod_lt offs fcp.board.linesz_pos
    have hle := Nat.mod_le offs fcp.board.linesz
    have hdvd : fcp.board.linesz ∣ offs-offs%fcp.board.linesz := Nat.dvd_sub_mod _
    have hstart : offs-offs%fcp.board.linesz+offs%fcp.board.linesz=offs := by omega
    rw [tinyLoop] at hr
    generalize hn : min mem.length (fcp.board.linesz-offs%fcp.board.linesz)=n at hr
    have hlen : (mem.take n).length=n := by
      rw [length_take]
      omega
    generalize hr₁ : tinyFlush fcp chip true (offs-offs%fcp.board.linesz) s=r₁ at hr
    by_cases hok₁ : r₁.1=some .ok
    · rw [if_neg (not_not.2 hok₁)] at hr
      obtain ⟨hcontent₁,hline₁⟩ := tinyFlush_content fcp chip h r₁ hr₁ hok₁
      generalize hr₂ : tinyFill fcp flags (offs-offs%fcp.board.linesz) r₁.2=r₂ at hr
      by_cases hok₂ : r₂.1 = .ok
      · rw [if_neg (not_not.2 hok₂)] at hr
        obtain ⟨hcontent₂,t,htiny,hoffset⟩ := tinyFill_content fcp hone hcontent₁ hline₁ hdvd
          (by omega) hmode r₂ hr₂ hok₂
        have hstore := tinyStore_content fcp hcontent₂ htiny
          (show offs%fcp.board.linesz+(mem.take n).length≤fcp.board.linesz by omega)
        rw [hoffset,hstart] at hstore
        split at hr
        · -- the rest starts the next line
          have hdrop : (mem.drop n).length=mem.length-n := length_drop
          rw [←hdrop] at hr
          have hrest := ih (by omega) (by omega) hstore hr
          have hsplit : writesAt offs mem =
              writesAt offs (mem.take n)++writesAt (offs+n) (mem.drop n) := by
            have := writesAt_append offs (mem.take n) (mem.drop n)
            rwa [take_append_drop,hlen] at this
          rw [hsplit,applyWrites_append]
          exact hrest
        · rename_i hlast
          have htake : mem.take n=mem := take_of_length_le (by omega)
          subst hr
          rw [htake] at hstore ⊢
          exact hstore
      · rw [if_pos hok₂] at hr
        subst hr
        exact absurd (Option.some.inj hok) hok₂
    · rw [if_pos hok₁] at hr
      subst hr
      exact absurd hok hok₁

def WriteBackOk (s : Flash) : Prop := ∀ t∈s.tiny,
    (fromprogramaligned fcp chip t.offset t.buffer fcp.board.linesz t.flags s).1=some .ok

instance decidableWriteBackOk (s : Flash) : Decidable (WriteBackOk fcp chip s) :=
  inferInstanceAs (Decidable (∀ t∈s.tiny, _=some DevCode.ok))

theorem fromprogramtiny_flush_content (h : Content fcp m V s) (hback : WriteBackOk fcp chip s) :
    (fromprogramtiny fcp chip false 0 none 0 0 s).2.tiny=none ∧
      fcp.board.view m (fromprogramtiny fcp chip false 0 none 0 0 s).2.cells=V := by
  cases htiny : s.tiny with
  | none =>
    rw [fromprogramtiny_flush_none fcp chip s htiny]
    cases h with
    | flushed _ hview => exact ⟨htiny,hview⟩
    | pending t htiny' => simp [htiny] at htiny'
  | some t =>
    have hview := h.writeBack fcp chip htiny _ rfl (hback t htiny)
    simp only [fromprogramtiny,tinyLoop,tinyFlush,htiny,true_or,if_true,true_and]
    exact hview

theorem fromprogrambytes_content {offs : ℕ} {mem : List UInt8} (hin : offs+mem.length≤fcp.size)
    (hmode : mode flags=m) (h : Content fcp m V s)
    (hback : fcp.board.linesz ≤ mem.length → WriteBackOk fcp chip s) (r : Option DevCode × Flash)
    (hr : fromprogrambytes fcp chip offs (some mem) mem.length flags s=r) (hok : r.1=some .ok) :
    Content fcp m (applyWrites (writesAt offs mem) V) r.2 := by
  rw [fromprogrambytes,if_neg (fcp.limit_ok hin)] at hr
  -- a longer transfer programs the flash as the write-back has left it
  have hparts : ∀ s₁ : Flash, s₁.tiny=none → fcp.board.view m s₁.cells=V →
      fcp.board.linesz ≤ mem.length →
      programParts fcp chip offs mem mem.length flags s₁=r →
      Content fcp m (applyWrites (writesAt offs mem) V) r.2 := by
    intro s₁ htiny hview hlong hr₁
    have hpatch := programParts_spec fcp chip flags s₁ hlong le_rfl hin r hr₁ hok
    have htiny' := programParts_tiny fcp.toGeometry chip offs mem mem.length flags s₁
    rw [hr₁] at htiny'
    rw [hmode,hview,take_length] at hpatch
    exact .flushed (htiny'.trans htiny) hpatch.eq_applyWrites
  split at hr
  · rename_i hone
    split at hr
    · refine tinyLoop_content fcp chip (mem.length+1) hone (Nat.lt_succ_self _) hin ?_ h r hr hok
      rw [mode_clear_reboot,hmode]
    · rename_i hlong
      obtain ⟨htiny,hview⟩ := fromprogramtiny_flush_content fcp chip h (hback (by omega))
      exact hparts _ htiny hview (by omega) hr
  · -- lines of one byte are never cached
    rename_i hone
    have hflushed : s.tiny=none ∧ fcp.board.view m s.cells=V := by
      cases h with
      | flushed htiny hview => exact ⟨htiny,hview⟩
      | pending t _ ht => exact absurd ht.one_lt hone
    split at hr
    · rename_i hzero
      rw [length_eq_zero_iff] at hzero
      subst hr hzero
      exact h
    · exact hparts s hflushed.1 hflushed.2 (by omega) hr

structure Write where
  offs : ℕ
  mem : List UInt8
  flags : Flags

def programAll : List Write → Flash → Option Flash
  | [], s => some s
  | w::ws, s =>
    let r := fromprogrambytes fcp chip w.offs (some w.mem) w.mem.length w.flags s
    if r.1=some .ok then programAll ws r.2 else none

def WritesBack : List Write → Flash → Prop
  | [], _ => True
  | w::ws, s =>
    (fcp.board.linesz≤w.mem.length → WriteBackOk fcp chip s) ∧
      WritesBack ws (fromprogrambytes fcp chip w.offs (some w.mem) w.mem.length w.flags s).2

instance decidableWritesBack : ∀ (ws : List Write) (s : Flash), Decidable (WritesBack fcp chip ws s)
  | [], _ => isTrue trivial
  | w::ws, s =>
    have := decidableWritesBack ws
      (fromprogrambytes fcp chip w.offs (some w.mem) w.mem.length w.flags s).2
    inferInstanceAs (Decidable (_ ∧ _))

def written (ws : List Write) (V : ℕ → UInt8) : ℕ → UInt8 :=
  ws.foldl (fun V w => applyWrites (writesAt w.offs w.mem) V) V

structure Write.Ok (m : Flags) (w : Write) : Prop where
  le : w.offs+w.mem.length≤fcp.size
  mode_eq : mode w.flags=m
  merge : w.flags &&& progMerge ≠ 0

theorem programAll_content {ws : List Write} (hws : ∀ w∈ws, w.Ok fcp m)
    (h : Content fcp m V s) (hback : WritesBack fcp chip ws s) {s' : Flash}
    (hrun : programAll fcp chip ws s=some s') : Content fcp m (written ws V) s' := by
  induction ws generalizing s V with
  | nil =>
    cases hrun
    exact h
  | cons w ws ih =>
    rw [programAll] at hrun
    split at hrun
    case isFalse => cases hrun
    case isTrue hok =>
      have hw := hws w mem_cons_self
      have hfirst := fromprogrambytes_content fcp chip hw.le hw.mode_eq h hback.1 _ rfl hok
      exact ih (fun w' hw' => hws w' (mem_cons_of_mem _ hw')) hfirst hback.2 hrun

theorem flush_eq (s : Flash) : fromprogrambytes fcp chip 0 none 0 0 s =
      if 1<fcp.board.linesz then tinyFlush fcp chip true 0 s else (some .ok,s) := by
  have hpos := fcp.board.linesz_pos
  rw [fromprogrambytes,if_neg (by simp),fromprogramtiny]
  split
  · rw [tinyLoop]
    simp
  · simp

/-- After successful writes and a flush the flash is right exactly if line zero was not left
pending. -/
theorem flush_written_iff (ws : List Write) (hws : ∀ w∈ws, w.Ok fcp m) {s₁ : Flash}
    (htiny : s.tiny=none) (hback : WritesBack fcp chip ws s)
    (hrun : programAll fcp chip ws s=some s₁)
    (hok : (fromprogrambytes fcp chip 0 none 0 0 s₁).1=some .ok) :
    fcp.board.view m (fromprogrambytes fcp chip 0 none 0 0 s₁).2.cells =
        written ws (fcp.board.view m s.cells) ↔
      ∀ t, s₁.tiny=some t → t.offset=0 → Holds (fcp.board.view m s₁.cells) 0 t.buffer := by
  have hcontent := programAll_content fcp chip hws (.flushed htiny rfl) hback hrun
  rw [flush_eq] at hok ⊢
  cases hcontent with
  | flushed htiny₁ hview =>
    have hsame : (if 1<fcp.board.linesz then tinyFlush fcp chip true 0 s₁
        else (some .ok,s₁))=(some .ok,s₁) := by
      simp [tinyFlush,htiny₁]
    rw [hsame]
    exact ⟨fun _ t ht => by simp [htiny₁] at ht, fun _ => hview⟩
  | pending t htiny₁ ht hview =>
    rw [if_pos ht.one_lt] at hok ⊢
    have honly : ∀ t', s₁.tiny=some t' → t'=t := fun t' ht' =>
      Option.some.inj (ht'.symm.trans htiny₁)
    by_cases hzero : t.offset=0
    · -- the flush takes line zero for its own and leaves it pending
      have hsame : tinyFlush fcp chip true 0 s₁=(some .ok,s₁) := by
        simp [tinyFlush,htiny₁,hzero]
      rw [hsame]
      rw [hzero] at hview
      constructor
      · intro hup t' ht' _
        rw [honly t' ht']
        rw [hup]
        exact hview.holds
      · intro hholds
        exact (patched_self (hholds t htiny₁ hzero)).unique hview
    · constructor
      · intro _ t' ht' hzero'
        rw [honly t' ht'] at hzero'
        exact absurd hzero' hzero
      · intro _
        have hback' : tinyFlush fcp chip true 0 s₁ =
            (let r := fromprogramaligned fcp chip t.offset t.buffer fcp.board.linesz t.flags s₁
            (r.1,{r.2 with tiny := none})) := by
          simp only [tinyFlush,htiny₁]
          exact if_pos (.inr (Ne.symm hzero))
        rw [hback'] at hok ⊢
        exact Content.writeBack fcp chip htiny₁ (.pending t htiny₁ ht hview)
          (fromprogramaligned fcp chip t.offset t.buffer fcp.board.linesz t.flags s₁) rfl hok
end

def threeWrites : List Write :=
  [⟨0,[0x5a],0x14⟩,⟨3,[0x81,0x7e,0xff],0x14⟩,⟨7,[0x3c],0x14⟩]

theorem threeWrites_ok : (programAll twoSectors soundChip threeWrites elevens).isSome := by
  decide +kernel

theorem flush_written_threeWrites :
    ∃ s₁, programAll twoSectors soundChip threeWrites elevens=some s₁ ∧ twoSectors.board.view 0x10
        (fromprogrambytes twoSectors soundChip 0 none 0 0 s₁).2.cells =
          written threeWrites (twoSectors.board.view 0x10 elevens.cells) := by
  have hws : ∀ w∈threeWrites, w.Ok twoSectors 0x10 := by
    intro w hw
    fin_cases hw <;> constructor <;> decide
  have hpending : ((programAll twoSectors soundChip threeWrites elevens).get
      threeWrites_ok).tiny.map Tiny.offset=some 6 := by
    decide +kernel
  refine ⟨_,(Option.some_get threeWrites_ok).symm,?_⟩
  refine (flush_written_iff twoSectors soundChip threeWrites hws rfl (by decide +kernel)
    (Option.some_get threeWrites_ok).symm (by decide +kernel)).2 ?_
  intro t ht hzero
  rw [ht,Option.map_some,hzero] at hpending
  exact absurd hpending (by decide)

theorem flush_line_zero :
    ∃ s₁, programAll twoSectors soundChip [⟨0,[0x5a],0x14⟩] elevens=some s₁ ∧
      (fromprogrambytes twoSectors soundChip 0 none 0 0 s₁).1=some .ok ∧
      written [⟨0,[0x5a],0x14⟩] (twoSectors.board.view 0x10 elevens.cells) 0=0x5a ∧
      fromreadbytes twoSectors (fromprogrambytes twoSectors soundChip 0 none 0 0 s₁).2.cells
        0 1 0x14=fromreadbytes twoSectors elevens.cells 0 1 0x14 ∧
      fromreadbytes twoSectors elevens.cells 0 1 0x14≠(.ok,[0x5a]) :=
  ⟨_,rfl, by decide +kernel, by decide +kernel, by decide +kernel, by decide +kernel⟩

end Pmon.FlashRom
