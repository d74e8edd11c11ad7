import Pmon.FlashEnvLayout

/-!
# Updates of the flash environment

Erasing, deleting, compressing and appending, each as a change of the list of entries.
-/

namespace Pmon.FlashEnv
open ByteStore PackedRecords EnvEntry List Function
variable {bodies post pre : List (List UInt8)} {body : List UInt8} {b : Board} {s : Store}
variable {maxsize : ℕ} {m m' : ℕ → UInt8}

theorem Image.magic_congr (h : Image m maxsize bodies) (hsame : ∀ q, q<envoffBase → m' q=m q) :
    Holds m' envoffMagic envMagic :=
  holds_congr (fun q _ hq => hsame q hq) h.magic

theorem Image.replace {body' : List UInt8} (h : Image m maxsize (pre++body::post))
    (hlen : body'.length=body.length) (hsame : ∀ q, q<envoffBase+(packed pre).length+1 ∨
      envoffBase+(packed pre).length+1+body.length≤q → m' q=m q)
    (hbody : Holds m' (envoffBase+(packed pre).length+1) body') :
    Image m' maxsize (pre++body'::post) := by
  have htotal : (packed (pre++body'::post)).length=(packed (pre++body::post)).length :=
    length_packed_replace hlen
  have hpos := length_pos_iff.mpr (h.bounds body (by simp)).1
  refine ⟨h.magic_congr fun q hq => hsame q (Or.inl (by omega)),
    holds_packed_replace h.entries hlen hsame hbody,?_,by rw [htotal]; exact h.fits,?_⟩
  · have hb := h.bounds
    rw [forall_mem_append,forall_mem_cons] at hb ⊢
    exact ⟨hb.1,⟨length_pos_iff.mp (by omega),by omega⟩,hb.2.2⟩
  · intro q hq hq'
    rw [htotal] at hq
    rw [hsame q (Or.inr ?_)]
    · exact h.erased q hq hq'
    · simp at hq
      omega

theorem Image.append (h : Image m maxsize bodies) (hb : body≠[] ∧ body.length+1<0xff)
    (hfit : envoffBase+(packed bodies).length+(body.length+1) ≤ maxsize)
    (hsame : ∀ q, q<envoffBase+(packed bodies).length ∨
      envoffBase+(packed bodies).length+(body.length+1)≤q → m' q=m q)
    (hrec : Holds m' (envoffBase+(packed bodies).length) (record body)) :
    Image m' maxsize (bodies++[body]) := by
  have htotal : (packed (bodies++[body])).length =
      (packed bodies).length+(body.length+1) := by simp
  refine ⟨h.magic_congr fun q hq => hsame q (Or.inl (by omega)),
    holds_packed_snoc (holds_congr (fun q _ hq => hsame q (Or.inl hq)) h.entries) hrec,
    ?_,by rw [htotal]; omega,?_⟩
  · rw [forall_mem_append,forall_mem_singleton]
    exact ⟨h.bounds,hb⟩
  · intro q hq hq'
    rw [htotal] at hq
    rw [hsame q (Or.inr (by omega))]
    exact h.erased q (by omega) hq'

inductive SectorTiled (b : Board) : ℕ → ℕ → Prop where
  | nil (lo : ℕ) : SectorTiled b lo lo
  | cons {lo ssize hi : ℕ} (hsec : b.sector lo=(lo,ssize)) (hpos : 0<ssize)
      (hrest : SectorTiled b (lo+ssize) hi) : SectorTiled b lo hi

theorem SectorTiled.le {lo hi : ℕ} (h : SectorTiled b lo hi) : lo≤hi := by
  induction h with
  | nil => exact le_rfl
  | cons _ _ _ ih => omega

theorem eraseLoop_eq (b : Board) {lo hi : ℕ} (h : SectorTiled b lo hi) (s : Store)
    (size fuel : ℕ) (hlo : lo=s.envOffs+size) (hhi : hi=s.envOffs+s.envMaxsize)
    (hfuel : hi-lo≤fuel) : Store.eraseLoop b fuel s size =
      {s with flash := fun q => if lo≤q ∧ q<hi then 0xff else s.flash q} := by
  induction h generalizing s size fuel with
  | nil lo =>
    have hflash : (fun q => if lo≤q ∧ q<lo then 0xff else s.flash q)=s.flash := by
      funext q
      rw [if_neg (by omega)]
    rw [hflash]
    cases fuel with
    | zero => rfl
    | succ fuel => rw [Store.eraseLoop,if_neg (by omega)]
  | @cons lo ssize hi hsec hpos hrest ih =>
    have hle := hrest.le
    obtain ⟨fuel,rfl⟩ : ∃ f, fuel=f+1 := ⟨fuel-1,by omega⟩
    rw [Store.eraseLoop,if_pos (by omega),←hlo]
    rw [ih (s.erasesector b lo) (size+(b.sector lo).2) fuel
      (by rw [hsec]; simp only [Store.erasesector]; omega) hhi (by omega)]
    simp only [Store.erasesector,hsec]
    congr 1
    funext q
    -- a byte of the first sector, of a later one, or outside the partition
    by_cases h1 : lo+ssize≤q ∧ q<hi
    · rw [if_pos h1,if_pos (by omega)]
    · rw [if_neg h1]
      by_cases h2 : lo≤q ∧ q<lo+ssize
      · rw [if_pos h2,if_pos (by omega)]
      · rw [if_neg h2,if_neg (by omega)]

structure Erasable (b : Board) (s : Store) : Prop where
  tiled : SectorTiled b s.envOffs (s.envOffs+s.envMaxsize)
  room : envoffBase ≤ s.envMaxsize

theorem reset_eraseLoop (h : Erasable b s) : Store.eraseLoop b s.envMaxsize s 0 =
      { s with flash := fun q =>
          if s.envOffs≤q ∧ q<s.envOffs+s.envMaxsize then 0xff else s.flash q } :=
  eraseLoop_eq b h.tiled s _ _ (by simp) rfl (by omega)

@[simp] theorem reset_envMaxsize (h : Erasable b s) : (s.reset b).envMaxsize=s.envMaxsize := by
  simp [Store.reset,reset_eraseLoop h,setbytes_eq_poke]

@[simp] theorem reset_envOffs (h : Erasable b s) : (s.reset b).envOffs=s.envOffs := by
  simp [Store.reset,reset_eraseLoop h,setbytes_eq_poke]

theorem reset_envFree (h : Erasable b s) : (s.reset b).envFree=s.envMaxsize-envoffBase := by
  simp [Store.reset,reset_eraseLoop h,setbytes_eq_poke]

theorem reset_compressions (h : Erasable b s) : (s.reset b).compressions=s.compressions := by
  simp [Store.reset,reset_eraseLoop h,setbytes_eq_poke]

@[simp] theorem reset_envState (b : Board) (s : Store) : (s.reset b).envState = .ok := rfl

theorem reset_layout (h : Erasable b s) : Layout (s.reset b) [] := by
  have hget : (s.reset b).getbyte=applyWrites (writesAt envoffMagic envMagic) fun q =>
      if s.envOffs ≤ s.envOffs+q ∧ s.envOffs+q<s.envOffs+s.envMaxsize then 0xff
      else s.flash (s.envOffs+q) := by
    rw [Store.reset,reset_eraseLoop h]
    exact getbyte_setbytes _ _ _
  refine ⟨⟨?_,trivial,by simp,?_,?_⟩,rfl⟩
  · rw [hget]
    exact holds_applyWrites_writesAt _ _ _
  · simpa [reset_envMaxsize h] using h.room
  · intro q hq hq'
    rw [reset_envMaxsize h] at hq'
    have hout : envoffMagic+envMagic.length≤q := by
      simpa [envoffMagic,envMagic,envoffBase] using hq
    rw [hget,applyWrites_writesAt_of_outside _ _ _ (Or.inr hout),if_pos (by omega)]

def deleted (body : List UInt8) : List UInt8 := 0x00::body.tail

theorem length_deleted (h : body≠[]) : (deleted body).length=body.length := by
  have := length_pos_iff.mpr h
  simp only [deleted,length_cons,length_tail]
  omega

theorem not_active_deleted (body : List UInt8) : ¬ Active (deleted body) := by
  simp [Active,deleted]

theorem delete_eq (s : Store) (envp : ℕ) : s.delete envp={ s.poke [(envp+1,0x00)] with
      envFree := s.envFree+(s.getbyte envp).toNat } := rfl

theorem Image.delete (h : Image m maxsize (pre++body::post)) :
    Image (applyWrites [(envoffBase+(packed pre).length+1,0x00)] m) maxsize
      (pre++deleted body::post) := by
  have hne := (h.bounds body (by simp)).1
  have hpos := length_pos_iff.mpr hne
  have hrest := ((holds_packed_append _ _ _ _).mp h.entries).2
  obtain ⟨-,hbody,-⟩ := (holds_packed_cons _ _ _ _).mp hrest
  refine h.replace (length_deleted hne) (fun q hq => ?_) ⟨?_,?_⟩
  · exact update_of_ne (by omega) _ _
  · exact update_self _ _ _
  · cases body with
    | nil => exact absurd rfl hne
    | cons c body => exact hbody.2.update _ (Or.inl (by omega))

theorem delete_layout (h : Layout s (pre++body::post)) :
    Layout (s.delete (envoffBase+(packed pre).length)) (pre++deleted body::post) := by
  rw [delete_eq]
  refine ⟨?_,?_⟩
  · have hi := h.image.delete
    rw [←getbyte_poke] at hi
    exact hi
  · have hl := length_deleted (h.image.bounds body (by simp)).1
    have hs := h.size
    simpa [hl] using hs

theorem delete_envFree (h : Layout s (pre++body::post)) :
    (s.delete (envoffBase+(packed pre).length)).envFree=s.envFree+(body.length+1) := by
  obtain ⟨_,hat⟩ := atRecord_behind h.image.entries (Sized.lt _ (h.image.bounds body (by simp)))
  rw [delete_eq]
  rw [hat.hsize]

def appendWrites (base : ℕ) (body : List UInt8) : List (ℕ × UInt8) :=
  (base, UInt8.ofNat (body.length+1)) ::
    (writesAt (base+2) body.tail++writesAt (base+1) (body.take 1))

theorem append_eq (s : Store) {name : List UInt8} (hne : name≠[]) (val : List UInt8) :
    s.append name val={ s.poke (appendWrites (envoffBase+s.envSize) (entryBody name val)) with
        envSize := s.envSize+((entryBody name val).length+1)
        envFree := s.envFree-((entryBody name val).length+1) } := by
  obtain ⟨c,name,rfl⟩ := exists_cons_of_ne_nil hne
  rw [Store.append,←entryTotal_eq]
  by_cases hv : val=[]
  · simp only [hv,ne_eq,not_true_eq_false,if_false,Store.setbyte,setbytes_eq_poke,poke_poke]
    simp [appendWrites,entryBody,entryTotal_eq,Store.poke,Store.program]
  · simp only [hv,ne_eq,not_false_eq_true,if_true,Store.setbyte,setbytes_eq_poke,poke_poke]
    have hw : writesAt (envoffBase+s.envSize+2) (name++eqSign::val) =
        writesAt (envoffBase+s.envSize+2) name ++
          (envoffBase+s.envSize+1+(c::name).length,eqSign) ::
            writesAt (envoffBase+s.envSize+1+(c::name).length+1) val := by
      rw [writesAt_append,writesAt_cons,length_cons]
      rw [show envoffBase+s.envSize+2+name.length =
        envoffBase+s.envSize+1+(name.length+1) by omega]
    simp [appendWrites,entryBody,entryTotal_eq,hv,Store.poke,Store.program,hw]

theorem holds_appendWrites (base : ℕ) (hne : body≠[]) (m : ℕ → UInt8) :
    Holds (applyWrites (appendWrites base body) m) base (record body) := by
  obtain ⟨c,body,rfl⟩ := exists_cons_of_ne_nil hne
  simp only [appendWrites,applyWrites_cons,applyWrites_append,tail_cons,
    take_succ_cons,take_zero,writesAt_cons,writesAt_nil,applyWrites_nil]
  refine ⟨?_,?_,?_⟩
  · rw [update_of_ne (by omega),applyWrites_writesAt_of_outside _ _ _ (by omega)]
    simp
  · exact update_self _ _ _
  · exact (holds_applyWrites_writesAt _ _ _).update _ (Or.inl (by omega))

theorem applyWrites_appendWrites_of_outside (base : ℕ) (body : List UInt8) (m : ℕ → UInt8)
    (k : ℕ) {q : ℕ} (hq : q<base ∨ base+(body.length+1)≤q) (hne : body≠[]) :
    applyWrites ((appendWrites base body).take k) m q=m q := by
  have hpos := length_pos_iff.mpr hne
  apply applyWrites_of_forall_ne
  intro w hw
  rcases mem_cons.mp (mem_of_mem_take hw) with rfl | hw
  · omega
  · rcases mem_append.mp hw with hw | hw
    · have := mem_writesAt hw
      rw [length_tail] at this
      omega
    · have := mem_writesAt hw
      rw [length_take] at this
      omega

theorem append_layout (h : Layout s bodies) {name : List UInt8} (hne : name≠[]) (val : List UInt8)
    (hlt : entryTotal name val<255)
    (hfit : envoffBase+s.envSize+entryTotal name val ≤ s.envMaxsize) :
    Layout (s.append name val) (bodies++[entryBody name val]) := by
  have hbody : entryBody name val≠[] := by
    unfold entryBody
    split
    · exact hne
    · simp
  rw [entryTotal_eq] at hlt hfit
  rw [append_eq s hne]
  refine ⟨?_,?_⟩
  · have hi : Image (applyWrites (appendWrites (envoffBase+s.envSize) (entryBody name val))
        s.getbyte) s.envMaxsize (bodies++[entryBody name val]) := by
      rw [h.size] at hfit ⊢
      refine h.image.append ⟨hbody,hlt⟩ hfit (fun q hq => ?_) (holds_appendWrites _ hbody _)
      have hk := applyWrites_appendWrites_of_outside (envoffBase+(packed bodies).length)
        (entryBody name val) s.getbyte
        (appendWrites (envoffBase+(packed bodies).length) (entryBody name val)).length hq hbody
      rwa [take_length] at hk
    rw [←getbyte_poke] at hi
    exact hi
  · simp [h.size]

theorem compressLoop_eq (s : Store) {fuel e top : ℕ}
    (h : Walk s.getbyte top Sized fuel e bodies) (cbuf : List UInt8) :
    s.compressLoop top fuel e cbuf =
      some (cbuf++packed (bodies.filter fun body => Active body)) := by
  induction h generalizing cbuf with
  | nil fuel =>
    cases fuel with
    | zero => simp [Store.compressLoop]
    | succ fuel => simp [Store.compressLoop]
  | @cons fuel e body rest hbody hat hfit hrest ih =>
    have hpos := length_pos_iff.mpr hbody.1
    have hlt := hbody.2
    have hrec := hat.holds_record
    rw [Store.compressLoop,if_pos (by omega),hat.hsize]
    rw [if_neg (by omega),ih,ih,hrec.readCells_eq (by simp)]
    simp only [←active_iff hat.hbody hbody.1]
    by_cases ha : Active body
    · rw [if_pos ha,filter_cons_of_pos (by simpa using ha),packed_cons,append_assoc]
    · rw [if_neg ha,filter_cons_of_neg (by simpa using ha)]

theorem length_packed_filter_le (p : List UInt8 → Bool) (bodies : List (List UInt8)) :
    (packed (bodies.filter p)).length≤(packed bodies).length := by
  induction bodies with
  | nil => exact le_rfl
  | cons body rest ih =>
    rw [filter_cons]
    split
    · rw [length_packed_cons,length_packed_cons]
      omega
    · rw [length_packed_cons]
      omega

theorem Erasable.counted (h : Erasable b s) (n : ℕ) :
    Erasable b {s with compressions := n} := ⟨h.tiled,h.room⟩

theorem compress_eq (b : Board) (h : Layout s bodies) :
    s.compress b=let t := Store.reset b {s with compressions := s.compressions+1}
      let cbuf := packed (bodies.filter fun body => Active body)
      { t.poke (writesAt envoffBase cbuf) with
        envSize := cbuf.length
        envFree := t.envFree-cbuf.length } := by
  have hloop := compressLoop_eq {s with compressions := s.compressions+1} h.walk []
  rw [Store.compress]
  rw [hloop]
  dsimp only
  rw [setbytes_eq_poke]
  rfl

theorem compress_envMaxsize (h : Layout s bodies) (he : Erasable b s) :
    (s.compress b).envMaxsize=s.envMaxsize := by
  rw [compress_eq b h]
  exact reset_envMaxsize (he.counted _)

theorem compress_envOffs (h : Layout s bodies) (he : Erasable b s) :
    (s.compress b).envOffs=s.envOffs := by
  rw [compress_eq b h]
  exact reset_envOffs (he.counted _)

theorem compress_envState (b : Board) (h : Layout s bodies) : (s.compress b).envState = .ok := by
  rw [compress_eq b h]
  rfl

theorem compress_compressions (h : Layout s bodies) (he : Erasable b s) :
    (s.compress b).compressions=s.compressions+1 := by
  rw [compress_eq b h]
  exact reset_compressions (he.counted _)

theorem compress_envFree (h : Layout s bodies) (he : Erasable b s) :
    (s.compress b).envFree=s.envMaxsize-envoffBase -
      (packed (bodies.filter fun body => Active body)).length := by
  rw [compress_eq b h]
  dsimp only
  rw [reset_envFree (he.counted _)]

theorem compress_layout (h : Layout s bodies) (he : Erasable b s) :
    Layout (s.compress b) (bodies.filter fun body => Active body) := by
  have hr := reset_layout (he.counted (s.compressions+1))
  have hmax := reset_envMaxsize (he.counted (s.compressions+1))
  have hle := length_packed_filter_le (fun body => Active body) bodies
  have hfit := h.image.fits
  rw [compress_eq b h]
  set t := Store.reset b {s with compressions := s.compressions+1}
  refine ⟨?_,rfl⟩
  have hi : Image (applyWrites (writesAt envoffBase
      (packed (bodies.filter fun body => Active body))) t.getbyte) t.envMaxsize
      (bodies.filter fun body => Active body) := by
    refine ⟨?_,holds_applyWrites_writesAt _ _ _,?_,?_,?_⟩
    · refine hr.image.magic.applyWrites_writesAt _ _ (Or.inl ?_)
      simp [envoffMagic,envMagic,envoffBase]
    · exact fun body hb => h.image.bounds body (mem_filter.mp hb).1
    · rw [hmax]
      exact le_trans (by omega) hfit
    · intro q hq hq'
      rw [applyWrites_writesAt_of_outside _ _ _ (Or.inr hq)]
      exact hr.image.erased q (by simp; omega) hq'
  rw [←getbyte_poke] at hi
  exact hi

end Pmon.FlashEnv
