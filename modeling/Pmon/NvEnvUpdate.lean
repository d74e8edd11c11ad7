import Pmon.NvEnvLayout

/-!
# Updates of the battery-backed environment

Every update sets the state byte, writes some bytes and brings the checksum up to date.
-/

namespace Pmon.NvEnv
open ByteStore PackedRecords EnvEntry List Function
variable {m m' : ℕ → UInt8} {maxsize : ℕ} {bodies post pre : List (List UInt8)} {s : Store}
  {body name val : List UInt8}

def Store.update (s : Store) (state : EnvState) (ws : List (ℕ × UInt8)) : Store :=
  ((s.setstate state).poke ws).updatesum

def Volatile (q : ℕ) : Prop := q=envoffCsum ∨ q=envoffCsum+1 ∨ q=envoffState
def SameContent (m m' : ℕ → UInt8) : Prop := ∀ q, ¬ Volatile q → m' q=m q

theorem Image.of_sameContent (h : Image m maxsize bodies) (hs : SameContent m m') :
    Image m' maxsize bodies := by
  refine h.congr fun q h0 h1 h2 _ => hs q ?_
  rintro (hv | hv | hv)
  · exact h0 hv
  · exact h1 hv
  · exact h2 hv

theorem SameContent.trans {m₁ m₂ m₃ : ℕ → UInt8} (h : SameContent m₁ m₂)
    (h' : SameContent m₂ m₃) : SameContent m₁ m₃ := fun q hq => (h' q hq).trans (h q hq)

theorem sameContent_applyWrites {ws : List (ℕ × UInt8)} (h : ∀ w∈ws, Volatile w.1)
    (m : ℕ → UInt8) : SameContent m (applyWrites ws m) := by
  intro q hq
  have hne : ∀ w∈ws, w.1≠q := fun w hw he => hq (he ▸ h w hw)
  exact applyWrites_of_forall_ne hne m

theorem volatile_sumWrites (sum : ℕ) : ∀ w∈sumWrites sum, Volatile w.1 := by
  intro w hw
  simp only [sumWrites,shortWrites,cons_append,nil_append,mem_cons,not_mem_nil,or_false] at hw
  rcases hw with rfl | rfl | rfl
  · exact Or.inl rfl
  · exact Or.inr (Or.inl rfl)
  · exact Or.inr (Or.inr rfl)

theorem SameContent.applyWrites (h : SameContent m m') (ws : List (ℕ × UInt8)) :
    SameContent (applyWrites ws m) (applyWrites ws m') :=
  fun _ hq => applyWrites_congr h ws hq

theorem update_writes (s : Store) (state : EnvState) (ws : List (ℕ × UInt8)) :
    ∃ sum, (s.update state ws).writes=s.writes++shiftWrites s.envOffs
        ((envoffState,state.toByte)::(ws++sumWrites sum)) ∧ (s.update state ws).getbyte =
        applyWrites ((envoffState,state.toByte)::(ws++sumWrites sum)) s.getbyte := by
  refine ⟨((s.setstate state).poke ws).calcsum,?_,?_⟩
  · rw [Store.update,updatesum_eq]
    simp [Store.setstate,Store.setbyte,Store.poke,shiftWrites]
  · have hlast : (s.update state ws).getbyte =
        (((s.setstate state).poke ws).poke (sumWrites ((s.setstate state).poke ws).calcsum)).getbyte := by
      rw [Store.update,updatesum_eq]
      rfl
    have hfirst : (s.setstate state).getbyte =
        applyWrites [(envoffState,state.toByte)] s.getbyte := by
      rw [←getbyte_poke]
      rfl
    rw [hlast,getbyte_poke,getbyte_poke,hfirst,←applyWrites_append,←applyWrites_append]
    rfl

theorem update_envMaxsize (s : Store) (state : EnvState) (ws : List (ℕ × UInt8)) :
    (s.update state ws).envMaxsize=s.envMaxsize := by
  rw [Store.update,updatesum_eq]
  rfl

theorem update_envOffs (s : Store) (state : EnvState) (ws : List (ℕ × UInt8)) :
    (s.update state ws).envOffs=s.envOffs := by
  rw [Store.update,updatesum_eq]
  rfl

theorem getbyte_setstate (s : Store) (state : EnvState) :
    (s.setstate state).getbyte=applyWrites [(envoffState,state.toByte)] s.getbyte := by
  rw [←getbyte_poke]
  rfl

theorem sameContent_setstate (s : Store) (state : EnvState) :
    SameContent s.getbyte (s.setstate state).getbyte := by
  rw [getbyte_setstate]
  refine sameContent_applyWrites (fun w hw => ?_) _
  rw [mem_singleton.mp hw]
  exact Or.inr (Or.inr rfl)

theorem update_layout {ws : List (ℕ × UInt8)}
    (h : Image (applyWrites ws s.getbyte) s.envMaxsize bodies) (state : EnvState) :
    Layout (s.update state ws) bodies := by
  refine updatesum_layout ?_
  have hsame := (sameContent_setstate s state).applyWrites ws
  rw [getbyte_poke]
  exact h.of_sameContent hsame

theorem update_take (m : ℕ → UInt8) (state : EnvState) (ws : List (ℕ × UInt8)) (sum k : ℕ)
    (hws : ∀ w∈ws, w.1≠envoffState) :
    let m' := applyWrites
      (((envoffState,state.toByte)::(ws++sumWrites sum)).take k) m
    m'=m ∨
    (∃ j, SameContent (applyWrites (ws.take j) m) m' ∧ m' envoffState=state.toByte) ∨
    SameContent (applyWrites ws m) m' := by
  intro m'
  cases k with
  | zero => exact Or.inl rfl
  | succ k =>
    right
    have hstate : SameContent m (Function.update m envoffState state.toByte) :=
      fun q hq => update_of_ne (fun he => hq (Or.inr (Or.inr he))) _ _
    have hm' : m'=applyWrites ((sumWrites sum).take (k-ws.length))
        (applyWrites (ws.take k) (Function.update m envoffState state.toByte)) := by
      simp only [m']
      rw [take_succ_cons,applyWrites_cons,List.take_append,applyWrites_append]
    have hcontent : SameContent (applyWrites (ws.take k) m) m' := by
      rw [hm']
      refine (hstate.applyWrites _).trans (sameContent_applyWrites (fun w hw => ?_) _)
      exact volatile_sumWrites sum w (mem_of_mem_take hw)
    by_cases hall : ws.length+3≤k
    · right
      rwa [take_of_length_le (by omega)] at hcontent
    · left
      refine ⟨k,hcontent,?_⟩
      have hsum : ∀ w∈(sumWrites sum).take (k-ws.length), w.1≠envoffState := by
        intro w hw
        have hle : k-ws.length≤2 := by omega
        have hmem := (take_sublist_take_left hle).subset hw
        simp only [sumWrites,shortWrites,cons_append,nil_append,take_succ_cons,
          take_zero,mem_cons,not_mem_nil,or_false] at hmem
        rcases hmem with rfl | rfl <;> simp [envoffCsum,envoffState]
      rw [hm',applyWrites_of_forall_ne hsum,
        applyWrites_of_forall_ne fun w hw => hws w (mem_of_mem_take hw),update_self]

theorem moveLoop_eq (n : ℕ) (s : Store) {envp nenvp : ℕ} (h : envp<nenvp) :
    Store.moveLoop n s envp nenvp=s.poke (writesAt envp (readCells s.getbyte nenvp n)) := by
  induction n generalizing s envp nenvp with
  | zero => exact (poke_nil s).symm
  | succ n ih =>
    have hget : (s.setbyte envp (s.getbyte nenvp)).getbyte =
        applyWrites [(envp,s.getbyte nenvp)] s.getbyte := getbyte_poke _ _
    have hsame : readCells (s.setbyte envp (s.getbyte nenvp)).getbyte (nenvp+1) n =
        readCells s.getbyte (nenvp+1) n := by
      refine readCells_congr fun q hq _ => ?_
      rw [hget]
      exact update_of_ne (by omega) _ _
    rw [Store.moveLoop,ih _ (by omega),hsame,Store.setbyte,poke_poke]
    rfl

def deleteWrites (pre post : List (List UInt8)) : List (ℕ × UInt8) :=
  writesAt (envoffBase+(packed pre).length) (packed post) ++
    shortWrites envoffSize (packed (pre++post)).length

theorem delete_eq (h : Image s.getbyte s.envMaxsize (pre++body::post)) {name : CPtr}
    (hfind : s.find name=envoffBase+(packed pre).length) :
    s.delete name=s.update .unrecoverable (deleteWrites pre post) := by
  have hsize : s.getshort envoffSize=(packed (pre++body::post)).length := h.size
  obtain ⟨_,hat⟩ := atRecord_behind h.entries (h.bounds body (by simp))
  have hlen : (packed (pre++body::post)).length =
      (packed pre).length+(body.length+1+(packed post).length) := by simp
  have hlen' : (packed (pre++post)).length=(packed pre).length+(packed post).length := by
    simp
  have hrest : readCells (s.setstate .unrecoverable).getbyte
      (envoffBase+(packed pre).length+(body.length+1)) (packed post).length =
      packed post := by
    refine Holds.readCells_eq (holds_congr (fun q hq _ => ?_) hat.hrest) rfl
    refine sameContent_setstate s .unrecoverable q ?_
    simp only [Volatile,envoffCsum,envoffState,envoffBase] at hq ⊢
    omega
  have hremain : (packed (pre++body::post)).length -
      (envoffBase+(packed pre).length+(body.length+1)-envoffBase) =
      (packed post).length := by omega
  have hnew : envoffBase+(packed pre).length+(packed post).length-envoffBase =
      (packed (pre++post)).length := by omega
  rw [Store.delete,hfind,if_neg (by simp [envoffBase]),hsize,hat.hsize]
  dsimp only
  rw [hremain,hnew,moveLoop_eq _ _ (by omega),hrest,setshort_eq,poke_poke]
  rfl

theorem Image.delete (h : Image m maxsize (pre++body::post)) (hmax : maxsize≤0xffff) :
    Image (applyWrites (deleteWrites pre post) m) maxsize (pre++post) := by
  have hlen : (packed (pre++body::post)).length =
      (packed pre).length+(body.length+1+(packed post).length) := by simp
  have hlen' : (packed (pre++post)).length=(packed pre).length+(packed post).length := by
    simp
  have hfits := h.fits
  have hpre := ((holds_packed_append _ _ _ _).mp h.entries).1
  rw [deleteWrites,applyWrites_append]
  set m₁ := applyWrites (writesAt (envoffBase+(packed pre).length) (packed post)) m with hm₁
  have hsame : ∀ q, q<envoffBase+(packed pre).length → m₁ q=m q := fun q hq =>
    applyWrites_writesAt_of_outside _ _ _ (Or.inl hq)
  have hout : ∀ q, q≠envoffSize → q≠envoffSize+1 →
      applyWrites (shortWrites envoffSize (packed (pre++post)).length) m₁ q=m₁ q :=
    fun q h0 h1 => applyWrites_shortWrites_of_ne m₁ _ h0 h1
  have hbase : ∀ q, envoffBase≤q →
      applyWrites (shortWrites envoffSize (packed (pre++post)).length) m₁ q=m₁ q := by
    intro q hq
    simp only [envoffBase] at hq
    exact hout q (by simp [envoffSize]; omega) (by simp [envoffSize]; omega)
  refine ⟨?_,word_shortWrites m₁ envoffSize (by omega),?_,?_,by omega⟩
  · rw [←h.magic]
    refine word_congr ?_ ?_
    · rw [hout _ (by decide) (by decide),hsame _ (by simp [envoffMagic,envoffBase])]
    · rw [hout _ (by decide) (by decide),hsame _ (by simp [envoffMagic,envoffBase]; omega)]
  · refine holds_congr (fun q hq _ => hbase q hq) ?_
    rw [holds_packed_append]
    exact ⟨holds_congr (fun q _ hq => hsame q hq) hpre,holds_applyWrites_writesAt _ _ _⟩
  · have hb := h.bounds
    rw [forall_mem_append,forall_mem_cons] at hb
    rw [forall_mem_append]
    exact ⟨hb.1,hb.2.2⟩

theorem Image.replace {body' : List UInt8} (h : Image m maxsize (pre++body::post))
    (hlen : body'.length=body.length) (hsame : ∀ q, q<envoffBase+(packed pre).length+1 ∨
      envoffBase+(packed pre).length+1+body.length≤q → m' q=m q)
    (hbody : Holds m' (envoffBase+(packed pre).length+1) body') :
    Image m' maxsize (pre++body'::post) := by
  have htotal : (packed (pre++body'::post)).length=(packed (pre++body::post)).length :=
    length_packed_replace hlen
  have hhead : ∀ q, q<envoffBase → m' q=m q := fun q hq => hsame q (Or.inl (by omega))
  refine ⟨?_,?_,holds_packed_replace h.entries hlen hsame hbody,?_,by rw [htotal]; exact h.fits⟩
  · rw [←h.magic]
    exact word_congr (hhead _ (by decide)) (hhead _ (by decide))
  · rw [htotal,←h.size]
    exact word_congr (hhead _ (by decide)) (hhead _ (by decide))
  · have hb := h.bounds
    rw [forall_mem_append,forall_mem_cons] at hb ⊢
    exact ⟨hb.1,by omega,hb.2.2⟩

def appendWrites (bodies : List (List UInt8)) (body : List UInt8) : List (ℕ × UInt8) :=
  writesAt (envoffBase+(packed bodies).length) (record body) ++
    shortWrites envoffSize ((packed bodies).length+(body.length+1))

theorem append_eq (h : Image s.getbyte s.envMaxsize bodies) (name val : List UInt8) :
    s.append name val=s.update .recoverable (appendWrites bodies (entryBody name val)) := by
  have hsize : s.getshort envoffSize=(packed bodies).length := h.size
  rw [Store.append,hsize,entryTotal_eq]
  by_cases hv : val=[]
  · rw [if_neg (by simp [hv]),Store.setbyte,Store.setbytes,poke_poke,setshort_eq,poke_poke]
    simp [Store.update,appendWrites,entryBody,hv,record]
  · have hw : writesAt (envoffBase+(packed bodies).length+1) (name++eqSign::val) =
        writesAt (envoffBase+(packed bodies).length+1) name ++
          (envoffBase+(packed bodies).length+1+name.length,eqSign) ::
            writesAt (envoffBase+(packed bodies).length+1+name.length+1) val := by
      rw [writesAt_append,writesAt_cons]
    rw [if_pos hv,Store.setbyte,Store.setbytes,Store.setbyte,Store.setbytes,poke_poke,
      poke_poke,poke_poke,setshort_eq,poke_poke]
    simp [Store.update,appendWrites,entryBody,hv,record,hw]

theorem Image.behind (h : Image m maxsize bodies)
    (hsame : ∀ q, q<envoffBase+(packed bodies).length → m' q=m q) : Image m' maxsize bodies :=
  h.congr fun q _ _ _ hq => hsame q hq

section
variable (h : Image m maxsize bodies) (hb : body.length+1<256)
  (hfit : envoffBase+(packed bodies).length+(body.length+1) ≤ maxsize)
include h hb hfit

theorem Image.append (hsame : ∀ q, q<envoffBase+(packed bodies).length → q≠envoffSize →
      q≠envoffSize+1 → m' q=m q)
    (hrec : Holds m' (envoffBase+(packed bodies).length) (record body))
    (hsize : word m' envoffSize=(packed bodies).length+(body.length+1)) :
    Image m' maxsize (bodies++[body]) := by
  have htotal : (packed (bodies++[body])).length =
      (packed bodies).length+(body.length+1) := by simp
  refine ⟨?_,by rw [htotal]; exact hsize,?_,?_,by rw [htotal]; omega⟩
  · rw [←h.magic]
    refine word_congr (hsame _ ?_ (by decide) (by decide)) (hsame _ ?_ (by decide) (by decide))
    · simp [envoffMagic,envoffBase]
    · simp only [envoffMagic,envoffBase]
      omega
  · refine holds_packed_snoc (holds_congr (fun q hq hq' => hsame q hq' ?_ ?_) h.entries) hrec
    · simp only [envoffBase,envoffSize] at hq ⊢
      omega
    · simp only [envoffBase,envoffSize] at hq ⊢
      omega
  · rw [forall_mem_append,forall_mem_singleton]
    exact ⟨h.bounds,hb⟩

theorem Image.appendWrites (hmax : maxsize≤0xffff) :
    Image (applyWrites (appendWrites bodies body) m) maxsize (bodies++[body]) := by
  rw [NvEnv.appendWrites,applyWrites_append]
  have hbase : ∀ q, envoffBase≤q → q≠envoffSize ∧ q≠envoffSize+1 := by
    intro q hq
    simp only [envoffBase,envoffSize] at hq ⊢
    omega
  refine h.append hb hfit (fun q hq h0 h1 => ?_) ?_ (word_shortWrites _ _ (by omega))
  · rw [applyWrites_shortWrites_of_ne _ _ h0 h1]
    exact applyWrites_writesAt_of_outside _ _ _ (Or.inl hq)
  · refine holds_congr (fun q hq _ => ?_) (holds_applyWrites_writesAt _ _ m)
    have hne := hbase q (by omega)
    exact applyWrites_shortWrites_of_ne _ _ hne.1 hne.2
end

def replaceWrites (pre : List (List UInt8)) (name val : List UInt8) : List (ℕ × UInt8) :=
  writesAt (envoffBase+(packed pre).length+1+name.length+1) val

theorem replace_eq (s : Store) (pre : List (List UInt8)) (name val : List UInt8) :
    s.replace (envoffBase+(packed pre).length) name val =
      s.update .recoverable (replaceWrites pre name val) := rfl

theorem Image.take_replaceWrites {old : List UInt8}
    (h : Image m maxsize (pre++(name++eqSign::old)::post)) (hlen : val.length=old.length)
    (k : ℕ) : Image (applyWrites ((replaceWrites pre name val).take k) m) maxsize
      (pre++(name++eqSign::(val.take k++old.drop k))::post) := by
  obtain ⟨_,hat⟩ := atRecord_behind h.entries (h.bounds _ (by simp))
  have hbody := hat.hbody
  have hle : (val.take k).length≤old.length := by
    rw [length_take]
    omega
  have hdrop : old.drop k=old.drop (val.take k).length := by
    rw [length_take,hlen]
    by_cases hk : k≤old.length
    · rw [min_eq_left hk]
    · rw [min_eq_right (by omega),drop_length,drop_eq_nil_of_le (by omega)]
  rw [append_cons] at hbody
  have hnew := hbody.overwrite hle
  rw [←append_cons,length_append,length_singleton,←Nat.add_assoc] at hnew
  rw [replaceWrites,take_writesAt,hdrop]
  refine h.replace ?_ (fun q hq => ?_) hnew
  · simp only [length_append,length_cons,length_drop]
    omega
  · refine applyWrites_writesAt_of_outside _ _ _ ?_
    simp only [length_append,length_cons] at hq
    omega

theorem delete_cases (h : Image s.getbyte s.envMaxsize bodies) {name : CString}
    (hne : name.bytes≠[] ∨ ∀ body∈bodies, body≠[]) :
    (s.find (some name)=0 ∧ s.delete (some name)=s ∧
      ∀ body∈bodies, ¬ Selects name.bytes body) ∨
    ∃ pre body post, bodies=pre++body::post ∧ Selects name.bytes body ∧
      (∀ q∈pre, ¬ Selects name.bytes q) ∧ s.find (some name)=envoffBase+(packed pre).length ∧
      s.delete (some name)=s.update .unrecoverable (deleteWrites pre post) := by
  rcases find_spec h hne with ⟨h0,hno⟩ | ⟨pre,body,post,rfl,hsel,hpre,hpos⟩
  · left
    refine ⟨h0,?_,hno⟩
    rw [Store.delete,h0]
    rfl
  · exact Or.inr ⟨pre,body,post,rfl,hsel,hpre,hpos,delete_eq h hpos⟩

inductive SetenvStep (s : Store) (name val : List UInt8) (overwrite : Bool) :
    List (List UInt8) → Store × Except Errno Unit → List (List UInt8) → Prop where
  | refused {bodies : List (List UInt8)} (e : Errno) :
      SetenvStep s name val overwrite bodies (s,.error e) bodies
  | kept {bodies : List (List UInt8)} (hkeep : overwrite=false) :
      SetenvStep s name val overwrite bodies (s,.ok ()) bodies
  | same {pre post : List (List UInt8)} (hval : val=[]) (hsel : Selects name name) :
      SetenvStep s name val overwrite (pre++name::post) (s,.ok ()) (pre++name::post)
  | replaced {pre post : List (List UInt8)} {old : List UInt8} (hne : name≠[]) (hval : val≠[])
      (hsel : Selects name (name++eqSign::old)) (hlen : val.length=old.length) :
      SetenvStep s name val overwrite (pre++(name++eqSign::old)::post)
        (s.update .recoverable (replaceWrites pre name val),.ok ())
        (pre++entryBody name val::post)
  | appended {bodies : List (List UInt8)} (hne : name≠[])
      (hno : ∀ body∈bodies, ¬ Selects name body)
      (hlt : (entryBody name val).length+1<256)
      (hfit : envoffBase+(packed bodies).length+((entryBody name val).length+1) ≤
        s.envMaxsize) :
      SetenvStep s name val overwrite bodies
        (s.update .recoverable (appendWrites bodies (entryBody name val)),.ok ())
        (bodies++[entryBody name val])
  | moved {pre post : List (List UInt8)} {body : List UInt8} (hne : name≠[])
      (hsel : Selects name body) (hpre : ∀ q∈pre, ¬ Selects name q)
      (hlt : (entryBody name val).length+1<256)
      (hfit : envoffBase+(packed (pre++post)).length+((entryBody name val).length+1) ≤
        s.envMaxsize) :
      SetenvStep s name val overwrite (pre++body::post)
        ((s.update .unrecoverable (deleteWrites pre post)).update .recoverable
          (appendWrites (pre++post) (entryBody name val)),.ok ())
        (pre++post++[entryBody name val])

theorem eq_of_selects_of_length (hsel : Selects name body)
    (hlen : body.length=(entryBody name val).length) : val=[] ∧ body=name ∨
      val≠[] ∧ ∃ old, body=name++eqSign::old ∧ val.length=old.length := by
  rw [entryBody_length] at hlen
  by_cases hv : val=[]
  · left
    rw [if_pos hv] at hlen
    refine ⟨hv,?_⟩
    exact (hsel.2.1.eq_of_length hlen.symm).symm
  · right
    rw [if_neg hv] at hlen
    refine ⟨hv,?_⟩
    rcases (matches_iff body name).mp hsel.2 with rfl | ⟨old,rfl⟩
    · omega
    · refine ⟨old,rfl,?_⟩
      simp only [length_append,length_cons] at hlen
      omega

theorem setenv_step (b : Board) (h : Image s.getbyte s.envMaxsize bodies) (hs : s.envState = .ok)
    (hmax : s.envMaxsize≤0xffff) (name : CString) (val : CPtr) (overwrite : Bool) :
    ∃ bodies', SetenvStep s name.bytes val.bytes overwrite bodies
      (s.setenv b (some name) val overwrite) bodies' := by
  have hinv : s.invalid b=(s,.ok) := by simp [Store.invalid,hs]
  have hsize : s.getshort envoffSize=(packed bodies).length := h.size
  have hfits := h.fits
  rw [Store.setenv,hinv]
  dsimp only
  rw [if_neg (by simp),CPtr.bytes_some]
  by_cases hname : name.bytes.length=0
  · rw [if_pos hname]
    exact ⟨_,.refused _⟩
  rw [if_neg hname,entryTotal_eq]
  have hne : name.bytes≠[] := fun h0 => hname (by rw [h0]; rfl)
  by_cases hlong : 255<(entryBody name.bytes val.bytes).length+1
  · rw [if_pos hlong]
    exact ⟨_,.refused _⟩
  rw [if_neg hlong]
  by_cases hkeep : s.find (some name)≠0 ∧ overwrite=false
  · rw [if_pos hkeep]
    exact ⟨_,.kept hkeep.2⟩
  rw [if_neg hkeep]
  rcases delete_cases h (Or.inl hne) with ⟨h0,-,hno⟩ | ⟨pre,body,post,rfl,hsel,hpre,hpos,hdel⟩
  · -- no entry of that name
    simp only [h0,ne_eq,not_true_eq_false,if_false,false_and,Nat.sub_zero]
    rw [hsize]
    split
    · exact ⟨_,.refused _⟩
    · next hroom =>
      rw [append_eq h]
      exact ⟨_,.appended hne hno (by omega) (by omega)⟩
  · have hfound : s.find (some name)≠0 := by
      rw [hpos]
      simp [envoffBase]
    obtain ⟨_,hat⟩ := atRecord_behind h.entries (h.bounds body (by simp))
    have hold : (s.getbyte (s.find (some name))).toNat=body.length+1 := by
      rw [hpos]
      exact hat.hsize
    rw [if_pos hfound,hold]
    by_cases hsame : body.length+1=(entryBody name.bytes val.bytes).length+1
    · -- same size
      rw [if_pos ⟨hfound,hsame⟩]
      have hl : body.length=(entryBody name.bytes val.bytes).length := by omega
      rcases eq_of_selects_of_length hsel hl with
        ⟨hv,rfl⟩ | ⟨hv,old,rfl,hlen⟩
      · rw [if_neg (by simp [hv])]
        exact ⟨_,.same hv hsel⟩
      · rw [if_pos hv,hpos,replace_eq]
        exact ⟨_,.replaced hne hv hsel hlen⟩
    · rw [if_neg (fun hc => hsame hc.2),hsize,if_pos hfound]
      have hlen : (packed (pre++body::post)).length =
          (packed (pre++post)).length+(body.length+1) := by
        simp
        omega
      split
      · exact ⟨_,.refused _⟩
      · next hroom =>
        have himg := (update_layout (h.delete hmax) .unrecoverable).image
        rw [hdel,append_eq himg]
        exact ⟨_,.moved hne hsel hpre (by omega) (by omega)⟩

theorem entryBody_of_ne_nil (name : List UInt8) (h : val≠[]) :
    entryBody name val=name++eqSign::val := if_neg h

variable {overwrite : Bool} {bodies' : List (List UInt8)} {r : Store × Except Errno Unit}
section
variable (hstep : SetenvStep s name val overwrite bodies r bodies')
include hstep

theorem SetenvStep.layout (h : Layout s bodies) (hmax : s.envMaxsize≤0xffff) :
    Layout r.1 bodies' := by
  cases hstep with
  | refused e => exact h
  | kept hkeep => exact h
  | same hval hsel => exact h
  | @replaced pre post old hne hval hsel hlen =>
    have himg := h.image.take_replaceWrites hlen val.length
    have hall : (replaceWrites pre name val).take val.length=replaceWrites pre name val :=
      take_of_length_le (by rw [replaceWrites,length_writesAt])
    rw [hall,take_length,drop_eq_nil_of_le (by omega),append_nil,
      ←entryBody_of_ne_nil name hval] at himg
    exact update_layout himg .recoverable
  | appended hne hno hlt hfit =>
    exact update_layout (h.image.appendWrites hlt hfit hmax) .recoverable
  | @moved pre post body hne hsel hpre hlt hfit =>
    have hdel := (update_layout (h.image.delete hmax) .unrecoverable).image
    have hsize := update_envMaxsize s .unrecoverable (deleteWrites pre post)
    rw [←hsize] at hfit hmax
    exact update_layout (hdel.appendWrites hlt hfit hmax) .recoverable

theorem SetenvStep.part_eq :
    r.1.envOffs=s.envOffs ∧ r.1.envMaxsize=s.envMaxsize := by
  cases hstep with
  | refused e => exact ⟨rfl,rfl⟩
  | kept hkeep => exact ⟨rfl,rfl⟩
  | same hval hsel => exact ⟨rfl,rfl⟩
  | replaced hne hval hsel hlen => exact ⟨update_envOffs _ _ _,update_envMaxsize _ _ _⟩
  | appended hne hno hlt hfit => exact ⟨update_envOffs _ _ _,update_envMaxsize _ _ _⟩
  | moved hne hsel hpre hlt hfit =>
    rw [update_envOffs,update_envOffs,update_envMaxsize,update_envMaxsize]
    exact ⟨rfl,rfl⟩

theorem SetenvStep.mem :
    ∀ body∈bodies', body∈bodies ∨ name≠[] ∧ body=entryBody name val := by
  intro q hq
  cases hstep with
  | refused e => exact Or.inl hq
  | kept hkeep => exact Or.inl hq
  | same hval hsel => exact Or.inl hq
  | replaced hne hval hsel hlen =>
    rcases mem_append.mp hq with hq | hq
    · exact Or.inl (by simp [hq])
    · rcases mem_cons.mp hq with hq | hq
      · exact Or.inr ⟨hne,hq⟩
      · exact Or.inl (by simp [hq])
  | appended hne hno hlt hfit =>
    rcases mem_append.mp hq with hq | hq
    · exact Or.inl hq
    · exact Or.inr ⟨hne,mem_singleton.mp hq⟩
  | moved hne hsel hpre hlt hfit =>
    rcases mem_append.mp hq with hq | hq
    · left
      rcases mem_append.mp hq with hq | hq <;> simp [hq]
    · exact Or.inr ⟨hne,mem_singleton.mp hq⟩
end
end Pmon.NvEnv
