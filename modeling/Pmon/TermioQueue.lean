import Pmon.Termio

/-!
# The input queue of a tty in raw mode

`Qput` is about to store a byte, `scandevs` has just stored one, or neither; the queue always holds
what a `_read` relies on.
-/

namespace Pmon.Termio
variable {k : List Frame} {p : ℕ}

structure Attrs.Raw (t : Attrs) : Prop where
  icanon : t.icanon=false
  icrnl : t.icrnl=false

def Dev.accepted (d : Dev) : List UInt8 :=
  (d.fetched.filter fun f => !f.intercepted && f.space).map (·.byte)

def Dev.gone (d : Dev) : List UInt8 := (d.history.map (·.2)).flatten

structure Queue.Ok (q : Queue) : Prop where
  size : ∃ k, 1≤k ∧ k≤16 ∧ q.limit+1=2^k
  first_le : q.first≤q.limit
  count_le : q.count≤q.limit

namespace Queue
variable {q : Queue} {c : UInt8}

theorem Ok.limit_lt (h : q.Ok) : q.limit<65536 := by
  obtain ⟨k,-,hk,hlimit⟩ := h.size
  have : 2^k≤2^16 := Nat.pow_le_pow_right (by norm_num) hk
  omega

theorem Ok.mask (h : q.Ok) (i : ℕ) : i &&& q.limit = i % (q.limit + 1) := by
  obtain ⟨k,-,-,hlimit⟩ := h.size
  have hmask : q.limit=2^k-1 := by omega
  rw [hlimit,hmask,Nat.and_two_pow_sub_one_eq_mod]

theorem Ok.put (h : q.Ok) (hroom : q.count<q.limit) : (q.put c).Ok where
  size := h.size
  first_le := h.first_le
  count_le := by
    have := h.limit_lt
    simp only [Queue.put,u16]
    omega

theorem put_count (h : q.Ok) (hroom : q.count<q.limit) : (q.put c).count=q.count+1 := by
  have := h.limit_lt
  simp only [Queue.put,u16]
  omega

theorem contents_put (h : q.Ok) (hroom : q.count<q.limit) :
    (q.put c).contents=q.contents++[c] := by
  have hcount := put_count (c := c) h hroom
  unfold Queue.contents
  rw [hcount]
  simp only [Queue.put,h.mask]
  exact RingBuffer.contents_put q.dat c (by omega)

theorem Ok.get (h : q.Ok) : q.get.Ok where
  size := h.size
  first_le := by
    simp only [Queue.get,h.mask]
    exact Nat.lt_succ_iff.1 (Nat.mod_lt _ (Nat.succ_pos _))
  count_le := (Nat.sub_le _ _).trans h.count_le

theorem contents_get (h : q.Ok) (hne : 0<q.count) :
    q.contents=q.head::q.get.contents := by
  obtain ⟨m,hm⟩ : ∃ m, q.count=m+1 := ⟨q.count-1,by omega⟩
  unfold Queue.contents
  simp only [Queue.get,h.mask,hm,Nat.add_sub_cancel,Queue.head]
  exact RingBuffer.contents_get q.dat (Nat.lt_succ_of_le h.first_le)

theorem Ok.iterate_get (h : q.Ok) (n : ℕ) :
    (Queue.get^[n] q).Ok ∧ (Queue.get^[n] q).count=q.count-n := by
  induction n with
  | zero => exact ⟨h,rfl⟩
  | succ n ih =>
    rw [Function.iterate_succ_apply']
    refine ⟨ih.1.get,?_⟩
    simp only [Queue.get,ih.2]
    omega

theorem Ok.drain (h : q.Ok) : q.drain.Ok := (h.iterate_get q.count).1

theorem drain_count (h : q.Ok) : q.drain.count=0 := by
  rw [Queue.drain,(h.iterate_get q.count).2,Nat.sub_self]

theorem contents_of_count (h : q.count=0) : q.contents=[] := by
  simp [Queue.contents,h]

theorem ok_of_Qcreate {k : ℕ} {dat : ℕ → UInt8} (h : Qcreate (2^(k+1)) dat=some q) :
    q.Ok ∧ q.count=0 := by
  unfold Qcreate at h
  split at h
  · exact absurd h (by simp)
  · simp only [Option.some.injEq] at h
    subst h
    refine ⟨⟨?_,Nat.zero_le _,Nat.zero_le _⟩,rfl⟩
    rcases Nat.lt_or_ge k 15 with hk | hk
    · refine ⟨k+1,by omega,by omega,?_⟩
      have hlt : 2^(k+1)≤2^15 := Nat.pow_le_pow_right (by norm_num) (by omega)
      have hpos : 0<2^(k+1) := by positivity
      simp only [u16]
      omega
    · -- the mask is truncated to sixteen bits
      refine ⟨16,by norm_num,le_rfl,?_⟩
      obtain ⟨j,rfl⟩ := Nat.exists_eq_add_of_le hk
      have hpow : 2^(15+j+1)=65536*2^j := by ring
      simp only [u16,hpow]
      omega

end Queue
section
variable (d : ℕ)

def Main.stored : Main → List UInt8
  | .read p _ buf _ => if p=d then buf else []
  | _ => []

def Main.need : Main → ℕ
  | .read p _ _ .take => if p=d then 1 else 0
  | _ => 0

def Main.KeepsRaw : Main → Prop
  | .read p _ _ (.store _) => p≠d
  | .tcset p at' _ => p=d → at'.Raw
  | _ => True

def Frame.Quiet : Frame → Prop
  | .qput p _ => p≠d
  | .rxstop p _ => p≠d
  | _ => True

def Quiet (k : List Frame) : Prop := ∀ f∈k, f.Quiet d

/-- No character is lost, doubled or out of order between the line and the reader. -/
structure Core (dv : Dev) (main : Main) (pending : List UInt8) : Prop where
  queue : dv.rxq.Ok
  raw : dv.t.Raw
  keepsRaw : main.KeepsRaw d
  need_le : main.need d≤dv.rxq.count
  rxoff : dv.rxoff=true → main.need d<dv.rxq.count
  fifo : dv.accepted=dv.gone++main.stored d++dv.rxq.contents++pending

/-- The invariant, by the handler that is on top. -/
inductive Inv (s : State) : Prop where
  | quiet (hcore : Core d (s.dev d) s.main []) (hstack : Quiet d s.stack)
  | rxstop (n : ℤ) (k : List Frame) (hstack : s.stack = .rxstop d n::k)
      (hquiet : Quiet d k) (hneed : s.main.need d<(s.dev d).rxq.count)
      (hcore : Core d (s.dev d) s.main [])
  | qput (c : UInt8) (n : ℤ) (k : List Frame)
      (hstack : s.stack = .qput d c :: .rxstop d n::k) (hquiet : Quiet d k)
      (hroom : (s.dev d).rxq.count<(s.dev d).rxq.limit)
      (hcore : Core d (s.dev d) s.main [c])

variable {d} {s : State} {dv dv' : Dev} {main main' : Main} {pending : List UInt8}

theorem Quiet.append {k' : List Frame} (h : Quiet d k) (h' : Quiet d k') :
    Quiet d (k++k') := by
  intro f hf
  rcases List.mem_append.1 hf with hf | hf
  · exact h f hf
  · exact h' f hf

theorem Quiet.tail {f : Frame} (h : Quiet d (f::k)) : Quiet d k :=
  fun g hg => h g (List.mem_cons_of_mem _ hg)

theorem quiet_nil : Quiet d [] := fun _ hf => absurd hf List.not_mem_nil

@[simp] theorem setDev_self (s : State) (p : ℕ) (f : Dev → Dev) :
    (s.setDev p f).dev p=f (s.dev p) := by
  simp [State.setDev]

theorem setDev_ne (h : p≠d) (s : State) (f : Dev → Dev) :
    (s.setDev p f).dev d=s.dev d := by
  simp [State.setDev,h.symm]

@[simp] theorem setDev_stack (s : State) (p : ℕ) (f : Dev → Dev) :
    (s.setDev p f).stack=s.stack := rfl

@[simp] theorem setDev_main (s : State) (p : ℕ) (f : Dev → Dev) :
    (s.setDev p f).main = s.main := rfl

@[simp] theorem push_dev (s : State) (fs : List Frame) : (s.push fs).dev=s.dev := rfl
@[simp] theorem push_main (s : State) (fs : List Frame) : (s.push fs).main = s.main := rfl

@[simp] theorem push_stack (s : State) (fs : List Frame) :
    (s.push fs).stack=fs++s.stack := rfl

structure Dev.SameInput (dv dv' : Dev) : Prop where
  rxq : dv'.rxq=dv.rxq
  rxoff : dv'.rxoff=dv.rxoff
  t : dv'.t=dv.t
  accepted : dv'.accepted=dv.accepted
  history : dv'.history=dv.history

theorem Core.sameInput (h : Core d dv main pending) (hsame : dv.SameInput dv') :
    Core d dv' main pending where
  queue := hsame.rxq ▸ h.queue
  raw := hsame.t ▸ h.raw
  keepsRaw := h.keepsRaw
  need_le := hsame.rxq ▸ h.need_le
  rxoff := fun hoff => hsame.rxq ▸ h.rxoff (hsame.rxoff ▸ hoff)
  fifo := by
    have hgone : dv'.gone=dv.gone := by rw [Dev.gone,hsame.history,Dev.gone]
    rw [hsame.accepted,hgone,hsame.rxq]
    exact h.fifo

theorem sameInput_setDev (s : State) (p : ℕ) (f : Dev → Dev)
    (h : ∀ dv : Dev, dv.SameInput (f dv)) : (s.dev d).SameInput ((s.setDev p f).dev d) := by
  by_cases hp : p=d
  · subst hp
    rw [setDev_self]
    exact h _
  · rw [setDev_ne hp]
    exact ⟨rfl,rfl,rfl,rfl,rfl⟩

theorem Core.withMain (h : Core d dv main pending) (hkeeps : main'.KeepsRaw d)
    (hneed : main'.need d≤dv.rxq.count) (hrxoff : dv.rxoff=true → main'.need d<dv.rxq.count)
    (hstored : main'.stored d=main.stored d) : Core d dv main' pending :=
  { h with
    keepsRaw := hkeeps
    need_le := hneed
    rxoff := hrxoff
    fifo := by rw [hstored]; exact h.fifo }

theorem Core.withMain_zero (h : Core d dv main pending) (hkeeps : main'.KeepsRaw d)
    (hneed : main'.need d=0) (hstored : main'.stored d=main.stored d) :
    Core d dv main' pending :=
  h.withMain hkeeps (hneed ▸ Nat.zero_le _)
    (fun hoff => hneed ▸ (Nat.zero_le _).trans_lt (h.rxoff hoff)) hstored

theorem Core.close {n : ℕ} {buf : List UInt8} {phase : Phase} (fate : Fate)
    (h : Core d (s.dev d) (.read p n buf phase) []) :
    Core d ((s.setDev p fun dv => {dv with history := dv.history++[(fate,buf)]}).dev d)
      .idle [] := by
  by_cases hp : p=d
  · subst hp
    rw [setDev_self]
    exact
      { queue := h.queue
        raw := h.raw
        keepsRaw := trivial
        need_le := Nat.zero_le _
        rxoff := fun hoff => (Nat.zero_le _).trans_lt (h.rxoff hoff)
        fifo := by
          have hfifo := h.fifo
          simpa [Dev.gone,Dev.accepted,Main.stored] using hfifo }
  · rw [setDev_ne hp]
    exact h.withMain_zero trivial rfl (by simp [Main.stored,hp])

theorem Core.longjmp (h : Core d (s.dev d) s.main []) : Core d (s.longjmp.dev d) .idle [] := by
  unfold State.longjmp
  cases hmain : s.main with
  | idle => exact h.withMain_zero trivial rfl (by rw [hmain])
  | tcset p at' ok => exact h.withMain_zero trivial rfl (by rw [hmain]; rfl)
  | read p n buf phase => exact Core.close .abandoned (hmain ▸ h)

@[simp] theorem longjmp_stack (s : State) : s.longjmp.stack=[] := by
  unfold State.longjmp
  split <;> rfl

@[simp] theorem longjmp_main (s : State) : s.longjmp.main = .idle := by
  unfold State.longjmp
  split <;> rfl

theorem accepted_fetched (dv : Dev) (f : Fetch) :
    ({dv with fetched := dv.fetched++[f]} : Dev).accepted =
      dv.accepted ++ if !f.intercepted && f.space then [f.byte] else [] := by
  simp only [Dev.accepted,List.filter_append,List.map_append,List.filter_singleton]
  cases hkeep : !f.intercepted && f.space <;> rfl

theorem sameInput_fetched (dv : Dev) {f : Fetch} (h : (!f.intercepted && f.space)=false) :
    dv.SameInput {dv with fetched := dv.fetched++[f]} where
  rxq := rfl
  rxoff := rfl
  t := rfl
  accepted := by rw [accepted_fetched,h]; simp
  history := rfl

theorem receive_inv_self (hcore : Core d (s.dev d) s.main []) (hquiet : Quiet d s.stack)
    (c : UInt8) : Inv d (receive s d c) := by
  unfold receive
  dsimp only
  generalize hb : (s.dev d).strip c=b
  generalize hn : (s.dev d).rxq.Qspace=n
  -- an intercepted byte and one that finds no space change nothing of the input
  have hsame : ((s.dev d).sift b ≠ .data ∨ ¬ 0<n) → Core d
      ((s.setDev d fun dv => { dv with fetched :=
        dv.fetched++[⟨b,dv.sift b ≠ .data,0<n⟩] }).dev d) s.main [] := by
    intro hdrop
    rw [setDev_self]
    apply hcore.sameInput (sameInput_fetched _ _)
    rcases hdrop with hdrop | hdrop <;> simp [hdrop]
  cases hsift : (s.dev d).sift b with
  | signal =>
    have hcore' := hsame (.inl (by simp [hsift]))
    dsimp only
    split
    · exact .quiet (by simpa using hcore'.longjmp) (by simpa using quiet_nil)
    · exact .quiet hcore' hquiet
  | resume =>
    have hcore' := hsame (.inl (by simp [hsift]))
    exact .quiet (hcore'.sameInput (sameInput_setDev _ _ _ fun _ => ⟨rfl,rfl,rfl,rfl,rfl⟩))
      hquiet
  | pause =>
    have hcore' := hsame (.inl (by simp [hsift]))
    exact .quiet (hcore'.sameInput (sameInput_setDev _ _ _ fun _ => ⟨rfl,rfl,rfl,rfl,rfl⟩))
      hquiet
  | data =>
    dsimp only
    split
    case isFalse hspace => exact .quiet (hsame (.inr hspace)) hquiet
    case isTrue hspace =>
      have hroom : (s.dev d).rxq.count<(s.dev d).rxq.limit := by
        rw [←hn,Queue.Qspace] at hspace
        omega
      refine .qput b n s.stack rfl hquiet (by simpa using hroom) ?_
      rw [push_dev,setDev_self]
      exact
        { hcore with
          fifo := by
            have haccepted := accepted_fetched (s.dev d) ⟨b,(s.dev d).sift b ≠ .data,0<n⟩
            rw [haccepted,hcore.fifo]
            simp [hsift,hspace,Dev.gone] }

theorem receive_inv (hcore : Core d (s.dev d) s.main []) (hquiet : Quiet d s.stack)
    (p : ℕ) (c : UInt8) : Inv d (receive s p c) := by
  by_cases hp : p=d
  · subst hp
    exact receive_inv_self hcore hquiet c
  · unfold receive
    dsimp only
    have hcore' : ∀ f : Dev → Dev, Core d ((s.setDev p f).dev d) s.main [] := by
      intro f
      rw [setDev_ne hp]
      exact hcore
    split
    · split
      · exact .quiet (by simpa using (hcore' _).longjmp) (by simpa using quiet_nil)
      · exact .quiet (hcore' _) hquiet
    · refine .quiet ?_ hquiet
      rw [setDev_ne hp]
      exact hcore' _
    · refine .quiet ?_ hquiet
      rw [setDev_ne hp]
      exact hcore' _
    · split
      · refine .quiet ?_ (Quiet.append ?_ hquiet)
        · rw [push_dev]
          exact hcore' _
        · simp [Quiet,Frame.Quiet,hp]
      · exact .quiet (hcore' _) hquiet

theorem rxstop_core (hcore : Core d (s.dev d) s.main [])
    (hneed : s.main.need d<(s.dev d).rxq.count) :
    Core d ((s.setDev d fun dv => {dv with rxoff := true}).dev d) s.main [] := by
  rw [setDev_self]
  exact {hcore with rxoff := fun _ => hneed}

theorem rxstop_inv {n : ℤ} (hcore : Core d (s.dev d) s.main []) (hquiet : Quiet d s.stack)
    (hneed : p=d → s.main.need d<(s.dev d).rxq.count) :
    Inv d (rxstop s p n) := by
  unfold rxstop
  split
  case isFalse => exact .quiet hcore hquiet
  case isTrue =>
    have hcore' : Core d ((s.setDev p fun dv => {dv with rxoff := true}).dev d) s.main [] := by
      by_cases hp : p=d
      · subst hp
        exact rxstop_core hcore (hneed rfl)
      · rw [setDev_ne hp]
        exact hcore
    dsimp only
    split
    · exact .quiet (by simpa using hcore') (Quiet.append (by simp [Quiet,Frame.Quiet]) hquiet)
    · exact .quiet hcore' hquiet

theorem rxstart_inv (hquiet : Quiet d s.stack)
    (hcore : Core d ((s.setDev p fun dv => {dv with rxoff := false}).dev d) s.main []) :
    Inv d (rxstart s p) := by
  unfold rxstart
  dsimp only
  split
  · exact .quiet (by simpa using hcore) (Quiet.append (by simp [Quiet,Frame.Quiet]) hquiet)
  · exact .quiet hcore hquiet

theorem qput_inv {c : UInt8} {n : ℤ} (hstack : s.stack = .rxstop d n::k) (hquiet : Quiet d k)
    (hroom : (s.dev d).rxq.count<(s.dev d).rxq.limit) (hcore : Core d (s.dev d) s.main [c]) :
    Inv d (s.setDev d fun dv => {dv with rxq := dv.rxq.put c}) := by
  have hcount := Queue.put_count (c := c) hcore.queue hroom
  have hneed := hcore.need_le
  have hput : (s.setDev d fun dv => {dv with rxq := dv.rxq.put c}).dev d =
      {s.dev d with rxq := (s.dev d).rxq.put c} := setDev_self _ _ _
  refine .rxstop n k hstack hquiet ?_ ?_
  · rw [hput]
    simp only [setDev_main,hcount]
    omega
  · rw [hput]
    exact
      { queue := hcore.queue.put hroom
        raw := hcore.raw
        keepsRaw := hcore.keepsRaw
        need_le := by simp only [setDev_main,hcount]; omega
        rxoff := fun _ => by simp only [setDev_main,hcount]; omega
        fifo := by
          have hfifo := hcore.fifo
          have hcontents := Queue.contents_put (c := c) hcore.queue hroom
          simp only [Dev.accepted,Dev.gone,setDev_main,hcontents] at hfifo ⊢
          simpa using hfifo }

theorem stepFrame_inv {devs : List ℕ} {f : Frame} {e : Event} {s' : State}
    (hcore : Core d (s.dev d) s.main []) (hquiet : Quiet d s.stack) (hf : f.Quiet d)
    (h : stepFrame devs s f e=some s') : Inv d s' := by
  have hpush : ∀ fs : List Frame, Quiet d fs → Inv d (s.push fs) := fun fs hfs =>
    .quiet (by simpa using hcore) (hfs.append hquiet)
  have hset : ∀ p g, (∀ dv : Dev, dv.SameInput (g dv)) → Inv d (s.setDev p g) := fun p g hg =>
    .quiet (hcore.sameInput (sameInput_setDev s p g hg)) hquiet
  unfold stepFrame at h
  split at h
  · cases h
    exact .quiet hcore hquiet
  · cases h
    exact hpush _ (by simp [Quiet,Frame.Quiet])
  · cases h
    exact receive_inv (by simpa using hcore)
      (Quiet.append (by simp [Quiet,Frame.Quiet]) hquiet) _ _
  · -- `Qput` on another device
    rename_i p c
    split at h
    · cases h
      exact hpush _ (by simpa [Quiet,Frame.Quiet] using hf)
    · cases h
      refine .quiet ?_ hquiet
      rw [setDev_ne hf]
      exact hcore
  · cases h
    exact rxstop_inv hcore hquiet fun hp => absurd hp hf
  · split at h
    · cases h
      exact hpush _ (by simp [Quiet,Frame.Quiet])
    · cases h
      exact hpush _ (by simp [Quiet,Frame.Quiet])
  · cases h
    exact hpush _ (by simp [Quiet,Frame.Quiet])
  · cases h
    exact hset _ _ fun _ => ⟨rfl,rfl,rfl,rfl,rfl⟩
  · cases h
    exact .quiet hcore hquiet
  · cases h
    apply hpush
    split <;> simp [Quiet,Frame.Quiet]
  · exact absurd h (by simp)

variable {devs : List ℕ}

theorem Core.otherRead (hp : p≠d) (h : Core d dv main []) (hstored : main.stored d=[]) (n : ℕ)
    (buf : List UInt8) (phase : Phase) :
    Core d dv (.read p n buf phase) [] := by
  apply h.withMain_zero
  · cases phase <;> trivial
  · cases phase <;> simp [Main.need,hp]
  · rw [hstored]
    simp [Main.stored,hp]

theorem stepRead_inv_self {n : ℕ} {buf : List UInt8} {phase : Phase}
    (hmain : s.main = .read d n buf phase) (hcore : Core d (s.dev d) s.main [])
    (hquiet : Quiet d s.stack) : Inv d (stepRead devs s d n buf phase) := by
  have hscan : Quiet d [.scandevs devs] := by simp [Quiet,Frame.Quiet]
  have hpush : Inv d (s.push [.scandevs devs]) :=
    .quiet (by simpa using hcore) (hscan.append hquiet)
  rw [hmain] at hcore
  cases phase with
  | loop =>
    simp only [stepRead]
    split
    · exact .quiet (hcore.withMain_zero trivial rfl rfl) (hscan.append hquiet)
    · exact .quiet (Core.close .returned hcore) hquiet
  | wait =>
    simp only [stepRead]
    by_cases hused : (s.dev d).rxq.Qused=0
    · rw [if_pos hused]
      exact hpush
    · rw [if_neg hused]
      have hone : Main.need d (.read d n buf .take)=1 := by simp [Main.need]
      by_cases hstopped : (s.dev d).rxq.Qused<20 ∧ (s.dev d).rxoff=true
      · rw [if_pos hstopped]
        refine rxstart_inv hquiet ?_
        rw [setDev_self]
        have hcore' : Core d {s.dev d with rxoff := false} (.read d n buf .wait) [] :=
          {hcore with rxoff := fun h => absurd h (by simp)}
        exact hcore'.withMain trivial (by rw [hone]; exact Nat.pos_of_ne_zero hused)
          (fun h => absurd h (by simp)) rfl
      · -- a stopped input leaves at least twenty bytes here
        rw [if_neg hstopped]
        refine .quiet (hcore.withMain trivial ?_ ?_ rfl) hquiet
        · rw [hone]
          exact Nat.pos_of_ne_zero hused
        · intro hoff
          rw [hone]
          have : ¬ (s.dev d).rxq.count<20 := fun hlt => hstopped ⟨hlt,hoff⟩
          omega
  | take =>
    have hneed : 1≤(s.dev d).rxq.count := by
      have := hcore.need_le
      simpa [Main.need] using this
    have hempty : (s.dev d).rxq.Qempty=false := by
      simp only [Queue.Qempty,beq_eq_false_iff_ne]
      omega
    simp only [stepRead,hempty,setDev_self,hcore.raw.icrnl,hcore.raw.icanon,Bool.false_and,
      Bool.false_eq_true,if_false]
    refine .quiet ?_ hquiet
    simp only [setDev_self]
    exact
      { queue := hcore.queue.get
        raw := hcore.raw
        keepsRaw := trivial
        need_le := Nat.zero_le _
        rxoff := fun hoff => by
          have hlt := hcore.rxoff hoff
          simp only [Main.need,if_true,Queue.get] at hlt ⊢
          omega
        fifo := by
          have hfifo := hcore.fifo
          rw [Queue.contents_get hcore.queue hneed] at hfifo
          simpa [Dev.gone,Dev.accepted,Main.stored] using hfifo }
  | store ch => exact absurd rfl hcore.keepsRaw

theorem stepRead_inv {n : ℕ} {buf : List UInt8} {phase : Phase}
    (hmain : s.main = .read p n buf phase) (hcore : Core d (s.dev d) s.main [])
    (hquiet : Quiet d s.stack) : Inv d (stepRead devs s p n buf phase) := by
  by_cases hp : p=d
  · subst hp
    exact stepRead_inv_self hmain hcore hquiet
  have hscan : Quiet d [.scandevs devs] := by simp [Quiet,Frame.Quiet]
  have hpush : Inv d (s.push [.scandevs devs]) :=
    .quiet (by simpa using hcore) (hscan.append hquiet)
  have hstored : s.main.stored d=[] := by rw [hmain]; simp [Main.stored,hp]
  have hread : ∀ n buf phase, Core d (s.dev d) (.read p n buf phase) [] :=
    fun n buf phase => hcore.otherRead hp hstored n buf phase
  have hreturn : ∀ buf, Inv d (readReturn s p buf) := fun buf =>
    .quiet (Core.close .returned (hread n buf .loop)) hquiet
  cases phase with
  | loop =>
    simp only [stepRead]
    split
    · exact .quiet (hread _ _ _) (hscan.append hquiet)
    · exact hreturn _
  | wait =>
    simp only [stepRead]
    split
    · exact hpush
    · split
      · refine rxstart_inv hquiet ?_
        rw [setDev_ne hp]
        exact hread _ _ _
      · exact .quiet (hread _ _ _) hquiet
  | take =>
    have hget := setDev_ne hp s
    have hecho : ∀ bs, Quiet d [Frame.write p bs] := by simp [Quiet,Frame.Quiet]
    simp only [stepRead]
    split
    · exact hpush
    · split
      · simp only [readCanonical]
        split
        · split_ifs <;> refine .quiet (by simpa [hget] using hread _ _ _) ?_ <;>
            first | exact hquiet | exact (hecho _).append hquiet
        · split_ifs <;> refine .quiet (by simpa [hget] using hread _ _ _) ?_ <;>
            first | exact hquiet | exact (hecho _).append hquiet
      · exact .quiet (by simpa [hget] using hread _ _ _) hquiet
  | store ch =>
    simp only [stepRead]
    split
    · exact hreturn _
    · exact .quiet (hread _ _ _) hquiet

def Event.KeepsRaw (d : ℕ) : Event → Prop
  | .call (.ioctl p (.tcsetaf at' _)) => p=d → at'.Raw
  | .call (.ioctl p (.tcsetaw at' _)) => p=d → at'.Raw
  | .call (.ioctl p .setsane) => p≠d
  | _ => True

theorem setAttrs_core {at' : Attrs} {ok : Bool} (hcore : Core d (s.dev d) main [])
    (hraw : p=d → at'.Raw) : Core d ((setAttrs s p at' ok).dev d) main [] := by
  unfold setAttrs
  split
  · by_cases hp : p=d
    · subst hp
      rw [setDev_self]
      exact {hcore with raw := hraw rfl}
    · rw [setDev_ne hp]
      exact hcore
  · exact hcore

@[simp] theorem setAttrs_stack (s : State) (p : ℕ) (at' : Attrs) (ok : Bool) :
    (setAttrs s p at' ok).stack=s.stack := by
  unfold setAttrs
  split <;> rfl

@[simp] theorem setAttrs_main (s : State) (p : ℕ) (at' : Attrs) (ok : Bool) :
    (setAttrs s p at' ok).main = s.main := by
  unfold setAttrs
  split <;> rfl

theorem tcsetaf_inv {at' : Attrs} {ok : Bool} (hmain : s.main = .idle)
    (hcore : Core d (s.dev d) s.main []) (hquiet : Quiet d s.stack) (hraw : p=d → at'.Raw) :
    Inv d (ioctl devs s p (.tcsetaf at' ok)) := by
  rw [hmain] at hcore
  have hother : Core d (s.dev d) (.tcset p at' ok) [] := hcore.withMain_zero hraw rfl rfl
  -- the emptied queue, for either state of the input
  have hself : ∀ off : Bool, (off=true → False) → p=d →
      Core d { s.dev d with
        rxoff := off
        rxq := (s.dev d).rxq.drain
        history := (s.dev d).history++[(.flushed,(s.dev d).rxq.contents)] }
        (.tcset p at' ok) [] := fun off hoff hp =>
    { queue := hcore.queue.drain
      raw := hcore.raw
      keepsRaw := hraw
      need_le := Nat.zero_le _
      rxoff := fun h => (hoff h).elim
      fifo := by
        have hfifo := hcore.fifo
        have hdrain := Queue.contents_of_count (Queue.drain_count hcore.queue)
        simpa [Dev.gone,Dev.accepted,Main.stored,hdrain] using hfifo }
  unfold ioctl
  by_cases hp : p=d
  · subst hp
    simp only [setDev_self]
    split
    · refine rxstart_inv hquiet ?_
      simp only [setDev_self]
      exact hself false (by simp) rfl
    · rename_i hoff
      refine .quiet ?_ hquiet
      simp only [setDev_self]
      exact hself _ hoff rfl
  · dsimp only
    split
    · refine rxstart_inv hquiet ?_
      rw [setDev_ne hp]
      simpa [setDev_ne hp] using hother
    · exact .quiet (by simpa [setDev_ne hp] using hother) hquiet

theorem stepCall_inv {c : Call} (hmain : s.main = .idle) (hcore : Core d (s.dev d) s.main [])
    (hquiet : Quiet d s.stack) (hraw : Event.KeepsRaw d (.call c)) :
    Inv d (stepCall devs s c) := by
  have hpush : ∀ fs : List Frame, Quiet d fs → Inv d (s.push fs) := fun fs hfs =>
    .quiet (by simpa using hcore) (hfs.append hquiet)
  cases c with
  | scandevs => exact hpush _ (by simp [Quiet,Frame.Quiet])
  | write p buf => exact hpush _ (by simp [Quiet,Frame.Quiet])
  | read p n =>
    have hcore' : Core d (s.dev d) (.read p n [] .loop) [] := by
      refine hcore.withMain_zero trivial rfl ?_
      rw [hmain]
      simp [Main.stored]
    exact .quiet hcore' hquiet
  | ioctl p op =>
    cases op with
    | tcsetaf at' ok =>
      show Inv d (ioctl devs s p (.tcsetaf at' ok))
      exact tcsetaf_inv hmain hcore hquiet hraw
    | tcsetaw at' ok =>
      have hcore' : Core d ((setAttrs s p at' ok).dev d) (setAttrs s p at' ok).main [] := by
        rw [setAttrs_main]
        exact setAttrs_core hcore hraw
      exact .quiet hcore' (by simpa [stepCall,ioctl] using hquiet)
    | fionread => exact hpush _ (by simp [Quiet,Frame.Quiet])
    | setintr set =>
      refine .quiet (hcore.sameInput ?_) hquiet
      exact sameInput_setDev s p (fun dv => {dv with intr := set})
        fun _ => ⟨rfl,rfl,rfl,rfl,rfl⟩
    | setsane =>
      refine .quiet ?_ hquiet
      simp only [stepCall,ioctl,setDev_ne hraw]
      exact hcore
    | setncne =>
      refine .quiet ?_ hquiet
      by_cases hp : p=d
      · subst hp
        simp only [stepCall,ioctl,setDev_self]
        exact {hcore with raw := ⟨rfl,hcore.raw.icrnl⟩}
      · simp only [stepCall,ioctl,setDev_ne hp]
        exact hcore
    | cbreak =>
      refine .quiet ?_ hquiet
      by_cases hp : p=d
      · subst hp
        simp only [stepCall,ioctl,setDev_self]
        exact {hcore with raw := ⟨rfl,hcore.raw.icrnl⟩}
      · simp only [stepCall,ioctl,setDev_ne hp]
        exact hcore

theorem step_cons {f : Frame} {e : Event} (h : s.stack=f::k) :
    Termio.step devs s e=stepFrame devs {s with stack := k} f e := by
  simp only [Termio.step,h]

theorem Inv.step {e : Event} {s' : State} (hinv : Inv d s) (hraw : e.KeepsRaw d)
    (h : Termio.step devs s e=some s') : Inv d s' := by
  cases hinv with
  | rxstop n k hstack hquiet hneed hcore =>
    rw [step_cons hstack] at h
    cases e <;> simp only [stepFrame,reduceCtorEq,Option.some.injEq] at h
    subst h
    exact rxstop_inv hcore hquiet fun _ => hneed
  | qput c n k hstack hquiet hroom hcore =>
    rw [step_cons hstack] at h
    have hfull : (s.dev d).rxq.Qfull=false := by
      simp only [Queue.Qfull,beq_eq_false_iff_ne]
      omega
    cases e <;> simp only [stepFrame,reduceCtorEq,hfull,Bool.false_eq_true,if_false,
      Option.some.injEq] at h
    subst h
    exact qput_inv (s := {s with stack := .rxstop d n::k}) rfl hquiet hroom hcore
  | quiet hcore hstack =>
    cases hk : s.stack with
    | cons f k =>
      rw [step_cons hk] at h
      rw [hk] at hstack
      exact @stepFrame_inv d {s with stack := k} devs f e s' hcore hstack.tail
        (hstack f List.mem_cons_self) h
    | nil =>
      unfold Termio.step at h
      simp only [hk] at h
      split at h
      · rename_i hmain
        cases h
        exact stepCall_inv hmain hcore hstack hraw
      · rename_i hmain
        cases h
        exact stepRead_inv hmain hcore hstack
      · rename_i p at' ok hmain
        cases h
        have hkeeps : p=d → at'.Raw := by
          have := hcore.keepsRaw
          rwa [hmain] at this
        refine .quiet ?_ (by rw [setAttrs_stack]; exact quiet_nil)
        rw [setAttrs_main]
        exact setAttrs_core (hcore.withMain_zero trivial rfl (by rw [hmain]; rfl)) hkeeps
      · exact absurd h (by simp)

theorem Inv.run {es : List Event} {s' : State} (hinv : Inv d s)
    (hraw : ∀ e∈es, e.KeepsRaw d) (h : Termio.run devs s es=some s') : Inv d s' := by
  induction es generalizing s with
  | nil =>
    simp only [Termio.run,List.foldlM_nil, Option.pure_def,Option.some.injEq] at h
    exact h ▸ hinv
  | cons e es ih =>
    simp only [Termio.run,List.foldlM_cons,Option.bind_eq_bind,Option.bind_eq_some_iff] at h
    obtain ⟨s₁,hstep,hrest⟩ := h
    have hinv₁ := hinv.step (hraw e List.mem_cons_self) hstep
    exact ih hinv₁ (fun e' he' => hraw e' (List.mem_cons_of_mem _ he')) hrest

structure Start (d : ℕ) (s : State) : Prop where
  stack : s.stack=[]
  main : s.main = .idle
  queue : ∃ k dat, Qcreate (2^(k+1)) dat=some (s.dev d).rxq
  rxoff : (s.dev d).rxoff=false
  raw : (s.dev d).t.Raw
  fetched : (s.dev d).fetched=[]
  history : (s.dev d).history=[]

def State.putting (s : State) (d : ℕ) : List UInt8 :=
  match s.stack with
  | .qput p c::_ => if p=d then [c] else []
  | _ => []

structure InputOk (d : ℕ) (s : State) : Prop where
  fifo : (s.dev d).accepted =
    (s.dev d).gone++s.main.stored d++(s.dev d).rxq.contents++s.putting d
  count_le : (s.dev d).rxq.count≤(s.dev d).rxq.limit
  /-- `Qput` is not called on a full queue. -/
  qput : s.putting d≠[] → (s.dev d).rxq.Qfull=false
  rxoff : (s.dev d).rxq.Qempty=true → (s.dev d).rxoff=false

theorem Start.inv (h : Start d s) : Inv d s := by
  obtain ⟨k,dat,hq⟩ := h.queue
  obtain ⟨hok,hcount⟩ := Queue.ok_of_Qcreate hq
  refine .quiet ?_ (h.stack ▸ quiet_nil)
  rw [h.main]
  exact
    { queue := hok
      raw := h.raw
      keepsRaw := trivial
      need_le := Nat.zero_le _
      rxoff := fun hoff => absurd hoff (by simp [h.rxoff])
      fifo := by
        simp [Dev.accepted,Dev.gone,h.fetched,h.history,Main.stored,
          Queue.contents_of_count hcount] }

theorem Core.not_stopped (h : Core d dv main pending) (hempty : dv.rxq.Qempty=true) :
    dv.rxoff=false := by
  by_contra hoff
  have hlt := h.rxoff (by simpa using hoff)
  have hzero : dv.rxq.count=0 := by simpa [Queue.Qempty] using hempty
  omega

theorem Quiet.putting (h : Quiet d s.stack) : s.putting d=[] := by
  unfold State.putting
  split
  · rename_i p c k hk
    have hp : p≠d := by
      have := h (.qput p c) (by rw [hk]; exact List.mem_cons_self)
      exact this
    rw [if_neg hp]
  · rfl

theorem Inv.inputOk (h : Inv d s) : InputOk d s := by
  cases h with
  | quiet hcore hstack =>
    have hputting := Quiet.putting hstack
    exact ⟨by rw [hputting]; exact hcore.fifo,hcore.queue.count_le,
      fun hne => absurd hputting hne,hcore.not_stopped⟩
  | rxstop n k hstack hquiet hneed hcore =>
    have hputting : s.putting d=[] := by simp only [State.putting,hstack]
    exact ⟨by rw [hputting]; exact hcore.fifo,hcore.queue.count_le,
      fun hne => absurd hputting hne,hcore.not_stopped⟩
  | qput c n k hstack hquiet hroom hcore =>
    have hputting : s.putting d=[c] := by simp only [State.putting,hstack,if_true]
    refine ⟨by rw [hputting]; exact hcore.fifo,hcore.queue.count_le,fun _ => ?_,
      hcore.not_stopped⟩
    simp only [Queue.Qfull,beq_eq_false_iff_ne]
    omega

/-- A tty in raw mode hands out what it accepted, in order, and never waits with its input stopped.
-/
theorem run_inputOk {d : ℕ} {s s' : State} {es : List Event} (hstart : Start d s)
    (hraw : ∀ e∈es, e.KeepsRaw d) (h : Termio.run devs s es=some s') : InputOk d s' :=
  (hstart.inv.run hraw h).inputOk
end

def Dev.returned (d : Dev) : List UInt8 :=
  ((d.history.filter (·.1 = .returned)).map (·.2)).flatten

def rawAttrs : Attrs where
  istrip := false
  icrnl := false
  ixon := false
  ixany := false
  ixoff := false
  isig := true
  icanon := false
  echo := false
  echoe := false
  onlcr := false
  vintr := 3
  verase := 8
  veol := 10
  veol2 := 3
  vstart := 17
  vstop := 19

def smallTty : State where
  dev _ := ⟨false,false,⟨0,0,1, fun _ => 0⟩,true,rawAttrs,[],[],[]⟩
  stack := []
  main := .idle

def oneOfTwo : List Event :=
  [.call (.read 0 2),.tau,.rx (some 97),.tau,.tau,.rx none,.tau,.tau,.tau,.tau]

theorem smallTty_start : Start 0 smallTty where
  stack := rfl
  main := rfl
  queue := ⟨0,fun _ => 0,rfl⟩
  rxoff := rfl
  raw := ⟨rfl,rfl⟩
  fetched := rfl
  history := rfl

theorem run_inputOk_oneOfTwo :
    ∃ s, run [0] smallTty oneOfTwo=some s ∧ s.main.stored 0=[97] ∧ InputOk 0 s :=
  have hraw : ∀ e∈oneOfTwo, e.KeepsRaw 0 := by simp [oneOfTwo,Event.KeepsRaw]
  ⟨_,rfl,rfl, @run_inputOk [0] 0 smallTty _ oneOfTwo smallTty_start hraw rfl⟩

theorem run_abandoned :
    ∃ s, run [0] smallTty (oneOfTwo++[.rx (some 3)])=some s ∧
      s.stack=[] ∧ s.main = .idle ∧ (s.dev 0).accepted=[97] ∧
      (s.dev 0).returned++(s.dev 0).rxq.contents=[] :=
  ⟨_,rfl,rfl,rfl, by decide, by decide⟩

end Pmon.Termio
