import Pmon.EnvEntry
import Pmon.KeyedList

/-!
# Non-volatile environment stores as finite maps

A store represents a finite map from names to values, which the entry points update at one name or
report.
-/

namespace Pmon
open EnvEntry KeyedList
variable {bodies post pre : List (List UInt8)} {body : List UInt8}

inductive Errno where
  | ENODEV
  | EINVAL
  | ENAMETOOLONG
  | ENOSPC
  | ENOENT

structure EnvStore (σ : Type) where
  /-- `_sbd_setenv`; the error case is `-1` with `errno`. -/
  setenv : σ → CPtr → CPtr → Bool → σ × Except Errno Unit
  /-- `_sbd_getenv`; the error case is the null pointer with `errno`. -/
  getenv : σ → CPtr → σ × Except Errno CString
  unsetenv : σ → CPtr → σ
  mapenv : σ → σ × List (CString × CString)

structure SetCall where
  name : CString
  val : CPtr
  overwrite : Bool

abbrev EnvMap := CString → Option CString

inductive EnvOp where
  | setenv (name : CString) (val : CPtr)
  | unsetenv (name : CString)

def EnvOp.name : EnvOp → CString
  | .setenv name _ => name
  | .unsetenv name => name

structure PlainName (name : CString) : Prop where
  no_eq : eqSign∉name.bytes
  printable : ∀ c∈name.bytes, 0x20≤c ∧ c<0x7f

instance (name : CString) : Decidable (PlainName name) :=
  decidable_of_iff (eqSign∉name.bytes ∧ ∀ c∈name.bytes, 0x20≤c ∧ c<0x7f)
    ⟨fun h => ⟨h.1,h.2⟩, fun h => ⟨h.1,h.2⟩⟩

def EnvMap.update (m : EnvMap) : EnvOp → Except Errno Unit → EnvMap
  | .setenv name val, .ok _ => Function.update m name (some (val.getD CString.empty))
  | .setenv _ _, .error _ => m
  | .unsetenv name, _ => Function.update m name none

namespace EnvStore
variable {σ : Type} (st : EnvStore σ)

def exec (s : σ) : EnvOp → σ × Except Errno Unit
  | .setenv name val => st.setenv s (some name) val true
  | .unsetenv name => (st.unsetenv s (some name),.ok ())

def run : σ → List EnvOp → σ × List (Except Errno Unit)
  | s, [] => (s,[])
  | s, op::ops =>
    let (s',r) := st.exec s op
    let (s'',rs) := run s' ops
    (s'',r::rs)

def setAll : σ → List SetCall → Option σ
  | s, [] => some s
  | s, c::cs =>
    match st.setenv s (some c.name) c.val c.overwrite with
    | (s',.ok _) => setAll s' cs
    | (_,.error _) => none

def mapAfter : EnvMap → List EnvOp → List (Except Errno Unit) → EnvMap
  | m, op::ops, r::rs => mapAfter (m.update op r) ops rs
  | m, _, _ => m

structure Represents (s : σ) (m : EnvMap) : Prop where
  /-- `_sbd_getenv` returns the bound value, or the null pointer. -/
  getenv : ∀ n : CString, eqSign∉n.bytes → st.getenv s (some n) =
    (s, match m n with
      | some v => .ok v
      | none => .error .ENOENT)
  mapenv : (st.mapenv s).1=s
  /-- `_sbd_mapenv` calls `func` for exactly the bound pairs. -/
  pairs : ∀ n v, (n,v)∈(st.mapenv s).2 ↔ m n=some v
  once : ((st.mapenv s).2.map Prod.fst).Nodup

theorem run_related {R : σ → EnvMap → Prop} {P : EnvOp → Prop}
    (hstep : ∀ s m op, R s m → P op → R (st.exec s op).1 (m.update op (st.exec s op).2))
    {s : σ} {m : EnvMap} (h : R s m) {ops : List EnvOp} (hops : ∀ op∈ops, P op) :
    R (st.run s ops).1 (mapAfter m ops (st.run s ops).2) := by
  induction ops generalizing s m with
  | nil => exact h
  | cons op ops ih =>
    exact ih (hstep s m op h (hops op List.mem_cons_self))
      fun o ho => hops o (List.mem_cons_of_mem _ ho)

theorem setAll_invariant {I : σ → Prop} {P : SetCall → Prop}
    (hstep : ∀ s s' c, I s → P c →
      st.setenv s (some c.name) c.val c.overwrite=(s',.ok ()) → I s')
    {s s' : σ} (h : I s) {calls : List SetCall} (hcalls : ∀ c∈calls, P c)
    (hrun : st.setAll s calls=some s') : I s' := by
  induction calls generalizing s with
  | nil =>
    cases hrun
    exact h
  | cons c calls ih =>
    rw [setAll] at hrun
    split at hrun
    · next s₁ u hset =>
      exact ih (hstep s s₁ c h (hcalls c List.mem_cons_self) hset)
        (fun d hd => hcalls d (List.mem_cons_of_mem _ hd)) hrun
    · cases hrun

end EnvStore

def bindings (bodies : List (List UInt8)) : EnvMap := fun n =>
  (lookup keyOf bodies n.bytes).map fun body => cstring (valOf body)

def pairOf (body : List UInt8) : CString × CString := (cstring (keyOf body),cstring (valOf body))
@[simp] theorem bindings_nil : bindings [] = fun _ => none := rfl

variable {name : CString}

theorem bindings_of_update {bodies' : List (List UInt8)} {v : Option (List UInt8)}
    (h : lookup keyOf bodies'=Function.update (lookup keyOf bodies) name.bytes v) :
    bindings bodies' =
      Function.update (bindings bodies) name (v.map fun body => cstring (valOf body)) := by
  funext n
  rw [bindings,h]
  by_cases hn : n=name
  · rw [hn,Function.update_self,Function.update_self]
  · rw [Function.update_of_ne hn,Function.update_of_ne fun hb => hn (CString.ext' hb),bindings]

theorem bindings_remove (h : Distinct keyOf (pre++body::post)) (hk : keyOf body=name.bytes) :
    bindings (pre++post)=Function.update (bindings (pre++body::post)) name none :=
  bindings_of_update (v := none) (by rw [lookup_remove h,hk])

theorem cstring_valOf_entryBody (hname : eqSign∉name.bytes) (val : CPtr) :
    cstring (valOf (entryBody name.bytes val.bytes))=val.getD CString.empty := by
  rw [valOf_entryBody hname]
  cases val with
  | none => rfl
  | some v => exact cstring_bytes v

theorem bindings_append (hname : eqSign∉name.bytes)
    (hnew : ∀ body∈bodies, keyOf body≠name.bytes) (val : CPtr) :
    bindings (bodies++[entryBody name.bytes val.bytes]) =
      Function.update (bindings bodies) name (some (val.getD CString.empty)) := by
  have hk := keyOf_entryBody hname val.bytes
  have hnew' : ∀ body∈bodies, keyOf body≠keyOf (entryBody name.bytes val.bytes) := by
    rw [hk]
    exact hnew
  have h := lookup_append_new hnew'
  rw [hk] at h
  rw [bindings_of_update h,Option.map_some,cstring_valOf_entryBody hname]

theorem bindings_replace (h : Distinct keyOf (pre++body::post)) (hname : eqSign∉name.bytes)
    (hk : keyOf body=name.bytes) (val : CPtr) :
    bindings (pre++entryBody name.bytes val.bytes::post) =
      Function.update (bindings (pre++body::post)) name
        (some (val.getD CString.empty)) := by
  have h' := lookup_replace h ((keyOf_entryBody hname val.bytes).trans hk.symm)
  rw [hk] at h'
  rw [bindings_of_update h',Option.map_some,cstring_valOf_entryBody hname]

structure Tidy (bodies : List (List UInt8)) : Prop where
  distinct : Distinct keyOf bodies
  noNul : ∀ body∈bodies, (0 : UInt8)∉body

theorem noNul_keyOf (h : (0 : UInt8)∉body) : (0 : UInt8)∉keyOf body :=
  fun h0 => h ((List.takeWhile_sublist _).subset h0)

theorem noNul_entryBody (name : CString) (val : CPtr) :
    (0 : UInt8)∉entryBody name.bytes val.bytes := by
  have hval : (0 : UInt8)∉val.bytes := by
    cases val with
    | none => simp [CPtr.bytes]
    | some v => exact v.noNul
  unfold entryBody
  split
  · exact name.noNul
  · simp [name.noNul,hval,eqSign]

theorem mem_map_pairOf (h : Tidy bodies) (n v : CString) :
    (n,v)∈bodies.map pairOf ↔ bindings bodies n=some v := by
  simp only [List.mem_map,pairOf,Prod.mk.injEq,bindings,Option.map_eq_some_iff,
    lookup_eq_some h.distinct]
  constructor
  · rintro ⟨body,hmem,rfl,rfl⟩
    refine ⟨body,⟨hmem,?_⟩,rfl⟩
    rw [cstring_of_noNul (noNul_keyOf (h.noNul body hmem))]
  · rintro ⟨body,⟨hmem,hk⟩,rfl⟩
    exact ⟨body,hmem,by rw [hk,cstring_bytes],rfl⟩

theorem nodup_map_pairOf (h : Tidy bodies) :
    ((bodies.map pairOf).map Prod.fst).Nodup := by
  rw [List.map_map]
  refine List.Nodup.of_map CString.bytes ?_
  rw [List.map_map]
  have hkeys : bodies.map (CString.bytes ∘ Prod.fst ∘ pairOf)=bodies.map keyOf := by
    refine List.map_congr_left fun body hmem => ?_
    simp [pairOf,cstring_of_noNul (noNul_keyOf (h.noNul body hmem))]
  rw [hkeys]
  exact h.distinct

theorem Tidy.represents {σ : Type} {st : EnvStore σ} {s : σ} (h : Tidy bodies)
    (hget : ∀ n : CString, eqSign∉n.bytes → st.getenv s (some n) =
      (s, match lookup keyOf bodies n.bytes with
        | none => .error .ENOENT
        | some body => .ok (cstring (body.drop (n.bytes.length+1)))))
    (hmap : st.mapenv s=(s,bodies.map pairOf)) : st.Represents s (bindings bodies) where
  getenv n hn := by
    rw [hget n hn,bindings]
    cases hl : lookup keyOf bodies n.bytes with
    | none => rfl
    | some body =>
      dsimp only [Option.map_some]
      rw [drop_of_keyOf (mem_of_lookup hl).2]
  mapenv := by rw [hmap]
  pairs n v := by
    rw [hmap]
    exact mem_map_pairOf h n v
  once := by
    rw [hmap]
    exact nodup_map_pairOf h

theorem Tidy.remove (h : Tidy (pre++body::post)) : Tidy (pre++post) :=
  ⟨h.distinct.remove,fun q hq => h.noNul q (by
    rcases List.mem_append.mp hq with hq | hq <;> simp [hq])⟩

theorem Tidy.append (h : Tidy bodies) (hname : eqSign∉name.bytes)
    (hnew : ∀ body∈bodies, keyOf body≠name.bytes) (val : CPtr) :
    Tidy (bodies++[entryBody name.bytes val.bytes]) := by
  refine ⟨h.distinct.append (by rw [keyOf_entryBody hname]; exact hnew),fun q hq => ?_⟩
  rcases List.mem_append.mp hq with hq | hq
  · exact h.noNul q hq
  · rw [List.mem_singleton.mp hq]
    exact noNul_entryBody name val

theorem Tidy.replace (h : Tidy (pre++body::post)) (hname : eqSign∉name.bytes)
    (hk : keyOf body=name.bytes) (val : CPtr) :
    Tidy (pre++entryBody name.bytes val.bytes::post) := by
  refine ⟨h.distinct.replace ((keyOf_entryBody hname _).trans hk.symm),fun q hq => ?_⟩
  rcases List.mem_append.mp hq with hq | hq
  · exact h.noNul q (by simp [hq])
  · rcases List.mem_cons.mp hq with rfl | hq
    · exact noNul_entryBody name val
    · exact h.noNul q (by simp [hq])

end Pmon
