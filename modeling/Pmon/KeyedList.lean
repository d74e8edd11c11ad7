import Mathlib

/-!
# Lists of keyed items as finite maps

A list of items with distinct keys is a finite map, updated by adding, removing and exchanging an
item.
-/

namespace Pmon.KeyedList
open List Function
variable {α κ : Type*} {l post pre : List α} {a : α}

def Distinct (key : α → κ) (l : List α) : Prop := (l.map key).Nodup

variable {key : α → κ}

theorem Distinct.sublist {m : List α} (h : Distinct key m) (hs : l.Sublist m) :
    Distinct key l := List.Nodup.sublist (hs.map key) h

theorem Distinct.ne_of_mem {b : α} (h : Distinct key (pre++a::post)) (hb : b∈pre++post) :
    key b≠key a := by
  have hperm : ((pre++a::post).map key).Perm ((a::(pre++post)).map key) :=
    perm_middle.map key
  have hnd := (hperm.nodup_iff).mp h
  rw [map_cons,nodup_cons] at hnd
  exact fun he => hnd.1 (he ▸ mem_map_of_mem hb)

theorem Distinct.remove (h : Distinct key (pre++a::post)) : Distinct key (pre++post) :=
  h.sublist (List.Sublist.append (List.Sublist.refl _) (sublist_cons_self a post))

theorem Distinct.replace {b : α} (h : Distinct key (pre++a::post)) (hk : key b=key a) :
    Distinct key (pre++b::post) := by
  unfold Distinct at h ⊢
  simpa [hk] using h

theorem Distinct.append {b : α} (h : Distinct key l) (hb : ∀ a∈l, key a≠key b) :
    Distinct key (l++[b]) := by
  unfold Distinct at h ⊢
  rw [map_append,nodup_append]
  refine ⟨h,by simp,?_⟩
  rintro x hx y hy
  obtain ⟨a,ha,rfl⟩ := mem_map.mp hx
  rw [mem_singleton.mp hy]
  exact hb a ha

variable [DecidableEq κ]

def lookup (key : α → κ) (l : List α) (k : κ) : Option α := l.find? fun a => key a=k

theorem lookup_cons (a : α) (l : List α) (k : κ) :
    lookup key (a::l) k = if key a=k then some a else lookup key l k := by
  by_cases h : key a=k <;> simp [lookup,h]

theorem lookup_eq_none {k : κ} : lookup key l k=none ↔ ∀ a∈l, key a≠k := by
  simp [lookup]

theorem lookup_append (l m : List α) (k : κ) :
    lookup key (l++m) k=(lookup key l k).or (lookup key m k) := by
  simp [lookup]

theorem mem_of_lookup {k : κ} (h : lookup key l k=some a) : a∈l ∧ key a=k :=
  ⟨mem_of_find?_eq_some h,by simpa using find?_some h⟩

theorem lookup_eq_some (h : Distinct key l) {k : κ} :
    lookup key l k=some a ↔ a∈l ∧ key a=k := by
  refine ⟨mem_of_lookup,?_⟩
  rintro ⟨hmem,rfl⟩
  induction l with
  | nil => cases hmem
  | cons b l ih =>
    obtain ⟨hb,hl⟩ := nodup_cons.mp h
    rw [lookup_cons]
    rcases mem_cons.mp hmem with rfl | hmem
    · rw [if_pos rfl]
    · have hne : key b≠key a := fun he => hb (he ▸ mem_map_of_mem hmem)
      rw [if_neg hne]
      exact ih hl hmem

theorem lookup_middle_of_ne {k : κ} (h : key a≠k) :
    lookup key (pre++a::post) k=lookup key (pre++post) k := by
  rw [lookup_append,lookup_append,lookup_cons,if_neg h]

theorem lookup_remove (h : Distinct key (pre++a::post)) : lookup key (pre++post) =
      update (lookup key (pre++a::post)) (key a) none := by
  funext k
  by_cases hk : k=key a
  · rw [hk,update_self]
    exact lookup_eq_none.mpr fun b hb => h.ne_of_mem hb
  · rw [update_of_ne hk,lookup_middle_of_ne (Ne.symm hk)]

theorem lookup_insert (hpre : ∀ b∈pre, key b≠key a) : lookup key (pre++a::post) =
      update (lookup key (pre++post)) (key a) (some a) := by
  funext k
  by_cases hk : k=key a
  · rw [hk,update_self,lookup_append,lookup_eq_none.mpr hpre,lookup_cons,if_pos rfl]
    rfl
  · rw [update_of_ne hk,lookup_middle_of_ne (Ne.symm hk)]

theorem lookup_replace {b : α} (h : Distinct key (pre++a::post)) (hk : key b=key a) :
    lookup key (pre++b::post) =
      update (lookup key (pre++a::post)) (key a) (some b) := by
  have hpre : ∀ c∈pre, key c≠key a := fun c hc => h.ne_of_mem (mem_append_left _ hc)
  rw [lookup_insert hpre,update_idem,lookup_insert (hk ▸ hpre),hk]

theorem lookup_append_new {b : α} (hb : ∀ a∈l, key a≠key b) :
    lookup key (l++[b])=update (lookup key l) (key b) (some b) := by
  rw [lookup_insert hb,append_nil]

theorem lookup_filterMap {f : α → Option α} (hf : ∀ a b, f a=some b → key b=key a)
    (h : Distinct key l) (k : κ) : lookup key (l.filterMap f) k=(lookup key l k).bind f := by
  induction l with
  | nil => rfl
  | cons a l ih =>
    obtain ⟨ha,hl⟩ := nodup_cons.mp h
    rw [filterMap_cons,lookup_cons]
    by_cases hk : key a=k
    · -- no later item has the key
      have hnone : lookup key l k=none :=
        lookup_eq_none.mpr fun b hb he => ha (hk.trans he.symm ▸ mem_map_of_mem hb)
      cases hfa : f a with
      | none => simp [ih hl,hnone,hk,hfa]
      | some b => simp [lookup_cons,(hf a b hfa).trans hk,hk,hfa]
    · cases hfa : f a with
      | none => simp [ih hl,hk]
      | some b => simp [lookup_cons,ih hl,hk,hf a b hfa]

end Pmon.KeyedList
