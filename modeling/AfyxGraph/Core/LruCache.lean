import AfyxGraph.Core.Entries
import AfyxGraph.Core.Places

/-! # A cache bounded by least recent use

The entries stand in the order of the map: what is read or written moves to the end, and a write
into a full cache drops the first entry. Nothing is ever changed in place, so a cache holds only
what was written into it.
-/

namespace AfyxGraph.Core

universe u v

structure LruCache (κ : Type u) (β : Type v) where
  max : Nat
  store : List (κ × β)
  positive : 0 < max

namespace LruCache

variable {κ : Type u} {β : Type v}

def empty (max : Nat) (positive : 0 < max) : LruCache κ β := ⟨max, [], positive⟩

def clear (cache : LruCache κ β) : LruCache κ β := { cache with store := [] }

section Operations

variable [DecidableEq κ]

def get (cache : LruCache κ β) (key : κ) : Option β × LruCache κ β :=
  match cache.store.lookup key with
  | none => (none, cache)
  | some value =>
      (some value, { cache with store := removeEntry cache.store key ++ [(key, value)] })

def set (cache : LruCache κ β) (key : κ) (value : β) : LruCache κ β :=
  let kept :=
    if key ∈ cache.store.map Prod.fst then removeEntry cache.store key
    else if cache.max ≤ cache.store.length then cache.store.tail
    else cache.store
  { cache with store := kept ++ [(key, value)] }

/-- What is not in the cache is computed and kept. -/
def readThrough (cache : LruCache κ β) (key : κ) (compute : β) : β × LruCache κ β :=
  match cache.get key with
  | (some value, cache) => (value, cache)
  | (none, cache) => (compute, cache.set key compute)

end Operations

/-! ## What is in the cache -/

def Holds (P : κ → β → Prop) (cache : LruCache κ β) : Prop := ∀ e ∈ cache.store, P e.1 e.2

variable {P : κ → β → Prop} {cache : LruCache κ β} {key : κ} {value : β}

theorem holds_empty (P : κ → β → Prop) (max : Nat) (positive : 0 < max) :
    (empty max positive : LruCache κ β).Holds P := fun _ he => absurd he List.not_mem_nil

theorem holds_clear (P : κ → β → Prop) (cache : LruCache κ β) : cache.clear.Holds P :=
  fun _ he => absurd he List.not_mem_nil

section Operations

variable [DecidableEq κ]

theorem Holds.get (h : cache.Holds P) (key : κ) :
    (∀ value, (cache.get key).1 = some value → P key value) ∧ (cache.get key).2.Holds P := by
  rw [LruCache.get]
  cases hlook : cache.store.lookup key with
  | none => exact ⟨fun _ hv => (nomatch hv), h⟩
  | some found =>
      have hfound : P key found := h _ (mem_of_lookup hlook)
      constructor
      · intro value hv
        obtain rfl := Option.some.inj hv
        exact hfound
      · intro e he
        rcases List.mem_append.mp he with he | he
        · exact h e (List.mem_of_mem_filter he)
        · obtain rfl := List.mem_singleton.mp he
          exact hfound

theorem Holds.set (h : cache.Holds P) (hvalue : P key value) : (cache.set key value).Holds P := by
  intro e he
  rcases List.mem_append.mp he with he | he
  · apply h e
    split at he
    · exact List.mem_of_mem_filter he
    · split at he
      · exact List.mem_of_mem_tail he
      · exact he
  · obtain rfl := List.mem_singleton.mp he
    exact hvalue

/-- What is read through a cache is an earlier answer or the new one. -/
theorem Holds.readThrough (h : cache.Holds P) (hcompute : P key value) :
    P key (cache.readThrough key value).1 ∧ (cache.readThrough key value).2.Holds P := by
  obtain ⟨hsome, hholds⟩ := h.get key
  rw [LruCache.readThrough]
  cases hget : cache.get key with
  | mk found after =>
      rw [hget] at hsome hholds
      cases found with
      | none => exact ⟨hcompute, hholds.set hcompute⟩
      | some found => exact ⟨hsome found rfl, hholds⟩

theorem lookup_last {entries : List (κ × β)} (h : entries.lookup key = none) (value : β) :
    (entries ++ [(key, value)]).lookup key = some value := by
  rw [List.lookup_append, h]
  simp

/-- What was read or kept is there at the next reading. -/
theorem get_set_self (cache : LruCache κ β) (key : κ) (value : β) :
    ((cache.set key value).get key).1 = some value := by
  have hkept : (cache.set key value).store.lookup key = some value := by
    apply lookup_last
    split
    · exact lookup_removeEntry_self cache.store key
    · rename_i hkey
      have habsent : ∀ e ∈ cache.store, key ≠ e.1 := by
        rintro e he rfl
        exact hkey (List.mem_map_of_mem he)
      rw [List.lookup_eq_none_iff]
      split
      · exact fun e he => by simpa using habsent e (List.mem_of_mem_tail he)
      · exact fun e he => by simpa using habsent e he
  rw [get, hkept]

theorem get_get_self {cache after : LruCache κ β} (h : cache.get key = (some value, after)) :
    (after.get key).1 = some value := by
  rw [get] at h
  cases hlook : cache.store.lookup key with
  | none =>
      rw [hlook] at h
      cases h
  | some found =>
      rw [hlook] at h
      obtain ⟨hvalue, rfl⟩ := Prod.mk.inj h
      obtain rfl := Option.some.inj hvalue
      have hmoved := lookup_last (lookup_removeEntry_self cache.store key) found
      simp only [get, hmoved]

end Operations

end LruCache

end AfyxGraph.Core
