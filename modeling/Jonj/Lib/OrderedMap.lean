import Mathlib.Tactic

/-!
# Finite maps in order of first insertion

Storing under a key that is present replaces the value in place; a new key goes
to the end. The keys are distinct by construction.
-/
namespace Jonj

open List

structure OrderedMap (K V : Type) where
  entries : List (K × V)
  nodup : (entries.map Prod.fst).Nodup

namespace OrderedMap

variable {K V : Type}

variable {m : OrderedMap K V}

@[ext] theorem ext {n : OrderedMap K V} (same : m.entries = n.entries) : m = n := by
  cases m
  cases n
  simpa using same

def empty : OrderedMap K V := ⟨[], nodup_nil⟩

def keys (m : OrderedMap K V) : List K := m.entries.map Prod.fst

def size (m : OrderedMap K V) : Nat := m.entries.length

variable [DecidableEq K]

def lookup (m : OrderedMap K V) (k : K) : Option V :=
  (m.entries.find? fun e => decide (e.1 = k)).map Prod.snd

def contains (m : OrderedMap K V) (k : K) : Bool := decide (k ∈ m.keys)

def replaceEntries (k : K) (v : V) (entries : List (K × V)) : List (K × V) :=
  entries.map fun e => if e.1 = k then (e.1, v) else e

theorem replaceEntries_keys (k : K) (v : V) (entries : List (K × V)) :
    (replaceEntries k v entries).map Prod.fst = entries.map Prod.fst := by
  simp only [replaceEntries, map_map]
  refine map_congr_left fun e _ => ?_
  simp only [Function.comp_apply]
  split <;> rfl

/-- Store a value: in place when the key is present, at the end otherwise. -/
def put (m : OrderedMap K V) (k : K) (v : V) : OrderedMap K V :=
  if present : k ∈ m.keys then
    ⟨replaceEntries k v m.entries, by rw [replaceEntries_keys]; exact m.nodup⟩
  else
    ⟨m.entries ++ [(k, v)], by
      rw [map_append, nodup_append]
      refine ⟨m.nodup, by simp, ?_⟩
      intro a old b new same
      simp only [map_cons, map_nil, mem_singleton] at new
      exact present (by rw [← new, ← same]; exact old)⟩

def erase (m : OrderedMap K V) (k : K) : OrderedMap K V :=
  ⟨m.entries.filter fun e => decide (e.1 ≠ k), by
    refine m.nodup.sublist ?_
    exact (filter_sublist (l := m.entries)).map Prod.fst⟩

theorem put_present {k : K} {v : V} (present : k ∈ m.keys) :
    (m.put k v).entries = replaceEntries k v m.entries := by
  simp [put, present]

theorem put_absent {k : K} {v : V} (absent : k ∉ m.keys) :
    (m.put k v).entries = m.entries ++ [(k, v)] := by
  simp [put, absent]

/-- A present key keeps its place. -/
theorem keys_put (m : OrderedMap K V) (k : K) (v : V) :
    (m.put k v).keys = if k ∈ m.keys then m.keys else m.keys ++ [k] := by
  by_cases present : k ∈ m.keys
  · rw [if_pos present, keys, put_present present, replaceEntries_keys, keys]
  · rw [if_neg present, keys, put_absent present, map_append]
    rfl

theorem put_put (m : OrderedMap K V) (k : K) (v w : V) : (m.put k v).put k w = m.put k w := by
  have stored : k ∈ (m.put k v).keys := by
    rw [keys_put]
    split
    next present => exact present
    · simp
  ext1
  rw [put_present stored]
  by_cases present : k ∈ m.keys
  · rw [put_present present, put_present present, replaceEntries, replaceEntries,
      map_map]
    refine map_congr_left fun e _ => ?_
    by_cases same : e.1 = k <;> simp [same]
  rw [put_absent present, put_absent present, replaceEntries, map_append]
  congr 1
  · rw [map_congr_left (g := id), map_id]
    intro e member
    have other : e.1 ≠ k := fun same => present (same ▸ mem_map_of_mem member)
    simp [other]
  · simp

theorem lookup_isSome (m : OrderedMap K V) (k : K) : (m.lookup k).isSome = m.contains k := by
  rw [Bool.eq_iff_iff]
  simp only [lookup, Option.isSome_map, find?_isSome, contains, keys, decide_eq_true_eq,
    mem_map]

/-- The keys are distinct, so that the first entry is the only one. -/
theorem lookup_eq_some_iff {k : K} {v : V} : m.lookup k = some v ↔ (k, v) ∈ m.entries := by
  rw [lookup, Option.map_eq_some_iff]
  constructor
  · rintro ⟨e, found, rfl⟩
    have isKey := find?_some found
    simp only [decide_eq_true_eq] at isKey
    rw [← isKey]
    exact mem_of_find?_eq_some found
  intro member
  have present : (m.entries.find? fun e => decide (e.1 = k)).isSome := by
    rw [find?_isSome]
    exact ⟨(k, v), member, by simp⟩
  obtain ⟨e, found⟩ := Option.isSome_iff_exists.mp present
  have isKey := find?_some found
  simp only [decide_eq_true_eq] at isKey
  have same : e = (k, v) := inj_on_of_nodup_map m.nodup (mem_of_find?_eq_some found) member isKey
  exact ⟨e, found, by rw [same]⟩

theorem lookup_eq_none_iff {k : K} : m.lookup k = none ↔ k ∉ m.keys := by
  rw [← not_iff_not, ← ne_eq, Option.ne_none_iff_isSome, lookup_isSome, contains,
    decide_eq_true_eq, not_not]

theorem mem_put {k k' : K} {v v' : V} :
    (k', v') ∈ (m.put k v).entries ↔ (k' = k ∧ v' = v) ∨ (k' ≠ k ∧ (k', v') ∈ m.entries) := by
  by_cases present : k ∈ m.keys
  · rw [put_present present, replaceEntries, mem_map]
    constructor
    · rintro ⟨e, member, eq⟩
      split at eq
      next isKey =>
        obtain ⟨rfl, rfl⟩ := Prod.mk.inj eq
        exact .inl ⟨isKey, rfl⟩
      next notKey =>
        subst eq
        exact .inr ⟨notKey, member⟩
    · rintro (⟨rfl, rfl⟩ | ⟨notKey, member⟩)
      · obtain ⟨e, member, isKey⟩ := mem_map.mp present
        exact ⟨e, member, by rw [if_pos isKey, isKey]⟩
      · exact ⟨_, member, if_neg notKey⟩
  · rw [put_absent present, mem_append, mem_singleton, Prod.mk.injEq]
    constructor
    · rintro (member | new)
      · refine .inr ⟨?_, member⟩
        rintro rfl
        exact present (mem_map_of_mem member)
      · exact .inl new
    · rintro (new | ⟨-, member⟩)
      · exact .inr new
      · exact .inl member

theorem lookup_put (m : OrderedMap K V) (k k' : K) (v : V) :
    (m.put k v).lookup k' = if k' = k then some v else m.lookup k' := by
  ext v'
  rw [lookup_eq_some_iff, mem_put]
  split
  next isKey => simp [isKey, eq_comm]
  next notKey => simp [notKey, lookup_eq_some_iff]

theorem lookup_erase (m : OrderedMap K V) (k k' : K) :
    (m.erase k).lookup k' = if k' = k then none else m.lookup k' := by
  ext v'
  rw [lookup_eq_some_iff, erase]
  split
  next isKey => simp [isKey]
  next notKey => simp [notKey, lookup_eq_some_iff]

def putAll (m : OrderedMap K V) (entries : List (K × V)) : OrderedMap K V :=
  entries.foldl (fun m e => m.put e.1 e.2) m

theorem putAll_append (m : OrderedMap K V) (first second : List (K × V)) :
    m.putAll (first ++ second) = (m.putAll first).putAll second := by
  rw [putAll, putAll, putAll, foldl_append]

/-- The last of the entries with the key counts. -/
theorem lookup_putAll (m : OrderedMap K V) (entries : List (K × V)) (k : K) :
    (m.putAll entries).lookup k =
      (((entries.filter fun e => decide (e.1 = k)).getLast?).map Prod.snd).or (m.lookup k) := by
  induction entries using reverseRecOn with
  | nil => rfl
  | append_singleton entries e ih =>
    rw [putAll_append, putAll, foldl_cons, foldl_nil, lookup_put, ih]
    by_cases isKey : e.1 = k
    · simp [isKey]
    · simp [isKey, Ne.symm isKey]

theorem mem_keys_putAll (m : OrderedMap K V) (entries : List (K × V)) (k : K) :
    k ∈ (m.putAll entries).keys ↔ k ∈ m.keys ∨ k ∈ entries.map Prod.fst := by
  induction entries generalizing m with
  | nil => simp [putAll]
  | cons e rest ih =>
    have step := ih (m.put e.1 e.2)
    rw [putAll] at step ⊢
    rw [foldl_cons, step, keys_put, map_cons, mem_cons]
    split
    next present =>
      constructor
      · tauto
      rintro (old | rfl | new)
      · exact .inl old
      · exact .inl present
      · exact .inr new
    · rw [mem_append, mem_singleton]
      tauto

end OrderedMap

end Jonj
