import Mathlib

/-!
# BTreeMap — ordered maps as key-sorted association lists

`std::collections::BTreeMap<K, V>` is modelled by its entries in iteration order, which is
increasing key order; the structure carries that order as a field, so no map with a repeated
key or an out-of-order entry can be built.  `BTreeSet<K>` is, as in `std`, a map to `()`.

The operations are those the server calls: `get`, `insert` (which returns the value it
replaced), `remove` (which returns the value it removed), `len`, and `get_mut` followed by an
update in place (`modify`).  Each has its lemmas here, so that the tube and the server never
unfold them.
-/

namespace Beanstalk
namespace Types

/-- `BTreeMap<K, V>`: its entries in iteration order, keys strictly increasing. -/
structure BTreeMap (K V : Type) [LinearOrder K] where
  entries : List (K × V)
  sorted : entries.Pairwise fun a b => a.1 < b.1

/-- `BTreeSet<K>`, a map to `()`. -/
abbrev BTreeSet (K : Type) [LinearOrder K] := BTreeMap K Unit

namespace BTreeMap

variable {K V : Type} [LinearOrder K]

/-- The value bound to a key in a list of entries: the first entry with that key. -/
def lookup (k : K) : List (K × V) → Option V
  | [] => none
  | e :: l => if e.1 = k then some e.2 else lookup k l

theorem sorted_insert {l : List (K × V)} (hl : l.Pairwise fun a b => a.1 < b.1) (k : K) (v : V) :
    (l.filter (fun e => e.1 < k) ++ (k, v) :: l.filter (fun e => k < e.1)).Pairwise
      fun a b => a.1 < b.1 := by
  refine List.pairwise_append.mpr ⟨hl.sublist (List.filter_sublist _),
    List.pairwise_cons.mpr ⟨fun b hb => by simpa using (List.mem_filter.mp hb).2,
      hl.sublist (List.filter_sublist _)⟩, fun a ha b hb => ?_⟩
  have hak : a.1 < k := by simpa using (List.mem_filter.mp ha).2
  rcases List.mem_cons.mp hb with rfl | hb
  · exact hak
  · exact hak.trans (by simpa using (List.mem_filter.mp hb).2)

/-- `BTreeMap::new()`. -/
def empty : BTreeMap K V := ⟨[], .nil⟩

/-- `get`. -/
def get? (m : BTreeMap K V) (k : K) : Option V := lookup k m.entries

/-- `len`. -/
def len (m : BTreeMap K V) : Nat := m.entries.length

/-- `insert`: the value the key was bound to, and the map with the key bound to `v`. -/
def insert (m : BTreeMap K V) (k : K) (v : V) : Option V × BTreeMap K V :=
  (m.get? k, ⟨m.entries.filter (fun e => e.1 < k) ++ (k, v) :: m.entries.filter (fun e => k < e.1),
    sorted_insert m.sorted k v⟩)

/-- `remove`: the value the key was bound to, and the map without the key. -/
def remove (m : BTreeMap K V) (k : K) : Option V × BTreeMap K V :=
  (m.get? k, ⟨m.entries.filter (fun e => e.1 ≠ k), m.sorted.sublist (List.filter_sublist _)⟩)

/-- `get_mut(k)` and an update in place of the value found there. -/
def modify (m : BTreeMap K V) (k : K) (f : V → V) : BTreeMap K V :=
  ⟨m.entries.map (fun e => if e.1 = k then (e.1, f e.2) else e),
    List.pairwise_map.mpr (m.sorted.imp fun {a b} h => by split_ifs <;> exact h)⟩

/-! ## Lookup -/

variable {m : BTreeMap K V} {k k' : K} {v : V} {f : V → V}

/-- Two maps with the same entries are the same map. -/
theorem ext {m' : BTreeMap K V} (h : m.entries = m'.entries) : m = m' := by
  cases m; cases m'; cases h; rfl

theorem lookup_eq_none_iff {l : List (K × V)} : lookup k l = none ↔ ∀ e ∈ l, e.1 ≠ k := by
  induction l with
  | nil => simp only [lookup, List.not_mem_nil, false_implies, implies_true]
  | cons e l ih =>
    by_cases h : e.1 = k <;> simp only [lookup, h, ↓reduceIte, reduceCtorEq, ih, List.forall_mem_cons,
      ne_eq, not_true_eq_false, not_false_eq_true, false_and, true_and]

theorem lookup_eq_some_iff {l : List (K × V)} (hl : l.Pairwise fun a b => a.1 < b.1) :
    lookup k l = some v ↔ (k, v) ∈ l := by
  induction l with
  | nil => simp [lookup]
  | cons e l ih =>
    obtain ⟨hlt, hl⟩ := List.pairwise_cons.mp hl
    by_cases h : e.1 = k
    · subst h
      have : (e.1, v) ∉ l := fun hv => lt_irrefl _ (hlt (e.1, v) hv)
      simp [lookup, this, Prod.ext_iff, eq_comm]
    · simp [lookup, h, ih hl, Prod.ext_iff, Ne.symm h]

theorem get?_eq_some_iff : m.get? k = some v ↔ (k, v) ∈ m.entries :=
  lookup_eq_some_iff m.sorted

theorem get?_eq_none_iff : m.get? k = none ↔ ∀ e ∈ m.entries, e.1 ≠ k :=
  lookup_eq_none_iff

@[simp] theorem empty_entries : (empty : BTreeMap K V).entries = [] := rfl

@[simp] theorem len_empty : (empty : BTreeMap K V).len = 0 := rfl

/-! ## Insert -/

@[simp] theorem insert_fst : (m.insert k v).1 = m.get? k := rfl

/-- A key above every key of the map is inserted at the end, and was not bound before. -/
theorem insert_of_lt (h : ∀ e ∈ m.entries, e.1 < k) :
    m.insert k v = (none, ⟨m.entries ++ [(k, v)], List.pairwise_append.mpr ⟨m.sorted,
      List.pairwise_singleton _ _, fun a ha _ hb => List.mem_singleton.mp hb ▸ h a ha⟩⟩) := by
  have hlt : m.entries.filter (fun e => e.1 < k) = m.entries :=
    List.filter_eq_self.mpr fun e he => by simpa using h e he
  have hgt : m.entries.filter (fun e => k < e.1) = [] :=
    List.filter_eq_nil_iff.mpr fun e he => by simpa using (h e he).le
  have hnone : m.get? k = none := get?_eq_none_iff.mpr fun e he => (h e he).ne
  simp only [insert, hlt, hgt, hnone]

/-- Inserting an unbound key adds one entry. -/
theorem len_insert_of_get?_eq_none (h : m.get? k = none) : (m.insert k v).2.len = m.len + 1 := by
  have hne := get?_eq_none_iff.mp h
  have hsplit : ∀ e ∈ m.entries, ¬(e.1 < k) ↔ k < e.1 := fun e he =>
    ⟨fun hn => lt_of_le_of_ne (not_lt.mp hn) (hne e he).symm, fun h' => not_lt.mpr h'.le⟩
  have hfilter : m.entries.filter (fun e => !decide (e.1 < k)) =
      m.entries.filter (fun e => decide (k < e.1)) :=
    List.filter_congr fun e he => by rw [← decide_not]; exact decide_eq_decide.mpr (hsplit e he)
  have hlen := @List.length_eq_length_filter_add _ m.entries fun e => decide (e.1 < k)
  rw [hfilter] at hlen
  simp only [insert, len, List.length_append, List.length_cons]
  omega

/-! ## Remove -/

/-- Removing a key just inserted above every other key gives the map back. -/
theorem remove_insert_of_lt (h : ∀ e ∈ m.entries, e.1 < k) : ((m.insert k v).2.remove k).2 = m := by
  rw [insert_of_lt h]
  refine ext ?_
  simp only [remove, List.filter_append, List.filter_singleton, ne_eq, not_true_eq_false,
    decide_False, cond_false, List.append_nil]
  exact List.filter_eq_self.mpr fun e he => by simpa using (h e he).ne

@[simp] theorem remove_fst : (m.remove k).1 = m.get? k := rfl

theorem mem_remove {e : K × V} : e ∈ (m.remove k).2.entries ↔ e ∈ m.entries ∧ e.1 ≠ k := by
  simp [remove]

theorem lookup_remove {l : List (K × V)} :
    lookup k' (l.filter fun e => e.1 ≠ k) = if k' = k then none else lookup k' l := by
  induction l with
  | nil => split_ifs <;> rfl
  | cons e l ih =>
    by_cases he : e.1 = k
    · subst he
      by_cases hk : e.1 = k' <;> simp_all [lookup]
    · by_cases hk : e.1 = k'
      · subst hk; simp [lookup, he, Ne.symm he]
      · simpa [lookup, he, hk] using ih

@[simp] theorem get?_remove : (m.remove k).2.get? k' = if k' = k then none else m.get? k' :=
  lookup_remove

/-- Removing a bound key removes one entry. -/
theorem len_remove_of_get?_eq_some (h : m.get? k = some v) : (m.remove k).2.len + 1 = m.len := by
  obtain ⟨l₁, l₂, hl⟩ := List.append_of_mem (get?_eq_some_iff.mp h)
  have hsorted := m.sorted
  rw [hl, List.pairwise_append, List.pairwise_cons] at hsorted
  have h₁ : ∀ e ∈ l₁, e.1 ≠ k := fun e he => (hsorted.2.2 e he _ (List.mem_cons_self _ _)).ne
  have h₂ : ∀ e ∈ l₂, e.1 ≠ k := fun e he => (hsorted.2.1.1 e he).ne'
  simp only [remove, len, hl, List.filter_append, List.filter_cons, ne_eq, not_true_eq_false,
    decide_False, Bool.false_eq_true, ↓reduceIte, List.length_append, List.length_cons]
  rw [List.filter_eq_self.mpr fun e he => by simpa using h₁ e he,
    List.filter_eq_self.mpr fun e he => by simpa using h₂ e he]
  omega

/-! ## Update in place -/

theorem get?_modify : (m.modify k f).get? k' = if k' = k then (m.get? k).map f else m.get? k' := by
  simp only [get?, modify]
  induction m.entries with
  | nil => split_ifs <;> rfl
  | cons e l ih =>
    by_cases hk : k' = e.1
    · subst hk
      by_cases he : e.1 = k <;> simp [lookup, he]
    · by_cases he : e.1 = k
      · subst he; simpa [lookup, hk, Ne.symm hk] using ih
      · simpa [lookup, he, Ne.symm hk] using ih

end BTreeMap

/-- `BTreeSet::insert`: whether the key was new, and the set with the key. -/
def BTreeSet.insert {K : Type} [LinearOrder K] (s : BTreeSet K) (k : K) : Bool × BTreeSet K :=
  ((BTreeMap.insert s k ()).1.isNone, (BTreeMap.insert s k ()).2)

end Types
end Beanstalk
