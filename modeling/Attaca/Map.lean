import Mathlib
/-!
# Map — `HashMap` and `BTreeMap`, as the tree and the marshaller use them

A `HashMap` is its entries in iteration order, each key once (`nodup_keys`).  The order is the
table's, and nothing proved about the tree depends on it: every theorem quantifies over the list.
A `BTreeMap` is its entries sorted by key (`sorted`), so two maps holding the same entries are the
same value (`BTreeMap.eq_of_perm`): the subtree object the marshaller hashes does not depend on the
order in which its children were inserted (`BTreeMap.ofList_perm`).
-/
namespace Attaca

/-- `std::collections::HashMap`: its entries in iteration order, each key once. -/
structure HashMap (κ ν : Type) where
  entries : List (κ × ν)
  nodup_keys : (entries.map Prod.fst).Nodup

namespace HashMap

variable {κ ν ν' : Type} [DecidableEq κ]

def empty : HashMap κ ν := ⟨[], List.nodup_nil⟩

def singleton (k : κ) (v : ν) : HashMap κ ν := ⟨[(k, v)], List.nodup_singleton k⟩

/-- `HashMap::get`. -/
def get (m : HashMap κ ν) (k : κ) : Option ν := (m.entries.find? (·.1 = k)).map Prod.snd

/-- `HashMap::insert`: the key's old entry goes, the new one is added. -/
def insert (m : HashMap κ ν) (k : κ) (v : ν) : HashMap κ ν where
  entries := m.entries.filter (·.1 ≠ k) ++ [(k, v)]
  nodup_keys := by
    rw [List.map_append, List.nodup_append]
    refine ⟨m.nodup_keys.sublist ((List.filter_sublist _).map _), List.nodup_singleton _, ?_⟩
    intro x hx hk
    obtain rfl : x = k := by simpa using hk
    obtain ⟨y, hy, rfl⟩ := List.mem_map.1 hx
    simpa using (List.mem_filter.1 hy).2

/-- `values_mut().for_each(f)`: the same keys, in the same order. -/
def mapValues (m : HashMap κ ν) (f : ν → ν') : HashMap κ ν' where
  entries := m.entries.map fun x => (x.1, f x.2)
  nodup_keys := by simpa [Function.comp_def] using m.nodup_keys

theorem find?_key_eq_some {k : κ} {v : ν} : ∀ {l : List (κ × ν)}, (l.map Prod.fst).Nodup →
    ((l.find? (·.1 = k)).map Prod.snd = some v ↔ (k, v) ∈ l)
  | [], _ => by simp
  | (k', v') :: l, h => by
    rw [List.map_cons, List.nodup_cons] at h
    by_cases hk : k' = k
    · subst hk
      have : (k', v) ∉ l := fun hm => h.1 (List.mem_map.2 ⟨_, hm, rfl⟩)
      simp [this, eq_comm]
    · simp [hk, find?_key_eq_some h.2, Ne.symm hk]

theorem get_eq_some_iff {m : HashMap κ ν} {k : κ} {v : ν} : m.get k = some v ↔ (k, v) ∈ m.entries :=
  find?_key_eq_some m.nodup_keys

theorem get_eq_none_iff {m : HashMap κ ν} {k : κ} : m.get k = none ↔ k ∉ m.entries.map Prod.fst := by
  simp only [get, Option.map_eq_none', List.find?_eq_none, decide_eq_true_eq, List.mem_map, not_exists,
    not_and]

theorem mem_entries_unique {m : HashMap κ ν} {k : κ} {v v' : ν} (h : (k, v) ∈ m.entries)
    (h' : (k, v') ∈ m.entries) : v = v' := by
  rw [← get_eq_some_iff] at h h'; simpa [h] using h'

@[simp] theorem mem_insert {m : HashMap κ ν} {k : κ} {v : ν} {x : κ × ν} :
    x ∈ (m.insert k v).entries ↔ x = (k, v) ∨ (x ∈ m.entries ∧ x.1 ≠ k) := by
  simp [insert, or_comm]

@[simp] theorem get_insert (m : HashMap κ ν) (k k' : κ) (v : ν) :
    (m.insert k v).get k' = if k' = k then some v else m.get k' := by
  split
  · subst k'; exact get_eq_some_iff.2 (by simp)
  · rename_i hk
    cases h : m.get k' with
    | none => simpa [get_eq_none_iff, insert, hk] using h
    | some w => exact get_eq_some_iff.2 (mem_insert.2 (.inr ⟨get_eq_some_iff.1 h, hk⟩))

@[simp] theorem get_singleton (k k' : κ) (v : ν) :
    (singleton k v).get k' = if k' = k then some v else none := by
  by_cases h : k' = k <;> simp [singleton, get, h, eq_comm]

@[simp] theorem get_mapValues (m : HashMap κ ν) (f : ν → ν') (k : κ) :
    (m.mapValues f).get k = (m.get k).map f := by
  simp only [get, mapValues, List.find?_map, Option.map_map]; rfl

end HashMap

/-- `std::collections::BTreeMap`: its entries sorted by key. -/
structure BTreeMap (κ ν : Type) [LinearOrder κ] where
  entries : List (κ × ν)
  sorted : entries.Sorted (·.1 < ·.1)

namespace BTreeMap

variable {κ ν : Type} [LinearOrder κ]

def empty : BTreeMap κ ν := ⟨[], List.sorted_nil⟩

/-- The entries of `BTreeMap::insert`: `(k, v)` at its place, replacing `k`'s old entry. -/
def insertEntry (k : κ) (v : ν) : List (κ × ν) → List (κ × ν)
  | [] => [(k, v)]
  | (k', v') :: rest =>
    if k < k' then (k, v) :: (k', v') :: rest
    else if k = k' then (k, v) :: rest
    else (k', v') :: insertEntry k v rest

theorem mem_insertEntry {k : κ} {v : ν} {x : κ × ν} : ∀ {l : List (κ × ν)}, l.Sorted (·.1 < ·.1) →
    (x ∈ insertEntry k v l ↔ x = (k, v) ∨ (x ∈ l ∧ x.1 ≠ k))
  | [], _ => by simp [insertEntry]
  | (k', v') :: rest, h => by
    rw [List.sorted_cons] at h
    unfold insertEntry
    split
    · rename_i hlt
      have hne : ∀ y ∈ (k', v') :: rest, y.1 ≠ k := by
        intro y hy
        rcases List.mem_cons.1 hy with rfl | hy
        exacts [hlt.ne', (lt_trans hlt (h.1 y hy)).ne']
      rw [List.mem_cons]
      exact ⟨fun hx => hx.imp_right fun hx => ⟨hx, hne x hx⟩, fun hx => hx.imp_right And.left⟩
    · split
      · rename_i heq
        subst heq
        have hne : ∀ y ∈ rest, y.1 ≠ k := fun y hy => (h.1 y hy).ne'
        rw [List.mem_cons, List.mem_cons]
        constructor
        · rintro (hx | hx)
          exacts [.inl hx, .inr ⟨.inr hx, hne x hx⟩]
        · rintro (hx | ⟨hx | hx, hxk⟩)
          · exact .inl hx
          · exact absurd (by rw [hx]) hxk
          · exact .inr hx
      · rename_i hne
        rw [List.mem_cons, mem_insertEntry h.2, List.mem_cons]
        constructor
        · rintro (rfl | hx | ⟨hx, hxk⟩)
          · exact .inr ⟨.inl rfl, Ne.symm hne⟩
          · exact .inl hx
          · exact .inr ⟨.inr hx, hxk⟩
        · rintro (hx | ⟨rfl | hx, hxk⟩)
          · exact .inr (.inl hx)
          · exact .inl rfl
          · exact .inr (.inr ⟨hx, hxk⟩)

theorem sorted_insertEntry {k : κ} {v : ν} : ∀ {l : List (κ × ν)}, l.Sorted (·.1 < ·.1) →
    (insertEntry k v l).Sorted (·.1 < ·.1)
  | [], _ => List.sorted_singleton _
  | (k', v') :: rest, h => by
    have h' := h
    rw [List.sorted_cons] at h
    unfold insertEntry
    split
    · rename_i hlt
      refine List.sorted_cons.2 ⟨fun y hy => ?_, h'⟩
      rcases List.mem_cons.1 hy with rfl | hy
      exacts [hlt, lt_trans hlt (h.1 y hy)]
    · split
      · subst_vars; exact List.sorted_cons.2 ⟨h.1, h.2⟩
      · rename_i hlt hne
        refine List.sorted_cons.2 ⟨fun y hy => ?_, sorted_insertEntry h.2⟩
        rcases (mem_insertEntry h.2).1 hy with rfl | ⟨hy, -⟩
        exacts [lt_of_le_of_ne (not_lt.1 hlt) (Ne.symm hne), h.1 y hy]

/-- `BTreeMap::insert`. -/
def insert (m : BTreeMap κ ν) (k : κ) (v : ν) : BTreeMap κ ν :=
  ⟨insertEntry k v m.entries, sorted_insertEntry m.sorted⟩

/-- The map built by inserting the pairs of `l` in order (`collect`, or a `fold` of `insert`). -/
def ofList (l : List (κ × ν)) : BTreeMap κ ν := l.foldl (fun m x => m.insert x.1 x.2) empty

theorem ofList_insert (l : List (κ × ν)) (k : κ) (v : ν) : (ofList l).insert k v = ofList (l ++ [(k, v)]) := by
  simp [ofList]

theorem keys_nodup (m : BTreeMap κ ν) : (m.entries.map Prod.fst).Nodup :=
  (List.pairwise_map.2 m.sorted).nodup

/-- **A sorted map is determined by its entries.** -/
theorem eq_of_perm {m m' : BTreeMap κ ν} (h : m.entries.Perm m'.entries) : m = m' := by
  have : IsAntisymm (κ × ν) (·.1 < ·.1) := ⟨fun a b h1 h2 => absurd (h1.trans h2) (lt_irrefl _)⟩
  cases m; cases m'
  congr
  exact List.eq_of_perm_of_sorted h ‹_› ‹_›

theorem insert_perm {m : BTreeMap κ ν} {k : κ} (v : ν) (hk : k ∉ m.entries.map Prod.fst) :
    (m.insert k v).entries.Perm ((k, v) :: m.entries) := by
  have hnd : ((k, v) :: m.entries).Nodup :=
    List.nodup_cons.2 ⟨fun h => hk (List.mem_map.2 ⟨_, h, rfl⟩), m.keys_nodup.of_map _⟩
  refine (List.perm_ext_iff_of_nodup ((m.insert k v).keys_nodup.of_map _) hnd).2 fun x => ?_
  rw [insert, mem_insertEntry m.sorted, List.mem_cons]
  constructor
  · rintro (h | ⟨h, -⟩) <;> simp [h]
  · rintro (h | h)
    · exact .inl h
    · exact .inr ⟨h, fun hx => hk (List.mem_map.2 ⟨x, h, hx⟩)⟩

theorem foldl_insert_perm : ∀ (l : List (κ × ν)) (m : BTreeMap κ ν),
    (l.map Prod.fst ++ m.entries.map Prod.fst).Nodup →
      (l.foldl (fun m x => m.insert x.1 x.2) m).entries.Perm (l.reverse ++ m.entries)
  | [], _, _ => by simp
  | x :: l, m, h => by
    have h' : (x.1 :: (l.map Prod.fst ++ m.entries.map Prod.fst)).Nodup := by simpa using h
    have hxm : x.1 ∉ m.entries.map Prod.fst := fun hm => (List.nodup_cons.1 h').1 (List.mem_append_right _ hm)
    have hm := insert_perm x.2 hxm
    have hnd : (l.map Prod.fst ++ (m.insert x.1 x.2).entries.map Prod.fst).Nodup :=
      (((hm.map Prod.fst).append_left _).trans List.perm_middle).nodup_iff.2 h'
    simpa using (foldl_insert_perm l _ hnd).trans (hm.append_left _)

theorem ofList_perm_self {l : List (κ × ν)} (h : (l.map Prod.fst).Nodup) : (ofList l).entries.Perm l := by
  have := foldl_insert_perm l empty (by simpa [empty] using h)
  rw [empty, List.append_nil] at this
  exact this.trans (List.reverse_perm l)

/-- **The map does not depend on the order the pairs came in**, when their keys are distinct. -/
theorem ofList_perm {l l' : List (κ × ν)} (hp : l.Perm l') (h : (l.map Prod.fst).Nodup) :
    ofList l = ofList l' :=
  eq_of_perm (((ofList_perm_self h).trans hp).trans (ofList_perm_self ((hp.map _).nodup_iff.1 h)).symm)

end BTreeMap

end Attaca
