import Attaca.TreeFromIter
/-!
# TreeEdit — what each edit does to the leaves `into_iter` yields

`entry` followed by `insert`, `replace` or `unblock` edits the tree's view (`TreeEntry`,
`TreeGraft`).  Read through `into_iter`, the same edits act on the list of leaves: `insert` at a
vacant path adds its leaf and nothing else (`insert_items`), `replace` drops every leaf under the
path and adds the new one (`replace_items`), and `unblock` trades the blocking leaf for the
subtree's leaves under its path (`unblock_items`).  Underneath are three facts of every view:
nothing sits below a leaf, every proper prefix of a path that holds something is a directory, and so
no leaf sits under another (`leaf_prefix_eq`).
-/
namespace Attaca

namespace View

variable {d : View} {p : Path} {e : SubtreeEntry} (x : Path × SubtreeEntry)

/-- The leaves of `addLeaf` along a path with no leaf on it. -/
theorem addLeaf_opaque (hvac : ∀ r, r <+: p → ∀ e', d r ≠ some (.Opaque e')) :
    addLeaf d p e x.1 = some (.Opaque x.2) ↔ x = (p, e) ∨ d x.1 = some (.Opaque x.2) := by
  by_cases h₁ : x.1 = p
  · obtain ⟨x₁, x₂⟩ := x
    dsimp only at h₁ ⊢
    subst h₁
    simp [addLeaf, eq_comm, hvac x₁ (List.prefix_refl _) x₂]
  · have hne : x ≠ (p, e) := fun h => h₁ (by rw [h])
    by_cases h₂ : x.1 <+: p
    · simp [addLeaf, h₁, h₂, hne, hvac x.1 h₂ x.2]
    · simp [addLeaf, h₁, h₂, hne]

/-- The leaves of `graft`. -/
theorem graft_opaque :
    graft d p e x.1 = some (.Opaque x.2) ↔ x = (p, e) ∨ (¬ p <+: x.1 ∧ d x.1 = some (.Opaque x.2)) := by
  by_cases h₁ : x.1 = p
  · obtain ⟨x₁, x₂⟩ := x
    dsimp only at h₁ ⊢
    subst h₁
    simp [graft, eq_comm]
  · have hne : x ≠ (p, e) := fun h => h₁ (by rw [h])
    by_cases h₂ : p <+: x.1 <;> simp [graft, h₁, h₂, hne]

/-- The leaves of `splice`: the spliced view's leaves under `q`, and the old ones off it. -/
theorem splice_opaque {q : Path} {d' : View} :
    splice d q d' x.1 = some (.Opaque x.2) ↔
      (∃ y : Path × SubtreeEntry, d' y.1 = some (.Opaque y.2) ∧ x = (q ++ y.1, y.2)) ∨
        (¬ q <+: x.1 ∧ d x.1 = some (.Opaque x.2)) := by
  by_cases h : q <+: x.1
  · obtain ⟨u, hu⟩ := h
    simp only [splice, ← hu, List.prefix_append, if_true, List.drop_left, not_true_eq_false, false_and, or_false]
    constructor
    · exact fun h => ⟨(u, x.2), h, Prod.ext hu.symm rfl⟩
    · rintro ⟨y, hy, rfl⟩
      rwa [List.append_cancel_left hu]
  · simp only [splice, if_neg h, not_false_eq_true, true_and]
    refine ⟨fun h' => .inr ⟨h, h'⟩, fun h' => h'.elim (fun ⟨y, _, hy⟩ => absurd (hy ▸ List.prefix_append _ _) h) And.right⟩

end View

namespace Tree

variable {t : Tree}

/-! ## The shape of a view -/

/-- Nothing sits below a leaf. -/
theorem view_below_leaf {r s : Path} {e : SubtreeEntry} (hr : t.view r = some (.Opaque e)) (hrs : r <+: s)
    (hne : r ≠ s) : t.view s = none := by
  obtain ⟨m, hm, hs⟩ := view_opaque_iff.1 hr
  obtain ⟨u, rfl⟩ := hrs
  obtain ⟨d, u, rfl⟩ := List.exists_cons_of_ne_nil fun (h : u = []) => hne (by simp [h])
  cases hw : t.arena.walk t.root (r ++ d :: u) with
  | none => simp [view, hw]
  | some k =>
    obtain ⟨n', entries, hn', hs'⟩ := Arena.transparent_of_walk hw
    rw [hm, Option.some.injEq] at hn'
    rw [← hn', hs] at hs'
    cases hs'

/-- Every proper prefix of a path that holds something is a directory. -/
theorem view_above {r s : Path} (hs : (t.view s).isSome) (hrs : r <+: s) (hne : r ≠ s) :
    t.view r = some .Transparent := by
  obtain ⟨u, rfl⟩ := hrs
  obtain ⟨d, u, rfl⟩ := List.exists_cons_of_ne_nil fun (h : u = []) => hne (by simp [h])
  obtain ⟨k, hk⟩ : ∃ k, t.arena.walk t.root (r ++ d :: u) = some k := by
    cases hw : t.arena.walk t.root (r ++ d :: u) with
    | none => simp [view, hw] at hs
    | some k => exact ⟨k, rfl⟩
  obtain ⟨n', entries, hn', hs'⟩ := Arena.transparent_of_walk hk
  simp [view, hn', hs', Node.kind]

/-- Two leaves one under the other are one leaf. -/
theorem leaf_prefix_eq {x y : Path × SubtreeEntry} (hx : t.view x.1 = some (.Opaque x.2))
    (hy : t.view y.1 = some (.Opaque y.2)) (h : x.1 <+: y.1) : x = y := by
  by_cases he : x.1 = y.1
  · rw [he, hy, Option.some.injEq, Kind.Opaque.injEq] at hx
    exact Prod.ext he hx.symm
  · rw [view_below_leaf hx h he] at hy
    cases hy

/-! ## Items -/

section Items

variable (ht : t.WellFormed)
include ht

/-- The items of a well-formed tree: each leaf once, and nothing else. -/
theorem items_spec {l : List (Path × SubtreeEntry)} (hl : t.items = .ok l) :
    l.Nodup ∧ ∀ x, x ∈ l ↔ t.view x.1 = some (.Opaque x.2) := by
  obtain ⟨l', hl', hnd, hc⟩ := items_nodup_mem ht
  cases hl.symm.trans hl'
  exact ⟨hnd, hc⟩

/-- The items are, up to order, any list of the leaves without repeats. -/
theorem items_perm {l' : List (Path × SubtreeEntry)} (hnd : l'.Nodup)
    (hc : ∀ x, x ∈ l' ↔ t.view x.1 = some (.Opaque x.2)) : ∃ l, t.items = .ok l ∧ l.Perm l' := by
  obtain ⟨l, hl, hnd', hc'⟩ := items_nodup_mem ht
  exact ⟨l, hl, (List.perm_ext_iff_of_nodup hnd' hnd).2 fun x => (hc' x).trans (hc x).symm⟩

end Items

/-! ## Edits -/

/-- **`insert` adds exactly its leaf.**  On a well-formed tree, `insert` on the `Vacant` outcome of
`entry p` gives a tree whose `into_iter` yields the old items and `(p, e)`, and nothing else. -/
theorem insert_items (ht : t.WellFormed) {p : Path} {v : VacantEntry} (hv : t.entry p = .ok (.ok (.Vacant v)))
    {e : SubtreeEntry} {o : OccupiedEntry} (ho : v.insert e = .ok o) :
    ∃ l l', t.items = .ok l ∧ o.intoInner.items = .ok l' ∧ l'.Perm ((p, e) :: l) := by
  rcases entry_cases ht p with ⟨_, _, he⟩ | ⟨q, c, rest, m, entries, rfl, hq, hs, hc, he⟩ | ⟨_, _, _, _, _, _, _, _, he⟩ <;>
    rw [he] at hv <;> cases hv
  obtain ⟨a', hins, hi⟩ := insert_spec ht hq hs rest e
  rw [hins] at ho
  cases ho
  obtain ⟨l, hl, hnd, hmem⟩ := items_nodup_mem ht
  -- no leaf on the way to the vacant path
  have hvac : ∀ r, r <+: q ++ c :: rest → ∀ e', t.view r ≠ some (.Opaque e') := fun r hr e' h => by
    rcases prefix_cases hr with hr | ⟨r', rfl, -⟩
    · rw [ view_of_prefix hq hs hr] at h; cases h
    · rw [view_opaque_iff, Arena.walk_append_of_walk hq] at h
      obtain ⟨k, hk, -⟩ := h
      obtain ⟨_, hk, -⟩ := Arena.walk_cons_eq_some.1 hk
      rw [Arena.child_of_slot hs, Node.child_transparent, hc] at hk
      cases hk
  have hnd' : ((q ++ c :: rest, e) :: l).Nodup :=
    List.nodup_cons.2 ⟨fun h => hvac _ (List.prefix_refl _) e ((hmem _).1 h), hnd⟩
  obtain ⟨l', hl', hperm⟩ := items_perm (hi.wellFormed ht hq hs hc) hnd' fun x => by
    rw [hi.view ht hq hs hc, View.addLeaf_opaque x hvac, List.mem_cons, hmem]
  exact ⟨l, l', hl, hl', hperm⟩

/-- Inserting the file `a/e` into the directory `a` of the sample tree. -/
theorem insert_items_sample :
    ∃ t, Tree.fromIter sampleLeaves = .ok t ∧ t.WellFormed ∧ ∃ v o, t.entry [[97], [101]] = .ok (.ok (.Vacant v)) ∧
      v.insert (.File .zero 3) = .ok o ∧
      o.intoInner.items = .ok [([[100]], .Subtree ⟨List.replicate 32 1, rfl⟩), ([[97], [101]], .File .zero 3),
        ([[97], [99]], .File .zero 1), ([[97], [98]], .File .zero 0)] ∧
      ∃ l l', t.items = .ok l ∧ o.intoInner.items = .ok l' ∧ l'.Perm (([[97], [101]], .File .zero 3) :: l) := by
  have h₀ : Tree.fromIter sampleLeaves = .ok _ := fromIter_sampleLeaves.trans rfl
  exact ⟨_, h₀, fromIter_wellFormed h₀, _, _, rfl, rfl, rfl, @insert_items _ (fromIter_wellFormed h₀) [[97], [101]] _ rfl (.File .zero 3) _ rfl⟩

/-- **`replace` drops what was under its path and leaves its leaf.**  On a well-formed tree,
`replace` on the `Occupied` outcome of `entry p` gives a tree whose `into_iter` yields `(p, e)` and
the old items off `p`. -/
theorem replace_items (ht : t.WellFormed) {p : Path} {o : OccupiedEntry} (hp : t.entry p = .ok (.ok (.Occupied o)))
    {e : SubtreeEntry} {o' : OccupiedEntry} (ho : o.replace e = .ok o') :
    ∃ l l', t.items = .ok l ∧ o'.intoInner.items = .ok l' ∧ l'.Perm ((p, e) :: l.filter fun x => ¬ p <+: x.1) := by
  rcases entry_cases ht p with ⟨m, hm, he⟩ | ⟨_, _, _, _, _, _, _, _, _, he⟩ | ⟨_, _, _, _, _, _, _, _, he⟩ <;>
    rw [he] at hp <;> cases hp
  rw [replace_eq ht hm e] at ho
  cases ho
  obtain ⟨l, hl, hnd, hmem⟩ := items_nodup_mem ht
  have hnd' : ((p, e) :: l.filter fun x => ¬ p <+: x.1).Nodup :=
    List.nodup_cons.2 ⟨by simp, hnd.filter _⟩
  obtain ⟨l', hl', hperm⟩ := items_perm (wellFormed_replace ht hm e) hnd' fun x => by
    rw [show (⟨t.arena.update m (some (.Opaque e)), t.root⟩ : Tree).view x.1 = _ from view_replace ht hm e x.1,
      View.graft_opaque, List.mem_cons, List.mem_filter, hmem, decide_eq_true_iff, and_comm]
  exact ⟨l, l', hl, hl', hperm⟩

/-- Replacing the directory `a` of the sample tree with a file: `a/b` and `a/c` go. -/
theorem replace_items_sample :
    ∃ t, Tree.fromIter sampleLeaves = .ok t ∧ t.WellFormed ∧ ∃ o o', t.entry [[97]] = .ok (.ok (.Occupied o)) ∧
      o.replace (.File .zero 3) = .ok o' ∧
      o'.intoInner.items = .ok [([[100]], .Subtree ⟨List.replicate 32 1, rfl⟩), ([[97]], .File .zero 3)] ∧
      ∃ l l', t.items = .ok l ∧ o'.intoInner.items = .ok l' ∧
        l'.Perm (([[97]], .File .zero 3) :: l.filter fun x => ¬ [[97]] <+: x.1) := by
  have h₀ : Tree.fromIter sampleLeaves = .ok _ := fromIter_sampleLeaves.trans rfl
  exact ⟨_, h₀, fromIter_wellFormed h₀, _, _, rfl, rfl, rfl, @replace_items _ (fromIter_wellFormed h₀) [[97]] _ rfl (.File .zero 3) _ rfl⟩

/-- **`unblock` trades the blocking leaf for the subtree's leaves.**  On well-formed trees, the
`Blocked` outcome of `entry p` stops at a leaf `(q, e)` on the way to `p`; `unblock` with `s` gives a
tree whose `into_iter` yields the old items but that leaf, and the items of `s` moved under `q`. -/
theorem unblock_items (ht : t.WellFormed) {s : Tree} (hs : s.WellFormed) {p : Path} {b : Blocked}
    (hb : t.entry p = .ok (.error b)) {r : Except Blocked Entry} (hr : b.unblock s = .ok r) :
    ∃ q e, q <+: p ∧ q ≠ p ∧ t.view q = some (.Opaque e) ∧ ∃ l ls l', t.items = .ok l ∧ s.items = .ok ls ∧
      (entryInner r).items = .ok l' ∧ l'.Perm (l.erase (q, e) ++ ls.map fun y => (q ++ y.1, y.2)) := by
  obtain ⟨q, c, rest, m, e, rfl, hq, he, rfl⟩ := (entry_blocked_iff ht b).1 hb
  have hwf := Grafted.wellFormed ht hs hq
  rw [Grafted.unblock_eq ht hs hq c rest] at hr
  have hqe : t.view q = some (.Opaque e) := view_opaque_iff.2 ⟨m, hq, he⟩
  obtain ⟨l, hl, hnd, hmem⟩ := items_nodup_mem ht
  obtain ⟨ls, hls, hnds, hmems⟩ := items_nodup_mem hs
  -- the old leaves but `(q, e)` are off `q`
  have hoff : ∀ x, x ∈ l.erase (q, e) ↔ ¬ q <+: x.1 ∧ t.view x.1 = some (.Opaque x.2) := fun x => by
    rw [hnd.mem_erase_iff, hmem]
    refine ⟨fun ⟨hne, hx⟩ => ⟨fun hqx => hne (leaf_prefix_eq hqe hx hqx).symm, hx⟩,
      fun ⟨hqx, hx⟩ => ⟨fun h => hqx (by rw [h]), hx⟩⟩
  have hinj : Function.Injective fun y : Path × SubtreeEntry => (q ++ y.1, y.2) := fun y y' h => by
    simp only [Prod.mk.injEq, List.append_cancel_left_eq] at h
    exact Prod.ext h.1 h.2
  have hnd' : (l.erase (q, e) ++ ls.map fun y => (q ++ y.1, y.2)).Nodup := by
    refine List.nodup_append.2 ⟨hnd.erase _, hnds.map hinj, fun x hx hx' => ?_⟩
    obtain ⟨y, -, rfl⟩ := List.mem_map.1 hx'
    exact ((hoff _).1 hx).1 (List.prefix_append _ _)
  obtain ⟨l', hl', hperm⟩ := items_perm hwf hnd' fun x => by
    rw [Grafted.view ht hs hq, View.splice_opaque, List.mem_append, hoff, or_comm, List.mem_map]
    simp only [hmems, eq_comm]
  exact ⟨q, e, List.prefix_append _ _, by simp, hqe, l, ls, l', hl, hls, entryInner_of_entry hwf hr ▸ hl', hperm⟩

/-- Unblocking the stub `d` of the sample tree with a directory holding the file `e`. -/
theorem unblock_items_sample :
    ∃ t s : Tree, Tree.fromIter sampleLeaves = .ok t ∧ s = Tree.ofHashMap (.singleton [101] (.File .zero 2)) ∧
      t.WellFormed ∧ s.WellFormed ∧ ∃ b r, t.entry [[100], [101]] = .ok (.error b) ∧ b.unblock s = .ok r ∧
      (entryInner r).items = .ok [([[100], [101]], .File .zero 2), ([[97], [99]], .File .zero 1),
        ([[97], [98]], .File .zero 0)] ∧
      ∃ q e, q <+: [[100], [101]] ∧ q ≠ [[100], [101]] ∧ t.view q = some (.Opaque e) ∧ ∃ l ls l', t.items = .ok l ∧
        s.items = .ok ls ∧ (entryInner r).items = .ok l' ∧ l'.Perm (l.erase (q, e) ++ ls.map fun y => (q ++ y.1, y.2)) := by
  have h₀ : Tree.fromIter sampleLeaves = .ok _ := fromIter_sampleLeaves.trans rfl
  exact ⟨_, _, h₀, rfl, fromIter_wellFormed h₀, wellFormed_ofLeaves _ _, _, _, rfl, rfl, rfl,
    @unblock_items _ (fromIter_wellFormed h₀) _ (wellFormed_ofLeaves _ _) [[100], [101]] _ rfl _ rfl⟩

end Tree

end Attaca
