import Attaca.TreeEdit
import Attaca.PathBuf
/-!
# TreeRoundTrip — `into_iter` and `from_iter` undo each other

`from_iter` sorts its pairs and inserts them one by one (`TreeFromIter`); `into_iter` yields the
leaves of a tree (`TreeIter`), each path a `PathBuf` that `from_iter` reads back with `iter`, which
gives the components back when they are normal (`PathBuf.iter_ofComponents`).  No leaf of a
well-formed tree sits under another, so `from_iter` of a tree's items never panics and builds a tree
with the same leaves; it rebuilds the tree up to node ids, with the same `marshal` result, whenever
no directory below the root is empty (`fromIter_items`), as in every tree `from_iter` builds
(`fromIter_dirs`).

The source checks the other direction with the quickcheck property `from_and_into_iter`: it sorts
the generated paths, discards the input when a path starts with the one sorted before it, builds
the tree of file leaves at the paths, and compares the paths `into_iter` yields with its input.  A
path that sorts between a path and an extension of it extends it too (`prefix_of_le_of_le`), so
comparing neighbours finds every path with another under it.  The property passes on every input
it keeps, and it discards exactly the inputs with a repeated path or one path under another
(`fromAndIntoIter_spec`).
-/
namespace Attaca

/-! ## Sorted paths -/

/-- What holds of every pair of a list holds of its neighbours. -/
theorem pairwise_zip_tail {α : Type*} {R : α → α → Prop} :
    ∀ {S : List α}, S.Pairwise R → ∀ w ∈ S.zip S.tail, R w.1 w.2
  | [], _, _, hw => by cases hw
  | [_], _, _, hw => by cases hw
  | a :: b :: S, hs, w, hw => by
    rcases List.mem_cons.1 hw with rfl | hw
    · exact List.rel_of_pairwise_cons hs (List.mem_cons_self _ _)
    · exact pairwise_zip_tail hs.of_cons w hw

section Order

variable {α : Type*} [LinearOrder α] {a b : α} {l l' : List α}

theorem cons_le_cons_iff : a :: l ≤ a :: l' ↔ l ≤ l' := by
  rw [le_iff_lt_or_eq, le_iff_lt_or_eq, List.cons.injEq, eq_self_iff_true, true_and]
  exact or_congr_left List.Lex.cons_iff

theorem head_le_of_le (h : a :: l ≤ b :: l') : a ≤ b :=
  (le_iff_lt_or_eq.1 h).elim List.head_le_of_lt fun e => (List.cons.inj e).1.le

/-- A list that sorts between a list and an extension of it extends it too. -/
theorem prefix_of_le_of_le : ∀ {x y z : List α}, x <+: y → x ≤ z → z ≤ y → x <+: z
  | [], _, _, _, _, _ => List.nil_prefix
  | _ :: _, _, [], _, hxz, _ => absurd (le_antisymm hxz List.nil_le) (List.cons_ne_nil _ _)
  | a :: x, _, b :: z, ⟨s, rfl⟩, hxz, hzy => by
    obtain rfl : a = b := le_antisymm (head_le_of_le hxz) (head_le_of_le hzy)
    exact List.cons_prefix_cons.2 ⟨rfl, prefix_of_le_of_le (List.prefix_append x s) (cons_le_cons_iff.1 hxz)
      (cons_le_cons_iff.1 hzy)⟩

/-- **Neighbours find every extension**: in a sorted list of lists, no list is extended by a later
one as soon as none is extended by the one right after it. -/
theorem pairwise_not_prefix_of_sorted : ∀ {S : List (List α)}, S.Sorted (· ≤ ·) →
    (∀ w ∈ S.zip S.tail, ¬ w.1 <+: w.2) → S.Pairwise fun x y => ¬ x <+: y
  | [], _, _ => List.Pairwise.nil
  | [_], _, _ => List.pairwise_singleton _ _
  | a :: b :: S, hs, hw => by
    have hab : ¬ a <+: b := hw (a, b) (List.mem_cons_self _ _)
    refine List.Pairwise.cons (fun y hy hay => hab (prefix_of_le_of_le hay
      (List.rel_of_sorted_cons hs b (List.mem_cons_self _ _)) ?_))
      (pairwise_not_prefix_of_sorted hs.of_cons fun w hw' => hw w (List.mem_cons_of_mem _ hw'))
    rcases List.mem_cons.1 hy with rfl | hy
    · exact le_rfl
    · exact List.rel_of_sorted_cons hs.of_cons y hy

end Order

namespace Tree

variable {t : Tree}

/-! ## `from_iter` of leaves apart -/

/-- On pairs with distinct paths, none under another, `from_iter` builds the tree of their leaves. -/
theorem fromIter_ok {L : List (Path × SubtreeEntry)} (hd : (L.map Prod.fst).Nodup)
    (hno : ¬ ∃ x ∈ L, ∃ y ∈ L, x.1 <+: y.1 ∧ x.1 ≠ y.1) :
    ∃ t', Tree.fromIter L = .ok t' ∧ t'.WellFormed ∧
      t'.view = View.ofLeaves (L.mergeSort fun left right => decide (left.1 ≤ right.1)) := by
  have hview : (Tree.ofBTreeMap .empty).view = View.ofLeaves [] := funext fun q => by cases q <;> rfl
  obtain ⟨hok, -⟩ := @foldlM_insertPair _ [] (Tree.ofBTreeMap .empty) (wellFormed_ofLeaves _ _) hview
    List.Pairwise.nil (lt_mergeSort hd) (by simp)
  rw [List.nil_append] at hok
  exact hok ((apart_mergeSort_iff hd).2 hno)

/-- The leaves of the tree `from_iter` builds are its pairs. -/
theorem fromIter_ok_mem {L : List (Path × SubtreeEntry)} (hd : (L.map Prod.fst).Nodup) {t' : Tree}
    (hv : t'.view = View.ofLeaves (L.mergeSort fun left right => decide (left.1 ≤ right.1))) (x : Path × SubtreeEntry) :
    t'.view x.1 = some (.Opaque x.2) ↔ x ∈ L := by
  rw [hv, View.ofLeaves_opaque (nodup_mergeSort hd), Prod.mk.eta, (List.mergeSort_perm _ _).mem_iff]

/-- A tree `from_iter` builds has no empty directory below its root. -/
theorem fromIter_dirs {L : List (Path × SubtreeEntry)} (hd : (L.map Prod.fst).Nodup)
    (hno : ¬ ∃ x ∈ L, ∃ y ∈ L, x.1 <+: y.1 ∧ x.1 ≠ y.1) {t' : Tree} (h : Tree.fromIter L = .ok t') :
    ∀ q, t'.view q = some .Transparent → q = [] ∨ ∃ x ∈ L, q <+: x.1 := by
  obtain ⟨t'', h'', -, hv⟩ := fromIter_ok hd hno
  obtain rfl : t'' = t' := Except.ok.inj (h''.symm.trans h)
  have hperm := List.mergeSort_perm L fun left right => decide (left.1 ≤ right.1)
  intro q hq
  by_cases hmem : q ∈ (L.mergeSort fun left right => decide (left.1 ≤ right.1)).map Prod.fst
  · obtain ⟨x, hx, rfl⟩ := List.mem_map.1 hmem
    rw [(fromIter_ok_mem hd hv x).2 (hperm.mem_iff.1 hx)] at hq
    cases hq
  · rw [hv, View.ofLeaves_of_not_mem hmem] at hq
    split at hq
    · rename_i hdir
      exact hdir.imp_right fun ⟨x, hx, hqx⟩ => ⟨x, hperm.mem_iff.1 hx, hqx⟩
    · cases hq

/-- **`from_iter` of a tree's items rebuilds the tree.**  Let every component of the items' paths be
normal, so that `from_iter` reads the `PathBuf`s `into_iter` built back as the same paths.  No leaf
of a well-formed tree sits under another, so `from_iter` of its items never panics and builds a
well-formed tree with the same leaves; when no directory below the root is empty it has the same
view, so the same items, the same `entry` outcomes and the same `marshal` result. -/
theorem fromIter_items (ht : t.WellFormed) {l : List (Path × SubtreeEntry)} (hl : t.items = .ok l)
    (hnorm : ∀ x ∈ l, ∀ c ∈ x.1, PathBuf.Normal c) :
    ∃ t', Tree.fromIter (l.map fun x => ((PathBuf.ofComponents x.1).iter, x.2)) = .ok t' ∧ t'.WellFormed ∧
      (∀ x : Path × SubtreeEntry, t'.view x.1 = some (.Opaque x.2) ↔ t.view x.1 = some (.Opaque x.2)) ∧
      ((∀ q, t.view q = some .Transparent → q = [] ∨ ∃ x ∈ l, q <+: x.1) →
        t'.view = t.view ∧ ∀ M, t'.fold M = t.fold M) := by
  have hpaths : (l.map fun x => ((PathBuf.ofComponents x.1).iter, x.2)) = l.map id :=
    List.map_congr_left fun x hx => by rw [PathBuf.iter_ofComponents x.1 (hnorm x hx)]; rfl
  rw [hpaths, List.map_id]
  obtain ⟨hnd, hmem⟩ := items_spec ht hl
  have hd : (l.map Prod.fst).Nodup := List.Nodup.map_on (fun x hx y hy h =>
    leaf_prefix_eq ((hmem x).1 hx) ((hmem y).1 hy) (h ▸ List.prefix_refl _)) hnd
  obtain ⟨t', ht', hwf, hv'⟩ := fromIter_ok hd fun ⟨x, hx, y, hy, hxy, hne⟩ =>
    hne (congrArg Prod.fst (leaf_prefix_eq ((hmem x).1 hx) ((hmem y).1 hy) hxy))
  refine ⟨t', ht', hwf, fun x => (fromIter_ok_mem hd hv' x).trans (hmem x), fun hdir => ?_⟩
  have hperm := List.mergeSort_perm l fun left right => decide (left.1 ≤ right.1)
  have hveq : t'.view = t.view := funext fun q => by
    by_cases hq : q ∈ l.map Prod.fst
    · obtain ⟨x, hx, rfl⟩ := List.mem_map.1 hq
      rw [(fromIter_ok_mem hd hv' x).2 hx, (hmem x).1 hx]
    · rw [hv', View.ofLeaves_of_not_mem (by rwa [(hperm.map _).mem_iff])]
      cases hvq : t.view q with
      | none =>
        refine if_neg fun h => ?_
        rcases h with rfl | ⟨x, hx, hqx⟩
        · obtain ⟨node, hnode⟩ := Option.isSome_iff_exists.1 (ht.live [] t.root rfl)
          simp [view, hnode] at hvq
        · have hx' := hperm.mem_iff.1 hx
          have hne : q ≠ x.1 := fun h => hq (List.mem_map.2 ⟨x, hx', h.symm⟩)
          rw [view_above (by rw [(hmem x).1 hx']; rfl) hqx hne] at hvq
          cases hvq
      | some k =>
        cases k with
        | Opaque e => exact absurd (List.mem_map.2 ⟨(q, e), (hmem (q, e)).2 hvq, rfl⟩) hq
        | Transparent =>
          rcases hdir q hvq with rfl | ⟨x, hx, hqx⟩
          · simp
          · exact if_pos (.inr ⟨x, hperm.mem_iff.2 hx, hqx⟩)
  exact ⟨hveq, fun M => fold_eq_of_view_eq ht hwf hveq⟩

/-- The sample tree round-trips: its items' `PathBuf`s are `d`, `a/c` and `a/b`, and its directory
`a` holds files. -/
theorem fromIter_items_sample :
    ∃ t l t', Tree.fromIter sampleLeaves = .ok t ∧ t.WellFormed ∧ t.items = .ok l ∧
      l.map (fun x => PathBuf.ofComponents x.1) = [[100], [97, 47, 99], [97, 47, 98]] ∧
      (∀ x ∈ l, ∀ c ∈ x.1, PathBuf.Normal c) ∧
      (∀ q, t.view q = some .Transparent → q = [] ∨ ∃ x ∈ l, q <+: x.1) ∧
      Tree.fromIter (l.map fun x => ((PathBuf.ofComponents x.1).iter, x.2)) = .ok t' ∧ t'.WellFormed ∧
      (∀ x : Path × SubtreeEntry, t'.view x.1 = some (.Opaque x.2) ↔ t.view x.1 = some (.Opaque x.2)) ∧
      t'.view = t.view ∧ ∀ M, t'.fold M = t.fold M := by
  obtain ⟨t, l, h₀, hl, hpaths, hnorm, hsub⟩ : ∃ t l, Tree.fromIter sampleLeaves = .ok t ∧ t.items = .ok l ∧
      l.map (fun x => PathBuf.ofComponents x.1) = [[100], [97, 47, 99], [97, 47, 98]] ∧
      (∀ x ∈ l, ∀ c ∈ x.1, PathBuf.Normal c) ∧ ∀ x ∈ sampleLeaves, x ∈ l :=
    ⟨_, _, fromIter_sampleLeaves.trans rfl, rfl, rfl, by decide, by decide⟩
  have hdir : ∀ q, t.view q = some .Transparent → q = [] ∨ ∃ x ∈ l, q <+: x.1 := fun q hq =>
    (fromIter_dirs (by decide) (by decide) h₀ q hq).imp_right fun ⟨x, hx, hqx⟩ => ⟨x, hsub x hx, hqx⟩
  obtain ⟨t', h', hwf', hleaves, hround⟩ := fromIter_items (fromIter_wellFormed h₀) hl hnorm
  exact ⟨t, l, t', h₀, fromIter_wellFormed h₀, hl, hpaths, hnorm, hdir, h', hwf', hleaves, hround hdir⟩

end Tree

/-! ## The property test `from_and_into_iter` -/

/-- quickcheck's `TestResult`, as the property returns it. -/
inductive TestResult where
  | passed
  | discard
  | error
  deriving DecidableEq, Repr

/-- The quickcheck property `from_and_into_iter`, on the paths the generated strings make: sort
them, discard the input if a path starts with the one before it, collect the paths with file
leaves into a tree, and compare the set of paths `into_iter` yields with the set of paths. -/
def fromAndIntoIter (paths : List Path) : Except String TestResult := do
  let paths := paths.mergeSort fun a b => decide (a ≤ b)
  if (paths.zip paths.tail).any fun window => decide (window.1 <+: window.2) then
    return .discard
  let tree ← Tree.fromIter (paths.map fun path => (path, .File .zero 0))
  let post ← tree.items
  let post := post.map Prod.fst
  if paths.all (· ∈ post) && post.all (· ∈ paths) then
    return .passed
  else
    return .error

/-- The sorted paths of the property: no path under another exactly when the input has no repeated
path and no path under another. -/
theorem apart_sorted_iff (paths : List Path) :
    (∀ w ∈ (paths.mergeSort fun a b => decide (a ≤ b)).zip (paths.mergeSort fun a b => decide (a ≤ b)).tail,
      ¬ w.1 <+: w.2) ↔ paths.Nodup ∧ ¬ ∃ x ∈ paths, ∃ y ∈ paths, x <+: y ∧ x ≠ y := by
  have hperm := List.mergeSort_perm paths fun a b => decide (a ≤ b)
  have hsorted : (paths.mergeSort fun a b => decide (a ≤ b)).Sorted (· ≤ ·) :=
    (List.sorted_mergeSort (fun a b c h₁ h₂ => by simp only [decide_eq_true_eq] at *; exact le_trans h₁ h₂)
      (fun a b => by simpa using le_total a b) paths).imp fun h => by simpa using h
  constructor
  · intro hw
    have hp := pairwise_not_prefix_of_sorted hsorted hw
    -- sorted, a path under a later one would be smaller than it
    have hA : (paths.mergeSort fun a b => decide (a ≤ b)).Pairwise fun x y => ¬ x <+: y ∧ ¬ y <+: x :=
      (hp.and hsorted).imp fun {x y} ⟨h, hle⟩ => ⟨h, fun hyx => by
        by_cases e : y = x
        · subst e; exact h (List.prefix_refl _)
        · exact absurd hle (not_le.2 (proper_prefix_lt hyx e))⟩
    refine ⟨hperm.nodup_iff.1 (hp.imp fun h he => h (by rw [he])), ?_⟩
    rintro ⟨x, hx, y, hy, hxy, hne⟩
    exact (hA.forall (fun _ _ h => ⟨h.2, h.1⟩) (hperm.mem_iff.2 hx) (hperm.mem_iff.2 hy) hne).1 hxy
  · rintro ⟨hnd, hno⟩
    have hp : (paths.mergeSort fun a b => decide (a ≤ b)).Pairwise fun x y => ¬ x <+: y :=
      (hperm.nodup_iff.2 hnd).imp_of_mem fun hx hy hne hxy =>
        hno ⟨_, hperm.mem_iff.1 hx, _, hperm.mem_iff.1 hy, hxy, hne⟩
    exact pairwise_zip_tail hp

/-- **The property `from_and_into_iter` holds.**  On every input it neither panics nor fails: it
passes when the paths are distinct and none is under another, and discards the input otherwise. -/
theorem fromAndIntoIter_spec (paths : List Path) :
    fromAndIntoIter paths =
      .ok (if paths.Nodup ∧ ¬ ∃ x ∈ paths, ∃ y ∈ paths, x <+: y ∧ x ≠ y then .passed else .discard) := by
  have hiff := apart_sorted_iff paths
  have hperm := List.mergeSort_perm paths fun a b => decide (a ≤ b)
  simp only [fromAndIntoIter]
  split
  · rename_i hany
    simp only [List.any_eq_true, decide_eq_true_eq] at hany
    obtain ⟨w, hw, hpre⟩ := hany
    rw [if_neg fun hc => hiff.2 hc w hw hpre]
    rfl
  · rename_i hany
    simp only [List.any_eq_true, decide_eq_true_eq, not_exists, not_and] at hany
    have hc := hiff.1 hany
    rw [if_pos hc]
    have hd : (((paths.mergeSort fun a b => decide (a ≤ b)).map fun path => (path, SubtreeEntry.File .zero 0)).map
        Prod.fst).Nodup := by
      simpa [Function.comp_def] using hperm.nodup_iff.2 hc.1
    obtain ⟨t', ht', hwf, hv'⟩ := Tree.fromIter_ok hd fun ⟨x, hx, y, hy, hxy, hne⟩ => by
      obtain ⟨p, hp, rfl⟩ := List.mem_map.1 hx
      obtain ⟨q, hq, rfl⟩ := List.mem_map.1 hy
      exact hc.2 ⟨p, hperm.mem_iff.1 hp, q, hperm.mem_iff.1 hq, hxy, hne⟩
    obtain ⟨post, hpost, -, hmem⟩ := Tree.items_nodup_mem hwf
    rw [ht', except_ok_bind, hpost, except_ok_bind, if_pos]
    · rfl
    simp only [Bool.and_eq_true, List.all_eq_true, decide_eq_true_eq]
    constructor
    · intro p hp
      exact List.mem_map.2 ⟨(p, .File .zero 0), (hmem _).2 ((Tree.fromIter_ok_mem hd hv' _).2 (List.mem_map_of_mem _ hp)), rfl⟩
    · intro p hp
      obtain ⟨x, hx, rfl⟩ := List.mem_map.1 hp
      obtain ⟨q, hq, rfl⟩ := List.mem_map.1 ((Tree.fromIter_ok_mem hd hv' x).1 ((hmem x).1 hx))
      exact hq

end Attaca
