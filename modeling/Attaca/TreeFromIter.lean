import Attaca.TreeBuilt
/-!
# TreeFromIter — `from_iter` builds the tree of its leaves

`from_iter` sorts the pairs by path and inserts them one by one into an empty tree.  A proper prefix
sorts before the paths it is a prefix of, so when a pair is inserted every path already in the tree
is smaller: it is blocked exactly when one of them is a prefix of its path, and otherwise it adds a
leaf (`insertPair_leaf`).  The tree after each step denotes the leaves inserted so far
(`View.ofLeaves`).  On distinct paths, `from_iter` panics exactly when one path is a proper prefix of
another, and otherwise yields a well-formed tree whose `into_iter` gives back the pairs
(`fromIter_spec`).
-/
namespace Attaca

/-- A proper prefix sorts first. -/
theorem proper_prefix_lt : ∀ {q p : Path}, q <+: p → q ≠ p → q < p
  | [], [], _, hne => absurd rfl hne
  | [], _ :: _, _, _ => List.nil_lt_cons _ _
  | c :: q, p, ⟨s, hs⟩, hne => by
    subst hs
    exact List.Lex.cons (proper_prefix_lt (List.prefix_append q s) fun h => hne (congrArg (c :: ·) h))

theorem not_prefix_of_lt {q p : Path} (h : q < p) : ¬ p <+: q := fun hp => by
  by_cases he : p = q
  · subst he
    exact lt_irrefl p h
  · exact lt_asymm h (proper_prefix_lt hp he)

/-- No path of the leaves is a prefix of another, or equal to it. -/
def Apart (S : List (Path × SubtreeEntry)) : Prop :=
  S.Pairwise fun x y => ¬ x.1 <+: y.1 ∧ ¬ y.1 <+: x.1

theorem Apart.nodup {S : List (Path × SubtreeEntry)} (hS : Apart S) : (S.map Prod.fst).Nodup :=
  List.pairwise_map.2 (hS.imp fun h he => h.1 (by rw [he]))

/-- **The view of a set of leaves**: each path of `S` holds its entry, and the root and every
proper prefix of a path of `S` is a directory. -/
def View.ofLeaves (S : List (Path × SubtreeEntry)) : View := fun q =>
  match (S.find? (·.1 = q)).map Prod.snd with
  | some e => some (.Opaque e)
  | none => if q = [] ∨ ∃ x ∈ S, q <+: x.1 then some .Transparent else none

section OfLeaves

variable {S : List (Path × SubtreeEntry)} {q : Path} {e : SubtreeEntry}

theorem View.ofLeaves_opaque (hd : (S.map Prod.fst).Nodup) : View.ofLeaves S q = some (.Opaque e) ↔ (q, e) ∈ S := by
  rw [← HashMap.find?_key_eq_some hd]
  simp only [View.ofLeaves]
  cases (S.find? (·.1 = q)).map Prod.snd with
  | some e' => simp
  | none => dsimp only; split <;> simp

theorem View.ofLeaves_of_not_mem (h : q ∉ S.map Prod.fst) :
    View.ofLeaves S q = if q = [] ∨ ∃ x ∈ S, q <+: x.1 then some .Transparent else none := by
  have : (S.find? (·.1 = q)).map Prod.snd = none := by
    simpa [List.find?_eq_none] using fun x hx hq => h (List.mem_map.2 ⟨x, hx, hq⟩)
  simp only [View.ofLeaves, this]

/-- Adding a leaf that no leaf is a prefix of, at a path that is no leaf. -/
theorem View.addLeaf_ofLeaves {p : Path} (hp : p ∉ S.map Prod.fst) (hno : ∀ x ∈ S, ¬ x.1 <+: p) :
    View.addLeaf (View.ofLeaves S) p e = View.ofLeaves (S ++ [(p, e)]) := by
  funext r
  have hfind : ∀ r, r ∉ S.map Prod.fst → ((S ++ [(p, e)]).find? (·.1 = r)).map Prod.snd = if r = p then some e else none := by
    intro r hr
    have : S.find? (·.1 = r) = none := by
      simpa [List.find?_eq_none] using fun x hx hq => hr (List.mem_map.2 ⟨x, hx, hq⟩)
    by_cases h : r = p
    · subst h
      simp [List.find?_append, this]
    · simp [List.find?_append, this, h, Ne.symm h]
  by_cases hrp : r = p
  · subst hrp
    rw [View.addLeaf, if_pos rfl, View.ofLeaves, hfind r hp, if_pos rfl]
  by_cases hpre : r <+: p
  · have hr : r ∉ S.map Prod.fst := fun h => by
      obtain ⟨x, hx, rfl⟩ := List.mem_map.1 h
      exact hno x hx hpre
    rw [View.addLeaf, if_neg hrp, if_pos hpre, View.ofLeaves, hfind r hr, if_neg hrp]
    exact (if_pos (.inr ⟨(p, e), by simp, hpre⟩)).symm
  · have hS' : (∃ x ∈ S ++ [(p, e)], r <+: x.1) ↔ ∃ x ∈ S, r <+: x.1 := by
      refine ⟨fun ⟨x, hx, hr⟩ => ?_, fun ⟨x, hx, hr⟩ => ⟨x, List.mem_append_left _ hx, hr⟩⟩
      rcases List.mem_append.1 hx with hx | hx
      · exact ⟨x, hx, hr⟩
      · obtain rfl := List.mem_singleton.1 hx
        exact absurd hr hpre
    have hfind' : ((S ++ [(p, e)]).find? (·.1 = r)).map Prod.snd = (S.find? (·.1 = r)).map Prod.snd := by
      rw [List.find?_append]
      cases S.find? (·.1 = r) <;> simp [Ne.symm hrp]
    rw [View.addLeaf, if_neg hrp, if_neg hpre]
    simp only [View.ofLeaves, hfind', hS']

end OfLeaves

namespace Tree

variable {t : Tree} {q : Path} {e : SubtreeEntry}

/-! ## One step of the loop -/

section Step

variable {S : List (Path × SubtreeEntry)} (ht : t.WellFormed) (hv : t.view = View.ofLeaves S) (hS : Apart S)
  {p : Path} (hlt : ∀ x ∈ S, x.1 < p)
include ht hv hS hlt

omit ht in
/-- A leaf that is a prefix of the path blocks the insertion. -/
theorem insertPair_blocked {x : Path × SubtreeEntry} (hx : x ∈ S) (hxp : x.1 <+: p) :
    t.insertPair (p, e) = .error "Insertion blocked: bad subtree!" := by
  obtain ⟨s, rfl⟩ := hxp
  obtain ⟨c, rest, rfl⟩ : ∃ c rest, s = c :: rest := by
    cases s with
    | nil => exact absurd (hlt x hx) (by simp)
    | cons c rest => exact ⟨c, rest, rfl⟩
  have hx' : t.view x.1 = some (.Opaque x.2) := hv ▸ (View.ofLeaves_opaque hS.nodup).2 hx
  obtain ⟨m, hm, hs⟩ := view_opaque_iff.1 hx'
  simp [insertPair, entry_blocked hm hs]
  rfl

/-- With no leaf a prefix of the path, the pair becomes one more leaf. -/
theorem insertPair_leaf (hno : ∀ x ∈ S, ¬ x.1 <+: p) :
    ∃ t', t.insertPair (p, e) = .ok t' ∧ t'.WellFormed ∧ t'.view = View.ofLeaves (S ++ [(p, e)]) := by
  have hp : p ∉ S.map Prod.fst := fun h => by
    obtain ⟨x, hx, rfl⟩ := List.mem_map.1 h
    exact hno x hx (List.prefix_refl _)
  rcases entry_cases ht p with ⟨m, hm, he⟩ | ⟨q, c, rest, m, entries, rfl, hq, hs, hc, he⟩ |
    ⟨q, c, rest, m, e', rfl, hq, hs, he⟩
  · -- only the root, on an empty tree, is occupied
    obtain ⟨node, hnode⟩ := ht.exists_slot hm
    have hview : View.ofLeaves S p ≠ none := by rw [← hv]; simp [view, hm, hnode]
    rw [View.ofLeaves_of_not_mem hp] at hview
    have hroot : p = [] := by
      by_contra hne
      simp only [hne, false_or, ne_eq, ite_eq_right_iff, reduceCtorEq, imp_false, not_not] at hview
      obtain ⟨x, hx, hpx⟩ := hview
      exact not_prefix_of_lt (hlt x hx) hpx
    subst hroot
    obtain rfl : S = [] := List.eq_nil_iff_forall_not_mem.2 fun x hx => List.Lex.not_nil_right _ _ (hlt x hx)
    refine ⟨_, by simp [insertPair, he, replace_eq ht hm]; rfl, wellFormed_replace ht hm e, funext fun r => ?_⟩
    rw [view_replace ht hm, hv]
    by_cases hr : r = [] <;> simp [View.graft, View.ofLeaves, hr]
  · obtain ⟨a', hins, hi⟩ := insert_spec ht hq hs rest e
    refine ⟨_, ?_, hi.wellFormed ht hq hs hc, funext fun r => ?_⟩
    · simp only [insertPair, he, except_ok_bind]
      rw [hins]
      rfl
    · rw [hi.view ht hq hs hc, hv, View.addLeaf_ofLeaves hp hno]
  · have : (q, e') ∈ S := (View.ofLeaves_opaque hS.nodup).1 (hv ▸ view_opaque_iff.2 ⟨m, hq, hs⟩)
    exact absurd (List.prefix_append _ _) (hno _ this)

end Step

/-! ## The whole loop -/

/-- **The loop of `from_iter`**, after the leaves `S`, over pairs sorted above them: it panics
exactly when the leaves and the pairs are not apart, and otherwise ends on a well-formed tree of all
of them. -/
theorem foldlM_insertPair : ∀ (l S : List (Path × SubtreeEntry)) {t : Tree}, t.WellFormed →
    t.view = View.ofLeaves S → Apart S → l.Pairwise (fun x y => x.1 < y.1) → (∀ x ∈ S, ∀ y ∈ l, x.1 < y.1) →
    (Apart (S ++ l) → ∃ t', l.foldlM Tree.insertPair t = .ok t' ∧ t'.WellFormed ∧ t'.view = View.ofLeaves (S ++ l)) ∧
    (¬ Apart (S ++ l) → l.foldlM Tree.insertPair t = .error "Insertion blocked: bad subtree!")
  | [], S, t, ht, hv, hS, _, _ =>
    ⟨fun _ => ⟨t, rfl, ht, by rw [List.append_nil]; exact hv⟩, fun h => absurd (by rwa [List.append_nil]) h⟩
  | (p, e) :: l, S, t, ht, hv, hS, hl, hlt => by
    have hltS : ∀ x ∈ S, x.1 < p := fun x hx => hlt x hx _ (List.mem_cons_self _ _)
    rw [List.foldlM_cons]
    by_cases hb : ∃ x ∈ S, x.1 <+: p
    · obtain ⟨x, hx, hxp⟩ := hb
      rw [insertPair_blocked hv hS hltS hx hxp]
      exact ⟨fun h => absurd hxp ((List.pairwise_append.1 h).2.2 x hx _ (List.mem_cons_self _ _)).1, fun _ => rfl⟩
    · push_neg at hb
      obtain ⟨t', ht', hwf, hv'⟩ := insertPair_leaf ht hv hS hltS hb
      have hS' : Apart (S ++ [(p, e)]) :=
        List.pairwise_append.2 ⟨hS, List.pairwise_singleton _ _, fun x hx y hy => by
          obtain rfl := List.mem_singleton.1 hy
          exact ⟨hb x hx, not_prefix_of_lt (hltS x hx)⟩⟩
      have hlt' : ∀ x ∈ S ++ [(p, e)], ∀ y ∈ l, x.1 < y.1 := fun x hx y hy => by
        rcases List.mem_append.1 hx with hx | hx
        · exact hlt x hx y (List.mem_cons_of_mem _ hy)
        · obtain rfl := List.mem_singleton.1 hx
          exact List.rel_of_pairwise_cons hl hy
      have := foldlM_insertPair l (S ++ [(p, e)]) hwf hv' hS' (List.pairwise_cons.1 hl).2 hlt'
      rw [List.append_assoc, List.singleton_append] at this
      rw [ht', except_ok_bind]
      exact this

/-! ## Sorting -/

section Sorting

variable {L : List (Path × SubtreeEntry)} (hd : (L.map Prod.fst).Nodup)
include hd

/-- `from_iter`'s sort keeps distinct paths distinct. -/
theorem nodup_mergeSort : ((L.mergeSort fun left right => decide (left.1 ≤ right.1)).map Prod.fst).Nodup :=
  ((List.mergeSort_perm _ _).map _).nodup_iff.2 hd

/-- `from_iter`'s sort orders pairs of distinct paths strictly. -/
theorem lt_mergeSort : (L.mergeSort fun left right => decide (left.1 ≤ right.1)).Pairwise fun x y => x.1 < y.1 := by
  have hle : (L.mergeSort fun left right => decide (left.1 ≤ right.1)).Pairwise fun x y => decide (x.1 ≤ y.1) :=
    List.sorted_mergeSort (fun a b c h₁ h₂ => by simp only [decide_eq_true_eq] at *; exact le_trans h₁ h₂)
      (fun a b => by simpa using le_total a.1 b.1) L
  exact (hle.and (List.pairwise_map.1 (nodup_mergeSort hd))).imp fun ⟨h₁, h₂⟩ => lt_of_le_of_ne (by simpa using h₁) h₂

/-- The sorted pairs are apart exactly when no path of `L` is a proper prefix of another. -/
theorem apart_mergeSort_iff :
    Apart (L.mergeSort fun left right => decide (left.1 ≤ right.1)) ↔ ¬ ∃ x ∈ L, ∃ y ∈ L, x.1 <+: y.1 ∧ x.1 ≠ y.1 := by
  have hperm := List.mergeSort_perm L fun left right => decide (left.1 ≤ right.1)
  constructor
  · rintro hA ⟨x, hx, y, hy, hxy, hne⟩
    exact (hA.forall (fun _ _ h => h.symm) (hperm.mem_iff.2 hx) (hperm.mem_iff.2 hy) fun h => hne (h ▸ rfl)).1 hxy
  · refine fun hno => ((nodup_mergeSort hd).of_map _).pairwise_of_forall_ne fun x hx y hy hxy => ?_
    have hne : x.1 ≠ y.1 := fun h => hxy (List.inj_on_of_nodup_map (nodup_mergeSort hd) hx hy h)
    exact ⟨fun h => hno ⟨x, hperm.mem_iff.1 hx, y, hperm.mem_iff.1 hy, h, hne⟩,
      fun h => hno ⟨y, hperm.mem_iff.1 hy, x, hperm.mem_iff.1 hx, h, Ne.symm hne⟩⟩

end Sorting

/-- **`from_iter` on pairs with distinct paths**: it panics with `Insertion blocked: bad subtree!`
exactly when one path is a proper prefix of another; otherwise it builds a well-formed tree whose
`into_iter` yields exactly the pairs, each once. -/
theorem fromIter_spec (L : List (Path × SubtreeEntry)) (hd : (L.map Prod.fst).Nodup) :
    (Tree.fromIter L = .error "Insertion blocked: bad subtree!" ↔ ∃ x ∈ L, ∃ y ∈ L, x.1 <+: y.1 ∧ x.1 ≠ y.1) ∧
    ((¬ ∃ x ∈ L, ∃ y ∈ L, x.1 <+: y.1 ∧ x.1 ≠ y.1) →
      ∃ t l, Tree.fromIter L = .ok t ∧ t.WellFormed ∧ t.items = .ok l ∧ l.Perm L) := by
  have hapart := apart_mergeSort_iff hd
  have hview : (Tree.ofBTreeMap .empty).view = View.ofLeaves [] := funext fun q => by cases q <;> rfl
  obtain ⟨hok, herr⟩ := @foldlM_insertPair _ [] (Tree.ofBTreeMap .empty) (wellFormed_ofLeaves _ _) hview
    List.Pairwise.nil (lt_mergeSort hd) (by simp)
  rw [List.nil_append] at hok herr
  refine ⟨⟨fun h => ?_, fun h => herr (hapart.not.2 (not_not.2 h))⟩, fun h => ?_⟩
  · by_contra hno
    obtain ⟨t', ht', -⟩ := hok (hapart.2 hno)
    rw [fromIter, ht'] at h
    cases h
  · obtain ⟨t', ht', hwf, hv'⟩ := hok (hapart.2 h)
    obtain ⟨l, hl, hnd', hc⟩ := items_nodup_mem hwf
    refine ⟨t', l, ht', hwf, hl, (List.perm_ext_iff_of_nodup hnd' (hd.of_map _)).2 fun x => ?_⟩
    rw [hc, hv', View.ofLeaves_opaque (nodup_mergeSort hd), Prod.mk.eta, (List.mergeSort_perm _ _).mem_iff]

/-- Two distinct paths, one under the other: `from_iter` panics on them. -/
theorem fromIter_spec_nested :
    (([([[97]], .File .zero 0), ([[97], [98]], .File .zero 1)] : List (Path × SubtreeEntry)).map Prod.fst).Nodup ∧
    (Tree.fromIter [([[97]], .File .zero 0), ([[97], [98]], .File .zero 1)] = .error "Insertion blocked: bad subtree!" ↔
      ∃ x ∈ ([([[97]], .File .zero 0), ([[97], [98]], .File .zero 1)] : List (Path × SubtreeEntry)), ∃ y ∈ ([([[97]], .File .zero 0), ([[97], [98]], .File .zero 1)] : List (Path × SubtreeEntry)),
        x.1 <+: y.1 ∧ x.1 ≠ y.1) ∧
    ((¬ ∃ x ∈ ([([[97]], .File .zero 0), ([[97], [98]], .File .zero 1)] : List (Path × SubtreeEntry)), ∃ y ∈ ([([[97]], .File .zero 0), ([[97], [98]], .File .zero 1)] : List (Path × SubtreeEntry)),
        x.1 <+: y.1 ∧ x.1 ≠ y.1) →
      ∃ t l, Tree.fromIter [([[97]], .File .zero 0), ([[97], [98]], .File .zero 1)] = .ok t ∧ t.WellFormed ∧ t.items = .ok l ∧ l.Perm [([[97]], .File .zero 0), ([[97], [98]], .File .zero 1)]) :=
  ⟨by decide, fromIter_spec _ (by decide)⟩

end Tree

end Attaca
