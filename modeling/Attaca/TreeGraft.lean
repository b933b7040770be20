import Attaca.TreeEntry
/-!
# TreeGraft — `append` and `unblock`

`unblock` copies the fetched subtree onto the end of the arena (`Tree.append`), moves its root node
into the blocking slot and empties the copied root slot, then resumes the walk.  On a blocked walk
of a well-formed tree, with a well-formed subtree, the grafted tree is well formed
(`Grafted.wellFormed`), denotes the old tree with the subtree in place of the blocking leaf
(`Grafted.view_under`, `Grafted.view_outside`), and the resumed walk returns what `entry` returns on
it (`Grafted.unblock_eq`).  So `unblock` returns, up to node ids, what `entry` returns on any
well-formed tree denoting the old one with the subtree spliced in (`unblock_spec`).
-/
namespace Attaca

theorem Node.kind_shift (offset : Nat) (node : Node) : (node.shift offset).kind = node.kind := by
  cases node <;> rfl

@[simp] theorem Node.kind_comp_shift (offset : Nat) : Node.kind ∘ Node.shift offset = Node.kind :=
  funext (Node.kind_shift offset)

namespace Tree

variable {t s : Tree}

theorem slot_append (n : NodeId) :
    (t.append s).1.arena.slot n = if n.val < t.arena.entries.length then t.arena.slot n
      else (s.arena.slot ⟨n.val - t.arena.entries.length⟩).map (Node.shift t.arena.entries.length) := by
  simp only [append, Arena.slot]
  split
  · rename_i h; rw [List.getElem?_append_left h]
  · rename_i h
    rw [List.getElem?_append_right (by omega), List.getElem?_map]
    cases s.arena.entries[n.val - t.arena.entries.length]? with
    | none => rfl
    | some x => cases x <;> rfl

theorem append_length : (t.append s).1.arena.entries.length = t.arena.entries.length + s.arena.entries.length := by
  simp [append]

theorem child_of_slot_shift {a b : Arena} {n k : NodeId} (offset : Nat)
    (h : a.slot n = (b.slot k).map (Node.shift offset)) (d : OsString) :
    a.child n d = (b.child k d).map fun k => ⟨k.val + offset⟩ := by
  simp only [Arena.child, h]
  cases b.slot k with
  | none => rfl
  | some node => cases node <;> simp [Node.shift, Node.child]

/-- The grafted arena of `unblock`, before the walk resumes: the subtree appended, its root node
moved into `blockingId`, its copied root slot emptied. -/
def graftArena (t s : Tree) (blockingId : NodeId) : Arena :=
  ((t.append s).1.arena.update (t.append s).2 none).update blockingId
    ((t.append s).1.arena.slot (t.append s).2)

section Graft

variable {q : Path} {m : NodeId} {e : SubtreeEntry} (ht : t.WellFormed) (hs : s.WellFormed)
  (hq : t.arena.walk t.root q = some m) (he : t.arena.slot m = some (.Opaque e))
include ht hs hq

omit hs in
theorem graftArena_slot_m :
    (graftArena t s m).slot m = (s.arena.slot s.root).map (Node.shift t.arena.entries.length) := by
  have hm := ht.lt_length hq
  rw [graftArena, Arena.slot_update (by simp [append_length]; omega), if_pos rfl, slot_append,
    if_neg (by simp [append])]
  simp [append]

theorem graftArena_slot_old {n : NodeId} (hn : n.val < t.arena.entries.length) (hne : n ≠ m) :
    (graftArena t s m).slot n = t.arena.slot n := by
  have hm := ht.lt_length hq
  have hr : s.root.val < s.arena.entries.length := hs.lt_length (show s.arena.walk s.root [] = _ from rfl)
  rw [graftArena, Arena.slot_update (by simp [append_length]; omega), if_neg hne,
    Arena.slot_update (by simp [append_length, append]; omega),
    if_neg (fun h => by rw [h] at hn; simp [append] at hn), slot_append, if_pos hn]

theorem graftArena_slot_new {k : NodeId} (hk : k ≠ s.root) :
    (graftArena t s m).slot ⟨k.val + t.arena.entries.length⟩ =
      (s.arena.slot k).map (Node.shift t.arena.entries.length) := by
  have hm := ht.lt_length hq
  have hr : s.root.val < s.arena.entries.length := hs.lt_length (show s.arena.walk s.root [] = _ from rfl)
  have hk' : k.val ≠ s.root.val := fun h => hk (NodeId.ext h)
  rw [graftArena, Arena.slot_update (by simp [append_length]; omega), if_neg (by simp [NodeId.ext_iff]; omega),
    Arena.slot_update (by simp [append_length, append]; omega), if_neg (by simp [append, NodeId.ext_iff]; omega),
    slot_append, if_neg (by simp)]
  simp

theorem walk_graft_shift : ∀ (r : Path) {r₀ : Path} {k : NodeId}, r₀ ≠ [] → s.arena.walk s.root r₀ = some k →
    (graftArena t s m).walk ⟨k.val + t.arena.entries.length⟩ r =
      (s.arena.walk k r).map fun k => ⟨k.val + t.arena.entries.length⟩
  | [], _, _, _, _ => rfl
  | d :: r, r₀, k, h₀, hk => by
    have hne : k ≠ s.root := fun h => h₀ (hs.unique _ _ _ hk (by rw [h]; rfl))
    rw [Arena.walk_cons, Arena.walk_cons, child_of_slot_shift _ (graftArena_slot_new ht hs hq hne)]
    cases hc : s.arena.child k d with
    | none => rfl
    | some k' =>
      exact walk_graft_shift r (List.append_ne_nil_of_left_ne_nil h₀ [d])
        (by rw [Arena.walk_append_of_walk hk]; simp [Arena.walk_cons, hc])

theorem walk_graft_outside {r : Path} (hr : ∀ d r', r ≠ q ++ d :: r') :
    (graftArena t s m).walk t.root r = t.arena.walk t.root r := by
  refine Arena.walk_congr fun r₁ d r₂ m' hr₁ hw => Arena.child_congr ?_
  refine graftArena_slot_old ht hs hq (ht.lt_length hw) ?_
  rintro rfl
  exact hr d r₂ (by rw [hr₁, ht.unique _ _ _ hw hq])

theorem walk_graft_blocking : (graftArena t s m).walk t.root q = some m := by
  rw [walk_graft_outside ht hs hq fun d r' h => by simpa using congrArg List.length h, hq]

theorem walk_graft_under (r : Path) :
    (graftArena t s m).walk t.root (q ++ r) =
      if r = [] then some m else (s.arena.walk s.root r).map fun k => ⟨k.val + t.arena.entries.length⟩ := by
  rw [Arena.walk_append_of_walk (walk_graft_blocking ht hs hq)]
  cases r with
  | nil => rfl
  | cons d r =>
    rw [if_neg (List.cons_ne_nil d r), Arena.walk_cons, Arena.walk_cons,
      child_of_slot_shift _ (graftArena_slot_m ht hq)]
    cases hc : s.arena.child s.root d with
    | none => rfl
    | some k => exact walk_graft_shift ht hs hq r (List.cons_ne_nil d []) (by simp [Arena.walk_cons, hc])

omit ht hs hq in
theorem not_prefix_of_outside {r : Path} (hr : ¬ q <+: r) : ∀ d r', r ≠ q ++ d :: r' :=
  fun d r' h => hr ⟨d :: r', h.symm⟩

/-- Outside the blocking path, the grafted tree is the old one. -/
theorem Grafted.view_outside {r : Path} (hr : ¬ q <+: r) :
    (⟨graftArena t s m, t.root⟩ : Tree).view r = t.view r := by
  simp only [view, walk_graft_outside ht hs hq (not_prefix_of_outside hr)]
  cases hw : t.arena.walk t.root r with
  | none => rfl
  | some n =>
    have hn : n ≠ m := by rintro rfl; exact hr (ht.unique _ _ _ hw hq ▸ List.prefix_refl r)
    simp [graftArena_slot_old ht hs hq (ht.lt_length hw) hn]

/-- **Under the blocking path, the grafted tree is the subtree.** -/
theorem Grafted.view_under (r : Path) : (⟨graftArena t s m, t.root⟩ : Tree).view (q ++ r) = s.view r := by
  simp only [view, walk_graft_under ht hs hq]
  split
  · subst_vars
    simp [graftArena_slot_m ht hq, Node.kind_shift]
  · rename_i hr
    cases hw : s.arena.walk s.root r with
    | none => rfl
    | some k =>
      have hk : k ≠ s.root := fun h => hr (hs.unique _ _ _ hw (by rw [h]; rfl))
      simp [graftArena_slot_new ht hs hq hk, Node.kind_shift]

/-- **The grafted tree is the old one with the subtree spliced in at the blocking path.** -/
theorem Grafted.view : (⟨graftArena t s m, t.root⟩ : Tree).view = t.view.splice q s.view := funext fun r => by
  by_cases hr : q <+: r
  · obtain ⟨r', rfl⟩ := hr
    rw [View.splice, if_pos (List.prefix_append _ _), List.drop_left, Grafted.view_under ht hs hq]
  · rw [View.splice, if_neg hr, Grafted.view_outside ht hs hq hr]

/-- Where a walk in the grafted tree ends: at the blocking node, in the copied subtree, or where it
ended in the old tree. -/
theorem walk_graft_some {r : Path} {n : NodeId} (h : (graftArena t s m).walk t.root r = some n) :
    (r = q ∧ n = m) ∨
    (∃ r' k, r = q ++ r' ∧ r' ≠ [] ∧ s.arena.walk s.root r' = some k ∧ n = ⟨k.val + t.arena.entries.length⟩) ∨
    (¬ q <+: r ∧ t.arena.walk t.root r = some n) := by
  by_cases hr : q <+: r
  · obtain ⟨r', rfl⟩ := hr
    rw [walk_graft_under ht hs hq] at h
    split at h
    · subst_vars; exact .inl ⟨by simp, (Option.some.inj h).symm⟩
    · obtain ⟨k, hk, rfl⟩ := Option.map_eq_some'.1 h
      exact .inr (.inl ⟨r', k, rfl, ‹_›, hk, rfl⟩)
  · exact .inr (.inr ⟨hr, walk_graft_outside ht hs hq (not_prefix_of_outside hr) ▸ h⟩)

theorem Grafted.wellFormed : (⟨graftArena t s m, t.root⟩ : Tree).WellFormed := by
  have hm := ht.lt_length hq
  refine ⟨fun r n h => ?_, fun r₁ r₂ n h₁ h₂ => ?_⟩
  · show ((graftArena t s m).slot n).isSome
    rcases walk_graft_some ht hs hq h with ⟨-, rfl⟩ | ⟨r', k, -, hr', hk, rfl⟩ | ⟨hr, hw⟩
    · simpa [graftArena_slot_m ht hq] using hs.live [] s.root rfl
    · have hne : k ≠ s.root := fun h => hr' (hs.unique _ _ _ hk (by rw [h]; rfl))
      simpa [graftArena_slot_new ht hs hq hne] using hs.live r' k hk
    · have hn : n ≠ m := by rintro rfl; exact hr (ht.unique _ _ _ hw hq ▸ List.prefix_refl r)
      rw [graftArena_slot_old ht hs hq (ht.lt_length hw) hn]; exact ht.live r n hw
  · rcases walk_graft_some ht hs hq h₁ with ⟨hr₁, hn₁⟩ | ⟨r₁', k₁, hr₁, hne₁, hk₁, hn₁⟩ | ⟨hr₁, hw₁⟩ <;>
      rcases walk_graft_some ht hs hq h₂ with ⟨hr₂, hn₂⟩ | ⟨r₂', k₂, hr₂, hne₂, hk₂, hn₂⟩ | ⟨hr₂, hw₂⟩
    · rw [hr₁, hr₂]
    · exact absurd hm (by rw [← hn₁, hn₂]; simp)
    · exact absurd (ht.unique _ _ _ (hn₁ ▸ hw₂) hq ▸ List.prefix_refl _) hr₂
    · exact absurd hm (by rw [← hn₂, hn₁]; simp)
    · have hk : k₁ = k₂ := NodeId.ext (by simpa using hn₁.symm.trans hn₂)
      subst hk
      rw [hr₁, hr₂, hs.unique _ _ _ hk₁ hk₂]
    · exact absurd (ht.lt_length hw₂) (by rw [hn₁]; simp)
    · exact absurd (ht.unique _ _ _ (hn₂ ▸ hw₁) hq ▸ List.prefix_refl _) hr₁
    · exact absurd (ht.lt_length hw₁) (by rw [hn₂]; simp)
    · exact ht.unique _ _ _ hw₁ hw₂

/-- **`unblock` resumes the walk**: what it returns is what `entry` returns on the grafted tree. -/
theorem Grafted.unblock_eq (c : OsString) (rest : List OsString) :
    (⟨m, c, rest, t⟩ : Blocked).unblock s = (⟨graftArena t s m, t.root⟩ : Tree).entry (q ++ c :: rest) := by
  have hm := ht.lt_length hq
  have hr : s.root.val < s.arena.entries.length := hs.lt_length (show s.arena.walk s.root [] = _ from rfl)
  rw [entry_of_walk (walk_graft_blocking ht hs hq)]
  simp only [Blocked.unblock, append]
  rw [Arena.take_of_lt, except_ok_bind, Arena.set_of_lt, except_ok_bind]
  · rfl
  · simp; omega
  · simp; omega

end Graft

/-- **`unblock` resumes `entry` on the tree with the fetched subtree in place.**  On a blocked walk
of a well-formed tree, stopped at the leaf at `q`, and for a well-formed subtree, `unblock` returns
what `entry` of the same path returns, up to node ids, on every well-formed tree that denotes the
old one with the subtree at `q`; the tree it carries is such a tree.  `append` keeps every slot of
the old arena and copies the subtree's after it, each child id moved up by the old length. -/
theorem unblock_spec (ht : t.WellFormed) (hs : s.WellFormed) {p : Path} {b : Blocked}
    (hb : t.entry p = .ok (.error b)) :
    (∃ q c rest e r, p = q ++ c :: rest ∧ t.arena.walk t.root q = some b.blockingId ∧
      t.arena.slot b.blockingId = some (.Opaque e) ∧ b.unblock s = .ok r ∧
      (∀ u : Tree, u.WellFormed → u.view = t.view.splice q s.view → (u.entry p).map Reached.of = .ok (Reached.of r)) ∧
      (entryInner r).WellFormed ∧ (entryInner r).view = t.view.splice q s.view) ∧
    (t.append s).1.root = t.root ∧
    (t.append s).1.arena.entries.length = t.arena.entries.length + s.arena.entries.length ∧
    (∀ n : NodeId, n.val < t.arena.entries.length → (t.append s).1.arena.slot n = t.arena.slot n) ∧
    (∀ k : NodeId, (t.append s).1.arena.slot ⟨k.val + t.arena.entries.length⟩ =
      (s.arena.slot k).map (Node.shift t.arena.entries.length)) ∧
    (t.append s).2 = ⟨s.root.val + t.arena.entries.length⟩ := by
  obtain ⟨q, c, rest, m, e, rfl, hq, he, rfl⟩ := (entry_blocked_iff ht b).1 hb
  have hwf := Grafted.wellFormed ht hs hq
  have hv := Grafted.view ht hs hq
  obtain ⟨r, hr⟩ : ∃ r, (⟨graftArena t s m, t.root⟩ : Tree).entry (q ++ c :: rest) = .ok r := by
    have hok := entry_reached hwf (q ++ c :: rest)
    cases h : (⟨graftArena t s m, t.root⟩ : Tree).entry (q ++ c :: rest) with
    | error err => rw [h] at hok; cases hok
    | ok r => exact ⟨r, rfl⟩
  refine ⟨⟨q, c, rest, e, r, rfl, hq, he, (Grafted.unblock_eq ht hs hq c rest).trans hr, fun u hu hvu => ?_,
    entryInner_of_entry hwf hr ▸ hwf, entryInner_of_entry hwf hr ▸ hv⟩, rfl, append_length, fun n hn => ?_,
    fun k => ?_, rfl⟩
  · rw [entry_reached hu, hvu, ← hv, ← entry_reached hwf, hr]; rfl
  · rw [slot_append, if_pos hn]
  · rw [slot_append, if_neg (by simp), Nat.add_sub_cancel]

/-- In the sample tree, the stub `d` blocks `d/e`; unblocked with a directory holding the file `e`,
the resumed walk finds `d/e` occupied. -/
theorem unblock_spec_sample :
    ∃ t s : Tree, Tree.fromIter sampleLeaves = .ok t ∧ s = Tree.ofHashMap (.singleton [101] (.File .zero 2)) ∧
      t.WellFormed ∧ s.WellFormed ∧ ∃ b, t.entry [[100], [101]] = .ok (.error b) ∧
      (∃ r o, b.unblock s = .ok r ∧ r = .ok (.Occupied o)) ∧
      (∃ q c rest e r, [[100], [101]] = q ++ c :: rest ∧ t.arena.walk t.root q = some b.blockingId ∧
        t.arena.slot b.blockingId = some (.Opaque e) ∧ b.unblock s = .ok r ∧
        (∀ u : Tree, u.WellFormed → u.view = t.view.splice q s.view →
          (u.entry [[100], [101]]).map Reached.of = .ok (Reached.of r)) ∧
        (entryInner r).WellFormed ∧ (entryInner r).view = t.view.splice q s.view) ∧
      (t.append s).1.root = t.root ∧
      (t.append s).1.arena.entries.length = t.arena.entries.length + s.arena.entries.length ∧
      (∀ n : NodeId, n.val < t.arena.entries.length → (t.append s).1.arena.slot n = t.arena.slot n) ∧
      (∀ k : NodeId, (t.append s).1.arena.slot ⟨k.val + t.arena.entries.length⟩ =
        (s.arena.slot k).map (Node.shift t.arena.entries.length)) ∧
      (t.append s).2 = ⟨s.root.val + t.arena.entries.length⟩ := by
  have h₀ : Tree.fromIter sampleLeaves = .ok _ := fromIter_sampleLeaves.trans rfl
  exact ⟨_, _, h₀, rfl, fromIter_wellFormed h₀, wellFormed_ofLeaves _ _, _, rfl, ⟨_, _, rfl, rfl⟩,
    unblock_spec (fromIter_wellFormed h₀) (wellFormed_ofLeaves _ _) rfl⟩

end Tree

end Attaca
