import Attaca.TreeBuilt
/-!
# TreeRemove — `OccupiedEntry::remove` leaves a dangling child

`remove` empties the node's slot but leaves the parent's map pointing at it.  On every well-formed
tree, what is left denotes the right tree, `View.prune` of the old one (`view_remove`), but the walk
to the path still succeeds, so it is no longer well formed (`remove_not_wellFormed`): `entry` at the
path is still `Occupied` (`entry_remove`), and an `entry` below it stops `Vacant` at the empty slot
with no immediate component, so the component after the path is dropped (`entry_remove_extends`).
On the smallest such tree `into_iter` and `marshal` panic on the empty slot, and an insert through
the dropped component lands at the path itself (`remove_dangling_child`).
-/
namespace Attaca

namespace Tree

variable {t : Tree} {p : Path} {m : NodeId} (ht : t.WellFormed) (hp : t.arena.walk t.root p = some m)
include ht hp

/-- `remove` takes the node out of its slot and nothing else. -/
theorem remove_eq : (⟨m, t, []⟩ : OccupiedEntry).remove = .ok ⟨m, none, [], ⟨t.arena.update m none, t.root⟩⟩ := by
  obtain ⟨node, hnode⟩ := ht.exists_slot hp
  simp [OccupiedEntry.remove, Arena.take_of_lt (ht.lt_length hp), hnode]

/-- The walk to a removed node still reaches it: no map on the way was touched. -/
theorem walk_remove : (t.arena.update m none).walk t.root p = some m := walk_update_self ht hp none

theorem walk_remove_extends (d : OsString) (r : Path) : (t.arena.update m none).walk t.root (p ++ d :: r) = none := by
  simp [Arena.walk_append_of_walk (walk_remove ht hp), Arena.walk_cons, Arena.child, Arena.slot_update (ht.lt_length hp)]

/-- **The denotation is right**: what `remove` leaves denotes the tree with the node at `p` and
everything under it deleted.  Only the representation is broken. -/
theorem view_remove (r : Path) : (⟨t.arena.update m none, t.root⟩ : Tree).view r = View.prune t.view p r := by
  by_cases hpr : p <+: r
  · obtain ⟨_ | ⟨d, r'⟩, rfl⟩ := hpr
    · simp [Tree.view, View.prune, walk_remove ht hp, Arena.slot_update (ht.lt_length hp)]
    · simp [Tree.view, View.prune, walk_remove_extends ht hp]
  · have hr : ∀ d r', r ≠ p ++ d :: r' := fun d r' h => hpr ⟨_, h.symm⟩
    simp only [Tree.view, View.prune, if_neg hpr, walk_update_of_not_extends ht hp none hr]
    cases hw : t.arena.walk t.root r with
    | none => rfl
    | some n =>
      have hn : n ≠ m := by rintro rfl; exact hpr (ht.unique _ _ _ hw hp ▸ List.prefix_refl _)
      simp [Arena.slot_update (ht.lt_length hp), hn]

theorem remove_not_wellFormed : ¬ (⟨t.arena.update m none, t.root⟩ : Tree).WellFormed := fun h' => by
  have := h'.live p m (walk_remove ht hp)
  simp [Arena.slot_update (ht.lt_length hp)] at this

/-- `entry` at the removed path is still `Occupied`, at the empty slot. -/
theorem entry_remove :
    (⟨t.arena.update m none, t.root⟩ : Tree).entry p = .ok (.ok (.Occupied ⟨m, ⟨t.arena.update m none, t.root⟩, []⟩)) :=
  entry_occupied (walk_remove ht hp)

/-- **Below the removed path, `entry` drops a component**: it stops `Vacant` at the empty slot with
no immediate component, and the component after the path is gone from the remaining path. -/
theorem entry_remove_extends (c : OsString) (rest : List OsString) :
    (⟨t.arena.update m none, t.root⟩ : Tree).entry (p ++ c :: rest) =
      .ok (.ok (.Vacant ⟨m, none, rest, ⟨t.arena.update m none, t.root⟩⟩)) :=
  entry_hole (walk_remove ht hp) (by simpa using ht.lt_length hp) (by simp [Arena.slot_update (ht.lt_length hp)])

end Tree

/-- **`remove` on the tree of one file `a`**: what is left denotes the empty directory but is not well
formed.  The file is still `Occupied` after its removal, `into_iter` and some run of `marshal` panic
on its empty slot, and an entry at `a/b` drops `b`, so inserting through it puts the leaf at `a`,
where the walk to `a/b` is then blocked. -/
theorem remove_dangling_child :
    (Tree.ofHashMap (.singleton [97] (.File .zero 0))).entry [[97]] =
      .ok (.ok (.Occupied ⟨⟨0⟩, Tree.ofHashMap (.singleton [97] (.File .zero 0)), []⟩)) ∧
    ∃ r : Tree, (⟨⟨0⟩, Tree.ofHashMap (.singleton [97] (.File .zero 0)), []⟩ : OccupiedEntry).remove =
        .ok ⟨⟨0⟩, none, [], r⟩ ∧
      (∀ q, r.view q = View.prune (Tree.ofHashMap (.singleton [97] (.File .zero 0))).view [[97]] q) ∧
      ¬ r.WellFormed ∧ r.items = .error unwrapNone ∧
      (∀ M : Marshaller, ∃ c, Relation.ReflTransGen (Marshalling.Poll M) r.marshalStart c ∧
        c.future = .panicked unwrapNone) ∧
      r.entry [[97]] = .ok (.ok (.Occupied ⟨⟨0⟩, r, []⟩)) ∧
      r.entry [[97], [98]] = .ok (.ok (.Vacant ⟨⟨0⟩, none, [], r⟩)) ∧
      ∃ o : OccupiedEntry, (⟨⟨0⟩, none, [], r⟩ : VacantEntry).insert (.File .zero 0) = .ok o ∧
        o.intoInner.entry [[97], [98]] = .ok (.error ⟨⟨0⟩, [98], [], o.intoInner⟩) := by
  have ht : (Tree.ofHashMap (.singleton [97] (.File .zero 0))).WellFormed := Tree.wellFormed_ofLeaves _ _
  have hp : (Tree.ofHashMap (.singleton [97] (.File .zero 0))).arena.walk
      (Tree.ofHashMap (.singleton [97] (.File .zero 0))).root [[97]] = some ⟨0⟩ := rfl
  refine ⟨Tree.entry_occupied hp, _, Tree.remove_eq ht hp, Tree.view_remove ht hp, Tree.remove_not_wellFormed ht hp, rfl,
    fun M => ⟨⟨⟨[none, none]⟩, .panicked unwrapNone, []⟩, ?_, rfl⟩, Tree.entry_remove ht hp,
    Tree.entry_remove_extends ht hp [98] [], _, rfl, rfl⟩
  have h₁ : Marshalling.Poll M ⟨⟨[none, some (.Transparent (.singleton [97] ⟨0⟩))]⟩, .start ⟨1⟩, []⟩
      ⟨⟨[none, none]⟩, .folding ⟨1⟩ [([97], .start ⟨0⟩)] .empty, []⟩ :=
    ⟨[], @Step.takeTransparent M _ _ _ (.singleton [97] ⟨0⟩) rfl, rfl⟩
  have h₂ : Marshalling.Poll M ⟨⟨[none, none]⟩, .folding ⟨1⟩ [([97], .start ⟨0⟩)] .empty, []⟩
      ⟨⟨[none, none]⟩, .folding ⟨1⟩ [([97], .panicked unwrapNone)] .empty, []⟩ :=
    ⟨[], .poll [] [] (.takeNone (by rfl)), rfl⟩
  exact .tail (.tail (.single h₁) h₂) ⟨[], .panic [] [], rfl⟩

end Attaca
