import Attaca.Tree
/-!
# TreeWalk — what a tree denotes, and when it is well formed

`Arena.walk` follows a path through `Transparent` maps; `Tree.view` reads what sits at the end of it:
an `Opaque` entry, a `Transparent` directory, or nothing.  The view is the tree's denotation: two
trees with the same view are the same directory tree, whatever their arenas look like.

A tree is well formed (`Tree.WellFormed`) when every node reachable from the root is a live slot and
no slot is reachable along two paths.  The second half is what keeps an edit at one path from
showing up at another.

The abstract edits at the end (`View.addLeaf`, `View.graft`, `View.prune`, `View.splice`) say what
`insert`, `replace`, `remove` and `unblock` are meant to do to the denotation.
-/
namespace Attaca

section Except

variable {ε α β : Type} {x : α} {e : ε} {f : α → Except ε β}

@[simp] theorem except_ok_bind : (Except.ok x : Except ε α) >>= f = f x := rfl

@[simp] theorem except_error_bind : (Except.error e : Except ε α) >>= f = .error e := rfl

@[simp] theorem except_pure : (pure x : Except ε α) = .ok x := rfl

end Except

/-- The child at component `c` of a `Transparent` node. -/
def Node.child (node : Node) (c : OsString) : Option NodeId :=
  match node with
  | .Transparent entries => entries.get c
  | .Opaque _ => none

@[simp] theorem Node.child_transparent (entries : HashMap OsString NodeId) (c : OsString) :
    (Node.Transparent entries).child c = entries.get c := rfl

@[simp] theorem Node.child_opaque (e : SubtreeEntry) (c : OsString) : (Node.Opaque e).child c = none := rfl

namespace Arena

/-- The node in a slot: `none` for an empty slot and for one out of bounds. -/
def slot (a : Arena) (n : NodeId) : Option Node := a.entries[n.val]?.join

/-- The arena with one slot overwritten; what `set` and `take` leave in bounds. -/
def update (a : Arena) (n : NodeId) (x : Option Node) : Arena := ⟨a.entries.set n.val x⟩

/-- The child of `n` at component `c`, when `n` is a `Transparent` node with one. -/
def child (a : Arena) (n : NodeId) (c : OsString) : Option NodeId := (a.slot n).bind (Node.child · c)

/-- The node reached from `n` along a path through `Transparent` maps. -/
def walk (a : Arena) (n : NodeId) : Path → Option NodeId
  | [] => some n
  | c :: q => (a.child n c).bind fun m => a.walk m q

variable {a a' : Arena} {n m : NodeId} {x : Option Node}

@[simp] theorem update_length : (a.update n x).entries.length = a.entries.length := by simp [update]

@[simp] theorem alloc_length : (a.alloc x).1.entries.length = a.entries.length + 1 := by simp [alloc]

@[simp] theorem alloc_id : (a.alloc x).2 = ⟨a.entries.length⟩ := rfl

theorem slot_update (h : n.val < a.entries.length) :
    (a.update n x).slot m = if m = n then x else a.slot m := by
  by_cases hm : m = n
  · subst hm; simp [slot, update, h]
  · have : n.val ≠ m.val := fun h' => hm (NodeId.ext h'.symm)
    simp [slot, update, List.getElem?_set, this, hm]

theorem slot_alloc : (a.alloc x).1.slot m = if m.val = a.entries.length then x else a.slot m := by
  show (a.entries ++ [x])[m.val]?.join = if m.val = a.entries.length then x else a.entries[m.val]?.join
  rcases lt_trichotomy m.val a.entries.length with h | h | h
  · rw [List.getElem?_append_left h, if_neg h.ne]
  · simp [h]
  · have h₁ : (a.entries ++ [x]).length ≤ m.val := by simp; omega
    rw [if_neg h.ne', List.getElem?_eq_none h₁, List.getElem?_eq_none h.le]

theorem lt_of_slot (h : (a.slot n).isSome) : n.val < a.entries.length := by
  by_contra hn
  simp [slot, List.getElem?_eq_none (Nat.le_of_not_lt hn)] at h

theorem index_of_lt (h : n.val < a.entries.length) : a.index n = .ok (a.slot n) := by
  simp [index, slot, h]

theorem set_of_lt (h : n.val < a.entries.length) : a.set n x = .ok (a.update n x) := by
  simp [set, update, h]

theorem take_of_lt (h : n.val < a.entries.length) : a.take n = .ok (a.slot n, a.update n none) := by
  simp [take, index_of_lt h, update, bind, Except.bind, pure, Except.pure]

@[simp] theorem walk_nil : a.walk n [] = some n := rfl

theorem walk_cons (c : OsString) (q : Path) : a.walk n (c :: q) = (a.child n c).bind (a.walk · q) := rfl

theorem child_of_slot {node : Node} {c : OsString} (h : a.slot n = some node) : a.child n c = node.child c := by
  simp [child, h]

theorem child_eq_some {c : OsString} :
    a.child n c = some m ↔ ∃ entries, a.slot n = some (.Transparent entries) ∧ entries.get c = some m := by
  unfold child
  cases a.slot n with
  | none => simp
  | some node => cases node <;> simp [Node.child]

theorem child_of_transparent {entries : HashMap OsString NodeId} {c : OsString}
    (h : a.slot n = some (.Transparent entries)) : a.child n c = some m ↔ (c, m) ∈ entries.entries := by
  rw [child_of_slot h, Node.child_transparent, HashMap.get_eq_some_iff]

theorem lt_of_child {c : OsString} (h : a.child n c = some m) : n.val < a.entries.length := by
  obtain ⟨entries, h, -⟩ := child_eq_some.1 h
  exact lt_of_slot (by simp [h])

theorem walk_cons_eq_some {c : OsString} {q : Path} :
    a.walk n (c :: q) = some m ↔ ∃ k, a.child n c = some k ∧ a.walk k q = some m := by
  simp [walk_cons, Option.bind_eq_some]

theorem walk_append : ∀ (q q' : Path) (n : NodeId), a.walk n (q ++ q') = (a.walk n q).bind (a.walk · q')
  | [], _, _ => rfl
  | c :: q, q', n => by
    rw [List.cons_append, walk_cons, walk_cons]
    cases a.child n c with
    | none => rfl
    | some k => exact walk_append q q' k

theorem walk_append_of_walk {q q' : Path} (h : a.walk n q = some m) : a.walk n (q ++ q') = a.walk m q' := by
  rw [walk_append, h]; rfl

/-- **Frame**: a walk reads only the children it steps to. -/
theorem walk_congr : ∀ {q : Path} {n : NodeId},
    (∀ q₁ c q₂ m, q = q₁ ++ c :: q₂ → a.walk n q₁ = some m → a'.child m c = a.child m c) →
      a'.walk n q = a.walk n q
  | [], _, _ => rfl
  | c :: q, n, h => by
    rw [walk_cons, walk_cons, h [] c q n rfl rfl]
    cases hk : a.child n c with
    | none => rfl
    | some k =>
      exact walk_congr fun q₁ c' q₂ m hq hw =>
        h (c :: q₁) c' q₂ m (by rw [hq]; rfl) (walk_cons_eq_some.2 ⟨k, hk, hw⟩)

theorem child_congr {c : OsString} (h : a'.slot n = a.slot n) : a'.child n c = a.child n c := by
  simp only [child, h]

end Arena

/-- What sits at a path: an entry not expanded into memory, or a directory. -/
inductive Kind where
  | Opaque (entry : SubtreeEntry)
  | Transparent
  deriving DecidableEq, Repr

def Node.kind : Node → Kind
  | .Opaque entry => .Opaque entry
  | .Transparent _ => .Transparent

/-- A directory tree, as what sits at each path. -/
abbrev View := Path → Option Kind

/-- **The tree's denotation.** -/
def Tree.view (t : Tree) : View := fun q =>
  (t.arena.walk t.root q).bind fun n => (t.arena.slot n).map Node.kind

/-- A leaf sits at a path exactly when the walk along it ends at an `Opaque` node. -/
theorem Tree.view_opaque_iff {t : Tree} {q : Path} {e : SubtreeEntry} :
    t.view q = some (.Opaque e) ↔ ∃ m, t.arena.walk t.root q = some m ∧ t.arena.slot m = some (.Opaque e) := by
  simp only [view, Option.bind_eq_some, Option.map_eq_some']
  constructor
  · rintro ⟨m, hm, node, hn, hk⟩
    cases node with
    | Opaque e' => exact ⟨m, hm, by cases hk; exact hn⟩
    | Transparent _ => cases hk
  · rintro ⟨m, hm, hn⟩
    exact ⟨m, hm, _, hn, rfl⟩

/-- The root and every node reachable from it are live slots, and no slot is reachable along two
different paths. -/
structure Tree.WellFormed (t : Tree) : Prop where
  live : ∀ q n, t.arena.walk t.root q = some n → (t.arena.slot n).isSome
  unique : ∀ q q' n, t.arena.walk t.root q = some n → t.arena.walk t.root q' = some n → q = q'

namespace Tree.WellFormed

variable {t : Tree} (ht : t.WellFormed) {q : Path} {n : NodeId}
include ht

theorem lt_length (h : t.arena.walk t.root q = some n) : n.val < t.arena.entries.length :=
  Arena.lt_of_slot (ht.live q n h)

theorem exists_slot (h : t.arena.walk t.root q = some n) : ∃ node, t.arena.slot n = some node :=
  Option.isSome_iff_exists.1 (ht.live q n h)

/-- **A reachable path is shorter than the arena**: its prefixes reach distinct live slots. -/
theorem length_lt (h : t.arena.walk t.root q = some n) : q.length < t.arena.entries.length := by
  have hwalk : ∀ i ≤ q.length, ∃ m, t.arena.walk t.root (q.take i) = some m := by
    intro i _
    have : t.arena.walk t.root (q.take i ++ q.drop i) = _ := Arena.walk_append (q.take i) (q.drop i) t.root
    rw [List.take_append_drop, h] at this
    cases hw : t.arena.walk t.root (q.take i) with
    | none => simp [hw] at this
    | some m => exact ⟨m, rfl⟩
  let nodes := (List.range (q.length + 1)).map fun i => ((t.arena.walk t.root (q.take i)).getD ⟨0⟩).val
  have hnodup : nodes.Nodup := by
    refine List.Nodup.map_on (fun i hi j hj hij => ?_) (List.nodup_range _)
    obtain ⟨m, hm⟩ := hwalk i (by simpa [Nat.lt_succ_iff] using hi)
    obtain ⟨m', hm'⟩ := hwalk j (by simpa [Nat.lt_succ_iff] using hj)
    rw [hm, hm'] at hij
    obtain rfl : m = m' := NodeId.ext hij
    have := congrArg List.length (ht.unique _ _ _ hm hm')
    simp only [List.length_take] at this
    simp only [List.mem_range] at hi hj
    omega
  have hsub : nodes ⊆ List.range t.arena.entries.length := by
    intro x hx
    obtain ⟨i, hi, rfl⟩ := List.mem_map.1 hx
    obtain ⟨m, hm⟩ := hwalk i (by simpa [Nat.lt_succ_iff] using hi)
    simpa [hm] using ht.lt_length hm
  simpa [nodes] using (List.subperm_of_subset hnodup hsub).length_le

end Tree.WellFormed

/-- The tree of one leaf is well formed. -/
theorem Tree.wellFormed_ofSubtreeEntry (rootHash : SubtreeEntry) : (Tree.ofSubtreeEntry rootHash).WellFormed := by
  have hroot : (Tree.ofSubtreeEntry rootHash).arena.slot (Tree.ofSubtreeEntry rootHash).root = some (.Opaque rootHash) := rfl
  have hw : ∀ {q n}, (Tree.ofSubtreeEntry rootHash).arena.walk (Tree.ofSubtreeEntry rootHash).root q = some n →
      q = [] ∧ n = (Tree.ofSubtreeEntry rootHash).root := fun {q n} h => by
    cases q with
    | nil => exact ⟨rfl, (Option.some.inj h).symm⟩
    | cons c q => simp [Arena.walk_cons, Arena.child_of_slot hroot] at h
  exact ⟨fun q n h => by rw [(hw h).2, hroot]; rfl, fun q q' n h h' => (hw h).1.trans (hw h').1.symm⟩

namespace View

/-- The leaf `e` at `p`, and a directory at every path above it. -/
def addLeaf (d : View) (p : Path) (e : SubtreeEntry) : View := fun q =>
  if q = p then some (.Opaque e) else if q <+: p then some .Transparent else d q

/-- The node at `p`, and everything under it, replaced by the leaf `e`. -/
def graft (d : View) (p : Path) (e : SubtreeEntry) : View := fun q =>
  if q = p then some (.Opaque e) else if p <+: q then none else d q

/-- The node at `p`, and everything under it, deleted. -/
def prune (d : View) (p : Path) : View := fun q => if p <+: q then none else d q

/-- The node at `p`, and everything under it, replaced by the directory tree `d'`. -/
def splice (d : View) (p : Path) (d' : View) : View := fun q => if p <+: q then d' (q.drop p.length) else d q

end View

end Attaca
