import Attaca.Map
/-!
# Tree — the editable directory tree of `marshal/tree.rs`

The tree is an arena of optional nodes (`Arena`) and a root id.  A node is `Opaque`, an entry not
expanded into memory, or `Transparent`, a map from a component to a child id.  `entry` walks a path
from the root and stops `Occupied`, `Vacant` or `Blocked`; the three entry types then edit the arena
(`insert`, `replace`, `remove`, `unblock`).  `IntoIter` is the depth-first iteration.  The
marshaller (`marshal_inner`) is modelled in `Marshal.lean`.

Each function is the code's, step for step, under its own name: `Arena.index`, `Arena.set` and
`Arena.take` are `&arena[node_id]`, `arena[node_id] = slot` and `arena[node_id].take()`; the methods
of `OccupiedEntry`, `VacantEntry`, `Blocked` and `Tree` keep theirs; `Tree.ofHashMap`,
`Tree.ofBTreeMap`, `Tree.ofSubtreeEntry` and `Tree.fromIter` are the `From` and `FromIterator`
impls.  `SubtreeEntry` and `SubtreeObject` are those of `marshal/object.rs`.  A panic is the error
of the outer `Except String`, with the code's message; a `Result` of the code is the inner `Except`.

`OsString` is its bytes.  A `PathBuf` is its components (`Path`), compared component by component
as Rust compares them, and `from_iter` is given each key's `key.iter()`.  `IntoIter` builds each
path with `path.join(component)`, here `path ++ [component]`: `iter` reads the joined path back as
the same components when each is normal, nonempty, without `/` and neither `.` nor `..`
(`PathBuf.iter_ofComponents`, where `join` and `iter` are modelled on bytes).
-/
namespace Attaca

/-- `OsString` on Unix: its bytes. -/
abbrev OsString := List (Fin 256)

/-- A `PathBuf`, as its components. -/
abbrev Path := List OsString

/-- Modelled from the spec: `marshal::ObjectHash`, a fixed-size digest (32 bytes of SHA3-256). -/
structure ObjectHash where
  bytes : List UInt8
  size_eq : bytes.length = 32
  deriving DecidableEq, Repr

def ObjectHash.zero : ObjectHash := ⟨List.replicate 32 0, rfl⟩

instance : Inhabited ObjectHash := ⟨.zero⟩

inductive SubtreeEntry where
  | File (hash : ObjectHash) (size : UInt64)
  | Subtree (hash : ObjectHash)
  deriving DecidableEq, Repr, Inhabited

def SubtreeEntry.hash : SubtreeEntry → ObjectHash
  | .File hash _ => hash
  | .Subtree hash => hash

structure SubtreeObject where
  entries : BTreeMap OsString SubtreeEntry

@[ext] structure NodeId where
  val : Nat
  deriving DecidableEq, Repr, Inhabited

inductive Node where
  | Opaque (entry : SubtreeEntry)
  | Transparent (entries : HashMap OsString NodeId)

structure Arena where
  entries : List (Option Node)

def indexOutOfBounds : String := "index out of bounds"

namespace Arena

def index (a : Arena) (nodeId : NodeId) : Except String (Option Node) :=
  match a.entries[nodeId.val]? with
  | some slot => .ok slot
  | none => .error indexOutOfBounds

def set (a : Arena) (nodeId : NodeId) (slot : Option Node) : Except String Arena :=
  if nodeId.val < a.entries.length then .ok ⟨a.entries.set nodeId.val slot⟩ else .error indexOutOfBounds

def take (a : Arena) (nodeId : NodeId) : Except String (Option Node × Arena) := do
  let slot ← a.index nodeId
  return (slot, ⟨a.entries.set nodeId.val none⟩)

def alloc (a : Arena) (nodeOpt : Option Node) : Arena × NodeId :=
  (⟨a.entries ++ [nodeOpt]⟩, ⟨a.entries.length⟩)

end Arena

structure Tree where
  arena : Arena
  root : NodeId

structure OccupiedEntry where
  nodeId : NodeId
  tree : Tree
  emptyIter : List OsString

structure VacantEntry where
  nodeId : NodeId
  immediateComponentOpt : Option OsString
  remainingPath : List OsString
  tree : Tree

inductive Entry where
  | Occupied (entry : OccupiedEntry)
  | Vacant (entry : VacantEntry)

structure Blocked where
  blockingId : NodeId
  immediateComponent : OsString
  remainingPath : List OsString
  tree : Tree

def OccupiedEntry.intoInner (o : OccupiedEntry) : Tree := o.tree

def VacantEntry.intoInner (v : VacantEntry) : Tree := v.tree

def Blocked.intoInner (b : Blocked) : Tree := b.tree

def OccupiedEntry.replace (o : OccupiedEntry) (entry : SubtreeEntry) : Except String OccupiedEntry := do
  let arena ← o.tree.arena.set o.nodeId (some (.Opaque entry))
  return { o with tree := { o.tree with arena } }

def OccupiedEntry.remove (o : OccupiedEntry) : Except String VacantEntry := do
  let (slot, arena) ← o.tree.arena.take o.nodeId
  if slot.isSome then
    return ⟨o.nodeId, none, o.emptyIter, { o.tree with arena }⟩
  else
    throw "assertion failed: tree.arena[node_id].take().is_some()"

/-- The `while let` loop of `VacantEntry::insert` and the store after it: a fresh `Transparent`
node for each remaining component, then the entry at the last one. -/
def Arena.grow (a : Arena) (current : NodeId) (entry : SubtreeEntry) :
    List OsString → Except String (Arena × NodeId)
  | [] => do return (← a.set current (some (.Opaque entry)), current)
  | immediatePath :: remainingPath => do
    let (a, immediateNodeId) := a.alloc none
    let a ← a.set current (some (.Transparent (.singleton immediatePath immediateNodeId)))
    a.grow immediateNodeId entry remainingPath

def VacantEntry.insert (v : VacantEntry) (entry : SubtreeEntry) : Except String OccupiedEntry := do
  let (arena, current) ← match v.immediateComponentOpt with
    | some immediateComponent => do
      let (arena, immediateNodeId) := v.tree.arena.alloc none
      let arena ← match ← arena.index v.nodeId with
        | some (.Transparent entries) =>
          arena.set v.nodeId (some (.Transparent (entries.insert immediateComponent immediateNodeId)))
        | some _ => throw "Entry isn't actually vacant!"
        | none => arena.set v.nodeId (some (.Transparent (.singleton immediateComponent immediateNodeId)))
      pure (arena, immediateNodeId)
    | none => pure (v.tree.arena, v.nodeId)
  let (arena, current) ← arena.grow current entry v.remainingPath
  return ⟨current, { v.tree with arena }, []⟩

/-- Where the loop of `entry_from` broke. -/
inductive Preliminary where
  | Blocked (immediateComponent : OsString)
  | Occupied
  | Vacant (immediateComponentOpt : Option OsString)

/-- The loop of `entry_from`: the break, the node it happened at, and the components after it. -/
def Arena.walkFrom (a : Arena) : NodeId → List OsString → Except String (Preliminary × NodeId × List OsString)
  | current, [] => .ok (.Occupied, current, [])
  | current, immediateComponent :: path => do
    match ← a.index current with
    | some (.Opaque _) => return (.Blocked immediateComponent, current, path)
    | some (.Transparent entries) =>
      match entries.get immediateComponent with
      | some nodeId => a.walkFrom nodeId path
      | none => return (.Vacant (some immediateComponent), current, path)
    | none => return (.Vacant none, current, path)

/-- `Tree::entry_from`: the loop reads `pre_chain` and then `path`. -/
def Tree.entryFrom (t : Tree) (current : NodeId) (preChain : Option OsString) (path : List OsString) :
    Except String (Except Blocked Entry) := do
  let (preliminary, current, path) ← t.arena.walkFrom current (preChain.toList ++ path)
  return match preliminary with
  | .Blocked immediateComponent => .error ⟨current, immediateComponent, path, t⟩
  | .Occupied => .ok (.Occupied ⟨current, t, path⟩)
  | .Vacant immediateComponentOpt => .ok (.Vacant ⟨current, immediateComponentOpt, path, t⟩)

def Tree.entry (t : Tree) (path : Path) : Except String (Except Blocked Entry) :=
  t.entryFrom t.root none path

def Node.shift (offset : Nat) : Node → Node
  | .Opaque entry => .Opaque entry
  | .Transparent entries => .Transparent (entries.mapValues fun nodeId => ⟨nodeId.val + offset⟩)

/-- `Tree::append`: the subtree's arena copied onto the end, its ids moved up by the old length. -/
def Tree.append (t subtree : Tree) : Tree × NodeId :=
  let offset := t.arena.entries.length
  ({ t with arena := ⟨t.arena.entries ++ subtree.arena.entries.map (Option.map (Node.shift offset))⟩ },
    ⟨subtree.root.val + offset⟩)

def Blocked.unblock (b : Blocked) (subtree : Tree) : Except String (Except Blocked Entry) := do
  let (tree, subtreeRoot) := b.tree.append subtree
  let (slot, arena) ← tree.arena.take subtreeRoot
  let arena ← arena.set b.blockingId slot
  { tree with arena }.entryFrom b.blockingId (some b.immediateComponent) b.remainingPath

def Blocked.objectHash (b : Blocked) : Except String ObjectHash := do
  match ← b.tree.arena.index b.blockingId with
  | some (.Opaque entry) => return entry.hash
  | _ => throw "Tree traversal not actually blocked!"

/-- The `map` of the `From` impls for maps: one `Opaque` node per entry, in iteration order. -/
def Arena.allocLeaves (a : Arena) : List (OsString × SubtreeEntry) → Arena × List (OsString × NodeId)
  | [] => (a, [])
  | (key, value) :: rest =>
    let (a, nodeId) := a.alloc (some (.Opaque value))
    let (a, ids) := a.allocLeaves rest
    (a, (key, nodeId) :: ids)

theorem Arena.allocLeaves_keys (a : Arena) :
    ∀ l : List (OsString × SubtreeEntry), (a.allocLeaves l).2.map Prod.fst = l.map Prod.fst
  | [] => rfl
  | (key, value) :: rest => by simp [allocLeaves, allocLeaves_keys _ rest]

/-- `From<HashMap<OsString, SubtreeEntry>>` and `From<BTreeMap<OsString, SubtreeEntry>>`, whose
bodies are the same: the entries as `Opaque` nodes, then a `Transparent` root over them. -/
def Tree.ofLeaves (subtree : List (OsString × SubtreeEntry)) (h : (subtree.map Prod.fst).Nodup) : Tree :=
  let leaves := Arena.allocLeaves ⟨[]⟩ subtree
  let (arena, root) := leaves.1.alloc
    (some (.Transparent ⟨leaves.2, (Arena.allocLeaves_keys ⟨[]⟩ subtree).symm ▸ h⟩))
  ⟨arena, root⟩

def Tree.ofHashMap (subtree : HashMap OsString SubtreeEntry) : Tree :=
  Tree.ofLeaves subtree.entries subtree.nodup_keys

def Tree.ofBTreeMap (subtree : BTreeMap OsString SubtreeEntry) : Tree :=
  Tree.ofLeaves subtree.entries subtree.keys_nodup

def Tree.ofSubtreeEntry (rootHash : SubtreeEntry) : Tree :=
  let (arena, root) := Arena.alloc ⟨[]⟩ (some (.Opaque rootHash))
  ⟨arena, root⟩

/-- The body of the loop of `from_iter`: one path inserted, or its entry replaced. -/
def Tree.insertPair (tree : Tree) : Path × SubtreeEntry → Except String Tree
  | (key, value) => do
    match ← tree.entry key with
    | .ok (.Vacant vacant) => return (← vacant.insert value).intoInner
    | .ok (.Occupied occupied) => return (← occupied.replace value).intoInner
    | .error _ => throw "Insertion blocked: bad subtree!"

/-- `FromIterator<(PathBuf, SubtreeEntry)> for Tree`: sorted by path, then inserted one by one. -/
def Tree.fromIter (iter : List (Path × SubtreeEntry)) : Except String Tree :=
  let toInsert := iter.mergeSort fun left right => decide (left.1 ≤ right.1)
  toInsert.foldlM Tree.insertPair (Tree.ofBTreeMap .empty)

structure IntoIter where
  stack : List (Path × NodeId)
  arena : Arena

def Tree.intoIter (t : Tree) : IntoIter := ⟨[([], t.root)], t.arena⟩

def unwrapNone : String := "called `Option::unwrap()` on a `None` value"

def outOfFuel : String := "out of fuel"

/-- `IntoIter::next`, called until it returns `None`: the items, in order.  At a `Transparent` node
`next` pushes the children and calls itself, so one call may pop many nodes; here every pop is one
round of one loop, on fuel.  Each pop takes a live slot or panics, so `fuel` beyond the number of
live slots is never used up, and more fuel changes nothing (`IntoIter.collect_add` and
`Tree.intoIter_spec` in `TreeIter.lean`).  The stack's top is its head. -/
def IntoIter.collect : Nat → IntoIter → Except String (List (Path × SubtreeEntry))
  | 0, _ => throw outOfFuel
  | _ + 1, ⟨[], _⟩ => return []
  | fuel + 1, ⟨(path, nodeId) :: stack, arena⟩ => do
    let (node, arena) ← arena.take nodeId
    match node with
    | none => throw unwrapNone
    | some (.Opaque entry) => return (path, entry) :: (← IntoIter.collect fuel ⟨stack, arena⟩)
    | some (.Transparent entries) =>
      IntoIter.collect fuel
        ⟨(entries.entries.map fun (component, nodeId) => (path ++ [component], nodeId)).reverse ++ stack, arena⟩

def Tree.items (t : Tree) : Except String (List (Path × SubtreeEntry)) :=
  t.intoIter.collect (t.arena.entries.length + 1)

end Attaca
