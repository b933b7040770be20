import Attaca.TreeIter
/-!
# Marshal — `Tree::marshal` under every scheduling of its futures

`marshal_inner` takes its node out of the shared arena when its future is first polled.  An `Opaque`
node is handed to the marshaller; a `Transparent` node spawns one future per child into a
`futures_unordered` stream, folds the children's results into a `BTreeMap` in the order they
complete, and hands the `SubtreeObject` to the marshaller.  A `Future` is the state of one such
future, and `Step` is one poll that makes progress.  Any pending child may be polled next and any
finished child may be folded in next, so the runs of `Step` are all the schedulings of the code.
`Marshalling` adds the log of `process` calls, each with the node whose future made it.

`Marshaller.fold` is what marshalling a node should give: the node's own entry, or the digest of the
map of its children's results.  On a well-formed tree (`marshal_spec`) every run terminates, no run
panics, and a run ends exactly when the root future has a result: `fold` of the root, after one
`process` call per reachable node and with every reachable slot taken, or an error when `fold` finds a
failing `process` call.  `fold` depends on the tree's view only (`fold_eq_of_view_eq`), so the root
digest does not depend on the arena's layout, the maps' order or the scheduling.
-/
namespace Attaca

/-- Modelled from the spec: the marshaller's two `process` calls (not in the source).  Processing a
hash records the presence of an object; processing a `SubtreeObject` installs it in the store and
returns its digest.  Either may fail. -/
structure Marshaller where
  processHash : ObjectHash → Except String Unit
  processSubtree : SubtreeObject → Except String ObjectHash

/-- The state of the future `marshal_inner` returns for a node. -/
inductive Future where
  /-- Not yet polled: the node is still in the arena. -/
  | start (nodeId : NodeId)
  /-- A `Transparent` node's children still pending in `futures_unordered`, and the fold's map. -/
  | folding (nodeId : NodeId) (pending : List (OsString × Future)) (map : BTreeMap OsString SubtreeEntry)
  | ok (entry : SubtreeEntry)
  | err (error : String)
  | panicked (msg : String)

/-- The future, or one of its pending children, has panicked. -/
inductive Future.Panics : Future → Prop
  | panicked {msg} : Panics (.panicked msg)
  | child {n pending map key f} : (key, f) ∈ pending → Panics f → Panics (.folding n pending map)

/-- The future that has resolved to `r`. -/
def Future.ofResult : Except String SubtreeEntry → Future
  | .ok entry => .ok entry
  | .error error => .err error

/-- One poll of a future that makes progress, on the shared arena, with the nodes whose `process`
call it makes. -/
inductive Step (M : Marshaller) : Arena → Future → Arena → Future → List NodeId → Prop
  /-- `this.lock().unwrap()[node_id]` out of bounds. -/
  | takeError {a n msg} : a.take n = .error msg → Step M a (.start n) a (.panicked msg) []
  /-- `take().unwrap()` on an empty slot. -/
  | takeNone {a a' n} : a.take n = .ok (none, a') → Step M a (.start n) a' (.panicked unwrapNone) []
  | takeOpaque {a a' n e} : a.take n = .ok (some (.Opaque e), a') →
      Step M a (.start n) a' (.ofResult ((M.processHash e.hash).map fun _ => e)) [n]
  | takeTransparent {a a' n entries} : a.take n = .ok (some (.Transparent entries), a') →
      Step M a (.start n) a' (.folding n (entries.entries.map fun (key, nodeId) => (key, .start nodeId)) .empty) []
  /-- Any pending child is polled. -/
  | poll {a a' f f' l n key map} (pre post : List (OsString × Future)) : Step M a f a' f' l →
      Step M a (.folding n (pre ++ (key, f) :: post) map) a' (.folding n (pre ++ (key, f') :: post) map) l
  /-- Any finished child is folded into the map. -/
  | collect {a n key e map} (pre post : List (OsString × Future)) :
      Step M a (.folding n (pre ++ (key, .ok e) :: post) map) a (.folding n (pre ++ post) (map.insert key e)) []
  | fail {a n key x map} (pre post : List (OsString × Future)) :
      Step M a (.folding n (pre ++ (key, .err x) :: post) map) a (.err x) []
  | panic {a n key x map} (pre post : List (OsString × Future)) :
      Step M a (.folding n (pre ++ (key, .panicked x) :: post) map) a (.panicked x) []
  /-- The stream is exhausted: `marshaller.process(SubtreeObject { entries })`. -/
  | process {a n map} : Step M a (.folding n [] map) a (.ofResult ((M.processSubtree ⟨map⟩).map .Subtree)) [n]

/-- `Tree::marshal` mid-run: the shared arena, the root's future, and the `process` calls made so
far, each with the node whose future made it. -/
structure Marshalling where
  arena : Arena
  future : Future
  calls : List NodeId

namespace Marshalling

/-- One poll of the root future. -/
def Poll (M : Marshaller) (c c' : Marshalling) : Prop :=
  ∃ l, Step M c.arena c.future c'.arena c'.future l ∧ c'.calls = c.calls ++ l

/-- What `marshal` returns once its root future has resolved: `Ok(entry.hash())`, or the error. -/
def result (c : Marshalling) : Option (Except String ObjectHash) :=
  match c.future with
  | .ok entry => some (.ok entry.hash)
  | .err error => some (.error error)
  | _ => none

end Marshalling

/-- `Tree::marshal` before its first poll. -/
def Tree.marshalStart (t : Tree) : Marshalling := ⟨t.arena, .start t.root, []⟩

/-- **What marshalling the node `n` should give**, with fuel for the depth: an `Opaque` node's own
entry once its hash is processed, and a `Transparent` node's digest for the map of its children's
results.  `none` when a `process` call fails. -/
def Marshaller.fold (M : Marshaller) (a : Arena) : Nat → NodeId → Option SubtreeEntry
  | 0, _ => none
  | fuel + 1, n =>
    match a.slot n with
    | some (.Opaque e) => ((M.processHash e.hash).map fun _ => e).toOption
    | some (.Transparent entries) =>
      (entries.entries.mapM fun child => (M.fold a fuel child.2).map (child.1, ·)).bind fun children =>
        ((M.processSubtree ⟨.ofList children⟩).map .Subtree).toOption
    | none => none

namespace Tree

/-- What marshalling the node at `q` should give: the fuel is the height left under `q`. -/
def foldAt (t : Tree) (M : Marshaller) (q : Path) : Option SubtreeEntry :=
  (t.arena.walk t.root q).bind (M.fold t.arena (t.arena.entries.length - q.length))

/-- What marshalling the tree should give. -/
def fold (t : Tree) (M : Marshaller) : Option SubtreeEntry := t.foldAt M []

/-- The node `m` is reachable from the root. -/
def Reachable (t : Tree) (m : NodeId) : Prop := ∃ q, t.arena.walk t.root q = some m

/-- The node `m` is reached along a path through `q`. -/
def Under (t : Tree) (q : Path) (m : NodeId) : Prop := ∃ r, t.arena.walk t.root (q ++ r) = some m

end Tree

/-! ## Every run terminates

A take empties a live slot, and every other step shrinks the futures: the pair of the arena's live
slots and the futures' size falls lexicographically. -/

namespace Arena

variable {a a' : Arena} {n : NodeId} {x : Option Node}

theorem take_ok (h : a.take n = .ok (x, a')) : n.val < a.entries.length ∧ x = a.slot n ∧ a' = a.update n none := by
  by_cases hn : n.val < a.entries.length
  · rw [take_of_lt hn] at h
    cases h
    exact ⟨hn, rfl, rfl⟩
  · simp [take, index, List.getElem?_eq_none (Nat.le_of_not_lt hn)] at h

theorem countP_set_none_le : ∀ (l : List (Option Node)) (i : Nat),
    (l.set i none).countP Option.isSome ≤ l.countP Option.isSome
  | [], _ => by simp
  | x :: l, 0 => by simp [List.countP_cons]
  | x :: l, i + 1 => by
    simp only [List.set_cons_succ, List.countP_cons]
    have := countP_set_none_le l i
    omega

theorem somes_update_none_le : (a.update n none).somes ≤ a.somes := countP_set_none_le _ _

end Arena

/-- The number of pending polls in a future. -/
def Future.size : Future → Nat
  | .start _ => 1
  | .folding _ pending _ => sizes pending + 1
  | .ok _ | .err _ | .panicked _ => 0
where sizes : List (OsString × Future) → Nat
  | [] => 0
  | (_, f) :: rest => f.size + 1 + sizes rest

theorem Future.sizes_append (l l' : List (OsString × Future)) :
    Future.size.sizes (l ++ l') = Future.size.sizes l + Future.size.sizes l' := by
  induction l with
  | nil => simp [Future.size.sizes]
  | cons x l ih =>
    obtain ⟨key, f⟩ := x
    rw [List.cons_append, Future.size.sizes, Future.size.sizes, ih]
    omega

theorem Future.size_ofResult (r : Except String SubtreeEntry) : (Future.ofResult r).size = 0 := by
  cases r <;> rfl

/-- **One step's progress**: the live slots never grow, and either they shrink or the futures do. -/
theorem Step.decreases {M : Marshaller} {a a' : Arena} {f f' : Future} {l : List NodeId}
    (h : Step M a f a' f' l) : a'.somes ≤ a.somes ∧ (a'.somes < a.somes ∨ f'.size < f.size) := by
  induction h with
  | takeError => simp [Future.size]
  | takeNone h =>
    obtain ⟨-, -, rfl⟩ := Arena.take_ok h
    exact ⟨Arena.somes_update_none_le, .inr (by simp [Future.size])⟩
  | takeOpaque h | takeTransparent h =>
    obtain ⟨-, hx, rfl⟩ := Arena.take_ok h
    have := Arena.somes_update_none (Option.isSome_iff_exists.2 ⟨_, hx.symm⟩)
    omega
  | poll pre post _ ih =>
    simp only [Future.size, Future.sizes_append, Future.size.sizes]
    omega
  | collect pre post =>
    simp only [Future.size, Future.sizes_append, Future.size.sizes]
    omega
  | fail pre post | panic pre post => simp [Future.size, Future.sizes_append, Future.size.sizes]
  | process => simp [Future.size, Future.size_ofResult]

/-- **No run of `marshal` is infinite**, whatever the tree and the scheduling. -/
theorem Marshalling.poll_wellFounded (M : Marshaller) : WellFounded fun c' c => Marshalling.Poll M c c' := by
  refine Subrelation.wf (fun {c' c} h => ?_)
    (InvImage.wf (fun c : Marshalling => (c.arena.somes, c.future.size)) (WellFounded.prod_lex wellFounded_lt wellFounded_lt))
  obtain ⟨l, hs, -⟩ := h
  obtain ⟨hle, hlt | hlt⟩ := hs.decreases
  · exact Prod.Lex.left _ _ hlt
  · rcases Nat.lt_or_eq_of_le hle with h | h
    · exact Prod.Lex.left _ _ h
    · show Prod.Lex _ _ (c'.arena.somes, _) (c.arena.somes, _)
      rw [h]
      exact Prod.Lex.right _ hlt

/-! ## What `fold` computes -/

section MapM

variable {κ α ν : Type}

/-- `mapM` over key–child pairs when every child has a value: the pairs of keys and values. -/
theorem mapM_pairs_some (φ : α → Option ν) : ∀ {l : List (κ × α)}, (∀ x ∈ l, (φ x.2).isSome) →
    ∃ L, (l.mapM fun x => (φ x.2).map (x.1, ·)) = some L ∧ L.map Prod.fst = l.map Prod.fst ∧
      ∀ k v, (k, v) ∈ L ↔ ∃ c, (k, c) ∈ l ∧ φ c = some v
  | [], _ => ⟨[], rfl, rfl, by simp⟩
  | x :: l, h => by
    obtain ⟨v, hv⟩ := Option.isSome_iff_exists.1 (h x (List.mem_cons_self _ _))
    obtain ⟨L, hL, hkeys, hmem⟩ := mapM_pairs_some φ fun y hy => h y (List.mem_cons_of_mem _ hy)
    refine ⟨(x.1, v) :: L, by simp only [List.mapM_cons, hv, hL]; rfl, by simp [hkeys], fun k w => ?_⟩
    rw [List.mem_cons, hmem]
    constructor
    · rintro (h | ⟨c, hc, hw⟩)
      · obtain ⟨rfl, rfl⟩ := Prod.mk.inj h
        exact ⟨x.2, List.mem_cons_self _ _, hv⟩
      · exact ⟨c, List.mem_cons_of_mem _ hc, hw⟩
    · rintro ⟨c, hc, hw⟩
      rcases List.mem_cons.1 hc with hc | hc
      · subst hc
        exact .inl (by rw [hv] at hw; cases hw; rfl)
      · exact .inr ⟨c, hc, hw⟩

theorem mapM_pairs_none (φ : α → Option ν) {x : κ × α} (h : φ x.2 = none) : ∀ {l : List (κ × α)}, x ∈ l →
    (l.mapM fun x => (φ x.2).map (x.1, ·)) = none
  | y :: l, hx => by
    rcases List.mem_cons.1 hx with rfl | hx
    · simp only [List.mapM_cons, h]; rfl
    · cases hy : φ y.2 <;> simp only [List.mapM_cons, hy, mapM_pairs_none φ h hx] <;> rfl

end MapM

namespace Marshaller

variable (M : Marshaller) {a : Arena} {n : NodeId} (fuel : Nat)

theorem fold_opaque {e : SubtreeEntry} (hn : a.slot n = some (.Opaque e)) :
    M.fold a (fuel + 1) n = ((M.processHash e.hash).map fun _ => e).toOption := by
  simp [fold, hn]

theorem fold_transparent {entries : HashMap OsString NodeId} (hn : a.slot n = some (.Transparent entries)) :
    M.fold a (fuel + 1) n = (entries.entries.mapM fun child => (M.fold a fuel child.2).map (child.1, ·)).bind
      fun children => ((M.processSubtree ⟨.ofList children⟩).map .Subtree).toOption := by
  simp [fold, hn]

end Marshaller

namespace Tree

section Under

variable {t : Tree} {M : Marshaller} {q : Path} {n m : NodeId}

theorem under_self (hw : t.arena.walk t.root q = some n) : t.Under q n := ⟨[], by simpa using hw⟩

theorem Under.of_child {k : OsString} : t.Under (q ++ [k]) m → t.Under q m :=
  fun ⟨r, h⟩ => ⟨k :: r, by simpa using h⟩

theorem walk_child {k : OsString} {c : NodeId} (hw : t.arena.walk t.root q = some n) (hc : t.arena.child n k = some c) :
    t.arena.walk t.root (q ++ [k]) = some c := by
  simp [Arena.walk_append_of_walk hw, Arena.walk_cons, hc]

/-- A node under `q` is the node at `q`, or under one of its children. -/
theorem under_cases (hw : t.arena.walk t.root q = some n) (h : t.Under q m) :
    m = n ∨ ∃ k c, t.arena.child n k = some c ∧ t.Under (q ++ [k]) m := by
  obtain ⟨r, hr⟩ := h
  cases r with
  | nil => exact .inl (Option.some.inj ((List.append_nil q ▸ hr).symm.trans hw))
  | cons k r =>
    rw [Arena.walk_append_of_walk hw, Arena.walk_cons_eq_some] at hr
    obtain ⟨c, hc, hr⟩ := hr
    exact .inr ⟨k, c, hc, r, by rw [Arena.walk_append_of_walk (walk_child hw hc)]; exact hr⟩

theorem under_transparent {entries : HashMap OsString NodeId} (hw : t.arena.walk t.root q = some n)
    (hn : t.arena.slot n = some (.Transparent entries)) (h : t.Under q m) :
    m = n ∨ ∃ k ∈ entries.entries.map Prod.fst, t.Under (q ++ [k]) m := by
  exact (under_cases hw h).imp_right fun ⟨k, c, hc, hm⟩ =>
    ⟨k, List.mem_map.2 ⟨_, (Arena.child_of_transparent hn).1 hc, rfl⟩, hm⟩

theorem under_opaque {e : SubtreeEntry} (hw : t.arena.walk t.root q = some n) (hn : t.arena.slot n = some (.Opaque e))
    (h : t.Under q m) : m = n :=
  (under_cases hw h).resolve_right fun ⟨k, c, hc, _⟩ => by simp [Arena.child_of_slot hn] at hc

theorem foldAt_child {k : OsString} {c : NodeId} (hw : t.arena.walk t.root q = some n) (hc : t.arena.child n k = some c) :
    t.foldAt M (q ++ [k]) = M.fold t.arena (t.arena.entries.length - (q.length + 1)) c := by
  simp [foldAt, walk_child hw hc]

section WellFormed

variable (ht : t.WellFormed)
include ht

theorem not_under_child (hw : t.arena.walk t.root q = some n) (k : OsString) : ¬ t.Under (q ++ [k]) n := by
  rintro ⟨r, hr⟩
  have := congrArg List.length (ht.unique _ _ _ hr hw)
  simp at this

theorem under_child_apart {k k' : OsString} (hk : k ≠ k') (h : t.Under (q ++ [k]) m) : ¬ t.Under (q ++ [k']) m := by
  rintro ⟨r', hr'⟩
  obtain ⟨r, hr⟩ := h
  have := ht.unique _ _ _ hr hr'
  simp at this
  exact hk this.1

theorem foldAt_of_walk (hw : t.arena.walk t.root q = some n) :
    t.foldAt M q = M.fold t.arena (t.arena.entries.length - (q.length + 1) + 1) n := by
  have := ht.length_lt hw
  simp only [foldAt, hw, Option.some_bind]
  congr 1
  omega

end WellFormed

end Under

/-! ## The invariant of a run

`Marshals t M a calls q f` says that `f` is the future of the node at `q`, partway: a future not yet
polled finds every slot under `q` as the tree had it, and no `process` call made under `q`; a
resolved future holds `foldAt q`, with every slot under `q` taken and every node under `q` processed
once; a folding future has taken its own slot, folded some children in (`done`) and has the others
pending.  It reads the arena and the log only under `q`, so a sibling's steps leave it true. -/

/-- The future of the node at `q` has resolved to `e`. -/
def Marshalled (t : Tree) (M : Marshaller) (a : Arena) (calls : List NodeId) (q : Path) (e : SubtreeEntry) : Prop :=
  t.foldAt M q = some e ∧ ∀ m, t.Under q m → a.slot m = none ∧ calls.count m = 1

inductive Marshals (t : Tree) (M : Marshaller) (a : Arena) (calls : List NodeId) : Path → Future → Prop
  | start {q n} : t.arena.walk t.root q = some n →
      (∀ m, t.Under q m → a.slot m = t.arena.slot m ∧ calls.count m = 0) → Marshals t M a calls q (.start n)
  | ok {q e} : t.Marshalled M a calls q e → Marshals t M a calls q (.ok e)
  | err {q x} : t.foldAt M q = none → (∀ m, t.Under q m → calls.count m ≤ 1) → Marshals t M a calls q (.err x)
  | folding {q n entries pending} (done : List (OsString × SubtreeEntry)) :
      t.arena.walk t.root q = some n → t.arena.slot n = some (.Transparent entries) → a.slot n = none →
      calls.count n = 0 → (done.map Prod.fst ++ pending.map Prod.fst).Perm (entries.entries.map Prod.fst) →
      (∀ k e, (k, e) ∈ done → t.Marshalled M a calls (q ++ [k]) e) →
      (∀ k f, (k, f) ∈ pending → Marshals t M a calls (q ++ [k]) f) →
      Marshals t M a calls q (.folding n pending (.ofList done))

variable {t : Tree} {M : Marshaller} {q : Path} {n m : NodeId} {a a' : Arena} {calls calls' : List NodeId}
  {e : SubtreeEntry} {f : Future}

theorem Marshalled.congr (h : t.Marshalled M a calls q e) (ha : ∀ m, t.Under q m → a'.slot m = a.slot m)
    (hc : ∀ m, t.Under q m → calls'.count m = calls.count m) : t.Marshalled M a' calls' q e :=
  ⟨h.1, fun m hm => by rw [ha m hm, hc m hm]; exact h.2 m hm⟩

/-- **Frame**: a future's invariant reads the arena and the log only under its path. -/
theorem Marshals.congr (h : t.Marshals M a calls q f) : (∀ m, t.Under q m → a'.slot m = a.slot m) →
    (∀ m, t.Under q m → calls'.count m = calls.count m) → t.Marshals M a' calls' q f := by
  induction h with
  | start hw h => exact fun ha hc => .start hw fun m hm => by rw [ha m hm, hc m hm]; exact h m hm
  | ok h => exact fun ha hc => .ok (h.congr ha hc)
  | err h hle => exact fun _ hc => .err h fun m hm => hc m hm ▸ hle m hm
  | folding done hw hn hs hcn hkeys hdone _ ih =>
    intro ha hc
    refine .folding done hw hn (by rw [ha _ (under_self hw), hs]) (by rw [hc _ (under_self hw), hcn]) hkeys
      (fun k e hke => (hdone k e hke).congr (fun m hm => ha m hm.of_child) (fun m hm => hc m hm.of_child))
      (fun k f hkf => ih k f hkf (fun m hm => ha m hm.of_child) (fun m hm => hc m hm.of_child))

theorem Marshals.count_le (h : t.Marshals M a calls q f) : ∀ m, t.Under q m → calls.count m ≤ 1 := by
  induction h with
  | start _ h => exact fun m hm => (h m hm).2 ▸ Nat.zero_le 1
  | ok h => exact fun m hm => (h.2 m hm).2.le
  | err _ hle => exact hle
  | @folding q n entries pending done hw hn _ hcn hkeys hdone _ ih =>
    intro m hm
    rcases under_transparent hw hn hm with rfl | ⟨k, hk, hm⟩
    · omega
    · rcases List.mem_append.1 (hkeys.mem_iff.2 hk) with hk | hk
      · obtain ⟨⟨k, e⟩, hke, rfl⟩ := List.mem_map.1 hk
        exact ((hdone k e hke).2 m hm).2.le
      · obtain ⟨⟨k, f⟩, hkf, rfl⟩ := List.mem_map.1 hk
        exact ih k f hkf m hm

/-- A future in the invariant has no panic in it. -/
theorem Marshals.not_panics (h : t.Marshals M a calls q f) : ¬ f.Panics := by
  induction h with
  | folding _ _ _ _ _ _ _ _ ih =>
    rintro (_ | ⟨hk, hp⟩)
    exact ih _ _ hk hp
  | _ => rintro ⟨⟩

/-- **Progress**: a future in the invariant is resolved, or some poll makes progress. -/
theorem Marshals.progress (ht : t.WellFormed) (h : t.Marshals M a calls q f) :
    (∃ a' f' l, Step M a f a' f' l) ∨ (∃ e, f = .ok e) ∨ ∃ x, f = .err x := by
  induction h with
  | @start q n hw h =>
    obtain ⟨node, hnode⟩ := ht.exists_slot hw
    have ha : a.slot n = some node := (h n (under_self hw)).1.trans hnode
    have ht' := Arena.take_of_lt (Arena.lt_of_slot (Option.isSome_iff_exists.2 ⟨_, ha⟩))
    rw [ha] at ht'
    cases node with
    | Opaque e => exact .inl ⟨_, _, _, .takeOpaque ht'⟩
    | Transparent entries => exact .inl ⟨_, _, _, .takeTransparent ht'⟩
  | ok => exact .inr (.inl ⟨_, rfl⟩)
  | err => exact .inr (.inr ⟨_, rfl⟩)
  | @folding q n entries pending done _ _ _ _ _ _ _ ih =>
    refine .inl ?_
    cases pending with
    | nil => exact ⟨_, _, _, .process⟩
    | cons x rest =>
      obtain ⟨k, g⟩ := x
      rcases ih k g (List.mem_cons_self _ _) with ⟨a', g', l, hs⟩ | ⟨e, rfl⟩ | ⟨x, rfl⟩
      · exact ⟨_, _, _, .poll [] rest hs⟩
      · exact ⟨_, _, _, .collect [] rest⟩
      · exact ⟨_, _, _, .fail [] rest⟩

/-- A future's steps stay under its path: they change no slot and process no node elsewhere. -/
structure Confined (t : Tree) (q : Path) (a a' : Arena) (l : List NodeId) : Prop where
  slots : ∀ m, ¬ t.Under q m → a'.slot m = a.slot m
  calls : ∀ m ∈ l, t.Under q m

theorem Confined.refl : t.Confined q a a [] := ⟨fun _ _ => rfl, fun _ h => nomatch h⟩

theorem Confined.of_child {k : OsString} {l : List NodeId} (h : t.Confined (q ++ [k]) a a' l) : t.Confined q a a' l :=
  ⟨fun m hm => h.slots m fun h' => hm h'.of_child, fun m hm => (h.calls m hm).of_child⟩

/-- **Frame**: a step confined to `q` keeps the invariant of a future apart from `q`. -/
theorem Marshalled.frame {q' : Path} {l : List NodeId} (h : t.Marshalled M a calls q' e) (hc : t.Confined q a a' l)
    (hapart : ∀ m, t.Under q' m → ¬ t.Under q m) : t.Marshalled M a' (calls ++ l) q' e :=
  h.congr (fun m hm => hc.slots m (hapart m hm)) fun m hm => by
    rw [List.count_append, List.count_eq_zero_of_not_mem fun h => hapart m hm (hc.calls m h), Nat.add_zero]

theorem Marshals.frame {q' : Path} {g : Future} {l : List NodeId} (h : t.Marshals M a calls q' g) (hc : t.Confined q a a' l)
    (hapart : ∀ m, t.Under q' m → ¬ t.Under q m) : t.Marshals M a' (calls ++ l) q' g :=
  h.congr (fun m hm => hc.slots m (hapart m hm)) fun m hm => by
    rw [List.count_append, List.count_eq_zero_of_not_mem fun h => hapart m hm (hc.calls m h), Nat.add_zero]

theorem Marshals.ofResult {r : Except String SubtreeEntry} (hf : t.foldAt M q = r.toOption)
    (h : ∀ m, t.Under q m → a.slot m = none ∧ calls.count m = 1) : t.Marshals M a calls q (.ofResult r) := by
  cases r with
  | ok e => exact .ok ⟨hf, h⟩
  | error x => exact .err hf fun m hm => (h m hm).2.le

/-- The keys of a folding future: a pending child's key is no other child's key. -/
theorem key_ne_of_nodup {κ β γ : Type} {done : List (κ × β)} {pre post : List (κ × γ)} {key : κ} {g : γ}
    (h : (done.map Prod.fst ++ (pre ++ (key, g) :: post).map Prod.fst).Nodup) {k : κ}
    (hk : k ∈ done.map Prod.fst ∨ k ∈ (pre ++ post).map Prod.fst) : k ≠ key := by
  rintro rfl
  simp only [List.map_append, List.map_cons, List.nodup_append, List.nodup_cons, List.disjoint_append_right,
    List.disjoint_cons_right, List.mem_append] at h hk
  tauto

section Step

variable (ht : t.WellFormed)
include ht

/-- The first poll takes the node's slot, which is live. -/
theorem Marshals.take (hw : t.arena.walk t.root q = some n)
    (hsl : ∀ m, t.Under q m → a.slot m = t.arena.slot m ∧ calls.count m = 0) {l : List NodeId} {f' : Future}
    (hs : Step M a (.start n) a' f' l) : t.Confined q a a' l ∧ t.Marshals M a' (calls ++ l) q f' := by
  obtain ⟨node, hnode⟩ := ht.exists_slot hw
  have ha : a.slot n = some node := (hsl n (under_self hw)).1.trans hnode
  have hlt := Arena.lt_of_slot (Option.isSome_iff_exists.2 ⟨_, ha⟩)
  have htake := Arena.take_of_lt hlt (a := a)
  have hupd : ∀ m, m ≠ n → (a.update n none).slot m = a.slot m := fun m hm => by
    rw [Arena.slot_update hlt, if_neg hm]
  have hconf : ∀ l', (∀ m ∈ l', m = n) → t.Confined q a (a.update n none) l' := fun l' hl' =>
    ⟨fun m hm => hupd m fun h => hm (h ▸ under_self hw), fun m hm => hl' m hm ▸ under_self hw⟩
  rw [ha] at htake
  cases hs with
  | takeError h | takeNone h => simp [htake] at h
  | takeOpaque h =>
    rw [htake] at h
    cases h
    refine ⟨hconf [n] (by simp), .ofResult (by rw [foldAt_of_walk ht hw, Marshaller.fold_opaque M _ hnode]) fun m hm => ?_⟩
    obtain rfl := under_opaque hw hnode hm
    simp [Arena.slot_update hlt, (hsl _ hm).2]
  | takeTransparent h =>
    rw [htake] at h
    cases h
    refine ⟨hconf [] (by simp), ?_⟩
    rw [List.append_nil]
    refine .folding [] hw hnode (by simp [Arena.slot_update hlt]) (hsl n (under_self hw)).2
      (by simp [List.map_map, Function.comp_def]) (by simp) fun k g hkg => ?_
    obtain ⟨x, hx, hxe⟩ := List.mem_map.1 hkg
    obtain ⟨rfl, rfl⟩ := Prod.mk.inj hxe
    exact .start (walk_child hw ((Arena.child_of_transparent hnode).2 hx)) fun m hm =>
      ⟨(hupd m fun h => not_under_child ht hw x.1 (h ▸ hm)).trans (hsl m hm.of_child).1, (hsl m hm.of_child).2⟩

theorem Marshals.firstPoll {l : List NodeId} {f' : Future} (hm : t.Marshals M a calls q (.start n))
    (hs : Step M a (.start n) a' f' l) : t.Confined q a a' l ∧ t.Marshals M a' (calls ++ l) q f' := by
  cases hm with
  | start hw hsl => exact Marshals.take ht hw hsl hs

/-- Polling one pending child keeps the folding future's invariant. -/
theorem Marshals.poll {pre post : List (OsString × Future)} {key : OsString} {f f' : Future} {l : List NodeId}
    {map : BTreeMap OsString SubtreeEntry} (hm : t.Marshals M a calls q (.folding n (pre ++ (key, f) :: post) map))
    (ih : ∀ {calls : List NodeId} {q : Path}, t.Marshals M a calls q f →
      t.Confined q a a' l ∧ t.Marshals M a' (calls ++ l) q f') :
    t.Confined q a a' l ∧ t.Marshals M a' (calls ++ l) q (.folding n (pre ++ (key, f') :: post) map) := by
  cases hm with
  | folding done hw hn hsn hcn hkeys hdone hpend =>
    have hnd := hkeys.nodup_iff.2 (HashMap.nodup_keys _)
    obtain ⟨hc, hm'⟩ := ih (hpend key f (by simp))
    have hapart : ∀ k, k ≠ key → ∀ m, t.Under (q ++ [k]) m → ¬ t.Under (q ++ [key]) m :=
      fun k hk m hm => under_child_apart ht hk hm
    have hnk := not_under_child ht hw key
    refine ⟨hc.of_child, .folding done hw hn (by rw [hc.slots n hnk, hsn])
      (by rw [List.count_append, hcn, List.count_eq_zero_of_not_mem fun h => hnk (hc.calls n h)])
      (by simpa using hkeys) (fun k e hke => (hdone k e hke).frame hc (hapart k ?_)) fun k g hkg => ?_⟩
    · exact key_ne_of_nodup hnd (.inl (List.mem_map.2 ⟨_, hke, rfl⟩))
    · rcases List.mem_append.1 hkg with hkg | hkg
      · exact (hpend k g (by simp [hkg])).frame hc
          (hapart k (key_ne_of_nodup hnd (.inr (List.mem_map.2 ⟨_, List.mem_append_left _ hkg, rfl⟩))))
      rcases List.mem_cons.1 hkg with hkg | hkg
      · obtain ⟨rfl, rfl⟩ := Prod.mk.inj hkg
        exact hm'
      · exact (hpend k g (by simp [hkg])).frame hc
          (hapart k (key_ne_of_nodup hnd (.inr (List.mem_map.2 ⟨_, List.mem_append_right _ hkg, rfl⟩))))

omit ht in
/-- Folding a finished child into the map keeps the folding future's invariant. -/
theorem Marshals.collect {pre post : List (OsString × Future)} {key : OsString} {map : BTreeMap OsString SubtreeEntry}
    (hm : t.Marshals M a calls q (.folding n (pre ++ (key, .ok e) :: post) map)) :
    t.Marshals M a calls q (.folding n (pre ++ post) (map.insert key e)) := by
  cases hm with
  | folding done hw hn hsn hcn hkeys hdone hpend =>
    have hk := hpend key (.ok e) (by simp)
    cases hk with
    | ok hke =>
      rw [BTreeMap.ofList_insert]
      refine .folding (done ++ [(key, e)]) hw hn hsn hcn (List.Perm.trans ?_ hkeys) (fun k e' hke' => ?_)
        fun k g hkg => hpend k g (by simp at hkg ⊢; tauto)
      · simp only [List.map_append, List.map_cons, List.map_nil, List.append_assoc, List.singleton_append]
        exact List.perm_middle.symm.append_left _
      · rcases List.mem_append.1 hke' with h | h
        · exact hdone k e' h
        · obtain ⟨rfl, rfl⟩ := Prod.mk.inj (List.mem_singleton.1 h)
          exact hke

/-- A failed child fails its parent: `fold` fails there too. -/
theorem Marshals.fail {pre post : List (OsString × Future)} {key : OsString} {x : String}
    {map : BTreeMap OsString SubtreeEntry} (hm : t.Marshals M a calls q (.folding n (pre ++ (key, .err x) :: post) map)) :
    t.Marshals M a calls q (.err x) := by
  have hle := hm.count_le
  cases hm with
  | folding done hw hn hsn hcn hkeys hdone hpend =>
    have hk := hpend key (.err x) (by simp)
    cases hk with
    | err hnone _ =>
      refine .err ?_ hle
      obtain ⟨⟨k, c⟩, hc, hk⟩ := List.mem_map.1
        (hkeys.mem_iff.1 (List.mem_append_right _ (List.mem_map.2 ⟨(key, .err x), by simp, rfl⟩)))
      obtain rfl : k = key := hk
      rw [foldAt_child hw ((Arena.child_of_transparent hn).2 hc)] at hnone
      rw [foldAt_of_walk ht hw, Marshaller.fold_transparent M _ hn, mapM_pairs_none _ hnone hc]
      rfl

omit ht in
theorem Marshals.not_panicked {pre post : List (OsString × Future)} {key : OsString} {x : String}
    {map : BTreeMap OsString SubtreeEntry} (hm : t.Marshals M a calls q (.folding n (pre ++ (key, .panicked x) :: post) map)) :
    False := by
  cases hm with
  | folding done hw hn hsn hcn hkeys hdone hpend => cases hpend key (.panicked x) (by simp)

/-- With every child folded in, `process` gives what `fold` gives, and each node under `q` has been
processed once. -/
theorem Marshals.process {map : BTreeMap OsString SubtreeEntry} (hm : t.Marshals M a calls q (.folding n [] map)) :
    t.Under q n ∧ t.Marshals M a (calls ++ [n]) q (.ofResult ((M.processSubtree ⟨map⟩).map .Subtree)) := by
  cases hm with
  | folding done hw hn hsn hcn hkeys hdone _ =>
    simp only [List.map_nil, List.append_nil] at hkeys
    have hnd : done.Nodup := (hkeys.nodup_iff.2 (HashMap.nodup_keys _)).of_map _
    have hdone' : ∀ k c, (k, c) ∈ _ → ∃ e, (k, e) ∈ done ∧
        M.fold t.arena (t.arena.entries.length - (q.length + 1)) c = some e := fun k c hc => by
      obtain ⟨⟨k', e⟩, hke, rfl⟩ := List.mem_map.1 (hkeys.mem_iff.2 (List.mem_map.2 ⟨_, hc, rfl⟩))
      exact ⟨e, hke, (foldAt_child hw ((Arena.child_of_transparent hn).2 hc)).symm.trans (hdone _ e hke).1⟩
    refine ⟨under_self hw, .ofResult ?_ fun m hm => ?_⟩
    · obtain ⟨L, hL, hLkeys, hLmem⟩ := mapM_pairs_some (M.fold t.arena (t.arena.entries.length - (q.length + 1)))
        fun x hx => by obtain ⟨e, -, he⟩ := hdone' x.1 x.2 hx; simp [he]
      have hLkeys' : (L.map Prod.fst).Nodup := by rw [hLkeys]; exact HashMap.nodup_keys _
      have hperm : L.Perm done := (List.perm_ext_iff_of_nodup (hLkeys'.of_map _) hnd).2 fun ⟨k, v⟩ => by
        rw [hLmem]
        constructor
        · rintro ⟨c, hc, hv⟩
          obtain ⟨e, hke, he⟩ := hdone' k c hc
          exact (Option.some.inj (hv.symm.trans he)) ▸ hke
        · intro hkv
          obtain ⟨⟨k', c⟩, hc, rfl⟩ := List.mem_map.1 (hkeys.mem_iff.1 (List.mem_map.2 ⟨_, hkv, rfl⟩))
          exact ⟨c, hc, (foldAt_child hw ((Arena.child_of_transparent hn).2 hc)).symm.trans (hdone _ v hkv).1⟩
      rw [foldAt_of_walk ht hw, Marshaller.fold_transparent M _ hn, hL, Option.some_bind,
        BTreeMap.ofList_perm hperm hLkeys']
    · rcases under_transparent hw hn hm with rfl | ⟨k, hk, hm⟩
      · simp [hsn, hcn]
      · obtain ⟨⟨k', e⟩, hke, rfl⟩ := List.mem_map.1 (hkeys.mem_iff.2 hk)
        have hne : m ≠ n := fun h => not_under_child ht hw k' (h ▸ hm)
        simp [(hdone _ e hke).2 m hm, hne]

/-- **One step keeps the invariant**, and stays under the future's path. -/
theorem Marshals.step {f f' : Future} {l : List NodeId} (hs : Step M a f a' f' l) :
    ∀ {calls : List NodeId} {q : Path}, t.Marshals M a calls q f →
      t.Confined q a a' l ∧ t.Marshals M a' (calls ++ l) q f' := by
  induction hs with
  | takeError h => exact fun hm => hm.firstPoll ht (.takeError h)
  | takeNone h => exact fun hm => hm.firstPoll ht (.takeNone h)
  | takeOpaque h => exact fun hm => hm.firstPoll ht (.takeOpaque h)
  | takeTransparent h => exact fun hm => hm.firstPoll ht (.takeTransparent h)
  | poll pre post _ ih => exact fun hm => hm.poll ht ih
  | collect pre post => exact fun hm => ⟨.refl, (List.append_nil _).symm ▸ hm.collect⟩
  | fail pre post => exact fun hm => ⟨.refl, (List.append_nil _).symm ▸ hm.fail ht⟩
  | panic pre post => exact fun hm => hm.not_panicked.elim
  | process =>
    intro calls q hm
    obtain ⟨hn, hm'⟩ := hm.process ht
    exact ⟨⟨fun _ _ => rfl, fun m h => List.mem_singleton.1 h ▸ hn⟩, hm'⟩

end Step

/-! ## The denotation decides `fold` -/

section View

variable {t' : Tree} (ht : t.WellFormed) (ht' : t'.WellFormed) (hv : t'.view = t.view)
include ht ht' hv

omit ht' in
theorem walk_of_view {r : Path} {m : NodeId} (hr : t.arena.walk t.root r = some m) :
    ∃ m', t'.arena.walk t'.root r = some m' := by
  obtain ⟨node, hnode⟩ := ht.exists_slot hr
  have h : t'.view r = some node.kind := by rw [hv]; simp [view, hr, hnode]
  cases hw : t'.arena.walk t'.root r with
  | none => simp [view, hw] at h
  | some m' => exact ⟨m', rfl⟩

omit ht' in
/-- A child in one tree has a counterpart, under the same key, in a tree with the same view. -/
theorem child_of_view {q : Path} {n n' c : NodeId} {k : OsString} (hw : t.arena.walk t.root q = some n)
    (hw' : t'.arena.walk t'.root q = some n') (hc : t.arena.child n k = some c) : ∃ c', t'.arena.child n' k = some c' := by
  obtain ⟨c', hc'⟩ := walk_of_view ht hv (walk_child hw hc)
  rw [Arena.walk_append_of_walk hw', Arena.walk_cons_eq_some] at hc'
  obtain ⟨c'', h, -⟩ := hc'
  exact ⟨c'', h⟩

/-- **`fold` reads the view only**: with enough fuel, the nodes at one path of two trees with the
same view fold alike. -/
theorem fold_eq_of_view : ∀ (fuel fuel' : Nat) {q : Path} {n n' : NodeId},
    t.arena.entries.length ≤ q.length + fuel → t'.arena.entries.length ≤ q.length + fuel' →
    t.arena.walk t.root q = some n → t'.arena.walk t'.root q = some n' →
      M.fold t'.arena fuel' n' = M.fold t.arena fuel n
  | 0, _, _, _, _, h, _, hw, _ => absurd h (by have := ht.length_lt hw; omega)
  | _ + 1, 0, _, _, _, _, h, _, hw' => absurd h (by have := ht'.length_lt hw'; omega)
  | fuel + 1, fuel' + 1, q, n, n', hf, hf', hw, hw' => by
    obtain ⟨node, hnode⟩ := ht.exists_slot hw
    obtain ⟨node', hnode'⟩ := ht'.exists_slot hw'
    have hk : node'.kind = node.kind := by simpa [view, hw, hw', hnode, hnode'] using congrFun hv q
    -- the children at one key fold alike
    have hchild : ∀ {k c c'}, t.arena.child n k = some c → t'.arena.child n' k = some c' →
        M.fold t'.arena fuel' c' = M.fold t.arena fuel c := fun hc hc' =>
      fold_eq_of_view fuel fuel' (by simp; omega) (by simp; omega) (walk_child hw hc) (walk_child hw' hc')
    cases node with
    | Opaque e =>
      cases node' with
      | Transparent _ => cases hk
      | Opaque e' =>
        cases hk
        rw [Marshaller.fold_opaque M _ hnode, Marshaller.fold_opaque M _ hnode']
    | Transparent entries =>
      cases node' with
      | Opaque _ => cases hk
      | Transparent entries' =>
        have hmem : ∀ {k c}, (k, c) ∈ entries.entries → ∃ c', (k, c') ∈ entries'.entries ∧
            M.fold t'.arena fuel' c' = M.fold t.arena fuel c := fun hc => by
          have hc := (Arena.child_of_transparent hnode).2 hc
          obtain ⟨c', hc'⟩ := child_of_view ht hv hw hw' hc
          exact ⟨c', (Arena.child_of_transparent hnode').1 hc', hchild hc hc'⟩
        have hmem' : ∀ {k c'}, (k, c') ∈ entries'.entries → ∃ c, (k, c) ∈ entries.entries ∧
            M.fold t'.arena fuel' c' = M.fold t.arena fuel c := fun hc' => by
          have hc' := (Arena.child_of_transparent hnode').2 hc'
          obtain ⟨c, hc⟩ := child_of_view ht' hv.symm hw' hw hc'
          exact ⟨c, (Arena.child_of_transparent hnode).1 hc, hchild hc hc'⟩
        rw [Marshaller.fold_transparent M _ hnode, Marshaller.fold_transparent M _ hnode']
        by_cases hall : ∀ x ∈ entries.entries, (M.fold t.arena fuel x.2).isSome
        · obtain ⟨L, hL, hLkeys, hLmem⟩ := mapM_pairs_some (M.fold t.arena fuel) hall
          obtain ⟨L', hL', hLkeys', hLmem'⟩ := mapM_pairs_some (M.fold t'.arena fuel') fun x hx => by
            obtain ⟨c, hc, he⟩ := hmem' hx
            exact he ▸ hall _ hc
          have hnd : (L'.map Prod.fst).Nodup := hLkeys' ▸ HashMap.nodup_keys _
          have hperm : L'.Perm L := (List.perm_ext_iff_of_nodup (hnd.of_map _)
              ((hLkeys ▸ HashMap.nodup_keys _ : (L.map Prod.fst).Nodup).of_map _)).2 fun ⟨k, v⟩ => by
            rw [hLmem, hLmem']
            constructor
            · rintro ⟨c', hc', hv'⟩
              obtain ⟨c, hc, he⟩ := hmem' hc'
              exact ⟨c, hc, he ▸ hv'⟩
            · rintro ⟨c, hc, hv'⟩
              obtain ⟨c', hc', he⟩ := hmem hc
              exact ⟨c', hc', he ▸ hv'⟩
          rw [hL, hL', Option.some_bind, Option.some_bind, BTreeMap.ofList_perm hperm hnd]
        · push_neg at hall
          obtain ⟨x, hx, hnone⟩ := hall
          obtain ⟨c', hc', he⟩ := hmem hx
          replace hnone := Option.not_isSome_iff_eq_none.1 hnone
          have hnone' : M.fold t'.arena fuel' (x.1, c').2 = none := he.trans hnone
          rw [mapM_pairs_none _ hnone hx, mapM_pairs_none _ hnone' hc']

/-- **The marshalled tree depends on its denotation only.** -/
theorem fold_eq_of_view_eq : t'.fold M = t.fold M := by
  simp only [fold, foldAt, Arena.walk_nil, Option.some_bind, List.length_nil, Nat.sub_zero]
  exact fold_eq_of_view ht ht' hv _ _ (by simp) (by simp) (show t.arena.walk t.root [] = _ from rfl)
    (show t'.arena.walk t'.root [] = _ from rfl)

end View

/-! ## Whole runs -/

/-- The invariant of `marshal`'s whole state: the root future is the root's, and nothing off the
tree has been touched. -/
def MarshalSound (t : Tree) (M : Marshaller) (c : Marshalling) : Prop :=
  t.Marshals M c.arena c.calls [] c.future ∧
    ∀ m, ¬ t.Reachable m → c.arena.slot m = t.arena.slot m ∧ c.calls.count m = 0

section Run

variable (ht : t.WellFormed)
include ht

omit ht in
theorem marshalSound_start : t.MarshalSound M t.marshalStart :=
  ⟨.start rfl fun _ _ => ⟨rfl, List.count_nil _⟩, fun _ _ => ⟨rfl, List.count_nil _⟩⟩

theorem MarshalSound.poll {c c' : Marshalling} (hc : t.MarshalSound M c) (hp : Marshalling.Poll M c c') :
    t.MarshalSound M c' := by
  obtain ⟨l, hs, hcalls⟩ := hp
  obtain ⟨hconf, hm⟩ := hc.1.step ht hs
  refine ⟨hcalls ▸ hm, fun m hm' => ⟨(hconf.slots m hm').trans (hc.2 m hm').1, ?_⟩⟩
  rw [hcalls, List.count_append, (hc.2 m hm').2, List.count_eq_zero_of_not_mem fun h => hm' (hconf.calls m h)]

theorem marshalSound_of_run {c : Marshalling} (h : Relation.ReflTransGen (Marshalling.Poll M) t.marshalStart c) :
    t.MarshalSound M c := by
  induction h with
  | refl => exact marshalSound_start
  | tail _ hp ih => exact ih.poll ht hp

/-- **`Tree::marshal` on a well-formed tree, under every scheduling.**  No run is infinite and
no future ever panics.  A reachable state either polls on, or the root future has resolved: to `fold` of the root, hashed,
with every reachable slot taken and every reachable node processed exactly once, and nothing else
touched; or to an error exactly when `fold` meets a failing `process` call.  And `fold` is the same
on every well-formed tree with the same view. -/
theorem marshal_spec :
    WellFounded (fun c' c => Marshalling.Poll M c c') ∧
    (∀ c, Relation.ReflTransGen (Marshalling.Poll M) t.marshalStart c → ¬ c.future.Panics ∧
      ((∃ c', Marshalling.Poll M c c') ∨
      (∃ e, t.fold M = some e ∧ c.result = some (.ok e.hash) ∧
        (∀ m, t.Reachable m → c.arena.slot m = none ∧ c.calls.count m = 1) ∧
        (∀ m, ¬ t.Reachable m → c.arena.slot m = t.arena.slot m ∧ c.calls.count m = 0)) ∨
      (t.fold M = none ∧ ∃ x, c.result = some (.error x)))) ∧
    ∀ t' : Tree, t'.WellFormed → t'.view = t.view → t'.fold M = t.fold M := by
  refine ⟨Marshalling.poll_wellFounded M, fun c hc => ?_, fun t' ht' hv => fold_eq_of_view_eq ht ht' hv⟩
  obtain ⟨hm, hout⟩ := marshalSound_of_run ht hc
  refine ⟨hm.not_panics, ?_⟩
  rcases hm.progress ht with ⟨a', f', l, hs⟩ | ⟨e, he⟩ | ⟨x, hx⟩
  · exact .inl ⟨⟨a', f', c.calls ++ l⟩, l, hs, rfl⟩
  · rw [he] at hm
    cases hm with
    | ok h => exact .inr (.inl ⟨e, h.1, by simp [Marshalling.result, he], h.2, hout⟩)
  · rw [hx] at hm
    cases hm with
    | err h _ => exact .inr (.inr ⟨h, x, by simp [Marshalling.result, hx]⟩)

end Run

/-- The sample tree, under every marshaller; under one whose digest of a directory is its number of
entries, `marshal` resolves to the digest of the root's two entries, `a` and `d`. -/
theorem marshal_spec_sample :
    let count : Marshaller := ⟨fun _ => .ok (),
      fun o => .ok ⟨List.replicate 32 (UInt8.ofNat o.entries.entries.length), List.length_replicate _ _⟩⟩
    ∃ t, Tree.fromIter sampleLeaves = .ok t ∧ t.WellFormed ∧
      t.fold count = some (.Subtree ⟨List.replicate 32 2, rfl⟩) ∧
      ∀ M, WellFounded (fun c' c => Marshalling.Poll M c c') ∧
        (∀ c, Relation.ReflTransGen (Marshalling.Poll M) t.marshalStart c → ¬ c.future.Panics ∧
          ((∃ c', Marshalling.Poll M c c') ∨
          (∃ e, t.fold M = some e ∧ c.result = some (.ok e.hash) ∧
            (∀ m, t.Reachable m → c.arena.slot m = none ∧ c.calls.count m = 1) ∧
            (∀ m, ¬ t.Reachable m → c.arena.slot m = t.arena.slot m ∧ c.calls.count m = 0)) ∨
          (t.fold M = none ∧ ∃ x, c.result = some (.error x)))) ∧
        ∀ t' : Tree, t'.WellFormed → t'.view = t.view → t'.fold M = t.fold M := by
  intro count
  have h₀ : Tree.fromIter sampleLeaves = .ok _ := fromIter_sampleLeaves.trans rfl
  exact ⟨_, h₀, fromIter_wellFormed h₀, rfl, fun M => marshal_spec (fromIter_wellFormed h₀)⟩

end Tree

end Attaca
