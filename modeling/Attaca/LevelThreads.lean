import Attaca.LevelStore
/-!
# LevelThreads — `finish`, `resolve` and `load` running at once on one `LevelStore`

The calls of `LevelStore.lean`, cut at every point where another thread can act: each `CHashMap`
`get`, `insert` and `upsert` is one atomic step (an `upsert` runs its hook inside it), each database
read or write is one step, each `Weak::upgrade` is one step, and a handle's weak-slot `Mutex` is
taken and dropped where the code takes and drops it.  A thread is its program point `Pc`, which
carries the locals the call holds.  Any idle thread may start a call, and the clients may call
`LevelHandleRefs::next` on, or drop, what `load` gave them.

An `Arc<Object>` is alive while some strong reference to it exists (`World.Live`): a value of
`objects`, a local of a thread, or a `LevelHandleContent` or `LevelHandleRefs` a client holds.  A
weak slot upgrades exactly when its allocation is alive; allocations are never reused.

`handle_from_object` and the slow path of `resolve` run the same code under the weak-slot lock; it
is modelled once, with the `upsert`'s insert hook as a `Hook`: `handle_from_object`'s allocates the
object (`Arc::new(object)`), `resolve`'s moves in the `arc_obj` that `object()` gave it.  The
program points, before the operation named:
- `installHandle`: `handle_from_digest`; `installLock`: `handle.inner.content.lock()`;
  `installUpgrade`: `Weak::upgrade(&content_lock)`; `installUpsert`: the `upsert` on `objects`;
  `installUnwrap`: `Weak::upgrade(&cl_cell.into_inner()).unwrap()`; `installUnlock`: dropping the
  guard (in `resolve`'s fast branch holding the object it read); `finishPut`: `db.put`;
  `insertBack`: `objects.insert(digest, arc_obj)`, after which the call returns the handle;
- `resolveStart`: `handles.get`; `resolveObject`, `resolveDb`, `resolveInsert`: `objects.get`,
  `db.get` and `objects.insert` of `LevelStore::object`;
- `loadLock`: `self.inner.content.lock()`; then, holding the lock, `loadUpgrade`:
  `Weak::upgrade(&lock)`; `loadObject`, `loadDb`, `loadInsert`: `LevelStore::object` as above;
  `loadSetWeak`: `*lock = Arc::downgrade(&arc_obj)`; `loadReturn`, `loadFail`: returning, which
  drops the guard.

The lock is `parking_lot`'s, which a panic does not poison: a thread that panics unwinds and drops
its guard.  A decode that panics, or aborts for want of memory, is a failed `db.get` here; an abort
also stops the other threads, which the model lets go on, so it only has more runs than the code.
-/
namespace Attaca

namespace Concurrent

inductive Hook where
  | alloc (object : Object)
  | move (arcObj : ArcObject)

def Hook.read : Hook → Option ArcObject
  | .alloc _ => none
  | .move arcObj => some arcObj

def Hook.make (s : StoreInner) : Hook → StoreInner × ArcObject
  | .alloc object => s.alloc object
  | .move arcObj => (s, arcObj)

/-- A thread's program point in its call, with the locals it holds. -/
inductive Pc where
  | idle
  | installHandle (hook : Hook) (digest : Sha3Digest)
  | installLock (hook : Hook) (digest : Sha3Digest) (handle : LevelHandle)
  | installUpgrade (hook : Hook) (digest : Sha3Digest) (handle : LevelHandle)
  | installUpsert (hook : Hook) (digest : Sha3Digest) (handle : LevelHandle)
  | installUnwrap (resolving : Bool) (digest : Sha3Digest) (handle : LevelHandle)
  | installUnlock (resolving : Bool) (digest : Sha3Digest) (handle : LevelHandle) (read : Option ArcObject)
      (arcObj : ArcObject)
  | finishPut (digest : Sha3Digest) (handle : LevelHandle) (arcObj : ArcObject)
  | insertBack (digest : Sha3Digest) (handle : LevelHandle) (read : Option ArcObject) (arcObj : ArcObject)
  | resolveStart (digest : Sha3Digest)
  | resolveObject (digest : Sha3Digest)
  | resolveDb (digest : Sha3Digest)
  | resolveInsert (digest : Sha3Digest) (arcObj : ArcObject)
  | loadLock (handle : LevelHandle)
  | loadUpgrade (handle : LevelHandle)
  | loadObject (handle : LevelHandle)
  | loadDb (handle : LevelHandle)
  | loadInsert (handle : LevelHandle) (arcObj : ArcObject)
  | loadSetWeak (handle : LevelHandle) (arcObj : ArcObject)
  | loadReturn (handle : LevelHandle) (arcObj : ArcObject)
  | loadFail (handle : LevelHandle)

namespace Pc

/-- The strong references a thread's locals hold. -/
def arcs : Pc → List ArcObject
  | installHandle hook _ | installLock hook _ _ | installUpgrade hook _ _ | installUpsert hook _ _ =>
    hook.read.toList
  | installUnlock _ _ _ read arcObj | insertBack _ _ read arcObj => arcObj :: read.toList
  | finishPut _ _ arcObj | resolveInsert _ arcObj | loadInsert _ arcObj | loadSetWeak _ arcObj
  | loadReturn _ arcObj => [arcObj]
  | _ => []

def lockHeld : Pc → Option LevelHandle
  | installUpgrade _ _ handle | installUpsert _ _ handle | installUnwrap _ _ handle
  | installUnlock _ _ handle _ _ => some handle
  | loadUpgrade handle | loadObject handle | loadDb handle | loadInsert handle _ | loadSetWeak handle _
  | loadReturn handle _ | loadFail handle => some handle
  | _ => none

end Pc

/-- The store, the threads, and what the clients hold: the contents and refs `load` returned that
are not dropped yet, each with the handle it was loaded through, and every handle a call returned. -/
structure World where
  store : StoreInner
  threads : Nat → Pc
  contents : List (LevelHandle × LevelHandleContent)
  iters : List (LevelHandle × LevelHandleRefs)
  returned : List LevelHandle

namespace World

def init (db : Sha3Digest → Option (List UInt8)) : World := ⟨StoreInner.init db, fun _ => .idle, [], [], []⟩

def move (w : World) (t : Nat) (pc : Pc) (s : StoreInner) : World :=
  { w with store := s, threads := Function.update w.threads t pc }

def held (w : World) : List (LevelHandle × ArcObject) :=
  w.contents.map (fun x => (x.1, x.2.obj)) ++ w.iters.map (fun x => (x.1, x.2.obj))

/-- Some strong reference to the allocation exists. -/
def Live (w : World) (a : ArcObject) : Prop :=
  (∃ d, w.store.objects d = some a) ∨ (∃ t, a ∈ (w.threads t).arcs) ∨ ∃ h, (h, a) ∈ w.held

/-- `Weak::upgrade` of the handle's slot fails. -/
def Dead (w : World) (h : LevelHandle) : Prop := ∀ a, w.store.weak h = some a → ¬ w.Live a

def Free (w : World) (h : LevelHandle) : Prop := ∀ t, (w.threads t).lockHeld ≠ some h

def Quiescent (w : World) : Prop := ∀ t, w.threads t = .idle

end World

def objectsInsert (s : StoreInner) (digest : Sha3Digest) (arcObj : ArcObject) : StoreInner :=
  { s with objects := Function.update s.objects digest (some arcObj) }

/-- The object `HandleBuilder::finish` makes: the bytes written, the digests of the references. -/
def builderObject (s : StoreInner) (builder : LevelHandleBuilder) : Object :=
  ⟨builder.blob, builder.refs.map s.digestOf, builder.blob_lt⟩

open World

variable (C : RefsCodec) (H : List UInt8 → Sha3Digest)

/-- One atomic step of one thread, or of a client.  What the database answers is the step's
choice: a read or a write may always fail. -/
inductive Step : World → World → Prop
  /-- `HandleBuilder::finish` starts `handle_from_object` on an idle thread: the digest of the
  encoding is computed before any shared access. -/
  | finish {w t} (builder : LevelHandleBuilder) (ht : w.threads t = .idle) :
      Step w (w.move t (.installHandle (.alloc (builderObject w.store builder))
        (H ((builderObject w.store builder).encode C))) w.store)
  | resolve {w t} (digest : Sha3Digest) (ht : w.threads t = .idle) : Step w (w.move t (.resolveStart digest) w.store)
  | load {w t} (handle : LevelHandle) (hh : handle.inner < w.store.inners.length) (ht : w.threads t = .idle) :
      Step w (w.move t (.loadLock handle) w.store)
  | next {w i x s handle refs} (hx : w.iters[i]? = some x) (hn : x.2.next w.store = (s, some (handle, refs))) :
      Step w { w with store := s, iters := w.iters.set i (x.1, refs), returned := w.returned ++ [handle] }
  | dropContent {w} (i : Nat) : Step w { w with contents := w.contents.eraseIdx i }
  | dropRefs {w} (i : Nat) : Step w { w with iters := w.iters.eraseIdx i }
  | installHandle {w t hook digest} (ht : w.threads t = .installHandle hook digest) :
      Step w (w.move t (.installLock hook digest (handleFromDigest w.store digest).2) (handleFromDigest w.store digest).1)
  | installLock {w t hook digest handle} (ht : w.threads t = .installLock hook digest handle) (hfree : w.Free handle) :
      Step w (w.move t (.installUpgrade hook digest handle) w.store)
  | installUpgraded {w t hook digest handle a} (ht : w.threads t = .installUpgrade hook digest handle)
      (hw : w.store.weak handle = some a) (hl : w.Live a) :
      Step w (w.move t (.installUnlock hook.read.isSome digest handle hook.read a) w.store)
  | installNotUpgraded {w t hook digest handle} (ht : w.threads t = .installUpgrade hook digest handle)
      (hd : w.Dead handle) :
      Step w (w.move t (.installUpsert hook digest handle) w.store)
  /-- The `upsert` finds no resident object: its insert hook points the slot to the hook's object and
  makes it resident. -/
  | installUpsertInsert {w t hook digest handle} (ht : w.threads t = .installUpsert hook digest handle)
      (ho : w.store.objects digest = none) :
      Step w (w.move t (.installUnwrap hook.read.isSome digest handle)
        (objectsInsert (((hook.make w.store).1).setWeak handle (some (hook.make w.store).2)) digest
          (hook.make w.store).2))
  /-- The `upsert` finds the resident object: its update hook points the slot to it; `resolve`'s
  hook, not run, drops the object it held. -/
  | installUpsertUpdate {w t hook digest handle a} (ht : w.threads t = .installUpsert hook digest handle)
      (ho : w.store.objects digest = some a) :
      Step w (w.move t (.installUnwrap hook.read.isSome digest handle) (w.store.setWeak handle (some a)))
  | installUnwrapped {w t resolving digest handle a} (ht : w.threads t = .installUnwrap resolving digest handle)
      (hw : w.store.weak handle = some a) (hl : w.Live a) :
      Step w (w.move t (.installUnlock resolving digest handle none a) w.store)
  /-- `unwrap()` on `None` panics; unwinding drops the guard. -/
  | installPanicked {w t resolving digest handle} (ht : w.threads t = .installUnwrap resolving digest handle)
      (hd : w.Dead handle) :
      Step w (w.move t .idle w.store)
  | finishUnlock {w t digest handle read a} (ht : w.threads t = .installUnlock false digest handle read a) :
      Step w (w.move t (.finishPut digest handle a) w.store)
  | resolveUnlock {w t digest handle read a} (ht : w.threads t = .installUnlock true digest handle read a) :
      Step w (w.move t (.insertBack digest handle read a) w.store)
  | finishPut {w t digest handle a} (ht : w.threads t = .finishPut digest handle a) :
      Step w (w.move t (.insertBack digest handle none a)
        { w.store with db := Function.update w.store.db digest (some ((w.store.deref a).encode C)) })
  /-- `db.put(...)?` fails: `handle_from_object` returns the error. -/
  | finishPutFailed {w t digest handle a} (ht : w.threads t = .finishPut digest handle a) :
      Step w (w.move t .idle w.store)
  | insertBack {w t digest handle read a} (ht : w.threads t = .insertBack digest handle read a) :
      Step w { w.move t .idle (objectsInsert w.store digest a) with returned := w.returned ++ [handle] }
  | resolveCached {w t digest handle} (ht : w.threads t = .resolveStart digest) (hh : w.store.handles digest = some handle) :
      Step w { w.move t .idle w.store with returned := w.returned ++ [handle] }
  | resolveUncached {w t digest} (ht : w.threads t = .resolveStart digest) (hh : w.store.handles digest = none) :
      Step w (w.move t (.resolveObject digest) w.store)
  | resolveResident {w t digest a} (ht : w.threads t = .resolveObject digest) (ho : w.store.objects digest = some a) :
      Step w (w.move t (.installHandle (.move a) digest) w.store)
  | resolveAbsent {w t digest} (ht : w.threads t = .resolveObject digest) (ho : w.store.objects digest = none) :
      Step w (w.move t (.resolveDb digest) w.store)
  /-- `db.get` fails, finds nothing, or finds bytes that do not decode, or the decode panics or
  aborts: `resolve` returns, or the thread unwinds. -/
  | resolveDbFailed {w t digest} (ht : w.threads t = .resolveDb digest) : Step w (w.move t .idle w.store)
  | resolveDecoded {w t digest bytes o r alloc} (ht : w.threads t = .resolveDb digest)
      (hd : w.store.db digest = some bytes) (he : Object.decode C alloc bytes = .ok (.ok (o, r))) :
      Step w (w.move t (.resolveInsert digest (w.store.alloc o).2) (w.store.alloc o).1)
  | resolveInserted {w t digest a} (ht : w.threads t = .resolveInsert digest a) :
      Step w (w.move t (.installHandle (.move a) digest) (objectsInsert w.store digest a))
  | loadLock {w t handle} (ht : w.threads t = .loadLock handle) (hfree : w.Free handle) :
      Step w (w.move t (.loadUpgrade handle) w.store)
  | loadUpgraded {w t handle a} (ht : w.threads t = .loadUpgrade handle) (hw : w.store.weak handle = some a)
      (hl : w.Live a) :
      Step w (w.move t (.loadReturn handle a) w.store)
  | loadNotUpgraded {w t handle} (ht : w.threads t = .loadUpgrade handle) (hd : w.Dead handle) :
      Step w (w.move t (.loadObject handle) w.store)
  | loadResident {w t handle a} (ht : w.threads t = .loadObject handle)
      (ho : w.store.objects (w.store.digestOf handle) = some a) :
      Step w (w.move t (.loadSetWeak handle a) w.store)
  | loadAbsent {w t handle} (ht : w.threads t = .loadObject handle)
      (ho : w.store.objects (w.store.digestOf handle) = none) :
      Step w (w.move t (.loadDb handle) w.store)
  | loadDbFailed {w t handle} (ht : w.threads t = .loadDb handle) : Step w (w.move t (.loadFail handle) w.store)
  | loadDecoded {w t handle bytes o r alloc} (ht : w.threads t = .loadDb handle)
      (hd : w.store.db (w.store.digestOf handle) = some bytes) (he : Object.decode C alloc bytes = .ok (.ok (o, r))) :
      Step w (w.move t (.loadInsert handle (w.store.alloc o).2) (w.store.alloc o).1)
  | loadInserted {w t handle a} (ht : w.threads t = .loadInsert handle a) :
      Step w (w.move t (.loadSetWeak handle a) (objectsInsert w.store (w.store.digestOf handle) a))
  | loadSetWeak {w t handle a} (ht : w.threads t = .loadSetWeak handle a) :
      Step w (w.move t (.loadReturn handle a) (w.store.setWeak handle (some a)))
  | loadReturned {w t handle a} (ht : w.threads t = .loadReturn handle a) :
      Step w { w.move t .idle w.store with
        contents := w.contents ++ [(handle, ⟨a⟩)], iters := w.iters ++ [(handle, ⟨a, 0⟩)] }
  | loadFailed {w t handle} (ht : w.threads t = .loadFail handle) : Step w (w.move t .idle w.store)

/-- The worlds some interleaving of steps leads to. -/
def Reach (w w' : World) : Prop := Relation.ReflTransGen (Step C H) w w'

/-! ## A `finish` racing a `resolve`

`LevelStore::object` reads `objects`, then the database, then `objects.insert`s what it decoded,
none of it under the slot's lock.  `handle_from_object` upserts its fresh `Arc` into `objects` and
holds no other strong reference to it until `Weak::upgrade(...).unwrap()`.  So a `resolve` that
found nothing resident can overwrite the `Arc` a concurrent `finish` of the same object has just
made resident, between that `finish`'s upsert and its upgrade: the slot is then dead, and the
`unwrap` panics.  `installPanicked` is a step of real runs. -/

/-- **A `finish` of a stored object, racing a `resolve` of its digest, can panic.**  Whenever the
database holds the encoding of a blob with no references under its hash, some interleaving of a
`finish` of that blob (thread 0) and a `resolve` of its digest (thread 1) brings the `finish` to
its `unwrap` with the slot it locked dead: the only step left to thread 0 is the panic. -/
theorem finish_resolve_panic (blob : List UInt8) (hlt : blob.length < 2 ^ 63) {db : Sha3Digest → Option (List UInt8)}
    (hdb : db (H ((⟨blob, [], hlt⟩ : Object).encode C)) = some ((⟨blob, [], hlt⟩ : Object).encode C)) :
    ∃ w h, Reach C H (World.init db) w ∧
      w.threads 0 = .installUnwrap false (H ((⟨blob, [], hlt⟩ : Object).encode C)) h ∧ w.Dead h := by
  have he : Object.decode C (fun _ => true) ((⟨blob, [], hlt⟩ : Object).encode C) = .ok (.ok (⟨blob, [], hlt⟩, [])) := by
    simpa using Object.decode_encode ⟨blob, [], hlt⟩ (.inr rfl) []
  have r : Reach C H (World.init db) _ :=
    .tail (.tail (.tail (.tail (.tail (.tail (.tail (.tail (.tail (.single
      (@Step.resolve _ _ _ 1 (H ((⟨blob, [], hlt⟩ : Object).encode C)) rfl))
      (@Step.resolveUncached _ _ _ 1 _ rfl rfl))
      (@Step.resolveAbsent _ _ _ 1 _ rfl rfl))
      (@Step.resolveDecoded _ _ _ 1 _ _ ⟨blob, [], hlt⟩ [] _ rfl hdb he))
      (@Step.finish _ _ _ 0 ⟨blob, [], hlt⟩ rfl))
      (@Step.installHandle _ _ _ 0 _ _ rfl))
      (@Step.installLock _ _ _ 0 _ _ _ rfl fun t => by
        by_cases e : t = 0 <;> by_cases e' : t = 1 <;> simp [e, e', World.move, World.init, Pc.lockHeld]))
      (@Step.installNotUpgraded _ _ _ 0 _ _ _ rfl fun _ hw => by cases hw))
      (@Step.installUpsertInsert _ _ _ 0 _ _ _ rfl rfl))
      (@Step.resolveInserted _ _ _ 1 _ _ rfl)
  refine ⟨_, ⟨0⟩, r, rfl, fun a hw hl => ?_⟩
  cases hw
  rcases hl with ⟨d, hd⟩ | ⟨t, ht⟩ | ⟨h, hh⟩
  · by_cases e : d = H ((⟨blob, [], hlt⟩ : Object).encode C) <;>
      simp [e, World.move, World.init, objectsInsert, Hook.make, builderObject, handleFromDigest, StoreInner.alloc] at hd
  · by_cases e : t = 0 <;> by_cases e' : t = 1 <;> simp [e, e', World.move, World.init, Pc.arcs, Hook.make, Hook.read, handleFromDigest, StoreInner.alloc] at ht
  · simp [World.held, World.move, World.init] at hh

end Concurrent

end Attaca
