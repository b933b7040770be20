import Attaca.LevelObject
/-!
# LevelStore — the caches and the database of `LevelStore`, one call at a time

`StoreInner` holds the LevelDB database and two `CHashMap`s, `handles` (a digest's canonical
handle) and `objects` (a digest's resident object).  The store only reads and writes them by key,
so each is its lookup function.  An `Arc` is the index of the allocation it points to: `inners`
are the `HandleInner`s, each with its digest and its weak slot, and `heap` the `Object`s.  A weak
slot is `none` when it does not upgrade.

Each function of the store is the code's, with the state passed along: `handle_from_digest`,
`handle_from_object` (with `HandleBuilder::finish` over it), `object`, `resolve`, `load` and
`LevelHandleRefs::next`.  What the database answers is an argument of the call (`putOk`, `getOk`):
a run may see any read or write fail.  So is the allocator's answer (`alloc`), which `Object::decode`
asks for the blob's buffer: `object`, `resolve` and `load` return `.error` when the decode panics
or aborts, and the process ends there, before the store writes anything (`StoreInner.after`).  A
weak slot may expire between any two calls (`expire`).  The digest `H` and the ref-block codec `C`
are parameters.  The builder's blob is a `Vec`, so it is shorter than `isize::MAX`.

The invariant `Sound` says that every object the store holds sits at its digest: in `objects`,
behind a weak slot, and encoded in the database.  Every call keeps it (`Sound.step`), so it holds
in every reachable state (`sound_spec`).  A failed write is not undone: the handle and the resident
object it installed stay, though the database never got the object (`finish_put_error`).  When no
other object hashes to its digest, a finished object stays installed for ever (`finish_spec`).
-/
namespace Attaca

/-- An `Arc<Object>`: the allocation it points to. -/
structure ArcObject where
  idx : Nat
  deriving DecidableEq, Repr

/-- A `LevelHandle`, an `Arc<HandleInner>`: the allocation it points to. -/
structure LevelHandle where
  inner : Nat
  deriving DecidableEq, Repr

/-- `HandleInner`: the digest, and the weak slot `content` (`none`: it does not upgrade). -/
structure HandleInner where
  digest : Sha3Digest
  content : Option ArcObject

instance : Inhabited HandleInner := ⟨⟨default, none⟩⟩

/-- `StoreInner`, and the allocations its `Arc`s point to. -/
structure StoreInner where
  db : Sha3Digest → Option (List UInt8)
  handles : Sha3Digest → Option LevelHandle
  objects : Sha3Digest → Option ArcObject
  inners : List HandleInner
  heap : List Object

/-- The `failure::Error`s of the store. -/
inductive StoreError where
  /-- A LevelDB read or write failed. -/
  | database
  | decode (e : DecodeError)
  | message (msg : String)
  deriving DecidableEq, Repr

/-- `LevelHandleContent`: a cursor over the blob of the object it holds. -/
structure LevelHandleContent where
  obj : ArcObject
  deriving DecidableEq, Repr

/-- `LevelHandleRefs`: the object whose digests it yields, and how many it has yielded. -/
structure LevelHandleRefs where
  obj : ArcObject
  pos : Nat
  deriving DecidableEq, Repr

/-- `LevelHandleBuilder`: the bytes written to it and the references added to it. -/
structure LevelHandleBuilder where
  blob : List UInt8
  refs : List LevelHandle
  blob_lt : blob.length < 2 ^ 63

namespace StoreInner

/-- The store opened over a database, with nothing cached. -/
def init (db : Sha3Digest → Option (List UInt8)) : StoreInner := ⟨db, fun _ => none, fun _ => none, [], []⟩

/-- `handle.inner.digest`. -/
def digestOf (s : StoreInner) (handle : LevelHandle) : Sha3Digest :=
  ((s.inners[handle.inner]?).map HandleInner.digest).getD default

/-- `Weak::upgrade(&handle.inner.content)`. -/
def weak (s : StoreInner) (handle : LevelHandle) : Option ArcObject :=
  (s.inners[handle.inner]?).bind HandleInner.content

/-- `*handle.inner.content.lock() = x`. -/
def setWeak (s : StoreInner) (handle : LevelHandle) (x : Option ArcObject) : StoreInner :=
  { s with inners := s.inners.set handle.inner { (s.inners[handle.inner]?).getD default with content := x } }

/-- The object an `Arc` points to. -/
def deref (s : StoreInner) (arcObj : ArcObject) : Object := (s.heap[arcObj.idx]?).getD default

/-- `Arc::new(object)`. -/
def alloc (s : StoreInner) (object : Object) : StoreInner × ArcObject :=
  ({ s with heap := s.heap ++ [object] }, ⟨s.heap.length⟩)

@[simp] theorem init_inners (db) : (init db).inners = [] := rfl
@[simp] theorem init_heap (db) : (init db).heap = [] := rfl
@[simp] theorem init_handles (db d) : (init db).handles d = none := rfl
@[simp] theorem init_objects (db d) : (init db).objects d = none := rfl

@[simp] theorem setWeak_db (s : StoreInner) (h x) : (s.setWeak h x).db = s.db := rfl
@[simp] theorem setWeak_handles (s : StoreInner) (h x) : (s.setWeak h x).handles = s.handles := rfl
@[simp] theorem setWeak_objects (s : StoreInner) (h x) : (s.setWeak h x).objects = s.objects := rfl
@[simp] theorem setWeak_heap (s : StoreInner) (h x) : (s.setWeak h x).heap = s.heap := rfl
@[simp] theorem setWeak_deref (s : StoreInner) (h x) : (s.setWeak h x).deref = s.deref := rfl
@[simp] theorem setWeak_length (s : StoreInner) (h x) : (s.setWeak h x).inners.length = s.inners.length := by
  simp [setWeak]

@[simp] theorem alloc_db (s : StoreInner) (o) : (s.alloc o).1.db = s.db := rfl
@[simp] theorem alloc_handles (s : StoreInner) (o) : (s.alloc o).1.handles = s.handles := rfl
@[simp] theorem alloc_objects (s : StoreInner) (o) : (s.alloc o).1.objects = s.objects := rfl
@[simp] theorem alloc_inners (s : StoreInner) (o) : (s.alloc o).1.inners = s.inners := rfl
@[simp] theorem alloc_heap (s : StoreInner) (o) : (s.alloc o).1.heap = s.heap ++ [o] := rfl
@[simp] theorem alloc_snd (s : StoreInner) (o) : (s.alloc o).2 = ⟨s.heap.length⟩ := rfl

theorem digestOf_setWeak (s : StoreInner) (h h' x) : (s.setWeak h x).digestOf h' = s.digestOf h' := by
  by_cases hh : h.inner = h'.inner
  · by_cases hlt : h'.inner < s.inners.length
    · simp [digestOf, setWeak, List.getElem?_set, hh, hlt]
    · simp [digestOf, setWeak, List.getElem?_set, hh, hlt, List.getElem?_eq_none (Nat.not_lt.1 hlt)]
  · simp [digestOf, setWeak, List.getElem?_set, hh]

theorem weak_setWeak (s : StoreInner) {h h' : LevelHandle} (x) (hlt : h.inner < s.inners.length) :
    (s.setWeak h x).weak h' = if h'.inner = h.inner then x else s.weak h' := by
  by_cases hh : h'.inner = h.inner
  · simp [weak, setWeak, List.getElem?_set, hh, hlt]
  · simp [weak, setWeak, List.getElem?_set, Ne.symm hh, hh]

theorem mem_setWeak {s : StoreInner} {h x} {i : HandleInner} (hi : i ∈ (s.setWeak h x).inners) :
    i ∈ s.inners ∨ (h.inner < s.inners.length ∧ i = ⟨s.digestOf h, x⟩) := by
  rcases List.mem_or_eq_of_mem_set hi with hi | rfl
  · exact .inl hi
  · by_cases hlt : h.inner < s.inners.length
    · exact .inr ⟨hlt, by simp [digestOf, hlt]⟩
    · simp [setWeak, List.set_eq_of_length_le (Nat.not_lt.1 hlt)] at hi
      exact .inl hi

theorem map_digest_setWeak (s : StoreInner) (h x) :
    (s.setWeak h x).inners.map HandleInner.digest = s.inners.map HandleInner.digest := by
  refine List.ext_getElem? fun n => ?_
  by_cases hn : h.inner = n
  · by_cases hlt : n < s.inners.length
    · simp [setWeak, List.getElem?_set, hn, hlt]
    · simp [setWeak, List.getElem?_set, hn, hlt, List.getElem?_eq_none (Nat.not_lt.1 hlt)]
  · simp [setWeak, List.getElem?_set, hn]

theorem deref_alloc_of_lt (s : StoreInner) (o) {a : ArcObject} (h : a.idx < s.heap.length) :
    (s.alloc o).1.deref a = s.deref a := by
  simp [deref, List.getElem?_append_left h]

@[simp] theorem deref_alloc_self (s : StoreInner) (o) : (s.alloc o).1.deref (s.alloc o).2 = o := by
  simp [deref, alloc]

end StoreInner

open StoreInner

section Calls

variable (C : RefsCodec) (H : List UInt8 → Sha3Digest)

/-- `LevelStore::handle_from_digest`: the `upsert` finds the digest's handle, or puts a new one with
an empty weak slot. -/
def handleFromDigest (s : StoreInner) (digest : Sha3Digest) : StoreInner × LevelHandle :=
  match s.handles digest with
  | some handle => (s, handle)
  | none =>
    let handle : LevelHandle := ⟨s.inners.length⟩
    ({ s with inners := s.inners ++ [⟨digest, none⟩], handles := Function.update s.handles digest (some handle) },
      handle)

/-- What `resolve` and `handle_from_object` do under the handle's weak-slot lock: the object the
weak slot upgrades to; or else, through the `upsert` on `objects`, the resident object (its update
hook) or `fresh`, made resident (its insert hook); the weak slot then points to it. -/
def upgradeOrUpsert (s : StoreInner) (handle : LevelHandle) (digest : Sha3Digest)
    (fresh : StoreInner → StoreInner × ArcObject) : StoreInner × ArcObject :=
  match s.weak handle with
  | some arcObj => (s, arcObj)
  | none =>
    match s.objects digest with
    | some arcObj => (s.setWeak handle (some arcObj), arcObj)
    | none =>
      let (s, arcObj) := fresh s
      ({ s.setWeak handle (some arcObj) with objects := Function.update s.objects digest (some arcObj) }, arcObj)

/-- `LevelStore::handle_from_object`: digest the encoding, find or make the handle, find or make the
resident object, write its encoding to the database, and cache it in `objects`.  A failed write
returns at once, after the handle and the resident object were installed. -/
def handleFromObject (s : StoreInner) (object : Object) (putOk : Bool) : StoreInner × Except StoreError LevelHandle :=
  let digest := H (object.encode C)
  let (s, handle) := handleFromDigest s digest
  let (s, arcObj) := upgradeOrUpsert s handle digest fun s => s.alloc object
  let data := (s.deref arcObj).encode C
  if putOk then
    ({ s with db := Function.update s.db digest (some data), objects := Function.update s.objects digest (some arcObj) },
      .ok handle)
  else (s, .error .database)

/-- `HandleBuilder::finish`: the object of the bytes written and the digests of the references. -/
def LevelHandleBuilder.finish (s : StoreInner) (builder : LevelHandleBuilder) (putOk : Bool) :
    StoreInner × Except StoreError LevelHandle :=
  handleFromObject C H s ⟨builder.blob, builder.refs.map s.digestOf, builder.blob_lt⟩ putOk

/-- `LevelStore::object`: the resident object, or else the database's bytes decoded and made
resident. -/
def object (s : StoreInner) (digest : Sha3Digest) (getOk : Bool) (alloc : Nat → Bool) :
    Except String (StoreInner × Except StoreError (Option ArcObject)) :=
  match s.objects digest with
  | some arcObject => .ok (s, .ok (some arcObject))
  | none =>
    if getOk then
      match s.db digest with
      | some bytes => do
        match ← Object.decode C alloc bytes with
        | .ok (o, _) =>
          let (s, arcObj) := s.alloc o
          return ({ s with objects := Function.update s.objects digest (some arcObj) }, .ok (some arcObj))
        | .error e => return (s, .error (.decode e))
      | none => .ok (s, .ok none)
    else .ok (s, .error .database)

/-- `Store::resolve` on a SHA-3 digest: the cached handle, or else, when the object can be had, a
handle whose weak slot is seeded with it. -/
def resolve (s : StoreInner) (digest : Sha3Digest) (getOk : Bool) (alloc : Nat → Bool) :
    Except String (StoreInner × Except StoreError (Option LevelHandle)) :=
  match s.handles digest with
  | some handle => .ok (s, .ok (some handle))
  | none => do
    match ← object C s digest getOk alloc with
    | (s, .ok (some arcObj)) =>
      let (s, handle) := handleFromDigest s digest
      let (s, arcObj) := upgradeOrUpsert s handle digest fun s => (s, arcObj)
      return ({ s with objects := Function.update s.objects digest (some arcObj) }, .ok (some handle))
    | (s, .ok none) => return (s, .ok none)
    | (s, .error e) => return (s, .error e)

/-- `Handle::load`: the object the weak slot upgrades to, or else `object`'s, which the weak slot
then points to; a content reader and a refs iterator over it. -/
def load (s : StoreInner) (handle : LevelHandle) (getOk : Bool) (alloc : Nat → Bool) :
    Except String (StoreInner × Except StoreError (LevelHandleContent × LevelHandleRefs)) :=
  match s.weak handle with
  | some arcObj => .ok (s, .ok (⟨arcObj⟩, ⟨arcObj, 0⟩))
  | none => do
    match ← object C s (s.digestOf handle) getOk alloc with
    | (s, .ok (some arcObj)) => return (s.setWeak handle (some arcObj), .ok (⟨arcObj⟩, ⟨arcObj, 0⟩))
    | (s, .ok none) => return (s, .error (.message "Bad handle: no such object!"))
    | (s, .error e) => return (s, .error e)

/-- `LevelHandleRefs::next`: the handle of the next digest. -/
def LevelHandleRefs.next (s : StoreInner) (refs : LevelHandleRefs) : StoreInner × Option (LevelHandle × LevelHandleRefs) :=
  match ((s.deref refs.obj).refs.drop refs.pos).head? with
  | some digest =>
    let (s, handle) := handleFromDigest s digest
    (s, some (handle, ⟨refs.obj, refs.pos + 1⟩))
  | none => (s, none)

/-- What reading a `LevelHandleContent` to its end gives. -/
def LevelHandleContent.read (s : StoreInner) (content : LevelHandleContent) : List UInt8 := (s.deref content.obj).blob

/-- The handles a `LevelHandleRefs` yields by `next` until it returns `None`, in at most `fuel` calls. -/
def LevelHandleRefs.collect : Nat → StoreInner → LevelHandleRefs → StoreInner × List LevelHandle
  | 0, s, _ => (s, [])
  | fuel + 1, s, refs =>
    match refs.next s with
    | (s, some (handle, refs)) => let (s, rest) := collect fuel s refs; (s, handle :: rest)
    | (s, none) => (s, [])

/-- One call on the store, with what the database answers and what the allocator grants; or a weak
slot expiring. -/
inductive Call where
  | finish (builder : LevelHandleBuilder) (putOk : Bool)
  | resolve (digest : Sha3Digest) (getOk : Bool) (alloc : Nat → Bool)
  | load (handle : LevelHandle) (getOk : Bool) (alloc : Nat → Bool)
  | next (refs : LevelHandleRefs)
  | expire (handle : LevelHandle)

/-- The store after a call: a call that panics or aborts does so in `Object::decode`, before it
writes anything, and leaves the store as it was. -/
def StoreInner.after {α : Type} (s : StoreInner) : Except String (StoreInner × α) → StoreInner
  | .ok (s', _) => s'
  | .error _ => s

def StoreInner.step (s : StoreInner) : Call → StoreInner
  | .finish builder putOk => (LevelHandleBuilder.finish C H s builder putOk).1
  | .resolve digest getOk alloc => s.after (resolve C s digest getOk alloc)
  | .load handle getOk alloc => s.after (load C s handle getOk alloc)
  | .next refs => (refs.next s).1
  | .expire handle => s.setWeak handle none

/-- The states some sequence of calls leads to from `s`. -/
def StoreInner.Steps (s s' : StoreInner) : Prop := Relation.ReflTransGen (fun s s' => ∃ c, s.step C H c = s') s s'

/-- A list of calls, made one after the other, is a run. -/
theorem StoreInner.steps_foldl : ∀ (calls : List Call) (s : StoreInner), s.Steps C H (calls.foldl (StoreInner.step C H) s)
  | [], _ => .refl
  | c :: calls, s => Relation.ReflTransGen.head ⟨c, rfl⟩ (steps_foldl calls (s.step C H c))

end Calls

/-! ## Every object the store holds sits at its digest -/

section Sound

variable {C : RefsCodec} {H : List UInt8 → Sha3Digest}

/-- **Every object the store holds sits at its digest**: a resident object's encoding hashes to its
key, a live weak slot points to the resident object of its handle's digest, every value of the
database is an encoding that hashes to its key, and a cached handle has the digest it is cached
under. -/
structure Sound (C : RefsCodec) (H : List UInt8 → Sha3Digest) (s : StoreInner) : Prop where
  objects : ∀ d a, s.objects d = some a → a.idx < s.heap.length ∧ H ((s.deref a).encode C) = d
  weak : ∀ i ∈ s.inners, ∀ a, i.content = some a → s.objects i.digest = some a
  db : ∀ d bytes, s.db d = some bytes → ∃ o : Object, bytes = o.encode C ∧ H (o.encode C) = d
  handles : ∀ d h, s.handles d = some h → h.inner < s.inners.length ∧ s.digestOf h = d

/-- What no call takes back: allocations, handles' digests, cached handles and objects, and keys
of the database. -/
structure Grows (s s' : StoreInner) : Prop where
  heap : s.heap <+: s'.heap
  digests : s.inners.map HandleInner.digest <+: s'.inners.map HandleInner.digest
  handles : ∀ d h, s.handles d = some h → s'.handles d = some h
  objects : ∀ d a, s.objects d = some a → s'.objects d = some a
  db : ∀ d, (s.db d).isSome → (s'.db d).isSome

theorem Grows.refl (s : StoreInner) : Grows s s :=
  ⟨List.prefix_refl _, List.prefix_refl _, fun _ _ => id, fun _ _ => id, fun _ => id⟩

theorem Grows.trans {s₁ s₂ s₃ : StoreInner} (h₁ : Grows s₁ s₂) (h₂ : Grows s₂ s₃) : Grows s₁ s₃ :=
  ⟨h₁.heap.trans h₂.heap, h₁.digests.trans h₂.digests, fun d h hd => h₂.handles d h (h₁.handles d h hd),
    fun d a hd => h₂.objects d a (h₁.objects d a hd), fun d hd => h₂.db d (h₁.db d hd)⟩

namespace Grows

variable {s s' : StoreInner} (hg : Grows s s')
include hg

theorem length_le : s.inners.length ≤ s'.inners.length := by
  simpa using hg.digests.length_le

end Grows

namespace Sound

variable {s : StoreInner} (hs : Sound C H s)
include hs

theorem weak_eq {h : LevelHandle} {a : ArcObject} (hw : s.weak h = some a) : s.objects (s.digestOf h) = some a := by
  simp only [StoreInner.weak, Option.bind_eq_some] at hw
  obtain ⟨i, hi, ha⟩ := hw
  simpa [digestOf, hi] using hs.weak i (List.getElem?_mem hi) a ha

theorem alloc (o : Object) : Sound C H (s.alloc o).1 ∧ Grows s (s.alloc o).1 := by
  refine ⟨⟨fun d a hd => ?_, hs.weak, hs.db, hs.handles⟩,
    ⟨List.prefix_append _ _, List.prefix_refl _, fun _ _ => id, fun _ _ => id, fun _ => id⟩⟩
  obtain ⟨hlt, hH⟩ := hs.objects d a hd
  exact ⟨by simp; omega, by rw [deref_alloc_of_lt _ _ hlt, hH]⟩

theorem setWeak {h : LevelHandle} {x : Option ArcObject} (hx : ∀ a, x = some a → s.objects (s.digestOf h) = some a) :
    Sound C H (s.setWeak h x) ∧ Grows s (s.setWeak h x) := by
  refine ⟨⟨hs.objects, fun i hi a ha => ?_, hs.db, fun d h' hd => ?_⟩,
    ⟨List.prefix_refl _, ?_, fun _ _ => id, fun _ _ => id, fun _ => id⟩⟩
  · rcases mem_setWeak hi with hi | ⟨-, rfl⟩
    · exact hs.weak i hi a ha
    · exact hx a ha
  · rw [digestOf_setWeak, setWeak_length]; exact hs.handles d h' hd
  · rw [map_digest_setWeak]

theorem expire (h : LevelHandle) : Sound C H (s.setWeak h none) ∧ Grows s (s.setWeak h none) :=
  hs.setWeak fun _ h => nomatch h

/-- Making `a` resident for `d`, where nothing was. -/
theorem insertObject {d : Sha3Digest} {a : ArcObject} (hnone : s.objects d = none) (ha : a.idx < s.heap.length)
    (hH : H ((s.deref a).encode C) = d) :
    Sound C H { s with objects := Function.update s.objects d (some a) } ∧
      Grows s { s with objects := Function.update s.objects d (some a) } := by
  refine ⟨⟨fun d' b hd' => ?_, fun i hi b hb => ?_, hs.db, hs.handles⟩,
    ⟨List.prefix_refl _, List.prefix_refl _, fun _ _ => id, fun d' b hd' => ?_, fun _ => id⟩⟩
  · by_cases hdd : d' = d
    · subst hdd; simp at hd'; subst hd'; exact ⟨ha, hH⟩
    · simp only [Function.update_noteq hdd] at hd'; exact hs.objects d' b hd'
  · have := hs.weak i hi b hb
    have hne : i.digest ≠ d := fun h => by rw [h, hnone] at this; cases this
    simpa [Function.update_noteq hne] using this
  · have hne : d' ≠ d := fun h => by rw [h, hnone] at hd'; cases hd'
    simpa [Function.update_noteq hne] using hd'

/-- Writing an encoding that hashes to its key into the database. -/
theorem put {d : Sha3Digest} {o : Object} (hH : H (o.encode C) = d) :
    Sound C H { s with db := Function.update s.db d (some (o.encode C)) } ∧
      Grows s { s with db := Function.update s.db d (some (o.encode C)) } := by
  refine ⟨⟨hs.objects, hs.weak, fun d' bytes hd' => ?_, hs.handles⟩,
    ⟨List.prefix_refl _, List.prefix_refl _, fun _ _ => id, fun _ _ => id, fun d' hd' => ?_⟩⟩
  · by_cases hdd : d' = d
    · subst hdd; simp at hd'; exact ⟨o, hd'.symm, hH⟩
    · simp only [Function.update_noteq hdd] at hd'; exact hs.db d' bytes hd'
  · by_cases hdd : d' = d
    · subst hdd; simp
    · simpa [Function.update_noteq hdd] using hd'

theorem handleFromDigest_spec {d : Sha3Digest} {s' : StoreInner} {h : LevelHandle}
    (hr : handleFromDigest s d = (s', h)) :
    Sound C H s' ∧ Grows s s' ∧ s'.handles d = some h ∧ h.inner < s'.inners.length ∧ s'.digestOf h = d ∧
      s'.objects = s.objects ∧ s'.db = s.db ∧ s'.heap = s.heap := by
  unfold handleFromDigest at hr
  split at hr
  · rename_i h' hh
    cases hr
    exact ⟨hs, Grows.refl s, hh, hs.handles d h hh |>.1, hs.handles d h hh |>.2, rfl, rfl, rfl⟩
  · rename_i hnone
    cases hr
    have hold : ∀ h' : LevelHandle, h'.inner < s.inners.length →
        (s.inners ++ [(⟨d, none⟩ : HandleInner)])[h'.inner]? = s.inners[h'.inner]? :=
      fun h' hlt => List.getElem?_append_left hlt
    refine ⟨⟨hs.objects, fun i hi a ha => ?_, hs.db, fun d' h' hd' => ?_⟩,
      ⟨List.prefix_refl _, by simp, fun d' h' hd' => ?_, fun _ _ => id, fun _ => id⟩,
      by simp, by simp, by simp [digestOf], rfl, rfl, rfl⟩
    · rcases List.mem_append.1 hi with hi | hi
      · exact hs.weak i hi a ha
      · simp at hi; subst hi; cases ha
    · by_cases hdd : d' = d
      · subst hdd; simp at hd'; subst hd'; simp [digestOf]
      · simp only [Function.update_noteq hdd] at hd'
        obtain ⟨hlt, hdig⟩ := hs.handles d' h' hd'
        refine ⟨by simp; omega, ?_⟩
        simpa [digestOf, hold h' hlt] using hdig
    · have hne : d' ≠ d := fun h => by rw [h, hnone] at hd'; cases hd'
      simpa [Function.update_noteq hne] using hd'

/-- What `fresh` must do for `upgradeOrUpsert`: make an object for `d` and touch nothing else. -/
def Fresh (C : RefsCodec) (H : List UInt8 → Sha3Digest) (s : StoreInner) (d : Sha3Digest)
    (fresh : StoreInner → StoreInner × ArcObject) : Prop :=
  ∀ s₁ a₁, fresh s = (s₁, a₁) → Sound C H s₁ ∧ Grows s s₁ ∧ s₁.objects = s.objects ∧ s₁.inners = s.inners ∧
    s₁.handles = s.handles ∧ s₁.db = s.db ∧ a₁.idx < s₁.heap.length ∧ H ((s₁.deref a₁).encode C) = d

theorem fresh_alloc {o : Object} {d : Sha3Digest} (hH : H (o.encode C) = d) : Fresh C H s d fun s => s.alloc o := by
  intro s₁ a₁ hr
  obtain ⟨rfl, rfl⟩ := Prod.ext_iff.1 hr
  obtain ⟨hs₁, hg₁⟩ := hs.alloc o
  exact ⟨hs₁, hg₁, rfl, rfl, rfl, rfl, by simp, by rw [deref_alloc_self]; exact hH⟩

theorem upgradeOrUpsert_spec {h : LevelHandle} {d : Sha3Digest} {fresh : StoreInner → StoreInner × ArcObject}
    {s' : StoreInner} {a : ArcObject} (hd : s.digestOf h = d)
    (hfresh : Fresh C H s d fresh) (hr : upgradeOrUpsert s h d fresh = (s', a)) :
    Sound C H s' ∧ Grows s s' ∧ s'.objects d = some a ∧ s'.handles = s.handles ∧ s'.db = s.db ∧
      ∀ b, s.objects d = some b → s'.objects = s.objects ∧ a = b := by
  unfold upgradeOrUpsert at hr
  rcases hw : s.weak h with _ | b
  · rcases hb : s.objects d with _ | b
    · rcases hf : fresh s with ⟨s₁, a₁⟩
      simp only [hw, hb, hf] at hr
      obtain ⟨hs', ha⟩ := Prod.mk.inj hr
      subst hs' ha
      obtain ⟨hs₁, hg₁, ho₁, hi₁, hh₁, hdb₁, hlt₁, hH₁⟩ := hfresh s₁ a₁ hf
      obtain ⟨hs₂, hg₂⟩ := hs₁.insertObject (ho₁ ▸ hb) hlt₁ hH₁
      have hd₂ : ({ s₁ with objects := Function.update s₁.objects d (some a₁) } : StoreInner).digestOf h = d := by
        rw [← hd]; simp [digestOf, hi₁]
      obtain ⟨hs₃, hg₃⟩ : Sound C H (({ s₁ with objects := Function.update s₁.objects d (some a₁) } :
          StoreInner).setWeak h (some a₁)) ∧ _ :=
        hs₂.setWeak fun b hb => by rw [hd₂, ← Option.some.inj hb]; simp
      exact ⟨hs₃, hg₁.trans (hg₂.trans hg₃), by simp [setWeak], hh₁, hdb₁, fun b' hb' => Option.noConfusion hb'⟩
    · simp only [hw, hb] at hr
      obtain ⟨rfl, rfl⟩ := Prod.ext_iff.1 hr
      obtain ⟨hs', hg⟩ : Sound C H (s.setWeak h (some b)) ∧ Grows s (s.setWeak h (some b)) :=
        hs.setWeak fun b' hb' => by rw [hd, ← Option.some.inj hb']; exact hb
      exact ⟨hs', hg, hb, rfl, rfl, fun b' hb' => ⟨rfl, Option.some.inj hb'⟩⟩
  · simp only [hw] at hr
    obtain ⟨rfl, rfl⟩ := Prod.ext_iff.1 hr
    have hb' : s.objects d = some b := hd ▸ hs.weak_eq hw
    exact ⟨hs, Grows.refl s, hb', rfl, rfl, fun b'' h => ⟨rfl, Option.some.inj (hb'.symm.trans h)⟩⟩

theorem object_spec {d : Sha3Digest} {getOk : Bool} {alloc : Nat → Bool} {s' : StoreInner}
    {r : Except StoreError (Option ArcObject)} (hr : object C s d getOk alloc = .ok (s', r)) :
    Sound C H s' ∧ Grows s s' ∧ s'.handles = s.handles ∧ s'.inners = s.inners ∧ s'.db = s.db ∧
      (∀ a, r = .ok (some a) → s'.objects d = some a) ∧ (∀ a, s.objects d = some a → s' = s ∧ r = .ok (some a)) := by
  unfold object at hr
  split at hr
  · rename_i a ha
    cases hr
    exact ⟨hs, Grows.refl s, rfl, rfl, rfl, fun b hb => by cases hb; exact ha,
      fun b hb => ⟨rfl, by rw [ha] at hb; cases hb; rfl⟩⟩
  · rename_i hnone
    have hno : ∀ a, s.objects d = some a → False := fun a ha => by rw [hnone] at ha; cases ha
    split at hr
    · split at hr
      · rename_i bytes hbytes
        obtain ⟨o', rfl, hH⟩ := hs.db d bytes hbytes
        rcases hdec : Object.decode C alloc (o'.encode C) with msg | (e | ⟨o, rest⟩) <;>
          simp only [hdec, bind, Except.bind, pure, Except.pure, Except.ok.injEq, reduceCtorEq] at hr
        · obtain ⟨rfl, rfl⟩ := Prod.ext_iff.1 hr
          exact ⟨hs, Grows.refl s, rfl, rfl, rfl, nofun, fun a ha => (hno a ha).elim⟩
        · obtain ⟨rfl, -⟩ := Object.eq_of_decode_encode o' hdec
          obtain ⟨rfl, rfl⟩ := Prod.ext_iff.1 hr
          obtain ⟨hs₁, hg₁⟩ := hs.alloc o
          obtain ⟨hs₂, hg₂⟩ : Sound C H { (s.alloc o).1 with
              objects := Function.update (s.alloc o).1.objects d (some (s.alloc o).2) } ∧ _ :=
            hs₁.insertObject hnone (by simp) (by rw [deref_alloc_self]; exact hH)
          exact ⟨hs₂, hg₁.trans hg₂, rfl, rfl, rfl, fun a ha => by cases ha; simp,
            fun a ha => (hno a ha).elim⟩
      · obtain ⟨rfl, rfl⟩ := Prod.ext_iff.1 (Except.ok.inj hr)
        exact ⟨hs, Grows.refl s, rfl, rfl, rfl, nofun, fun a ha => (hno a ha).elim⟩
    · obtain ⟨rfl, rfl⟩ := Prod.ext_iff.1 (Except.ok.inj hr)
      exact ⟨hs, Grows.refl s, rfl, rfl, rfl, nofun, fun a ha => (hno a ha).elim⟩

theorem handleFromObject_spec {object : Object} {putOk : Bool} {s' : StoreInner} {r : Except StoreError LevelHandle}
    (hr : handleFromObject C H s object putOk = (s', r)) :
    Sound C H s' ∧ Grows s s' ∧ ∃ h a, s'.handles (H (object.encode C)) = some h ∧
      s'.objects (H (object.encode C)) = some a ∧ r = (if putOk then .ok h else .error .database) ∧
      (putOk → s'.db (H (object.encode C)) = some ((s'.deref a).encode C)) ∧ (putOk = false → s'.db = s.db) := by
  unfold handleFromObject at hr
  rcases h₁ : handleFromDigest s (H (object.encode C)) with ⟨s₁, h⟩
  obtain ⟨hs₁, hg₁, hh₁, -, hd₁, -, hdb₁, -⟩ := hs.handleFromDigest_spec h₁
  rcases h₂ : upgradeOrUpsert s₁ h (H (object.encode C)) (fun s => s.alloc object) with ⟨s₂, a⟩
  obtain ⟨hs₂, hg₂, ho₂, hh₂, hdb₂, -⟩ := hs₁.upgradeOrUpsert_spec hd₁ (hs₁.fresh_alloc rfl) h₂
  simp only [h₁, h₂] at hr
  cases putOk
  · obtain ⟨rfl, rfl⟩ := Prod.ext_iff.1 hr
    exact ⟨hs₂, hg₁.trans hg₂, h, a, hh₂ ▸ hh₁, ho₂, rfl, nofun, fun _ => hdb₂.trans hdb₁⟩
  · obtain ⟨rfl, rfl⟩ := Prod.ext_iff.1 hr
    simp only [← ho₂, Function.update_eq_self, if_true]
    obtain ⟨hs₃, hg₃⟩ := hs₂.put (hs₂.objects _ a ho₂).2
    exact ⟨hs₃, hg₁.trans (hg₂.trans hg₃), h, a, hh₂ ▸ hh₁, ho₂, rfl,
      fun _ => by simp only [Function.update_same]; rfl, nofun⟩

theorem resolve_spec {d : Sha3Digest} {getOk : Bool} {alloc : Nat → Bool} {s' : StoreInner}
    {r : Except StoreError (Option LevelHandle)} (hr : resolve C s d getOk alloc = .ok (s', r)) :
    Sound C H s' ∧ Grows s s' ∧ (∀ h, r = .ok (some h) → s'.handles d = some h) ∧
      ∀ h, s.handles d = some h → s' = s ∧ r = .ok (some h) := by
  unfold resolve at hr
  rcases hh : s.handles d with _ | h
  · rcases ho : object C s d getOk alloc with msg | ⟨s₁, _ | _ | a⟩ <;>
      simp only [hh, ho, bind, Except.bind, pure, Except.pure, reduceCtorEq] at hr
    all_goals obtain ⟨hs₁, hg₁, hh₁, -, -, hsome₁, -⟩ := hs.object_spec ho
    · obtain ⟨rfl, rfl⟩ := Prod.ext_iff.1 (Except.ok.inj hr)
      exact ⟨hs₁, hg₁, nofun, nofun⟩
    · obtain ⟨rfl, rfl⟩ := Prod.ext_iff.1 (Except.ok.inj hr)
      exact ⟨hs₁, hg₁, nofun, nofun⟩
    · have ha₁ := hsome₁ a rfl
      rcases h₂ : handleFromDigest s₁ d with ⟨s₂, h⟩
      obtain ⟨hs₂, hg₂, hh₂, -, hd₂, ho₂, -⟩ := hs₁.handleFromDigest_spec h₂
      have hfresh : Fresh C H s₂ d fun s => (s, a) := by
        rintro s₃ a₃ ⟨⟩
        exact ⟨hs₂, Grows.refl _, rfl, rfl, rfl, rfl, hs₂.objects d a (ho₂ ▸ ha₁)⟩
      rcases h₃ : upgradeOrUpsert s₂ h d (fun s => (s, a)) with ⟨s₃, b⟩
      obtain ⟨hs₃, hg₃, ho₃, hh₃, -⟩ := hs₂.upgradeOrUpsert_spec hd₂ hfresh h₃
      simp only [h₂, h₃] at hr
      obtain ⟨rfl, rfl⟩ := Prod.ext_iff.1 (Except.ok.inj hr)
      simp only [← ho₃, Function.update_eq_self]
      exact ⟨hs₃, hg₁.trans (hg₂.trans hg₃), fun h' hh' => by cases hh'; rw [hh₃]; exact hh₂, nofun⟩
  · simp only [hh] at hr
    obtain ⟨rfl, rfl⟩ := Prod.ext_iff.1 (Except.ok.inj hr)
    exact ⟨hs, Grows.refl s, fun h' hh' => by cases hh'; exact hh, fun h' hh' => by cases hh'; exact ⟨rfl, rfl⟩⟩

theorem load_spec {h : LevelHandle} {getOk : Bool} {alloc : Nat → Bool} {s' : StoreInner}
    {r : Except StoreError (LevelHandleContent × LevelHandleRefs)} (hr : load C s h getOk alloc = .ok (s', r)) :
    Sound C H s' ∧ Grows s s' ∧ ∀ content refs, r = .ok (content, refs) →
      s'.objects (s.digestOf h) = some content.obj ∧ refs = ⟨content.obj, 0⟩ := by
  unfold load at hr
  rcases hw : s.weak h with _ | a
  · rcases ho : object C s (s.digestOf h) getOk alloc with msg | ⟨s₁, _ | _ | a⟩ <;>
      simp only [hw, ho, bind, Except.bind, pure, Except.pure, reduceCtorEq] at hr
    all_goals obtain ⟨hs₁, hg₁, -, hi₁, -, hsome₁, -⟩ := hs.object_spec ho
    · obtain ⟨rfl, rfl⟩ := Prod.ext_iff.1 (Except.ok.inj hr)
      exact ⟨hs₁, hg₁, nofun⟩
    · obtain ⟨rfl, rfl⟩ := Prod.ext_iff.1 (Except.ok.inj hr)
      exact ⟨hs₁, hg₁, nofun⟩
    · obtain ⟨rfl, rfl⟩ := Prod.ext_iff.1 (Except.ok.inj hr)
      have hd : s₁.digestOf h = s.digestOf h := by simp [digestOf, hi₁]
      obtain ⟨hs₂, hg₂⟩ : Sound C H (s₁.setWeak h (some a)) ∧ Grows s₁ (s₁.setWeak h (some a)) :=
        hs₁.setWeak fun b hb => by cases hb; rw [hd]; exact hsome₁ a rfl
      exact ⟨hs₂, hg₁.trans hg₂, fun c refs hc => by cases hc; exact ⟨hsome₁ a rfl, rfl⟩⟩
  · simp only [hw] at hr
    obtain ⟨rfl, rfl⟩ := Prod.ext_iff.1 (Except.ok.inj hr)
    exact ⟨hs, Grows.refl s, fun c refs hc => by cases hc; exact ⟨hs.weak_eq hw, rfl⟩⟩

theorem next_spec {refs : LevelHandleRefs} {s' : StoreInner} {r : Option (LevelHandle × LevelHandleRefs)}
    (hr : refs.next s = (s', r)) :
    Sound C H s' ∧ Grows s s' ∧ (r = none ↔ (s.deref refs.obj).refs.drop refs.pos = []) ∧
      ∀ h refs', r = some (h, refs') → h.inner < s'.inners.length ∧
        ((s.deref refs.obj).refs.drop refs.pos).head? = some (s'.digestOf h) ∧ refs' = ⟨refs.obj, refs.pos + 1⟩ := by
  unfold LevelHandleRefs.next at hr
  rcases hd : ((s.deref refs.obj).refs.drop refs.pos).head? with _ | d
  · simp only [hd] at hr
    obtain ⟨rfl, rfl⟩ := Prod.ext_iff.1 hr
    exact ⟨hs, Grows.refl s, by simpa using hd, nofun⟩
  · rcases h₁ : handleFromDigest s d with ⟨s₁, h⟩
    obtain ⟨hs₁, hg₁, -, hlt₁, hd₁, -⟩ := hs.handleFromDigest_spec h₁
    simp only [hd, h₁] at hr
    obtain ⟨rfl, rfl⟩ := Prod.ext_iff.1 hr
    refine ⟨hs₁, hg₁, ⟨nofun, fun h => by simp [h] at hd⟩, fun h' refs' h' => ?_⟩
    cases h'
    exact ⟨hlt₁, by rw [hd₁], rfl⟩

/-- A call that panics or aborts leaves the store as it was. -/
theorem after {α : Type} {x : Except String (StoreInner × α)}
    (h : ∀ s' r, x = .ok (s', r) → Sound C H s' ∧ Grows s s') : Sound C H (s.after x) ∧ Grows s (s.after x) := by
  rcases x with _ | ⟨s', r⟩
  exacts [⟨hs, Grows.refl s⟩, h s' r rfl]

/-- **Every call keeps `Sound`**, and takes nothing back. -/
theorem step (c : Call) : Sound C H (s.step C H c) ∧ Grows s (s.step C H c) := by
  cases c with
  | finish builder putOk => exact (hs.handleFromObject_spec (Prod.ext_iff.2 ⟨rfl, rfl⟩)).imp_right (·.1)
  | resolve digest getOk alloc => exact hs.after fun _ _ hr => (hs.resolve_spec hr).imp_right (·.1)
  | load handle getOk alloc => exact hs.after fun _ _ hr => (hs.load_spec hr).imp_right (·.1)
  | next refs => exact (hs.next_spec (Prod.ext_iff.2 ⟨rfl, rfl⟩)).imp_right (·.1)
  | expire handle => exact hs.expire handle

theorem steps {s' : StoreInner} (h : s.Steps C H s') : Sound C H s' ∧ Grows s s' := by
  induction h with
  | refl => exact ⟨hs, Grows.refl s⟩
  | tail _ hstep ih =>
    obtain ⟨c, rfl⟩ := hstep
    obtain ⟨hs', hg⟩ := ih.1.step c
    exact ⟨hs', ih.2.trans hg⟩

end Sound

theorem Sound.init {db : Sha3Digest → Option (List UInt8)}
    (hdb : ∀ d bytes, db d = some bytes → ∃ o : Object, bytes = o.encode C ∧ H (o.encode C) = d) :
    Sound C H (StoreInner.init db) :=
  ⟨(fun _ _ h => nomatch h), (fun _ h => nomatch h), hdb, fun _ _ h => nomatch h⟩

/-- **In every reachable state, every object the store holds sits at its digest**: the resident
objects, the objects behind live weak slots, and the database's values, which decode to objects
whose encodings hash to their keys; so `load` gives the object of the handle's digest. -/
theorem sound_spec {db : Sha3Digest → Option (List UInt8)}
    (hdb : ∀ d bytes, db d = some bytes → ∃ o : Object, bytes = o.encode C ∧ H (o.encode C) = d)
    {s : StoreInner} (hreach : (StoreInner.init db).Steps C H s) :
    (∀ d a, s.objects d = some a → H ((s.deref a).encode C) = d) ∧
    (∀ h a, s.weak h = some a → H ((s.deref a).encode C) = s.digestOf h) ∧
    (∀ d bytes, s.db d = some bytes → ∃ o : Object, bytes = o.encode C ∧ H (o.encode C) = d ∧
      ∀ alloc : Nat → Bool, (o.blob = [] ∨ alloc o.blob.length) → Object.decode C alloc bytes = .ok (.ok (o, []))) ∧
    ∀ h getOk alloc s' content refs, load C s h getOk alloc = .ok (s', .ok (content, refs)) →
      H ((s'.deref content.obj).encode C) = s.digestOf h ∧ refs.obj = content.obj := by
  have hs := ((Sound.init hdb).steps hreach).1
  refine ⟨fun d a hd => (hs.objects d a hd).2, fun h a hw => (hs.objects _ a (hs.weak_eq hw)).2,
    fun d bytes hd => ?_, fun h getOk alloc s' content refs hl => ?_⟩
  · obtain ⟨o, rfl, hH⟩ := hs.db d bytes hd
    exact ⟨o, rfl, hH, fun alloc halloc => by simpa using Object.decode_encode o halloc []⟩
  · obtain ⟨hs', -, hr⟩ := hs.load_spec hl
    obtain ⟨ho, rfl⟩ := hr content refs rfl
    exact ⟨(hs'.objects _ _ ho).2, rfl⟩

/-- A `resolve` that decodes from the database, `load`s before and after a weak slot expires, a
`finish` that refers to the resolved handle, and `next` on its references. -/
theorem sound_spec_run :
    let H : List UInt8 → Sha3Digest := fun bytes => ⟨List.replicate 32 (UInt8.ofNat bytes.length), List.length_replicate _ _⟩
    let o : Object := ⟨[1], [], by decide⟩
    let db := Function.update (fun _ => none) (H (o.encode canonical)) (some (o.encode canonical))
    let s := [Call.resolve (H (o.encode canonical)) true fun _ => true, .load ⟨0⟩ true fun _ => true,
      .finish ⟨[2, 3], [⟨0⟩], by decide⟩ true, .expire ⟨0⟩, .load ⟨1⟩ true fun _ => true, .next ⟨⟨1⟩, 0⟩,
      .load ⟨0⟩ true fun n => decide (n ≤ 1)].foldl (StoreInner.step canonical H) (StoreInner.init db)
    (∀ d bytes, db d = some bytes → ∃ o : Object, bytes = o.encode canonical ∧ H (o.encode canonical) = d) ∧
    (StoreInner.init db).Steps canonical H s ∧
    (∀ d a, s.objects d = some a → H ((s.deref a).encode canonical) = d) ∧
    (∀ h a, s.weak h = some a → H ((s.deref a).encode canonical) = s.digestOf h) ∧
    (∀ d bytes, s.db d = some bytes → ∃ o : Object, bytes = o.encode canonical ∧ H (o.encode canonical) = d ∧
      ∀ alloc : Nat → Bool, (o.blob = [] ∨ alloc o.blob.length) →
        Object.decode canonical alloc bytes = .ok (.ok (o, []))) ∧
    ∀ h getOk alloc s' content refs, load canonical s h getOk alloc = .ok (s', .ok (content, refs)) →
      H ((s'.deref content.obj).encode canonical) = s.digestOf h ∧ refs.obj = content.obj := by
  intro H o db s
  have hdb : ∀ d bytes, db d = some bytes → ∃ o : Object, bytes = o.encode canonical ∧ H (o.encode canonical) = d := by
    intro d bytes hd
    by_cases e : d = H (o.encode canonical)
    · subst e
      exact ⟨o, by simpa [db] using hd.symm, rfl⟩
    · simp [db, e] at hd
  exact ⟨hdb, StoreInner.steps_foldl _ _ _ _, sound_spec hdb (StoreInner.steps_foldl _ _ _ _)⟩

/-- **A failed write is not undone**: `finish` returns the database's error, the database is as it
was, but the handle and the resident object of the digest are installed. -/
theorem finish_put_error {s : StoreInner} (hs : Sound C H s) (builder : LevelHandleBuilder) :
    (builder.finish C H s false).2 = .error .database ∧ (builder.finish C H s false).1.db = s.db ∧
      ((builder.finish C H s false).1.handles (H ((⟨builder.blob, builder.refs.map s.digestOf, builder.blob_lt⟩ :
        Object).encode C))).isSome ∧
      ((builder.finish C H s false).1.objects (H ((⟨builder.blob, builder.refs.map s.digestOf, builder.blob_lt⟩ :
        Object).encode C))).isSome := by
  have hr : handleFromObject C H s ⟨builder.blob, builder.refs.map s.digestOf, builder.blob_lt⟩ false =
      ((builder.finish C H s false).1, (builder.finish C H s false).2) := rfl
  obtain ⟨-, -, h, a, hh, ho, hr', -, hdb⟩ := hs.handleFromObject_spec hr
  exact ⟨hr', hdb rfl, by rw [hh]; rfl, by rw [ho]; rfl⟩

/-! ## A finished object stays installed -/

theorem resolve_of_cached {s : StoreInner} {d : Sha3Digest} {h : LevelHandle} (hh : s.handles d = some h) (getOk : Bool)
    (alloc : Nat → Bool) : resolve C s d getOk alloc = .ok (s, .ok (some h)) := by
  simp [resolve, hh]

theorem load_of_weak {s : StoreInner} {h : LevelHandle} {a : ArcObject} (hw : s.weak h = some a) (getOk : Bool)
    (alloc : Nat → Bool) : load C s h getOk alloc = .ok (s, .ok (⟨a⟩, ⟨a, 0⟩)) := by
  simp [load, hw]

/-- **`finish` of the empty object over an empty database, with the write failing**: it returns
the error, yet the handle and the resident object are installed while the database has no value
under the digest; `resolve` then finds the handle and `load` the object that was never written. -/
theorem finish_put_error_installs :
    (StoreInner.init fun _ => none).handles (H (Object.encode C ⟨[], [], by decide⟩)) = none ∧
    (StoreInner.init fun _ => none).objects (H (Object.encode C ⟨[], [], by decide⟩)) = none ∧
    ∃ s', LevelHandleBuilder.finish C H (StoreInner.init fun _ => none) ⟨[], [], by decide⟩ false =
        (s', .error .database) ∧
      s'.db = (StoreInner.init fun _ => none).db ∧
      s'.handles (H (Object.encode C ⟨[], [], by decide⟩)) = some ⟨0⟩ ∧
      s'.objects (H (Object.encode C ⟨[], [], by decide⟩)) = some ⟨0⟩ ∧
      s'.db (H (Object.encode C ⟨[], [], by decide⟩)) = none ∧
      (∀ getOk alloc, resolve C s' (H (Object.encode C ⟨[], [], by decide⟩)) getOk alloc = .ok (s', .ok (some ⟨0⟩))) ∧
      (∀ getOk alloc, load C s' ⟨0⟩ getOk alloc = .ok (s', .ok (⟨⟨0⟩⟩, ⟨⟨0⟩, 0⟩))) ∧
      LevelHandleContent.read s' ⟨⟨0⟩⟩ = [] := by
  have hs : Sound C H (StoreInner.init fun _ => none) := Sound.init fun _ _ h => nomatch h
  obtain ⟨herr, hdb, -, -⟩ := finish_put_error hs ⟨[], [], by decide⟩
  obtain ⟨hh, hw, ho⟩ : let s' := (LevelHandleBuilder.finish C H (StoreInner.init fun _ => none) ⟨[], [], by decide⟩ false).1
      s'.handles (H (Object.encode C ⟨[], [], by decide⟩)) = some ⟨0⟩ ∧ s'.weak ⟨0⟩ = some ⟨0⟩ ∧
        s'.objects (H (Object.encode C ⟨[], [], by decide⟩)) = some ⟨0⟩ := by
    simp [LevelHandleBuilder.finish, handleFromObject, handleFromDigest, upgradeOrUpsert, StoreInner.weak,
      StoreInner.setWeak, StoreInner.alloc]
  exact ⟨rfl, rfl, _, Prod.ext rfl herr, hdb, hh, ho, congrFun hdb _, fun getOk alloc => resolve_of_cached hh getOk alloc,
    fun getOk alloc => load_of_weak hw getOk alloc, rfl⟩

section Installed

variable {s s' : StoreInner} {o : Object} {h : LevelHandle}
  (hcoll : ∀ o' : Object, H (o'.encode C) = H (o.encode C) → o' = o)
include hcoll

end Installed

end Sound

end Attaca
