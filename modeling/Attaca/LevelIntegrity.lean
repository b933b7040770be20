import Attaca.LevelResident
/-!
# LevelIntegrity — every digest names its object, under any interleaving

The store is content addressed: a digest is the hash of an object's encoding.  Over a database that
is content addressed to begin with, every interleaving of `finish`, `resolve` and `load` keeps it so
(`Sealed`): the database holds under each digest the encoding of an object with that digest; the
object resident under a digest, and the target of each handle's weak slot, hash to it; every
allocation a thread holds hashes to the digest it works on (`Pc.holds`); and every content and refs
a client got from `load` is over an object with its handle's digest.

Allocations are never moved or freed in the model, so what an allocation holds only changes for
allocations past the end of the heap (`Keeps`), and `Inv` of `LevelResident.lean` says every
allocation the world refers to is inside it.  Each step then keeps `Sealed` (`Sealed.step`), and so
does every run (`Sealed.reach`).
-/
namespace Attaca

namespace Concurrent

open World

/-! ## What a thread holds -/

/-- The objects a thread's locals hold, each with the digest it works on: the hook's object, the
allocations it upgraded to, decoded or read from `objects`. -/
def Pc.holds (s : StoreInner) : Pc → List (Object × Sha3Digest)
  | .installHandle hook d | .installLock hook d _ | .installUpgrade hook d _ | .installUpsert hook d _ =>
    match hook with
    | .alloc o => [(o, d)]
    | .move a => [(s.deref a, d)]
  | .installUnlock _ d _ read a | .insertBack d _ read a => (a :: read.toList).map fun b => (s.deref b, d)
  | .finishPut d _ a | .resolveInsert d a => [(s.deref a, d)]
  | .loadInsert h a | .loadSetWeak h a | .loadReturn h a => [(s.deref a, s.digestOf h)]
  | _ => []

/-- The store keeps what each allocation inside its heap holds and each valid handle's digest. -/
structure Keeps (s s' : StoreInner) : Prop where
  deref : ∀ a : ArcObject, a.idx < s.heap.length → s'.deref a = s.deref a
  digestOf : ∀ h : LevelHandle, h.inner < s.inners.length → s'.digestOf h = s.digestOf h

namespace Keeps

theorem alloc (s : StoreInner) (o : Object) : Keeps s (s.alloc o).1 :=
  ⟨fun _ ha => StoreInner.deref_alloc_of_lt s o ha, fun _ _ => rfl⟩

theorem handleFromDigest (s : StoreInner) (d : Sha3Digest) : Keeps s (handleFromDigest s d).1 :=
  ⟨fun a _ => by simp only [StoreInner.deref, handleFromDigest_heap], fun _ hh => handleFromDigest_digestOf hh⟩

end Keeps

/-- What a thread holds is kept by a store that keeps its allocations and the handle it locked. -/
theorem Pc.holds_keep {s s' : StoreInner} (hk : Keeps s s') {pc : Pc} (harcs : ∀ a ∈ pc.arcs, a.idx < s.heap.length)
    (hh : ∀ h, pc.lockHeld = some h → h.inner < s.inners.length) : pc.holds s' = pc.holds s := by
  have hd : ∀ a ∈ pc.arcs, s'.deref a = s.deref a := fun a ha => hk.deref a (harcs a ha)
  have hg : ∀ h, pc.lockHeld = some h → s'.digestOf h = s.digestOf h := fun h e => hk.digestOf h (hh h e)
  cases pc <;> try cases ‹Hook›
  all_goals simp_all [Pc.holds, Pc.arcs, Pc.lockHeld, Hook.read]

/-- What a thread holds is read through `deref` and `digestOf` only. -/
theorem Pc.holds_congr {s s' : StoreInner} (hd : s'.deref = s.deref) (hg : s'.digestOf = s.digestOf) (pc : Pc) :
    pc.holds s' = pc.holds s := by
  cases pc <;> try cases ‹Hook›
  all_goals simp [Pc.holds, hd, hg]

theorem Inv.lockHeld_lt {w : World} (hi : Inv w) {t : Nat} {h : LevelHandle} (ht : (w.threads t).lockHeld = some h) :
    h.inner < w.store.inners.length := by
  have hok := hi.ok t
  cases hpc : w.threads t <;> rw [hpc] at ht hok <;> simp only [Pc.lockHeld, Option.some.injEq, reduceCtorEq] at ht <;>
    subst ht <;> simp only [Pc.Ok] at hok
  all_goals first | exact (hi.handle_valid _ _ hok).1 | exact (hi.handle_valid _ _ hok.1).1 | exact hok | exact hok.1

/-! ## The invariant -/

variable (C : RefsCodec) (H : List UInt8 → Sha3Digest)

/-- **Content addressing, everywhere the world keeps an object under a digest.** -/
structure Sealed (w : World) : Prop where
  db : ∀ d bytes, w.store.db d = some bytes → ∃ o : Object, bytes = o.encode C ∧ H (o.encode C) = d
  objects : ∀ d a, w.store.objects d = some a → H ((w.store.deref a).encode C) = d
  weak : ∀ h a, w.store.weak h = some a → H ((w.store.deref a).encode C) = w.store.digestOf h
  threads : ∀ t, ∀ x ∈ (w.threads t).holds w.store, H (x.1.encode C) = x.2
  held : ∀ h a, (h, a) ∈ w.held → H ((w.store.deref a).encode C) = w.store.digestOf h

variable {C H}

/-- What a content-addressed database decodes under a digest is an object with that digest. -/
theorem decode_hashes {db : Sha3Digest → Option (List UInt8)}
    (hdb : ∀ d bytes, db d = some bytes → ∃ o : Object, bytes = o.encode C ∧ H (o.encode C) = d)
    {d : Sha3Digest} {bytes : List UInt8} {o : Object} {r : List UInt8} {alloc : Nat → Bool} (hd : db d = some bytes)
    (he : Object.decode C alloc bytes = .ok (.ok (o, r))) : H (o.encode C) = d := by
  obtain ⟨o', rfl, hH⟩ := hdb d bytes hd
  rw [(Object.eq_of_decode_encode o' he).1, hH]

theorem handleFromDigest_db (s : StoreInner) (d : Sha3Digest) : (handleFromDigest s d).1.db = s.db := by
  unfold handleFromDigest; split <;> rfl

namespace Sealed

variable {w : World} (hs : Sealed C H w)
include hs

/-- A step of one thread that only moves it, to a point whose locals hash as they should. -/
theorem move {t : Nat} {pc' : Pc} (hpc : ∀ x ∈ pc'.holds w.store, H (x.1.encode C) = x.2) :
    Sealed C H (w.move t pc' w.store) := by
  refine ⟨hs.db, hs.objects, hs.weak, fun t' => ?_, hs.held⟩
  by_cases e : t' = t
  · subst e; simpa using hpc
  · rw [move_ne _ _ _ _ e]; exact hs.threads t'

/-- What a thread holds hashes as it should. -/
theorem thread {t : Nat} {pc : Pc} (ht : w.threads t = pc) : ∀ x ∈ pc.holds w.store, H (x.1.encode C) = x.2 :=
  ht ▸ hs.threads t

/-- A step of one thread that only moves it, keeping some of its locals and taking new ones that
hash as they should. -/
theorem moveFrom {t : Nat} {pc pc' : Pc} (ht : w.threads t = pc)
    (hpc : ∀ x ∈ pc'.holds w.store, x ∈ pc.holds w.store ∨ H (x.1.encode C) = x.2) :
    Sealed C H (w.move t pc' w.store) :=
  hs.move fun x hx => (hpc x hx).elim (hs.thread ht x) id

/-- A step that changes neither the store nor the threads, and leaves the clients holding less. -/
theorem shrink {w' : World} (hst : w'.store = w.store) (ht : w'.threads = w.threads)
    (hheld : ∀ x ∈ w'.held, x ∈ w.held) : Sealed C H w' := by
  obtain ⟨s, threads, contents, iters, returned⟩ := w'
  simp only at hst ht; subst hst ht
  exact ⟨hs.db, hs.objects, hs.weak, hs.threads, fun h a ha => hs.held h a (hheld _ ha)⟩

/-- A call returns a handle. -/
theorem addReturned (h : LevelHandle) : Sealed C H { w with returned := w.returned ++ [h] } :=
  ⟨hs.db, hs.objects, hs.weak, hs.threads, hs.held⟩

/-- `load` hands the client a content and a refs over an object with the handle's digest. -/
theorem hold {h : LevelHandle} {a : ArcObject} (ha : H ((w.store.deref a).encode C) = w.store.digestOf h) :
    Sealed C H { w with contents := w.contents ++ [(h, ⟨a⟩)], iters := w.iters ++ [(h, ⟨a, 0⟩)] } := by
  refine ⟨hs.db, hs.objects, hs.weak, hs.threads, fun h' b hb => ?_⟩
  simp only [World.held, List.map_append, List.map_singleton, List.mem_append, List.mem_singleton] at hb
  rcases hb with (hb | hb) | hb | hb
  · exact hs.held h' b (List.mem_append_left _ hb)
  · obtain ⟨rfl, rfl⟩ := Prod.mk.inj hb; exact ha
  · exact hs.held h' b (List.mem_append_right _ hb)
  · obtain ⟨rfl, rfl⟩ := Prod.mk.inj hb; exact ha

/-- An allocation, or the `upsert` of `handle_from_digest`: the store grows without touching
`objects`, the database or a valid slot. -/
theorem grow (hi : Inv w) {s' : StoreInner} (hk : Keeps w.store s') (hdb : s'.db = w.store.db)
    (hobj : s'.objects = w.store.objects)
    (hweak : ∀ h a, s'.weak h = some a → h.inner < w.store.inners.length ∧ w.store.weak h = some a) :
    Sealed C H { w with store := s' } := by
  refine ⟨fun d bytes hd => hs.db d bytes (hdb ▸ hd), fun d a ha => ?_, fun h a hw => ?_, fun t => ?_,
    fun h a ha => ?_⟩
  · rw [hobj] at ha
    rw [hk.deref a (hi.live_lt a (.of_objects ha))]; exact hs.objects d a ha
  · obtain ⟨hh, hw⟩ := hweak h a hw
    rw [hk.deref a (hi.weak_lt h a hw), hk.digestOf h hh]; exact hs.weak h a hw
  · rw [Pc.holds_keep hk (fun a ha => hi.live_lt a (.of_arcs ha)) fun h e => hi.lockHeld_lt e]
    exact hs.threads t
  · obtain ⟨hh, hw⟩ := hi.held h a ha
    rw [hk.deref a (hi.weak_lt h a hw), hk.digestOf h hh]; exact hs.held h a ha

/-- An allocation. -/
theorem alloc (hi : Inv w) (o : Object) : Sealed C H { w with store := (w.store.alloc o).1 } :=
  hs.grow hi (Keeps.alloc _ o) rfl rfl fun _ _ hw => ⟨lt_of_weak hw, hw⟩

/-- The `upsert` of `handle_from_digest`. -/
theorem handleUpsert (hi : Inv w) (d : Sha3Digest) :
    Sealed C H { w with store := (handleFromDigest w.store d).1 } :=
  hs.grow hi (Keeps.handleFromDigest _ _) (handleFromDigest_db _ _) handleFromDigest_objects
    fun _ _ hw => weak_of_handleFromDigest hw

/-- The slot of a valid handle set to an allocation with the handle's digest. -/
theorem setWeak {h : LevelHandle} {x : ArcObject} (hh : h.inner < w.store.inners.length)
    (hx : H ((w.store.deref x).encode C) = w.store.digestOf h) :
    Sealed C H { w with store := w.store.setWeak h (some x) } := by
  have hdig : (w.store.setWeak h (some x)).digestOf = w.store.digestOf :=
    funext fun h' => StoreInner.digestOf_setWeak _ _ _ _
  refine ⟨hs.db, hs.objects, fun h' a hw => ?_, fun t => ?_, fun h' a ha => ?_⟩
  · simp only [StoreInner.setWeak_deref, hdig]
    rw [StoreInner.weak_setWeak _ _ hh] at hw
    split at hw
    · obtain rfl : h' = h := by cases h'; cases h; simp_all
      cases hw; exact hx
    · exact hs.weak h' a hw
  · rw [Pc.holds_congr (StoreInner.setWeak_deref _ _ _) hdig]; exact hs.threads t
  · simp only [StoreInner.setWeak_deref, hdig]; exact hs.held h' a ha

/-- `objects.insert(digest, arc_obj)` of an allocation with that digest. -/
theorem objectsInsert {d : Sha3Digest} {a : ArcObject} (ha : H ((w.store.deref a).encode C) = d) :
    Sealed C H { w with store := objectsInsert w.store d a } := by
  refine ⟨hs.db, fun d' b hb => ?_, hs.weak, hs.threads, hs.held⟩
  by_cases e : d' = d
  · subst e; simp only [objectsInsert_objects, Function.update_same, Option.some.injEq] at hb
    subst hb; exact ha
  · exact hs.objects d' b (by simpa [e] using hb)

/-- `db.put` of the encoding of an allocation with the digest it is put under. -/
theorem setDb {d : Sha3Digest} {a : ArcObject} (ha : H ((w.store.deref a).encode C) = d) :
    Sealed C H { w with store := { w.store with db := Function.update w.store.db d (some ((w.store.deref a).encode C)) } } := by
  refine ⟨fun d' bytes hd => ?_, hs.objects, hs.weak, hs.threads, hs.held⟩
  by_cases e : d' = d
  · subst e; simp only [Function.update_same, Option.some.injEq] at hd
    exact ⟨_, hd.symm, ha⟩
  · exact hs.db d' bytes (by simpa [e] using hd)

end Sealed

@[simp] theorem deref_alloc_length (s : StoreInner) (o : Object) : (s.alloc o).1.deref ⟨s.heap.length⟩ = o :=
  StoreInner.deref_alloc_self s o

@[simp] theorem digestOf_alloc (s : StoreInner) (o : Object) : (s.alloc o).1.digestOf = s.digestOf := rfl

section Step

/-- Some of the clients' contents and refs dropped, or one refs moved along its object. -/
theorem held_subset_of_drop {w : World} {i : Nat} :
    (∀ y ∈ ({ w with contents := w.contents.eraseIdx i } : World).held, y ∈ w.held) ∧
    (∀ y ∈ ({ w with iters := w.iters.eraseIdx i } : World).held, y ∈ w.held) := by
  constructor <;> intro y hy <;> simp only [World.held, List.mem_append, List.mem_map] at hy ⊢
  · exact hy.imp_left fun ⟨z, hz, e⟩ => ⟨z, List.mem_of_mem_eraseIdx hz, e⟩
  · exact hy.imp_right fun ⟨z, hz, e⟩ => ⟨z, List.mem_of_mem_eraseIdx hz, e⟩

/-- **Every step keeps content addressing.** -/
theorem Sealed.step {w w' : World} (hi : Inv w) (hs : Sealed C H w) (hst : Step C H w w') : Sealed C H w' := by
  cases hst with
  | finish builder ht => exact hs.move (by simp [Pc.holds])
  | resolve d ht => exact hs.move (by simp [Pc.holds])
  | load h hh ht => exact hs.move (by simp [Pc.holds])
  | dropContent i => exact hs.shrink rfl rfl held_subset_of_drop.1
  | dropRefs i => exact hs.shrink rfl rfl held_subset_of_drop.2
  | @next i x s handle refs hx hn =>
    simp only [LevelHandleRefs.next] at hn
    split at hn
    · rename_i d _
      obtain ⟨rfl, rfl, rfl⟩ : (handleFromDigest w.store d).1 = s ∧ (handleFromDigest w.store d).2 = handle ∧
          (⟨x.2.obj, x.2.pos + 1⟩ : LevelHandleRefs) = refs := by simp_all
      refine (hs.handleUpsert hi d).shrink rfl rfl fun y hy => ?_
      simp only [World.held, List.mem_append, List.mem_map] at hy ⊢
      refine hy.imp_right fun ⟨z, hz, e⟩ => ?_
      rcases List.mem_or_eq_of_mem_set hz with hz | rfl
      · exact ⟨z, hz, e⟩
      · exact ⟨x, List.getElem?_mem hx, e⟩
    · cases hn
  | @installHandle t hook d ht =>
    exact (hs.handleUpsert hi d).moveFrom ht fun x hx => .inl (by cases hook <;> exact hx)
  | @installLock t hook d h ht hfree => exact hs.moveFrom ht fun x hx => .inl (by cases hook <;> exact hx)
  | @installUpgraded t hook d h a ht hw hl =>
    have hd := (hi.handle_valid _ _ (hi.ok_at ht)).2
    refine hs.moveFrom ht fun x hx => ?_
    cases hook <;> simp only [Pc.holds, Hook.read, Option.isSome, Option.toList, List.map_cons, List.map_nil,
      List.mem_cons, List.mem_singleton, List.not_mem_nil, or_false] at hx ⊢
    all_goals rcases hx with rfl | rfl
    all_goals first | exact .inl rfl | exact .inr (by rw [← hd]; exact hs.weak h a hw)
  | @installNotUpgraded t hook d h ht hd => exact hs.moveFrom ht fun x hx => .inl (by cases hook <;> exact hx)
  | @installUpsertInsert t hook d h ht ho =>
    have hv := hi.handle_valid _ _ (hi.ok_at ht).1
    cases hook with
    | alloc o =>
      have h₁ := hs.alloc hi o
      have hH : H (o.encode C) = d := hs.thread ht (o, d) (by simp [Pc.holds])
      have hx : H (((w.store.alloc o).1.deref (w.store.alloc o).2).encode C) = (w.store.alloc o).1.digestOf h := by
        simp [hH, hv.2]
      have h₂ := h₁.setWeak (by simpa using hv.1) hx
      exact (h₂.objectsInsert (by simpa [Hook.make] using hH)).move (by simp [Pc.holds])
    | move a =>
      have hH : H ((w.store.deref a).encode C) = d := hs.thread ht (w.store.deref a, d) (by simp [Pc.holds])
      have h₂ := hs.setWeak hv.1 (show H ((w.store.deref a).encode C) = w.store.digestOf h by rw [hH, hv.2])
      exact (h₂.objectsInsert hH).move (by simp [Pc.holds])
  | @installUpsertUpdate t hook d h a ht ho =>
    have hv := hi.handle_valid _ _ (hi.ok_at ht).1
    exact (hs.setWeak hv.1 (by rw [hs.objects d a ho, hv.2])).move (by simp [Pc.holds])
  | @installUnwrapped t r d h a ht hw hl =>
    have hd := (hi.handle_valid _ _ (hi.ok_at ht)).2
    exact hs.move (by simp [Pc.holds, ← hd, hs.weak h a hw])
  | @installPanicked t r d h ht hd => exact hs.move (by simp [Pc.holds])
  | @finishUnlock t d h read a ht => exact hs.moveFrom ht fun x hx => .inl (by simp_all [Pc.holds])
  | @resolveUnlock t d h read a ht => exact hs.moveFrom ht fun x hx => .inl hx
  | @finishPut t d h a ht =>
    have hH := hs.thread ht (w.store.deref a, d) (by simp [Pc.holds])
    exact (hs.setDb hH).move (by simpa [Pc.holds] using hH)
  | @finishPutFailed t d h a ht => exact hs.move (by simp [Pc.holds])
  | @insertBack t d h read a ht =>
    have hH := hs.thread ht (w.store.deref a, d) (by simp [Pc.holds])
    exact ((hs.objectsInsert hH).move (by simp [Pc.holds])).addReturned h
  | @resolveCached t d h ht hh => exact (hs.move (by simp [Pc.holds])).addReturned h
  | @resolveUncached t d ht hh => exact hs.move (by simp [Pc.holds])
  | @resolveResident t d a ht ho => exact hs.move (by simp [Pc.holds, hs.objects d a ho])
  | @resolveAbsent t d ht ho => exact hs.move (by simp [Pc.holds])
  | @resolveDbFailed t d ht => exact hs.move (by simp [Pc.holds])
  | @resolveDecoded t d bytes o r _ ht hd he =>
    exact (hs.alloc hi o).move (by simp [Pc.holds, decode_hashes hs.db hd he])
  | @resolveInserted t d a ht =>
    have hH := hs.thread ht (w.store.deref a, d) (by simp [Pc.holds])
    exact (hs.objectsInsert hH).move (by simpa [Pc.holds] using hH)
  | @loadLock t h ht hfree => exact hs.move (by simp [Pc.holds])
  | @loadUpgraded t h a ht hw hl => exact hs.move (by simp [Pc.holds, hs.weak h a hw])
  | @loadNotUpgraded t h ht hd => exact hs.move (by simp [Pc.holds])
  | @loadResident t h a ht ho => exact hs.move (by simp [Pc.holds, hs.objects _ a ho])
  | @loadAbsent t h ht ho => exact hs.move (by simp [Pc.holds])
  | @loadDbFailed t h ht => exact hs.move (by simp [Pc.holds])
  | @loadDecoded t h bytes o r _ ht hd he =>
    exact (hs.alloc hi o).move (by simp [Pc.holds, decode_hashes hs.db hd he])
  | @loadInserted t h a ht =>
    have hH := hs.thread ht (w.store.deref a, w.store.digestOf h) (by simp [Pc.holds])
    exact (hs.objectsInsert hH).move (by simpa [Pc.holds] using hH)
  | @loadSetWeak t h a ht =>
    have hH := hs.thread ht (w.store.deref a, w.store.digestOf h) (by simp [Pc.holds])
    exact (hs.setWeak (hi.ok_at ht).1 hH).move (by simpa [Pc.holds, StoreInner.digestOf_setWeak] using hH)
  | @loadReturned t h a ht =>
    exact (hs.move (by simp [Pc.holds])).hold (hs.thread ht (w.store.deref a, w.store.digestOf h) (by simp [Pc.holds]))
  | @loadFailed t h ht => exact hs.move (by simp [Pc.holds])

/-- The store opened over a database of encodings filed under their hashes is content addressed. -/
theorem Sealed.init {db : Sha3Digest → Option (List UInt8)}
    (hdb : ∀ d bytes, db d = some bytes → ∃ o : Object, bytes = o.encode C ∧ H (o.encode C) = d) :
    Sealed C H (World.init db) where
  db := hdb
  objects _ _ h := by simp [World.init] at h
  weak _ _ h := by simp [StoreInner.weak, World.init] at h
  threads _ _ h := by simp [World.init, Pc.holds] at h
  held _ _ h := by simp [World.init, World.held] at h

/-- **Every interleaving keeps content addressing.** -/
theorem Sealed.reach {db : Sha3Digest → Option (List UInt8)}
    (hdb : ∀ d bytes, db d = some bytes → ∃ o : Object, bytes = o.encode C ∧ H (o.encode C) = d)
    {w : World} (hr : Reach C H (World.init db) w) : Sealed C H w := by
  induction hr with
  | refl => exact Sealed.init hdb
  | tail hr hst ih => exact ih.step (Inv.reach hr) hst

end Step

/-- **Every digest names its object.**  Opened over a database whose every entry is the encoding of
an object filed under its hash, the store keeps it so under any interleaving of `finish`, `resolve`,
`load` and the clients' `next`: every entry decodes, with nothing left over, to an object with its
key for hash; every resident object, and every object a handle's slot points to, hashes to the
digest it is filed under; and every content and refs a `load` handed out reads an object that
hashes to the handle's digest. -/
theorem store_content_addressed {db : Sha3Digest → Option (List UInt8)}
    (hdb : ∀ d bytes, db d = some bytes → ∃ o : Object, bytes = o.encode C ∧ H (o.encode C) = d)
    {w : World} (hr : Reach C H (World.init db) w) :
    (∀ d bytes, w.store.db d = some bytes → ∃ o : Object, bytes = o.encode C ∧ H (o.encode C) = d ∧
      ∀ alloc : Nat → Bool, (o.blob = [] ∨ alloc o.blob.length) → Object.decode C alloc bytes = .ok (.ok (o, []))) ∧
    (∀ d a, w.store.objects d = some a → H ((w.store.deref a).encode C) = d) ∧
    (∀ h a, w.store.weak h = some a → H ((w.store.deref a).encode C) = w.store.digestOf h) ∧
    (∀ h c, (h, c) ∈ w.contents → ∃ o : Object, H (o.encode C) = w.store.digestOf h ∧ c.read w.store = o.blob) ∧
    (∀ h refs, (h, refs) ∈ w.iters → H ((w.store.deref refs.obj).encode C) = w.store.digestOf h) := by
  have hs := Sealed.reach hdb hr
  refine ⟨fun d bytes hd => ?_, hs.objects, hs.weak, fun h c hc => ⟨_, hs.held h c.obj ?_, rfl⟩,
    fun h refs hr => hs.held h refs.obj ?_⟩
  · obtain ⟨o, rfl, ho⟩ := hs.db d bytes hd
    exact ⟨o, rfl, ho, fun alloc halloc => by simpa using Object.decode_encode o halloc []⟩
  · exact List.mem_append_left _ (List.mem_map_of_mem (fun x => (x.1, x.2.obj)) hc)
  · exact List.mem_append_right _ (List.mem_map_of_mem (fun x => (x.1, x.2.obj)) hr)

/-- A `resolve` of a one-byte object's digest, from a database holding its encoding, decodes it
with the allocator granting one byte. -/
theorem store_content_addressed_resolving :
    let o : Object := ⟨[1], [], by decide⟩
    let db := Function.update (fun _ => none) default (some (o.encode canonical))
    ∃ w : World, Reach canonical (fun _ => default) (World.init db) w ∧ w.threads 1 = .resolveInsert default ⟨0⟩ ∧
      w.store.heap = [o] ∧
      ∀ d bytes, w.store.db d = some bytes → ∃ o : Object, bytes = o.encode canonical ∧
        (fun _ => default) (o.encode canonical) = d ∧ ∀ alloc : Nat → Bool, (o.blob = [] ∨ alloc o.blob.length) →
          Object.decode canonical alloc bytes = .ok (.ok (o, [])) := by
  intro o db
  have hdb : ∀ (d : Sha3Digest) bytes, db d = some bytes →
      ∃ o : Object, bytes = o.encode canonical ∧ (fun _ => default) (o.encode canonical) = d := by
    intro d bytes hd
    by_cases e : d = default
    · subst e; exact ⟨o, by simpa [db] using hd.symm, rfl⟩
    · simp [db, e] at hd
  have he : Object.decode canonical (fun n => decide (n ≤ 1)) (o.encode canonical) = .ok (.ok (o, [])) := by
    simpa using Object.decode_encode o (.inr rfl) []
  have r : Reach canonical (fun _ => default) (World.init db) _ :=
    .tail (.tail (.tail (.single
      (@Step.resolve _ _ _ 1 default rfl))
      (@Step.resolveUncached _ _ _ 1 _ rfl rfl))
      (@Step.resolveAbsent _ _ _ 1 _ rfl rfl))
      (@Step.resolveDecoded _ _ _ 1 _ _ o [] _ rfl (Function.update_same (default : Sha3Digest) _ fun _ => none) he)
  exact ⟨_, r, rfl, rfl, (store_content_addressed hdb r).1⟩

end Concurrent

end Attaca
