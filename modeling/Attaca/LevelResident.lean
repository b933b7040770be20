import Attaca.LevelThreads
/-!
# LevelResident — one handle and one resident copy per digest, under any interleaving

`Inv` holds between any two steps of any interleaving of `finish`, `resolve` and `load`:

* `handles` and the `HandleInner`s agree, so a digest has one handle, and every handle a call
  returned is the one `handles` holds for its digest;
* each thread knows what its program point says (`Pc.Ok`): the handle it works on is its
  digest's; past a failed upgrade, holding the lock, the slot stays dead; holding the object the
  slot upgraded to, or was set to, the slot still points to it.  What a client holds is pointed to
  by its handle's slot;
* the weak-slot locks are exclusive;
* for every handle, its live weak target is the resident object of its digest, and a `load` about
  to set the slot sets it to the resident object (`Cons`); or else some thread is on its way to
  `objects.insert(digest, arc_obj)` with the slot's object (`Pc.repairs`).

The get-then-insert of `LevelStore::object` is the step that breaks `Cons`: a `resolve` may make a
second copy resident while the slot points to the first, but it is then on its way to re-insert
the slot's object.  Every step keeps `Inv` (`Inv.step`); with no call in progress no thread
repairs, so `Cons` holds for every handle (`resident_spec`).
-/
namespace Attaca

namespace Concurrent

open World

/-! ## Updates of the world -/

namespace World

variable (w : World) (t : Nat) (pc : Pc) (s : StoreInner)

@[simp] theorem move_store : (w.move t pc s).store = s := rfl
@[simp] theorem move_self : (w.move t pc s).threads t = pc := Function.update_same _ _ _
@[simp] theorem move_held : (w.move t pc s).held = w.held := rfl
@[simp] theorem move_returned : (w.move t pc s).returned = w.returned := rfl

theorem move_ne {t'} (h : t' ≠ t) : (w.move t pc s).threads t' = w.threads t' := Function.update_noteq h _ _

variable {w}

theorem Live.of_objects {d a} (h : w.store.objects d = some a) : w.Live a := .inl ⟨d, h⟩
theorem Live.of_arcs {t a} (h : a ∈ (w.threads t).arcs) : w.Live a := .inr (.inl ⟨t, h⟩)
theorem Live.of_held {h a} (hh : (h, a) ∈ w.held) : w.Live a := .inr (.inr ⟨h, hh⟩)
theorem Live.of_pc {t pc a} (ht : w.threads t = pc) (ha : a ∈ pc.arcs) : w.Live a := .of_arcs (ht ▸ ha)

/-- A reference after a move is resident, a local of the moved thread, or was there before. -/
theorem live_move {t pc s a} (hl : (w.move t pc s).Live a) : (∃ d, s.objects d = some a) ∨ a ∈ pc.arcs ∨ w.Live a := by
  rcases hl with hd | ⟨t', ht'⟩ | ⟨h, hh⟩
  · exact .inl hd
  · by_cases e : t' = t
    · subst e; exact .inr (.inl (by simpa using ht'))
    · exact .inr (.inr (.of_arcs (by rwa [move_ne _ _ _ _ e] at ht')))
  · exact .inr (.inr (.of_held hh))

end World

@[simp] theorem objectsInsert_inners (s : StoreInner) (d a) : (objectsInsert s d a).inners = s.inners := rfl
@[simp] theorem objectsInsert_handles (s : StoreInner) (d a) : (objectsInsert s d a).handles = s.handles := rfl
@[simp] theorem objectsInsert_heap (s : StoreInner) (d a) : (objectsInsert s d a).heap = s.heap := rfl
@[simp] theorem objectsInsert_objects (s : StoreInner) (d a) :
    (objectsInsert s d a).objects = Function.update s.objects d (some a) := rfl
@[simp] theorem objectsInsert_weak (s : StoreInner) (d a) : (objectsInsert s d a).weak = s.weak := rfl
@[simp] theorem objectsInsert_digestOf (s : StoreInner) (d a) : (objectsInsert s d a).digestOf = s.digestOf := rfl

/-- Only a valid handle has a slot. -/
theorem lt_of_weak {s : StoreInner} {h : LevelHandle} {a : ArcObject} (hw : s.weak h = some a) : h.inner < s.inners.length := by
  by_contra hn
  simp [StoreInner.weak, List.getElem?_eq_none (Nat.not_lt.1 hn)] at hw

/-! ## `handle_from_digest` -/

section HandleFromDigest

variable (s : StoreInner) (d : Sha3Digest)

theorem handleFromDigest_handles : (handleFromDigest s d).1.handles d = some (handleFromDigest s d).2 := by
  unfold handleFromDigest; split <;> simp_all

theorem handleFromDigest_handles_of {d' h} (hh : s.handles d' = some h) : (handleFromDigest s d).1.handles d' = some h := by
  unfold handleFromDigest; split
  · exact hh
  · rename_i hn; simpa [Function.update_noteq (show d' ≠ d by rintro rfl; simp_all)] using hh

theorem length_handleFromDigest : s.inners.length ≤ (handleFromDigest s d).1.inners.length := by
  unfold handleFromDigest; split <;> simp

variable {s d}

theorem handleFromDigest_weak {h : LevelHandle} (hh : h.inner < s.inners.length) :
    (handleFromDigest s d).1.weak h = s.weak h := by
  unfold handleFromDigest; split
  · rfl
  · simp [StoreInner.weak, List.getElem?_append_left hh]

theorem handleFromDigest_digestOf {h : LevelHandle} (hh : h.inner < s.inners.length) :
    (handleFromDigest s d).1.digestOf h = s.digestOf h := by
  unfold handleFromDigest; split
  · rfl
  · simp [StoreInner.digestOf, List.getElem?_append_left hh]

/-- A slot the upsert adds is empty. -/
theorem weak_of_handleFromDigest {h : LevelHandle} {a : ArcObject} (hw : (handleFromDigest s d).1.weak h = some a) :
    h.inner < s.inners.length ∧ s.weak h = some a := by
  have hlt : h.inner < s.inners.length := by
    by_contra hn
    unfold handleFromDigest at hw; split at hw
    · exact hn (lt_of_weak hw)
    · rw [StoreInner.weak, List.getElem?_append_right (Nat.not_lt.1 hn)] at hw
      generalize h.inner - s.inners.length = k at hw
      cases k <;> simp at hw
  exact ⟨hlt, (handleFromDigest_weak hlt).symm.trans hw⟩

@[simp] theorem handleFromDigest_objects : (handleFromDigest s d).1.objects = s.objects := by
  unfold handleFromDigest; split <;> rfl

@[simp] theorem handleFromDigest_heap : (handleFromDigest s d).1.heap = s.heap := by
  unfold handleFromDigest; split <;> rfl

/-- A handle the upsert adds is the digest's. -/
theorem handleFromDigest_new {h : LevelHandle} (hlt : h.inner < (handleFromDigest s d).1.inners.length)
    (hge : s.inners.length ≤ h.inner) :
    (handleFromDigest s d).1.handles d = some h ∧ (handleFromDigest s d).1.digestOf h = d := by
  unfold handleFromDigest at hlt ⊢
  cases hh : s.handles d with
  | some h' => simp [hh] at hlt; omega
  | none =>
    simp only [hh, List.length_append, List.length_singleton] at hlt ⊢
    have e : h.inner = s.inners.length := by omega
    obtain rfl : h = ⟨s.inners.length⟩ := by rw [← e]
    simp [StoreInner.digestOf]

/-- An entry of `handles` after the upsert was there before, or is the handle it added. -/
theorem handles_of_handleFromDigest {d' : Sha3Digest} {h : LevelHandle} (hh : (handleFromDigest s d).1.handles d' = some h) :
    s.handles d' = some h ∨ d' = d ∧ s.inners.length ≤ h.inner ∧ h.inner < (handleFromDigest s d).1.inners.length := by
  unfold handleFromDigest at hh ⊢; split at hh
  · exact .inl hh
  · by_cases e : d' = d
    · subst e; simp at hh; subst hh; simp
    · exact .inl (by simpa [Function.update_noteq e] using hh)

end HandleFromDigest

theorem World.live_store {w : World} {s : StoreInner} (ho : s.objects = w.store.objects) {a : ArcObject} :
    ({ w with store := s } : World).Live a ↔ w.Live a := by
  simp only [World.Live, ho]; rfl

/-! ## What each program point knows -/

/-- The digest a thread is on its way to `objects.insert` the slot's object under: a `resolve` past
`LevelStore::object` (until it panics), and every call about to re-insert. -/
def Pc.repairs : Pc → Option Sha3Digest
  | .installHandle hook d | .installLock hook d _ | .installUpgrade hook d _ | .installUpsert hook d _ =>
    hook.read.map fun _ => d
  | .installUnwrap resolving d _ | .installUnlock resolving d _ _ _ => if resolving then some d else none
  | .insertBack d _ _ _ => some d
  | _ => none

/-- What a thread knows at its program point: the handle it works on, that the slot it locked stays
dead past a failed upgrade, and that the slot points to the object it upgraded to or set. -/
def Pc.Ok (w : World) : Pc → Prop
  | .installLock _ d h | .installUpgrade _ d h | .installUnwrap _ d h => w.store.handles d = some h
  | .installUpsert _ d h => w.store.handles d = some h ∧ w.Dead h
  | .installUnlock _ d h _ a | .finishPut d h a | .insertBack d h _ a =>
    w.store.handles d = some h ∧ w.store.weak h = some a
  | .loadLock h | .loadUpgrade h | .loadFail h => h.inner < w.store.inners.length
  | .loadObject h | .loadDb h | .loadInsert h _ | .loadSetWeak h _ => h.inner < w.store.inners.length ∧ w.Dead h
  | .loadReturn h a => h.inner < w.store.inners.length ∧ w.store.weak h = some a
  | _ => True

/-- A thread's knowledge survives a step of another thread that keeps the handles, keeps the slot
it locked dead, and keeps the slot pointing to the objects it holds. -/
theorem Pc.Ok.stable {w w' : World} {pc : Pc} (hok : pc.Ok w)
    (hhandles : ∀ d h, w.store.handles d = some h → w'.store.handles d = some h)
    (hlen : w.store.inners.length ≤ w'.store.inners.length)
    (hdead : ∀ h, pc.lockHeld = some h → w.Dead h → w'.Dead h)
    (hweak : ∀ h a, a ∈ pc.arcs → w.store.weak h = some a → w'.store.weak h = some a) : pc.Ok w' := by
  cases pc <;> simp only [Pc.Ok] at hok ⊢
  all_goals first
    | trivial
    | exact hhandles _ _ hok
    | exact ⟨hhandles _ _ hok.1, hdead _ rfl hok.2⟩
    | exact ⟨hhandles _ _ hok.1, hweak _ _ (List.mem_cons_self _ _) hok.2⟩
    | exact hok.trans_le hlen
    | exact ⟨hok.1.trans_le hlen, hdead _ rfl hok.2⟩
    | exact ⟨hok.1.trans_le hlen, hweak _ _ (List.mem_cons_self _ _) hok.2⟩

/-- A dead slot stays dead through a step that keeps it and makes no reference to its target. -/
theorem World.Dead.keep {w w' : World} {h : LevelHandle} (hd : w.Dead h) (hw : w'.store.weak h = w.store.weak h)
    (hl : ∀ a, w.store.weak h = some a → w'.Live a → w.Live a) : w'.Dead h :=
  fun a ha hla => hd a (hw ▸ ha) (hl a (hw ▸ ha) hla)

/-- The slot's live target is resident under the handle's digest, and a `load` about to set the
slot sets it to the resident object. -/
def World.Cons (w : World) (h : LevelHandle) : Prop :=
  (∀ a, w.store.weak h = some a → w.Live a → w.store.objects (w.store.digestOf h) = some a) ∧
    ∀ t a, w.threads t = .loadSetWeak h a → w.store.objects (w.store.digestOf h) = some a

/-- `Cons` survives a step that keeps the slot, the digest and its resident object, makes no
reference to the slot's target, and starts no `load` setting the slot to another object. -/
theorem World.Cons.keep {w w' : World} {h : LevelHandle} (hc : w.Cons h)
    (hw : w'.store.weak h = w.store.weak h) (hd : w'.store.digestOf h = w.store.digestOf h)
    (ho : w'.store.objects (w.store.digestOf h) = w.store.objects (w.store.digestOf h))
    (hl : ∀ a, w.store.weak h = some a → w'.Live a → w.Live a)
    (hset : ∀ t a, w'.threads t = .loadSetWeak h a →
      w.threads t = .loadSetWeak h a ∨ w.store.objects (w.store.digestOf h) = some a) : w'.Cons h := by
  refine ⟨fun a hw' hl' => ?_, fun t a ht => ?_⟩
  · rw [hd, ho]; exact hc.1 a (hw ▸ hw') (hl a (hw ▸ hw') hl')
  · rw [hd, ho]; exact (hset t a ht).elim (hc.2 t a) id

/-- **The invariant of every interleaving.** -/
structure Inv (w : World) : Prop where
  handle_valid : ∀ d h, w.store.handles d = some h → h.inner < w.store.inners.length ∧ w.store.digestOf h = d
  valid_handle : ∀ h : LevelHandle, h.inner < w.store.inners.length → w.store.handles (w.store.digestOf h) = some h
  weak_lt : ∀ h a, w.store.weak h = some a → a.idx < w.store.heap.length
  live_lt : ∀ a, w.Live a → a.idx < w.store.heap.length
  returned : ∀ h ∈ w.returned, w.store.handles (w.store.digestOf h) = some h
  ok : ∀ t, (w.threads t).Ok w
  held : ∀ h a, (h, a) ∈ w.held → h.inner < w.store.inners.length ∧ w.store.weak h = some a
  exclusive : ∀ t t' h, (w.threads t).lockHeld = some h → (w.threads t').lockHeld = some h → t = t'
  resident : ∀ h : LevelHandle, h.inner < w.store.inners.length →
    w.Cons h ∨ ∃ t, (w.threads t).repairs = some (w.store.digestOf h)

/-- A move that takes no reference to a dead slot's target keeps it dead. -/
theorem World.Dead.move {w : World} {t : Nat} {pc' : Pc} {h : LevelHandle} (hd : w.Dead h)
    (harcs : ∀ a ∈ pc'.arcs, w.Live a ∨ ∀ h, w.store.weak h ≠ some a) : (w.move t pc' w.store).Dead h :=
  hd.keep rfl fun a hw hl => (live_move hl).elim (fun ⟨_, hd⟩ => .of_objects hd) fun hl =>
    hl.elim (fun ha => (harcs a ha).resolve_right fun hf => hf h hw) id

/-- A reference after an insert by a thread of an object it holds was there before. -/
theorem World.live_insert {w : World} {t : Nat} {pc pc' : Pc} {d : Sha3Digest} {a : ArcObject} (ht : w.threads t = pc) (ha : a ∈ pc.arcs)
    (harcs : ∀ b ∈ pc'.arcs, b ∈ pc.arcs) {b : ArcObject} (hb : (w.move t pc' (objectsInsert w.store d a)).Live b) :
    w.Live b := by
  rcases live_move hb with ⟨d', hd'⟩ | hb | hb
  · by_cases e : d' = d
    · subst e; simp at hd'; subst hd'; exact .of_arcs (ht ▸ ha)
    · exact .of_objects (by simpa [e] using hd')
  · exact .of_arcs (ht ▸ harcs b hb)
  · exact hb

namespace Inv

variable {w : World} (hi : Inv w)
include hi

theorem ok_at {t pc} (ht : w.threads t = pc) : pc.Ok w := ht ▸ hi.ok t

/-- Two valid handles of one digest are one handle. -/
theorem handle_unique {h h' : LevelHandle} (hh : h.inner < w.store.inners.length)
    (hh' : h'.inner < w.store.inners.length) (hd : w.store.digestOf h' = w.store.digestOf h) : h' = h := by
  have := hi.valid_handle h' hh'
  rw [hd, hi.valid_handle h hh] at this
  exact (Option.some.inj this).symm

/-- Locks stay exclusive when the moved thread takes only its own lock or a free one. -/
theorem exclusive_move {t : Nat} {pc' : Pc} {s : StoreInner}
    (hlock : ∀ h, pc'.lockHeld = some h → (w.threads t).lockHeld = some h ∨ w.Free h) (t₁ t₂ : Nat) (h : LevelHandle)
    (h₁ : ((w.move t pc' s).threads t₁).lockHeld = some h) (h₂ : ((w.move t pc' s).threads t₂).lockHeld = some h) :
    t₁ = t₂ := by
  have hother : ∀ t', t' ≠ t → (w.threads t').lockHeld = some h → pc'.lockHeld ≠ some h := fun t' e h' hp =>
    (hlock h hp).elim (fun hl => e (hi.exclusive _ _ _ h' hl)) fun hf => hf t' h'
  by_cases e₁ : t₁ = t <;> by_cases e₂ : t₂ = t
  · exact e₁.trans e₂.symm
  · subst e₁; rw [move_self] at h₁; rw [move_ne _ _ _ _ e₂] at h₂; exact absurd h₁ (hother _ e₂ h₂)
  · subst e₂; rw [move_self] at h₂; rw [move_ne _ _ _ _ e₁] at h₁; exact absurd h₂ (hother _ e₁ h₁)
  · rw [move_ne _ _ _ _ e₁] at h₁; rw [move_ne _ _ _ _ e₂] at h₂; exact hi.exclusive _ _ _ h₁ h₂

/-- `Arc::new`: a new allocation. -/
theorem alloc (o : Object) : Inv { w with store := (w.store.alloc o).1 } where
  handle_valid := hi.handle_valid
  valid_handle := hi.valid_handle
  weak_lt h a hw := (hi.weak_lt h a hw).trans (by simp)
  live_lt a ha := (hi.live_lt a ha).trans (by simp)
  returned := hi.returned
  ok := hi.ok
  held := hi.held
  exclusive := hi.exclusive
  resident := hi.resident

/-- A database write. -/
theorem setDb (db : Sha3Digest → Option (List UInt8)) : Inv { w with store := { w.store with db := db } } :=
  ⟨hi.handle_valid, hi.valid_handle, hi.weak_lt, hi.live_lt, hi.returned, hi.ok, hi.held, hi.exclusive, hi.resident⟩

/-- `handle_from_digest`'s `upsert` on `handles`. -/
theorem handleUpsert (d : Sha3Digest) : Inv { w with store := (handleFromDigest w.store d).1 } := by
  have hlen := length_handleFromDigest w.store d
  have hlive : ∀ a, ({ w with store := (handleFromDigest w.store d).1 } : World).Live a ↔ w.Live a :=
    fun _ => live_store (handleFromDigest_objects)
  have hweak : ∀ h a, w.store.weak h = some a → (handleFromDigest w.store d).1.weak h = some a :=
    fun h a hw => (handleFromDigest_weak (lt_of_weak hw)).trans hw
  have hdead : ∀ h, w.Dead h → ({ w with store := (handleFromDigest w.store d).1 } : World).Dead h :=
    fun h hd a hw hl => hd a (weak_of_handleFromDigest hw).2 ((hlive a).1 hl)
  refine ⟨fun d' h hh => ?_, fun h hh => ?_, fun h a hw => ?_, fun a ha => ?_, fun h hh => ?_, fun t => ?_,
    fun h a hh => ?_, hi.exclusive, fun h hh => ?_⟩
  · rcases handles_of_handleFromDigest hh with hh | ⟨rfl, hge, hlt⟩
    · obtain ⟨hlt, hd⟩ := hi.handle_valid d' h hh
      exact ⟨hlt.trans_le hlen, (handleFromDigest_digestOf hlt).trans hd⟩
    · exact ⟨hlt, (handleFromDigest_new hlt hge).2⟩
  · by_cases hlt : h.inner < w.store.inners.length
    · rw [handleFromDigest_digestOf hlt]; exact handleFromDigest_handles_of _ _ (hi.valid_handle h hlt)
    · obtain ⟨h₁, h₂⟩ := handleFromDigest_new hh (Nat.not_lt.1 hlt)
      simpa [h₂] using h₁
  · simpa using hi.weak_lt h a (weak_of_handleFromDigest hw).2
  · simpa using hi.live_lt a ((hlive a).1 ha)
  · obtain ⟨hlt, -⟩ := hi.handle_valid _ h (hi.returned h hh)
    rw [handleFromDigest_digestOf hlt]; exact handleFromDigest_handles_of _ _ (hi.returned h hh)
  · exact (hi.ok t).stable (fun _ _ => handleFromDigest_handles_of _ _) hlen (fun h _ => hdead h) fun h a _ => hweak h a
  · obtain ⟨hlt, hw⟩ := hi.held h a hh
    exact ⟨hlt.trans_le hlen, hweak h a hw⟩
  · by_cases hlt : h.inner < w.store.inners.length
    · rw [handleFromDigest_digestOf hlt]
      refine (hi.resident h hlt).imp_left fun hc => ⟨fun a hw hl => ?_, fun t a ht => ?_⟩
      · simpa [handleFromDigest_digestOf hlt] using hc.1 a (weak_of_handleFromDigest hw).2 ((hlive a).1 hl)
      · simpa [handleFromDigest_digestOf hlt] using hc.2 t a ht
    · refine .inl ⟨fun a hw _ => absurd (weak_of_handleFromDigest hw).1 hlt, fun t a ht => ?_⟩
      exact absurd (hi.ok_at ht).1 hlt

/-- A call returns a handle, the digest's. -/
theorem addReturned {h : LevelHandle} (hh : w.store.handles (w.store.digestOf h) = some h) :
    Inv { w with returned := w.returned ++ [h] } :=
  ⟨hi.handle_valid, hi.valid_handle, hi.weak_lt, hi.live_lt,
    fun h' hh' => (List.mem_append.1 hh').elim (hi.returned h') fun e => by rw [List.mem_singleton.1 e]; exact hh,
    hi.ok, hi.held, hi.exclusive, hi.resident⟩

/-- **The clients hold no more than they did**: a drop, or `next` moving along the same object. -/
theorem shrink {w' : World} (hs : w'.store = w.store) (ht : w'.threads = w.threads) (hr : w'.returned = w.returned)
    (hheld : ∀ x ∈ w'.held, x ∈ w.held) : Inv w' := by
  obtain ⟨s, threads, contents, iters, returned⟩ := w'
  simp only at hs ht hr; subst hs ht hr
  have hlive : ∀ a, World.Live ⟨w.store, w.threads, contents, iters, w.returned⟩ a → w.Live a := by
    rintro a (hd | ht | ⟨h, hh⟩)
    exacts [.inl hd, .inr (.inl ht), .of_held (hheld _ hh)]
  exact ⟨hi.handle_valid, hi.valid_handle, hi.weak_lt, fun a ha => hi.live_lt a (hlive a ha), hi.returned,
    fun t => (hi.ok t).stable (fun _ _ => id) le_rfl (fun h _ hd => hd.keep rfl fun a _ => hlive a) fun _ _ _ => id,
    fun h a hh => hi.held h a (hheld _ hh), hi.exclusive,
    fun h hh => (hi.resident h hh).imp_left fun hc => ⟨fun a hw hl => hc.1 a hw (hlive a hl), hc.2⟩⟩

/-- **A thread puts an object it holds in `objects`**: `resolve`'s second copy, `load`'s decoded
object, and the re-insert that ends `finish` and `resolve`.  It takes no new reference and no lock;
`hres` says what becomes of the handle of the digest. -/
theorem insert {t : Nat} {pc pc' : Pc} {d : Sha3Digest} {a : ArcObject} (ht : w.threads t = pc) (ha : a ∈ pc.arcs)
    (harcs : ∀ b ∈ pc'.arcs, b ∈ pc.arcs) (hlock : pc'.lockHeld = pc.lockHeld)
    (hok : pc'.Ok (w.move t pc' (objectsInsert w.store d a)))
    (hset : ∀ h b, pc' = .loadSetWeak h b → w.store.digestOf h = d)
    (hrep : ∀ d', pc.repairs = some d' → d' = d)
    (hres : ∀ h, h.inner < w.store.inners.length → w.store.digestOf h = d →
      (w.move t pc' (objectsInsert w.store d a)).Cons h ∨
        ∃ t', ((w.move t pc' (objectsInsert w.store d a)).threads t').repairs = some d) :
    Inv (w.move t pc' (objectsInsert w.store d a)) := by
  have hlive : ∀ b, (w.move t pc' (objectsInsert w.store d a)).Live b → w.Live b := fun b hb =>
    live_insert ht ha harcs hb
  refine ⟨hi.handle_valid, hi.valid_handle, hi.weak_lt, fun b hb => hi.live_lt b (hlive b hb), hi.returned,
    fun t' => ?_, hi.held, hi.exclusive_move fun h hh => .inl (ht ▸ hlock ▸ hh), fun h hh => ?_⟩
  · by_cases e : t' = t
    · subst e; simpa using hok
    · rw [move_ne _ _ _ _ e]
      exact (hi.ok t').stable (fun _ _ => id) le_rfl (fun h _ hd => hd.keep rfl fun b _ => hlive b) fun _ _ _ => id
  · by_cases hd : w.store.digestOf h = d
    · exact hd ▸ hres h hh hd
    · rcases hi.resident h hh with hc | ⟨t₀, ht₀⟩
      · refine .inl (hc.keep rfl rfl (Function.update_noteq hd _ _) (fun b _ => hlive b) fun t'' b ht'' => .inl ?_)
        by_cases e : t'' = t
        · subst e; exact absurd (hset h b (by simpa using ht'')) hd
        · rwa [move_ne _ _ _ _ e] at ht''
      · by_cases e : t₀ = t
        · subst e; exact absurd (hrep _ (ht ▸ ht₀)) hd
        · exact .inr ⟨t₀, by rwa [move_ne _ _ _ _ e]⟩

/-- The insert hook of the `upsert` on `objects` makes an object resident under a digest that had
none, whose handle is locked, dead, and not about to be set by a `load`. -/
theorem insertEmpty {d : Sha3Digest} {x : ArcObject} (ho : w.store.objects d = none)
    (hx : w.Live x ∨ x.idx < w.store.heap.length ∧ ∀ h, w.store.weak h ≠ some x)
    (hd : ∀ h, h.inner < w.store.inners.length → w.store.digestOf h = d →
      w.Dead h ∧ ∀ t b, w.threads t ≠ .loadSetWeak h b) :
    Inv { w with store := objectsInsert w.store d x } := by
  have hlive : ∀ h b, w.store.weak h = some b → ({ w with store := objectsInsert w.store d x } : World).Live b →
      w.Live b := by
    rintro h b hw (⟨d', hd'⟩ | ht | ⟨h', hh⟩)
    · by_cases e : d' = d
      · subst e; simp at hd'; subst hd'; exact hx.resolve_right fun hf => hf.2 h hw
      · exact .of_objects (by simpa [e] using hd')
    exacts [.inr (.inl ht), .of_held hh]
  refine ⟨hi.handle_valid, hi.valid_handle, hi.weak_lt, fun b hb => ?_, hi.returned,
    fun t => (hi.ok t).stable (fun _ _ => id) le_rfl (fun h _ hd => hd.keep rfl (hlive h)) fun _ _ _ => id,
    hi.held, hi.exclusive, fun h hh => ?_⟩
  · rcases hb with ⟨d', hd'⟩ | ht | ⟨h', hh⟩
    · by_cases e : d' = d
      · subst e; simp at hd'; subst hd'; exact hx.elim (hi.live_lt _) And.left
      · exact hi.live_lt b (.of_objects (by simpa [e] using hd'))
    exacts [hi.live_lt b (.inr (.inl ht)), hi.live_lt b (.of_held hh)]
  · by_cases e : w.store.digestOf h = d
    · obtain ⟨hdead, hnot⟩ := hd h hh e
      exact .inl ⟨fun b hw hl => absurd (hlive h b hw hl) (hdead b hw), fun t b ht => absurd ht (hnot t b)⟩
    · exact (hi.resident h hh).imp_left fun hc =>
        hc.keep rfl rfl (Function.update_noteq e _ _) (hlive h) fun _ _ ht => .inl ht

/-- **The holder of a dead slot's lock points it to a live object**: the `upsert` hooks, and `load`
setting the slot.  The digest's resident object is then the slot's, or a repair is on its way. -/
theorem setWeak {t : Nat} {pc pc' : Pc} {h : LevelHandle} {x : ArcObject} (ht : w.threads t = pc)
    (hlock : pc.lockHeld = some h) (hdead : w.Dead h) (hx : w.Live x) (hh : h.inner < w.store.inners.length)
    (harcs : ∀ b ∈ pc'.arcs, b ∈ pc.arcs) (hlock' : pc'.lockHeld = some h)
    (hok : pc'.Ok (w.move t pc' (w.store.setWeak h (some x))))
    (hnot : ∀ h' b, pc' ≠ .loadSetWeak h' b)
    (hrep : ∀ d', pc.repairs = some d' → pc'.repairs = some d')
    (hcons : w.store.objects (w.store.digestOf h) = some x ∨ ∃ t', t' ≠ t ∧ (w.threads t').repairs = some (w.store.digestOf h)) :
    Inv (w.move t pc' (w.store.setWeak h (some x))) := by
  have hweak : ∀ h', h'.inner ≠ h.inner → (w.store.setWeak h (some x)).weak h' = w.store.weak h' := fun h' e => by
    rw [StoreInner.weak_setWeak _ _ hh, if_neg e]
  have hdig : (w.store.setWeak h (some x)).digestOf = w.store.digestOf := funext fun h' => StoreInner.digestOf_setWeak _ _ _ _
  have hlive : ∀ b, (w.move t pc' (w.store.setWeak h (some x))).Live b → w.Live b := fun b hb => by
    rcases live_move hb with ⟨d', hd'⟩ | hb | hb
    exacts [.of_objects hd', .of_arcs (ht ▸ harcs b hb), hb]
  -- the slot of the lock's holder is the only one that changes
  have hother : ∀ h', h'.inner = h.inner → h' = h := fun h' e => by cases h'; cases h; simp_all
  have hpinned : ∀ h' b, w.Live b → w.store.weak h' = some b → h'.inner ≠ h.inner := fun h' b hb hw e =>
    hdead b (hother h' e ▸ hw) hb
  refine ⟨fun d h' hh' => ?_, fun h' hh' => ?_, fun h' b hw => ?_, fun b hb => hi.live_lt b (hlive b hb),
    fun h' hh' => ?_, fun t' => ?_, fun h' b hh' => ?_, hi.exclusive_move fun h'' hh'' => .inl (ht ▸ hlock ▸ hlock' ▸ hh''),
    fun h' hh' => ?_⟩
  · simpa [hdig] using hi.handle_valid d h' hh'
  · simpa [hdig] using hi.valid_handle h' (by simpa using hh')
  · rw [move_store] at hw ⊢
    by_cases e : h'.inner = h.inner
    · rw [hother h' e, StoreInner.weak_setWeak _ _ hh, if_pos rfl, Option.some.injEq] at hw
      subst hw; simpa using hi.live_lt _ hx
    · rw [hweak h' e] at hw; simpa using hi.weak_lt h' b hw
  · simpa [hdig] using hi.returned h' hh'
  · by_cases e : t' = t
    · subst e; simpa using hok
    · rw [move_ne _ _ _ _ e]
      refine (hi.ok t').stable (fun _ _ => id) (by simp) (fun h' hl hd => ?_) fun h' b hb hw => ?_
      · have e' : h'.inner ≠ h.inner := fun e' => e (hi.exclusive _ _ _ (hother h' e' ▸ hl) (ht ▸ hlock))
        exact hd.keep (hweak h' e') fun b _ => hlive b
      · rw [move_store, hweak h' (hpinned h' b (.of_arcs hb) hw)]; exact hw
  · obtain ⟨hlt, hw⟩ := hi.held h' b hh'
    exact ⟨by simpa using hlt, by rw [move_store, hweak h' (hpinned h' b (.of_held hh') hw)]; exact hw⟩
  · have hh'₀ : h'.inner < w.store.inners.length := by simpa using hh'
    rw [move_store, hdig]
    by_cases e : h'.inner = h.inner
    · obtain rfl := hother h' e
      rcases hcons with hc | ⟨t₀, e₀, ht₀⟩
      · refine .inl ⟨fun b hw _ => ?_, fun t'' b ht'' => ?_⟩
        · rw [move_store, StoreInner.weak_setWeak _ _ hh, if_pos rfl] at hw; cases hw; simpa [hdig] using hc
        · by_cases e'' : t'' = t
          · subst e''; exact absurd (by simpa using ht'') (hnot h' b)
          · rw [move_ne _ _ _ _ e''] at ht''
            exact absurd (hi.exclusive _ _ _ (by rw [ht'']; rfl) (ht ▸ hlock)) e''
      · exact .inr ⟨t₀, by rwa [move_ne _ _ _ _ e₀]⟩
    · rcases hi.resident h' hh'₀ with hc | ⟨t₀, ht₀⟩
      · refine .inl (hc.keep (hweak h' e) (by rw [move_store, hdig]) rfl (fun b _ => hlive b) fun t'' b ht'' => .inl ?_)
        by_cases e'' : t'' = t
        · subst e''; exact absurd (by simpa using ht'') (hnot h' b)
        · rwa [move_ne _ _ _ _ e''] at ht''
      · by_cases e₀ : t₀ = t
        · subst e₀; exact .inr ⟨t₀, by simpa using hrep _ (ht ▸ ht₀)⟩
        · exact .inr ⟨t₀, by rwa [move_ne _ _ _ _ e₀]⟩

/-- **The `upsert` on `objects` finds nothing**: its insert hook points the locked dead slot to the
hook's object and makes it resident. -/
theorem upsertInsert {t : Nat} {hook : Hook} {d : Sha3Digest} {h : LevelHandle} {x : ArcObject}
    (ht : w.threads t = .installUpsert hook d h) (ho : w.store.objects d = none)
    (hx : w.Live x ∨ x.idx < w.store.heap.length ∧ ∀ h, w.store.weak h ≠ some x) :
    Inv (w.move t (.installUnwrap hook.read.isSome d h) (objectsInsert (w.store.setWeak h (some x)) d x)) := by
  have hok := hi.ok_at ht
  have hv := hi.handle_valid _ _ hok.1
  have h₂ : Inv { w with store := objectsInsert w.store d x } := hi.insertEmpty ho hx fun h' hh' hd' => by
    obtain rfl := hi.handle_unique hv.1 hh' (hd'.trans hv.2.symm)
    refine ⟨hok.2, fun t'' b ht'' => ?_⟩
    obtain rfl := hi.exclusive _ _ _ (by rw [ht'']; rfl) (by rw [ht]; rfl)
    rw [ht] at ht''; cases ht''
  have hx₂ : World.Live { w with store := objectsInsert w.store d x } x := .inl ⟨d, by simp⟩
  exact h₂.setWeak ht rfl (h₂.ok_at ht).2 hx₂ hv.1 (by simp [Pc.arcs]) rfl hok.1 (by simp)
    (fun d' e => by cases hook <;> exact e) (.inl (by simp [hv.2]))

/-- **`load` hands a content and a refs over the slot's object to the client.** -/
theorem hold {h : LevelHandle} {a : ArcObject} (hh : h.inner < w.store.inners.length) (hw : w.store.weak h = some a)
    (hl : w.Live a) : Inv { w with contents := w.contents ++ [(h, ⟨a⟩)], iters := w.iters ++ [(h, ⟨a, 0⟩)] } := by
  have hmem : ∀ x, x ∈ ({ w with contents := w.contents ++ [(h, ⟨a⟩)], iters := w.iters ++ [(h, ⟨a, 0⟩)] } : World).held →
      x ∈ w.held ∨ x = (h, a) := by
    intro x hx
    simp only [World.held, List.map_append, List.map_singleton, List.mem_append, List.mem_singleton] at hx ⊢
    tauto
  have hlive : ∀ b, World.Live { w with contents := w.contents ++ [(h, ⟨a⟩)], iters := w.iters ++ [(h, ⟨a, 0⟩)] } b →
      w.Live b := by
    rintro b (hd | ht | ⟨h', hh'⟩)
    · exact .inl hd
    · exact .inr (.inl ht)
    · rcases hmem _ hh' with hh' | e
      · exact .of_held hh'
      · obtain ⟨-, rfl⟩ := Prod.mk.inj e; exact hl
  exact ⟨hi.handle_valid, hi.valid_handle, hi.weak_lt, fun b hb => hi.live_lt b (hlive b hb), hi.returned,
    fun t => (hi.ok t).stable (fun _ _ => id) le_rfl (fun h _ hd => hd.keep rfl fun b _ => hlive b) fun _ _ _ => id,
    fun h' b hh' => (hmem _ hh').elim (hi.held h' b) fun e => by obtain ⟨rfl, rfl⟩ := Prod.mk.inj e; exact ⟨hh, hw⟩,
    hi.exclusive, fun h hh => (hi.resident h hh).imp_left fun hc => ⟨fun b hw hl => hc.1 b hw (hlive b hl), hc.2⟩⟩

/-- **A step of one thread that only moves it.**  The locals it takes are alive, or fresh and no
slot's target; a lock it takes was free; its new knowledge holds; a `load` about to set a slot
holds the resident object; and a repair it stops making is done. -/
theorem move {t : Nat} {pc' : Pc}
    (harcs : ∀ a ∈ pc'.arcs, w.Live a ∨ a.idx < w.store.heap.length ∧ ∀ h, w.store.weak h ≠ some a)
    (hlock : ∀ h, pc'.lockHeld = some h → (w.threads t).lockHeld = some h ∨ w.Free h)
    (hok : pc'.Ok (w.move t pc' w.store))
    (hset : ∀ h a, pc' = .loadSetWeak h a → w.store.objects (w.store.digestOf h) = some a)
    (hrep : ∀ h, h.inner < w.store.inners.length → (w.threads t).repairs = some (w.store.digestOf h) →
      pc'.repairs = some (w.store.digestOf h) ∨ (w.move t pc' w.store).Cons h) :
    Inv (w.move t pc' w.store) := by
  have hlive : ∀ h a, w.store.weak h = some a → (w.move t pc' w.store).Live a → w.Live a := fun h a hw hl => by
    rcases live_move hl with ⟨d, hd⟩ | ha | hl
    · exact .of_objects hd
    · exact (harcs a ha).resolve_right fun hf => hf.2 h hw
    · exact hl
  refine ⟨hi.handle_valid, hi.valid_handle, hi.weak_lt, fun a ha => ?_, hi.returned, fun t' => ?_, hi.held,
    hi.exclusive_move hlock, fun h hh => ?_⟩
  · rcases live_move ha with ⟨d, hd⟩ | ha | ha
    · exact hi.live_lt a (.of_objects hd)
    · exact (harcs a ha).elim (hi.live_lt a) And.left
    · exact hi.live_lt a ha
  · by_cases e : t' = t
    · subst e; simpa using hok
    · rw [move_ne _ _ _ _ e]
      exact (hi.ok t').stable (fun _ _ => id) le_rfl (fun h _ hd => hd.keep rfl (hlive h)) fun _ _ _ => id
  · rcases hi.resident h hh with hc | ⟨t₀, ht₀⟩
    · refine .inl (hc.keep rfl rfl rfl (hlive h) fun t'' a ht'' => ?_)
      by_cases e : t'' = t
      · subst e; exact .inr (hset h a (by simpa using ht''))
      · exact .inl (by rwa [move_ne _ _ _ _ e] at ht'')
    · by_cases e : t₀ = t
      · subst e
        exact (hrep h hh ht₀).elim (fun hr => .inr ⟨t₀, by simpa using hr⟩) .inl
      · exact .inr ⟨t₀, by rwa [move_ne _ _ _ _ e]⟩

/-- A move that starts no repair and ends none: the thread was not repairing, or it keeps its repair. -/
theorem moveKeep {t : Nat} {pc' : Pc}
    (harcs : ∀ a ∈ pc'.arcs, w.Live a ∨ a.idx < w.store.heap.length ∧ ∀ h, w.store.weak h ≠ some a)
    (hlock : ∀ h, pc'.lockHeld = some h → (w.threads t).lockHeld = some h ∨ w.Free h)
    (hok : pc'.Ok (w.move t pc' w.store))
    (hset : ∀ h a, pc' = .loadSetWeak h a → w.store.objects (w.store.digestOf h) = some a)
    (hrep : (w.threads t).repairs = none ∨ pc'.repairs = (w.threads t).repairs) : Inv (w.move t pc' w.store) :=
  hi.move harcs hlock hok hset fun _ _ hr => .inl <| hrep.elim (fun e => by rw [e] at hr; cases hr) (· ▸ hr)

end Inv

theorem Inv.init (db : Sha3Digest → Option (List UInt8)) : Inv (World.init db) where
  handle_valid _ _ h := nomatch h
  valid_handle _ h := absurd h (Nat.not_lt_zero _)
  weak_lt _ _ h := by simp [StoreInner.weak, World.init] at h
  live_lt _ h := by rcases h with ⟨_, h⟩ | ⟨_, h⟩ | ⟨_, h⟩ <;> simp [World.init, World.held, Pc.arcs] at h
  returned _ h := nomatch h
  ok _ := trivial
  held _ _ h := by simp [World.init, World.held] at h
  exclusive _ _ _ h := nomatch h
  resident _ h := absurd h (Nat.not_lt_zero _)

section Step

variable {C : RefsCodec} {H : List UInt8 → Sha3Digest}

/-- **Every step keeps the invariant.** -/
theorem Inv.step {w w' : World} (hi : Inv w) (hs : Step C H w w') : Inv w' := by
  cases hs with
  | finish builder ht =>
    exact hi.moveKeep (by simp [Pc.arcs, Hook.read]) (by simp [Pc.lockHeld]) trivial (by simp) (.inl (by rw [ht]; rfl))
  | resolve d ht =>
    exact hi.moveKeep (by simp [Pc.arcs]) (by simp [Pc.lockHeld]) trivial (by simp) (.inl (by rw [ht]; rfl))
  | load h hh ht =>
    exact hi.moveKeep (by simp [Pc.arcs]) (by simp [Pc.lockHeld]) hh (by simp) (.inl (by rw [ht]; rfl))
  | dropContent i =>
    exact hi.shrink rfl rfl rfl fun y hy => by
      simp only [World.held, List.mem_append, List.mem_map] at hy ⊢
      exact hy.imp_left fun ⟨z, hz, e⟩ => ⟨z, List.mem_of_mem_eraseIdx hz, e⟩
  | dropRefs i =>
    exact hi.shrink rfl rfl rfl fun y hy => by
      simp only [World.held, List.mem_append, List.mem_map] at hy ⊢
      exact hy.imp_right fun ⟨z, hz, e⟩ => ⟨z, List.mem_of_mem_eraseIdx hz, e⟩
  | @next i x s handle refs hx hn =>
    simp only [LevelHandleRefs.next] at hn
    split at hn
    · rename_i d _
      obtain ⟨rfl, rfl, rfl⟩ : (handleFromDigest w.store d).1 = s ∧ (handleFromDigest w.store d).2 = handle ∧
          (⟨x.2.obj, x.2.pos + 1⟩ : LevelHandleRefs) = refs := by simp_all
      have h₁ := hi.handleUpsert d
      have h₂ : Inv { w with store := (handleFromDigest w.store d).1, iters := w.iters.set i (x.1, ⟨x.2.obj, x.2.pos + 1⟩) } :=
        h₁.shrink rfl rfl rfl fun y hy => by
          simp only [World.held, List.mem_append, List.mem_map] at hy ⊢
          refine hy.imp_right fun ⟨z, hz, e⟩ => ?_
          rcases List.mem_or_eq_of_mem_set hz with hz | rfl
          · exact ⟨z, hz, e⟩
          · exact ⟨x, List.getElem?_mem hx, e⟩
      have hh := handleFromDigest_handles w.store d
      exact h₂.addReturned (by rw [(h₁.handle_valid _ _ hh).2]; exact hh)
    · cases hn
  | @installHandle t hook d ht =>
    exact (hi.handleUpsert d).moveKeep (fun a ha => .inl (.of_pc ht ha)) (by simp [Pc.lockHeld])
      (handleFromDigest_handles w.store d) (by simp)
      (.inr (by rw [ht]; rfl))
  | @installLock t hook d h ht hfree =>
    exact hi.moveKeep (fun a ha => .inl (.of_pc ht ha)) (fun h' e => .inr (by cases e; exact hfree)) (hi.ok_at ht)
      (by simp) (.inr (by rw [ht]; rfl))
  | @installUpgraded t hook d h a ht hw hl =>
    exact hi.moveKeep (fun b hb => .inl ((List.mem_cons.1 hb).elim (fun e => e ▸ hl) (.of_pc ht)))
      (fun h' e => .inl (by rw [ht]; exact e)) ⟨hi.ok_at ht, hw⟩ (by simp) (.inr (by rw [ht]; cases hook <;> rfl))
  | @installNotUpgraded t hook d h ht hd =>
    exact hi.moveKeep (fun a ha => .inl (.of_pc ht ha)) (fun h' e => .inl (by rw [ht]; exact e))
      ⟨hi.ok_at ht, hd.move fun a ha => .inl (.of_pc ht ha)⟩ (by simp)
      (.inr (by rw [ht]; rfl))
  | @installUpsertInsert t hook d h ht ho =>
    cases hook with
    | alloc o =>
      exact (hi.alloc o).upsertInsert ht ho (.inr ⟨by simp [Hook.make], fun h' hw => lt_irrefl _ (hi.weak_lt h' _ hw)⟩)
    | move a => exact hi.upsertInsert ht ho (.inl (.of_pc ht (List.mem_singleton_self _)))
  | @installUpsertUpdate t hook d h a ht ho =>
    have hok := hi.ok_at ht
    exact hi.setWeak ht rfl hok.2 (.of_objects ho) (hi.handle_valid _ _ hok.1).1 (by simp [Pc.arcs]) rfl hok.1
      (by simp) (fun d' e => by cases hook <;> exact e)
      (.inl (by rw [(hi.handle_valid _ _ hok.1).2]; exact ho))
  | @installUnwrapped t r d h a ht hw hl =>
    exact hi.moveKeep (fun b hb => .inl (by simp [Pc.arcs] at hb; exact hb ▸ hl)) (fun h' e => .inl (by rw [ht]; exact e))
      ⟨hi.ok_at ht, hw⟩ (by simp) (.inr (by rw [ht]; rfl))
  | @installPanicked t r d h ht hd =>
    refine hi.move (by simp [Pc.arcs]) (by simp [Pc.lockHeld]) trivial (by simp) fun h' hh' hr => .inr ?_
    have hok := hi.ok_at ht
    rw [ht] at hr
    obtain rfl : h' = h := hi.handle_unique (hi.handle_valid _ _ hok).1 hh' <| by
      rw [(hi.handle_valid _ _ hok).2]; cases r <;> simp_all [Pc.repairs]
    refine ⟨fun b hw hl => absurd ((live_move hl).elim (fun ⟨_, hd'⟩ => .of_objects hd')
      fun hl => hl.resolve_left (by simp [Pc.arcs])) (hd b hw), fun t'' b ht'' => ?_⟩
    by_cases e : t'' = t
    · subst e; simp at ht''
    · rw [move_ne _ _ _ _ e] at ht''
      exact absurd (hi.exclusive _ _ _ (by rw [ht'']; rfl) (by rw [ht]; rfl)) e
  | @finishUnlock t d h read a ht =>
    exact hi.moveKeep (fun b hb => .inl (.of_pc ht (by simp [Pc.arcs] at hb ⊢; exact .inl hb))) (by simp [Pc.lockHeld])
      (hi.ok_at ht) (by simp) (.inl (by rw [ht]; rfl))
  | @resolveUnlock t d h read a ht =>
    exact hi.moveKeep (fun b hb => .inl (.of_pc ht hb)) (by simp [Pc.lockHeld]) (hi.ok_at ht) (by simp)
      (.inr (by rw [ht]; rfl))
  | @finishPut t d h a ht =>
    exact (hi.setDb _).moveKeep (fun b hb => .inl (.of_pc ht (by simpa [Pc.arcs] using hb))) (by simp [Pc.lockHeld])
      (hi.ok_at ht) (by simp) (.inl (by rw [ht]; rfl))
  | @finishPutFailed t d h a ht =>
    exact hi.moveKeep (by simp [Pc.arcs]) (by simp [Pc.lockHeld]) trivial (by simp)
      (.inl (by rw [ht]; rfl))
  | @insertBack t d h read a ht =>
    have hok := hi.ok_at ht
    have hv := hi.handle_valid _ _ hok.1
    have ha : w.Live a := .of_pc ht (List.mem_cons_self _ _)
    have hret : w.store.handles (w.store.digestOf h) = some h := by rw [hv.2]; exact hok.1
    suffices h₁ : Inv (w.move t .idle (objectsInsert w.store d a)) from h₁.addReturned hret
    refine hi.insert ht (List.mem_cons_self _ _) (by simp [Pc.arcs]) rfl trivial (by simp)
      (fun d' e => by simpa [Pc.repairs] using e.symm) fun h' hh' hd' => .inl ?_
    obtain rfl : h' = h := hi.handle_unique hv.1 hh' (hd'.trans hv.2.symm)
    refine ⟨fun b hw _ => ?_, fun t'' b ht'' => ?_⟩
    · rw [move_store, objectsInsert_weak, hok.2] at hw
      cases hw; simp [hd']
    · by_cases e : t'' = t
      · subst e; simp at ht''
      · rw [move_ne _ _ _ _ e] at ht''
        exact absurd ha ((hi.ok_at ht'').2 a hok.2)
  | @resolveCached t d h ht hh =>
    have hret : w.store.handles (w.store.digestOf h) = some h := by rw [(hi.handle_valid _ _ hh).2]; exact hh
    suffices h₁ : Inv (w.move t .idle w.store) from h₁.addReturned hret
    exact hi.moveKeep (by simp [Pc.arcs]) (by simp [Pc.lockHeld]) trivial (by simp)
      (.inl (by rw [ht]; rfl))
  | @resolveUncached t d ht hh =>
    exact hi.moveKeep (by simp [Pc.arcs]) (by simp [Pc.lockHeld]) trivial (by simp)
      (.inl (by rw [ht]; rfl))
  | @resolveResident t d a ht ho =>
    exact hi.moveKeep (fun b hb => .inl (by simp [Pc.arcs, Hook.read] at hb; exact hb ▸ .of_objects ho))
      (by simp [Pc.lockHeld]) trivial (by simp) (.inl (by rw [ht]; rfl))
  | @resolveAbsent t d ht ho =>
    exact hi.moveKeep (by simp [Pc.arcs]) (by simp [Pc.lockHeld]) trivial (by simp)
      (.inl (by rw [ht]; rfl))
  | @resolveDbFailed t d ht =>
    exact hi.moveKeep (by simp [Pc.arcs]) (by simp [Pc.lockHeld]) trivial (by simp)
      (.inl (by rw [ht]; rfl))
  | @resolveDecoded t d bytes o r _ ht hd he =>
    exact (hi.alloc o).moveKeep (fun b hb => .inr (by
        simp [Pc.arcs] at hb; subst hb
        exact ⟨by simp, fun h hw => lt_irrefl _ (hi.weak_lt h _ hw)⟩))
      (by simp [Pc.lockHeld]) trivial (by simp) (.inl (by rw [ht]; rfl))
  | @resolveInserted t d a ht =>
    exact hi.insert ht (List.mem_singleton_self _) (fun b hb => by simpa [Pc.arcs, Hook.read] using hb) rfl trivial
      (by simp) (fun d' e => by simp [Pc.repairs] at e) fun _ _ _ => .inr ⟨t, by simp [Pc.repairs, Hook.read]⟩
  | @loadLock t h ht hfree =>
    exact hi.moveKeep (by simp [Pc.arcs]) (fun h' e => .inr (by cases e; exact hfree)) (hi.ok_at ht) (by simp)
      (.inl (by rw [ht]; rfl))
  | @loadUpgraded t h a ht hw hl =>
    exact hi.moveKeep (fun b hb => .inl (by simp [Pc.arcs] at hb; exact hb ▸ hl)) (fun h' e => .inl (by rw [ht]; exact e))
      ⟨hi.ok_at ht, hw⟩ (by simp) (.inl (by rw [ht]; rfl))
  | @loadNotUpgraded t h ht hd =>
    exact hi.moveKeep (by simp [Pc.arcs]) (fun h' e => .inl (by rw [ht]; exact e))
      ⟨hi.ok_at ht, hd.move (by simp [Pc.arcs])⟩ (by simp) (.inl (by rw [ht]; rfl))
  | @loadResident t h a ht ho =>
    have hok := hi.ok_at ht
    have harcs : ∀ b ∈ (Pc.loadSetWeak h a).arcs, w.Live b := fun b hb => by
      simp [Pc.arcs] at hb; exact hb ▸ .of_objects ho
    exact hi.moveKeep (fun b hb => .inl (harcs b hb)) (fun h' e => .inl (by rw [ht]; exact e))
      ⟨hok.1, hok.2.move fun b hb => .inl (harcs b hb)⟩ (fun h' b e => by cases e; exact ho)
      (.inl (by rw [ht]; rfl))
  | @loadAbsent t h ht ho =>
    have hok := hi.ok_at ht
    exact hi.moveKeep (by simp [Pc.arcs]) (fun h' e => .inl (by rw [ht]; exact e))
      ⟨hok.1, hok.2.move (by simp [Pc.arcs])⟩ (by simp) (.inl (by rw [ht]; rfl))
  | @loadDbFailed t h ht =>
    exact hi.moveKeep (by simp [Pc.arcs]) (fun h' e => .inl (by rw [ht]; exact e)) (hi.ok_at ht).1 (by simp)
      (.inl (by rw [ht]; rfl))
  | @loadDecoded t h bytes o r _ ht hd he =>
    have hok := (hi.alloc o).ok_at ht
    have hfresh : ∀ b ∈ (Pc.loadInsert h (w.store.alloc o).2).arcs,
        b.idx < (w.store.alloc o).1.heap.length ∧ ∀ h, (w.store.alloc o).1.weak h ≠ some b := fun b hb => by
      simp [Pc.arcs] at hb; subst hb
      exact ⟨by simp, fun h hw => lt_irrefl _ (hi.weak_lt h _ hw)⟩
    exact (hi.alloc o).moveKeep (fun b hb => .inr (hfresh b hb)) (fun h' e => .inl (by rw [ht]; exact e))
      ⟨hok.1, hok.2.move fun b hb => .inr (hfresh b hb).2⟩ (by simp)
      (.inl (by rw [ht]; rfl))
  | @loadInserted t h a ht =>
    have hok := hi.ok_at ht
    have ha : a ∈ (Pc.loadInsert h a).arcs := List.mem_singleton_self _
    have harcs : ∀ b ∈ (Pc.loadSetWeak h a).arcs, b ∈ (Pc.loadInsert h a).arcs := fun _ => id
    refine hi.insert ht ha harcs rfl ⟨hok.1, hok.2.keep rfl fun b _ hb => live_insert ht ha harcs hb⟩
      (fun h' b e => by cases e; rfl) (fun d' e => by simp [Pc.repairs] at e) fun h' hh' hd' => .inl ?_
    obtain rfl : h' = h := hi.handle_unique hok.1 hh' hd'
    refine ⟨fun b hw hl => absurd (live_insert ht ha harcs hl) (hok.2 b hw), fun t'' b ht'' => ?_⟩
    by_cases e : t'' = t
    · subst e; simp at ht''; subst ht''; simp
    · rw [move_ne _ _ _ _ e] at ht''
      exact absurd (hi.exclusive _ _ _ (by rw [ht'']; rfl) (by rw [ht]; rfl)) e
  | @loadSetWeak t h a ht =>
    have hok := hi.ok_at ht
    refine hi.setWeak ht rfl hok.2 (.of_pc ht (List.mem_singleton_self _)) hok.1 (fun _ => id) rfl
      ⟨by simpa using hok.1, by simp [StoreInner.weak_setWeak _ _ hok.1]⟩ (by simp)
      (fun d' e => by simp [Pc.repairs] at e) ?_
    rcases hi.resident h hok.1 with hc | ⟨t₀, ht₀⟩
    · exact .inl (hc.2 t a ht)
    · refine .inr ⟨t₀, fun e => ?_, ht₀⟩
      subst e; rw [ht] at ht₀; simp [Pc.repairs] at ht₀
  | @loadReturned t h a ht =>
    have hok := hi.ok_at ht
    exact (hi.hold hok.1 hok.2 (.of_pc ht (List.mem_singleton_self _))).moveKeep (by simp [Pc.arcs])
      (by simp [Pc.lockHeld]) trivial (by simp) (.inl (by rw [ht]; rfl))
  | @loadFailed t h ht =>
    exact hi.moveKeep (by simp [Pc.arcs]) (by simp [Pc.lockHeld]) trivial (by simp)
      (.inl (by rw [ht]; rfl))

/-- **Every reachable world keeps the invariant.** -/
theorem Inv.reach {db : Sha3Digest → Option (List UInt8)} {w : World} (hr : Reach C H (World.init db) w) : Inv w := by
  induction hr with
  | refl => exact Inv.init db
  | tail _ hs ih => exact ih.step hs

/-- With no call in progress nobody repairs, so every handle's slot agrees with `objects`. -/
theorem Inv.cons_of_quiescent {w : World} (hi : Inv w) (hq : w.Quiescent) {h : LevelHandle}
    (hh : h.inner < w.store.inners.length) : w.Cons h :=
  (hi.resident h hh).resolve_right fun ⟨t, ht⟩ => by rw [hq t] at ht; cases ht

/-- **One handle and one resident copy per digest.**  In a reachable world with no call in
progress, every handle a call returned is the one `handles` holds for its digest; and for every
digest with a handle, the slot's live target, every content and refs loaded through the handle,
and `objects[d]` are one allocation. -/
theorem resident_spec {db : Sha3Digest → Option (List UInt8)} {w : World} (hreach : Reach C H (World.init db) w)
    (hq : w.Quiescent) :
    (∀ h ∈ w.returned, w.store.handles (w.store.digestOf h) = some h) ∧
    ∀ d h, w.store.handles d = some h →
      (∀ a, w.store.weak h = some a → w.Live a → w.store.objects d = some a) ∧
      (∀ c, (h, c) ∈ w.contents → w.store.weak h = some c.obj ∧ w.store.objects d = some c.obj) ∧
      (∀ r, (h, r) ∈ w.iters → w.store.weak h = some r.obj ∧ w.store.objects d = some r.obj) := by
  have hi := Inv.reach hreach
  refine ⟨hi.returned, fun d h hh => ?_⟩
  obtain ⟨hlt, rfl⟩ := hi.handle_valid d h hh
  have hc := hi.cons_of_quiescent hq hlt
  have hheld : ∀ a, (h, a) ∈ w.held → w.store.weak h = some a ∧ w.store.objects (w.store.digestOf h) = some a :=
    fun a ha => ⟨(hi.held h a ha).2, hc.1 a (hi.held h a ha).2 (.of_held ha)⟩
  refine ⟨hc.1, fun c hc' => hheld c.obj ?_, fun r hr => hheld r.obj ?_⟩
  · exact List.mem_append_left _ (List.mem_map_of_mem (fun x => (x.1, x.2.obj)) hc')
  · exact List.mem_append_right _ (List.mem_map_of_mem (fun x => (x.1, x.2.obj)) hr)

/-- Thread 0 finishes the empty object while thread 1 loads its handle, the load taking the slot's
lock between the two halves of the finish. -/
theorem resident_spec_finish_load :
    ∃ w, Reach canonical (fun _ => default) (World.init fun _ => none) w ∧ w.Quiescent ∧ w.returned = [⟨0⟩] ∧
      w.contents = [(⟨0⟩, ⟨⟨0⟩⟩)] ∧ w.store.objects default = some ⟨0⟩ ∧
      (∀ h ∈ w.returned, w.store.handles (w.store.digestOf h) = some h) ∧
      ∀ c, (⟨0⟩, c) ∈ w.contents → w.store.weak ⟨0⟩ = some c.obj ∧ w.store.objects default = some c.obj := by
  have r : Reach canonical (fun _ => default) (World.init fun _ => none) _ :=
    .tail (.tail (.tail (.tail (.tail (.tail (.tail (.tail (.tail (.tail (.tail (.tail (.single
      (@Step.finish _ _ _ 0 ⟨[], [], (by decide : ([] : List UInt8).length < 2 ^ 63)⟩ rfl))
      (@Step.installHandle _ _ _ 0 _ _ rfl))
      (@Step.load _ _ _ 1 ⟨0⟩ (by decide) rfl))
      (@Step.installLock _ _ _ 0 _ _ _ rfl fun t => by
        by_cases e : t = 0 <;> by_cases e' : t = 1 <;> simp [e, e', World.move, World.init, Pc.lockHeld]))
      (@Step.installNotUpgraded _ _ _ 0 _ _ _ rfl fun _ hw => by cases hw))
      (@Step.installUpsertInsert _ _ _ 0 _ _ _ rfl rfl))
      (@Step.installUnwrapped _ _ _ 0 _ _ _ _ rfl rfl (.inl ⟨default, rfl⟩)))
      (@Step.finishUnlock _ _ _ 0 _ _ _ _ rfl))
      (@Step.loadLock _ _ _ 1 _ rfl fun t => by
        by_cases e : t = 0 <;> by_cases e' : t = 1 <;> simp [e, e', World.move, World.init, Pc.lockHeld]))
      (@Step.loadUpgraded _ _ _ 1 _ _ rfl rfl (.inl ⟨default, rfl⟩)))
      (@Step.loadReturned _ _ _ 1 _ _ rfl))
      (@Step.finishPut _ _ _ 0 _ _ _ rfl))
      (@Step.insertBack _ _ _ 0 _ _ _ _ rfl)
  refine ⟨_, r, ?q, rfl, rfl, rfl, (resident_spec r ?q).1, ((resident_spec r ?q).2 default ⟨0⟩ rfl).2.1⟩
  intro t
  by_cases e : t = 0
  · subst e; rfl
  by_cases e' : t = 1
  · subst e'; rfl
  · simp only [World.move, Function.update_noteq e, Function.update_noteq e']; rfl

end Step

end Concurrent

end Attaca
