import Attaca.TreeWalk
/-!
# TreeEntry — `entry` and the edits it offers, against the denotation

On a well-formed tree, `entry p` never panics and stops exactly where the walk along `p` stops
(`Tree.entry_cases`): `Occupied` when every component is matched, `Vacant` at a `Transparent` node
without the next component, `Blocked` at an `Opaque` node with components left.

`insert` on the `Vacant` outcome adds the leaf at `p` and the directories above it
(`Tree.Inserted.view`); `replace` on the `Occupied` outcome grafts the leaf at `p`
(`Tree.view_replace`).  Both keep the tree well formed, and so does every constructor: the `From`
impls and `from_iter` (`Tree.fromIter_wellFormed`).

What `entry` returns, leaving out node ids and the tree it carries (`Reached`), depends on the
denotation alone: it is `View.entryFrom`, the same walk read off the view (`Tree.entry_reached`).
-/
namespace Attaca

namespace Arena

variable {a : Arena} {n m : NodeId} {e : SubtreeEntry} {c : OsString}

theorem walkFrom_append : ∀ {q : Path} {n : NodeId}, a.walk n q = some m → ∀ p, a.walkFrom n (q ++ p) = a.walkFrom m p
  | [], _, h, _ => by cases h; rfl
  | c :: q, n, h, p => by
    obtain ⟨k, hk, hw⟩ := walk_cons_eq_some.1 h
    obtain ⟨entries, hs, hget⟩ := child_eq_some.1 hk
    simp only [List.cons_append, walkFrom, index_of_lt (lt_of_child hk), hs, hget, except_ok_bind]
    exact walkFrom_append hw p

theorem walkFrom_blocked (hs : a.slot m = some (.Opaque e)) (rest : List OsString) :
    a.walkFrom m (c :: rest) = .ok (.Blocked c, m, rest) := by
  simp [walkFrom, index_of_lt (lt_of_slot (show (a.slot m).isSome by simp [hs])), hs]

theorem walkFrom_vacant {entries : HashMap OsString NodeId} (hs : a.slot m = some (.Transparent entries))
    (hc : entries.get c = none) (rest : List OsString) :
    a.walkFrom m (c :: rest) = .ok (.Vacant (some c), m, rest) := by
  simp [walkFrom, index_of_lt (lt_of_slot (show (a.slot m).isSome by simp [hs])), hs, hc]

theorem walkFrom_hole (hm : m.val < a.entries.length) (hs : a.slot m = none) (rest : List OsString) :
    a.walkFrom m (c :: rest) = .ok (.Vacant none, m, rest) := by
  simp [walkFrom, index_of_lt hm, hs]

/-- Every walk either succeeds or stops at a node without the next child. -/
theorem walk_cases (a : Arena) : ∀ (n : NodeId) (p : Path), (∃ m, a.walk n p = some m) ∨
    ∃ q c rest m, p = q ++ c :: rest ∧ a.walk n q = some m ∧ a.child m c = none
  | n, [] => .inl ⟨n, rfl⟩
  | n, c :: p => by
    cases hk : a.child n c with
    | none => exact .inr ⟨[], c, p, n, rfl, rfl, hk⟩
    | some k =>
      rcases walk_cases a k p with ⟨m, hm⟩ | ⟨q, c', rest, m, rfl, hq, hc⟩
      · exact .inl ⟨m, walk_cons_eq_some.2 ⟨k, hk, hm⟩⟩
      · exact .inr ⟨c :: q, c', rest, m, rfl, walk_cons_eq_some.2 ⟨k, hk, hq⟩, hc⟩

/-- A node a walk steps through is a `Transparent` one. -/
theorem transparent_of_walk {r r' : Path} {d : OsString} (h : a.walk n (r ++ d :: r') = some m) :
    ∃ n' entries, a.walk n r = some n' ∧ a.slot n' = some (.Transparent entries) := by
  rw [walk_append] at h
  cases hr : a.walk n r with
  | none => simp [hr] at h
  | some n' =>
    rw [hr] at h
    obtain ⟨k, hk, -⟩ := walk_cons_eq_some.1 h
    obtain ⟨entries, hs, -⟩ := child_eq_some.1 hk
    exact ⟨n', entries, rfl, hs⟩

/-- The node `grow` has reached after `i` components from `current`, in an arena of `len` slots. -/
def chainNode (current : NodeId) (len : Nat) : Nat → NodeId
  | 0 => current
  | i + 1 => ⟨len + i⟩

theorem chainNode_fresh (len i : Nat) : chainNode ⟨len⟩ (len + 1) i = ⟨len + i⟩ := by
  cases i
  · rfl
  · simp [chainNode]; omega

theorem chainNode_succ (current : NodeId) (len i : Nat) : chainNode ⟨len⟩ (len + 1) i = chainNode current len (i + 1) := by
  rw [chainNode_fresh]; rfl

/-- What `grow` leaves: a chain of fresh nodes along `rest`, ending at the entry. -/
structure Grown (a : Arena) (current : NodeId) (e : SubtreeEntry) (rest : List OsString) (a' : Arena) : Prop where
  length_eq : a'.entries.length = a.entries.length + rest.length
  frame : ∀ m : NodeId, m.val < a.entries.length → m ≠ current → a'.slot m = a.slot m
  walk_eq : ∀ q, a'.walk current q = if q <+: rest then some (chainNode current a.entries.length q.length) else none
  kind_eq : ∀ i ≤ rest.length, (a'.slot (chainNode current a.entries.length i)).map Node.kind =
    some (if i = rest.length then .Opaque e else .Transparent)

theorem grow_spec (e : SubtreeEntry) : ∀ {a : Arena} {current : NodeId} (rest : List OsString),
    current.val < a.entries.length →
    ∃ a', a.grow current e rest = .ok (a', chainNode current a.entries.length rest.length) ∧ Grown a current e rest a'
  | a, current, [], hc => by
    refine ⟨a.update current (some (.Opaque e)), by simp [grow, set_of_lt hc, chainNode], by simp, ?_, ?_, ?_⟩
    · intro m _ hm; rw [slot_update hc, if_neg hm]
    · rintro (_ | ⟨d, q⟩)
      · simp [chainNode]
      · simp [walk_cons, child, slot_update hc]
    · intro i hi
      obtain rfl : i = 0 := by simpa using hi
      simp [chainNode, slot_update hc, Node.kind]
  | a, current, c :: rest, hc => by
    let a₂ := (a.alloc none).1.update current (some (.Transparent (.singleton c ⟨a.entries.length⟩)))
    have hc₂ : current.val < (a.alloc none).1.entries.length := by simp; omega
    have hlen : a₂.entries.length = a.entries.length + 1 := by simp [a₂]
    have hk : (⟨a.entries.length⟩ : NodeId).val < a₂.entries.length := by simp [hlen]
    obtain ⟨a', hgrow, hg⟩ := grow_spec e rest hk
    have hcur : a'.slot current = some (.Transparent (.singleton c ⟨a.entries.length⟩)) := by
      rw [hg.frame current (by omega) (fun h => by subst h; simp at hc), slot_update hc₂, if_pos rfl]
    have hold : ∀ m : NodeId, m.val < a.entries.length → m ≠ current → a'.slot m = a.slot m := by
      intro m hm hne
      rw [hg.frame m (by omega) (fun h => by subst h; simp at hm), slot_update hc₂, if_neg hne, slot_alloc,
        if_neg (by omega)]
    rw [hlen] at hgrow
    refine ⟨a', by simpa [grow, set_of_lt hc₂, ← chainNode_succ current] using hgrow, ?_, hold, ?_, ?_⟩
    · simp [hg.length_eq, hlen]; omega
    · rintro (_ | ⟨d, q⟩)
      · simp [chainNode]
      · simp only [walk_cons, child, hcur, HashMap.get_singleton]
        by_cases hd : d = c
        · subst hd
          simp [hg.walk_eq, hlen, chainNode_succ current, List.cons_prefix_cons]
        · simp [hd, List.cons_prefix_cons]
    · rintro (_ | i) hi
      · simp [chainNode, hcur, Node.kind]
      · rw [← chainNode_succ current, ← hlen]
        simpa using hg.kind_eq i (by simpa using hi)

theorem allocLeaves_fst (a : Arena) : ∀ l : List (OsString × SubtreeEntry),
    (a.allocLeaves l).1 = ⟨a.entries ++ l.map fun x => some (.Opaque x.2)⟩
  | [] => by simp [allocLeaves]
  | (key, value) :: rest => by simp [allocLeaves, alloc, allocLeaves_fst _ rest]

theorem allocLeaves_ids (a : Arena) : ∀ l : List (OsString × SubtreeEntry),
    (a.allocLeaves l).2.map (fun x => x.2.val) = List.range' a.entries.length l.length
  | [] => rfl
  | (key, value) :: rest => by
    simp [allocLeaves, alloc, allocLeaves_ids _ rest, List.range'_succ]

end Arena

namespace Tree

variable {t : Tree} {p q : Path} {m : NodeId} {c : OsString} {rest : List OsString} {e : SubtreeEntry}

theorem entry_of_walk (h : t.arena.walk t.root q = some m) (p : List OsString) :
    t.entry (q ++ p) = t.entryFrom m none p := by
  simp [entry, entryFrom, Arena.walkFrom_append h]

theorem entry_occupied (h : t.arena.walk t.root p = some m) : t.entry p = .ok (.ok (.Occupied ⟨m, t, []⟩)) := by
  simpa [entryFrom, Arena.walkFrom] using entry_of_walk h []

theorem entry_vacant {entries : HashMap OsString NodeId} (h : t.arena.walk t.root q = some m)
    (hs : t.arena.slot m = some (.Transparent entries)) (hc : entries.get c = none) :
    t.entry (q ++ c :: rest) = .ok (.ok (.Vacant ⟨m, some c, rest, t⟩)) := by
  simp [entry_of_walk h, entryFrom, Arena.walkFrom_vacant hs hc]

theorem entry_blocked (h : t.arena.walk t.root q = some m) (hs : t.arena.slot m = some (.Opaque e)) :
    t.entry (q ++ c :: rest) = .ok (.error ⟨m, c, rest, t⟩) := by
  simp [entry_of_walk h, entryFrom, Arena.walkFrom_blocked hs]

theorem entry_hole (h : t.arena.walk t.root q = some m) (hm : m.val < t.arena.entries.length)
    (hs : t.arena.slot m = none) : t.entry (q ++ c :: rest) = .ok (.ok (.Vacant ⟨m, none, rest, t⟩)) := by
  simp [entry_of_walk h, entryFrom, Arena.walkFrom_hole hm hs]

/-- **Where `entry` stops on a well-formed tree**, and what it returns there. -/
theorem entry_cases (ht : t.WellFormed) (p : Path) :
    (∃ m, t.arena.walk t.root p = some m ∧ t.entry p = .ok (.ok (.Occupied ⟨m, t, []⟩))) ∨
    (∃ q c rest m entries, p = q ++ c :: rest ∧ t.arena.walk t.root q = some m ∧
      t.arena.slot m = some (.Transparent entries) ∧ entries.get c = none ∧
      t.entry p = .ok (.ok (.Vacant ⟨m, some c, rest, t⟩))) ∨
    (∃ q c rest m e, p = q ++ c :: rest ∧ t.arena.walk t.root q = some m ∧
      t.arena.slot m = some (.Opaque e) ∧ t.entry p = .ok (.error ⟨m, c, rest, t⟩)) := by
  rcases Arena.walk_cases t.arena t.root p with ⟨m, hm⟩ | ⟨q, c, rest, m, rfl, hq, hc⟩
  · exact .inl ⟨m, hm, entry_occupied hm⟩
  · obtain ⟨node, hs⟩ := ht.exists_slot hq
    cases node with
    | Opaque e => exact .inr (.inr ⟨q, c, rest, m, e, rfl, hq, hs, entry_blocked hq hs⟩)
    | Transparent entries =>
      have hget : entries.get c = none := by simpa [Arena.child, hs] using hc
      exact .inr (.inl ⟨q, c, rest, m, entries, rfl, hq, hs, hget, entry_vacant hq hs hget⟩)

/-- A prefix of a path that reaches a `Transparent` node reaches a `Transparent` node. -/
theorem view_of_prefix {r : Path} {entries : HashMap OsString NodeId} (hq : t.arena.walk t.root q = some m)
    (hs : t.arena.slot m = some (.Transparent entries)) (hr : r <+: q) : t.view r = some .Transparent := by
  obtain ⟨s, rfl⟩ := hr
  cases s with
  | nil =>
    rw [List.append_nil] at hq
    simp [view, hq, hs, Node.kind]
  | cons d s =>
    obtain ⟨n', entries', hn', hs'⟩ := Arena.transparent_of_walk hq
    simp [view, hn', hs', Node.kind]

/-- A prefix of `q ++ c :: rest` is a prefix of `q`, or `q ++ c` followed by a prefix of `rest`. -/
theorem prefix_cases {r : Path} (h : r <+: q ++ c :: rest) :
    r <+: q ∨ ∃ r', r = q ++ c :: r' ∧ r' <+: rest := by
  obtain ⟨s, hs⟩ := h
  rcases List.append_eq_append_iff.1 hs with ⟨a', rfl, -⟩ | ⟨c', rfl, hc'⟩
  · exact .inl (List.prefix_append _ _)
  · cases c' with
    | nil => exact .inl (by simp)
    | cons d r' =>
      obtain ⟨rfl, rfl⟩ := List.cons.inj hc'
      exact .inr ⟨r', rfl, List.prefix_append _ _⟩

/-- What `insert` leaves on the `Vacant` outcome at `m` with component `c`: the new child of `m`,
every other old slot as it was, and the chain `grow` builds from the fresh node. -/
structure Inserted (t : Tree) (m : NodeId) (entries : HashMap OsString NodeId) (c : OsString)
    (rest : List OsString) (e : SubtreeEntry) (a' : Arena) : Prop where
  slot_m : a'.slot m = some (.Transparent (entries.insert c ⟨t.arena.entries.length⟩))
  frame : ∀ n : NodeId, n.val < t.arena.entries.length → n ≠ m → a'.slot n = t.arena.slot n
  grown : Arena.Grown ((t.arena.alloc none).1.update m (some (.Transparent (entries.insert c ⟨t.arena.entries.length⟩))))
    ⟨t.arena.entries.length⟩ e rest a'

section Insert

variable {entries : HashMap OsString NodeId} {a' : Arena}
  (ht : t.WellFormed) (hq : t.arena.walk t.root q = some m)
  (hs : t.arena.slot m = some (.Transparent entries)) (hc : entries.get c = none)
include ht hq hs hc

omit hc in
theorem insert_spec (rest : List OsString) (e : SubtreeEntry) :
    ∃ a', VacantEntry.insert ⟨m, some c, rest, t⟩ e =
      .ok ⟨⟨t.arena.entries.length + rest.length⟩, ⟨a', t.root⟩, []⟩ ∧ Inserted t m entries c rest e a' := by
  have hm : m.val < t.arena.entries.length := ht.lt_length hq
  have hm₁ : m.val < (t.arena.alloc none).1.entries.length := by simp; omega
  have hk : (⟨t.arena.entries.length⟩ : NodeId).val <
      ((t.arena.alloc none).1.update m (some (.Transparent (entries.insert c ⟨t.arena.entries.length⟩)))).entries.length := by
    simp
  obtain ⟨a', hgrow, hg⟩ := Arena.grow_spec e rest hk
  refine ⟨a', ?_, ⟨?_, fun n hn hne => ?_, hg⟩⟩
  · simp only [Arena.update_length, Arena.alloc_length, Arena.chainNode_fresh] at hgrow
    simp only [VacantEntry.insert, Arena.alloc_id, Arena.index_of_lt hm₁, Arena.slot_alloc, if_neg hm.ne, hs,
      Arena.set_of_lt hm₁, except_ok_bind, except_pure, hgrow]
  · rw [hg.frame m (by simp; omega) (fun h => by subst h; simp at hm), Arena.slot_update hm₁, if_pos rfl]
  · rw [hg.frame n (by simp; omega) (fun h => by subst h; simp at hn), Arena.slot_update hm₁, if_neg hne,
      Arena.slot_alloc, if_neg (by omega)]

variable {rest : List OsString} {e : SubtreeEntry} (hi : Inserted t m entries c rest e a')
include hi

theorem Inserted.walk_old {r : Path} (hr : ∀ r', r ≠ q ++ c :: r') : a'.walk t.root r = t.arena.walk t.root r := by
  refine Arena.walk_congr fun r₁ d r₂ m' hr₁ hw => ?_
  by_cases hmm : m' = m
  · subst hmm
    obtain rfl : r₁ = q := ht.unique _ _ _ hw hq
    have hd : d ≠ c := by rintro rfl; exact hr r₂ hr₁
    simp [Arena.child, hi.slot_m, hs, hd]
  · exact Arena.child_congr (hi.frame m' (ht.lt_length hw) hmm)

theorem Inserted.walk_new (r' : Path) :
    a'.walk t.root (q ++ c :: r') = if r' <+: rest then some ⟨t.arena.entries.length + r'.length⟩ else none := by
  have hwq : a'.walk t.root q = some m := by
    rw [hi.walk_old ht hq hs hc fun r' h => by simpa using congrArg List.length h]; exact hq
  have hch : a'.child m c = some ⟨t.arena.entries.length⟩ := by simp [Arena.child, hi.slot_m]
  rw [Arena.walk_append_of_walk hwq, Arena.walk_cons, hch, Option.some_bind, hi.grown.walk_eq]
  simp [Arena.chainNode_fresh]

omit ht hq hs hc in
theorem Inserted.kind_new {i : Nat} (h : i ≤ rest.length) :
    (a'.slot ⟨t.arena.entries.length + i⟩).map Node.kind = some (if i = rest.length then .Opaque e else .Transparent) := by
  simpa [Arena.chainNode_fresh] using hi.grown.kind_eq i h

/-- Where a walk in the new arena ends: on the new chain, or where it ended before. -/
theorem Inserted.walk_some {r : Path} {n : NodeId} (h : a'.walk t.root r = some n) :
    (∃ r', r = q ++ c :: r' ∧ r' <+: rest ∧ n = ⟨t.arena.entries.length + r'.length⟩) ∨
      t.arena.walk t.root r = some n := by
  by_cases hr : ∃ r', r = q ++ c :: r'
  · obtain ⟨r', rfl⟩ := hr
    rw [hi.walk_new ht hq hs hc] at h
    split at h
    · exact .inl ⟨r', rfl, ‹_›, (Option.some.inj h).symm⟩
    · cases h
  · push_neg at hr
    exact .inr (hi.walk_old ht hq hs hc hr ▸ h)

theorem Inserted.wellFormed : (⟨a', t.root⟩ : Tree).WellFormed where
  live r n h := by
    rcases hi.walk_some ht hq hs hc h with ⟨r', -, hp, rfl⟩ | h
    · exact Option.isSome_iff_exists.2 (by
        obtain ⟨x, hx, -⟩ := Option.map_eq_some'.1 (hi.kind_new hp.length_le)
        exact ⟨x, hx⟩)
    · by_cases hn : n = m
      · subst hn; simp [hi.slot_m]
      · show (a'.slot n).isSome
        rw [hi.frame n (ht.lt_length h) hn]; exact ht.live r n h
  unique r₁ r₂ n h₁ h₂ := by
    rcases hi.walk_some ht hq hs hc h₁ with ⟨r₁', rfl, hp₁, rfl⟩ | h₁ <;>
      rcases hi.walk_some ht hq hs hc h₂ with ⟨r₂', rfl, hp₂, hn⟩ | h₂
    · have hl : r₁'.length = r₂'.length := by simpa using hn
      rw [(List.prefix_of_prefix_length_le hp₁ hp₂ hl.le).eq_of_length hl]
    · exact absurd (ht.lt_length h₂) (by simp)
    · exact absurd (ht.lt_length h₁) (by simp [hn])
    · exact ht.unique _ _ _ h₁ h₂

/-- **`insert` adds the leaf at `p`**, and a directory at every path above it. -/
theorem Inserted.view (r : Path) : (⟨a', t.root⟩ : Tree).view r = View.addLeaf t.view (q ++ c :: rest) e r := by
  by_cases hr : ∃ r', r = q ++ c :: r'
  · obtain ⟨r', rfl⟩ := hr
    have hnew := hi.walk_new ht hq hs hc r'
    simp only [Tree.view] at hnew ⊢
    rw [hnew, View.addLeaf]
    simp only [List.append_cancel_left_eq, List.cons.injEq, true_and, List.prefix_append_right_inj,
      List.cons_prefix_cons]
    by_cases hp : r' <+: rest
    · have hk := hi.kind_new hp.length_le
      rw [if_pos hp, Option.some_bind, hk]
      by_cases he : r' = rest
      · subst he; simp
      · have hl : r'.length ≠ rest.length := fun h => he (hp.eq_of_length h)
        simp [hp, hl, he]
    · have hold : t.arena.walk t.root (q ++ c :: r') = none := by
        simp [Arena.walk_append_of_walk hq, Arena.walk_cons, Arena.child, hs, hc]
      have hne : r' ≠ rest := fun h => hp (h ▸ List.prefix_refl _)
      simp [hp, hne, Tree.view, hold]
  · push_neg at hr
    have hv : (⟨a', t.root⟩ : Tree).view r = t.view r := by
      simp only [Tree.view, hi.walk_old ht hq hs hc hr]
      cases hw : t.arena.walk t.root r with
      | none => rfl
      | some n =>
        by_cases hn : n = m
        · subst hn; simp [hi.slot_m, hs, Node.kind]
        · simp [hi.frame n (ht.lt_length hw) hn]
    rw [hv, View.addLeaf, if_neg (hr rest)]
    split
    · rcases prefix_cases ‹_› with h | ⟨r', rfl, -⟩
      · exact view_of_prefix hq hs h
      · exact absurd rfl (hr r')
    · rfl

end Insert

section Replace

variable (ht : t.WellFormed) (hp : t.arena.walk t.root p = some m) (e : SubtreeEntry)
include ht hp

theorem replace_eq :
    (⟨m, t, []⟩ : OccupiedEntry).replace e = .ok ⟨m, ⟨t.arena.update m (some (.Opaque e)), t.root⟩, []⟩ := by
  simp [OccupiedEntry.replace, Arena.set_of_lt (ht.lt_length hp)]

/-- **Frame**: updating the slot at `p` changes no walk except those that step through it. -/
theorem walk_update_of_not_extends (x : Option Node) {r : Path} (hr : ∀ d r', r ≠ p ++ d :: r') :
    (t.arena.update m x).walk t.root r = t.arena.walk t.root r := by
  refine Arena.walk_congr fun r₁ d r₂ m' hr₁ hw => Arena.child_congr ?_
  rw [Arena.slot_update (ht.lt_length hp), if_neg]
  rintro rfl
  exact hr d r₂ (by rw [hr₁, ht.unique _ _ _ hw hp])

theorem walk_update_self (x : Option Node) : (t.arena.update m x).walk t.root p = some m := by
  rw [walk_update_of_not_extends ht hp x fun d r' h => by simpa using congrArg List.length h, hp]

theorem walk_replace_extends (d : OsString) (r' : Path) :
    (t.arena.update m (some (.Opaque e))).walk t.root (p ++ d :: r') = none := by
  simp [Arena.walk_append_of_walk (walk_update_self ht hp _), Arena.walk_cons, Arena.child,
    Arena.slot_update (ht.lt_length hp)]

/-- **`replace` grafts the leaf at `p`**: the node there and everything under it give way to it. -/
theorem view_replace (r : Path) :
    (⟨t.arena.update m (some (.Opaque e)), t.root⟩ : Tree).view r = View.graft t.view p e r := by
  by_cases hr : ∃ d r', r = p ++ d :: r'
  · obtain ⟨d, r', rfl⟩ := hr
    simp [Tree.view, View.graft, walk_replace_extends ht hp e]
  · push_neg at hr
    simp only [Tree.view, View.graft, walk_update_of_not_extends ht hp (some (.Opaque e)) hr]
    by_cases hrp : r = p
    · subst hrp; simp [hp, Arena.slot_update (ht.lt_length hp), Node.kind]
    · have hpr : ¬ p <+: r := by
        rintro ⟨s, rfl⟩
        cases s with
        | nil => exact hrp (List.append_nil p)
        | cons d r' => exact hr d r' rfl
      rw [if_neg hrp, if_neg hpr]
      cases hw : t.arena.walk t.root r with
      | none => rfl
      | some n =>
        have hn : n ≠ m := by rintro rfl; exact hrp (ht.unique _ _ _ hw hp)
        simp [Arena.slot_update (ht.lt_length hp), hn]

theorem wellFormed_replace : (⟨t.arena.update m (some (.Opaque e)), t.root⟩ : Tree).WellFormed := by
  have hold : ∀ r n, (t.arena.update m (some (.Opaque e))).walk t.root r = some n → t.arena.walk t.root r = some n := by
    intro r n h
    by_cases hr : ∃ d r', r = p ++ d :: r'
    · obtain ⟨d, r', rfl⟩ := hr
      rw [walk_replace_extends ht hp e] at h; cases h
    · push_neg at hr
      rwa [walk_update_of_not_extends ht hp (some (.Opaque e)) hr] at h
  refine ⟨fun r n h => ?_, fun r₁ r₂ n h₁ h₂ => ht.unique _ _ _ (hold _ _ h₁) (hold _ _ h₂)⟩
  show ((t.arena.update m _).slot n).isSome
  rw [Arena.slot_update (ht.lt_length hp)]
  split
  · rfl
  · exact ht.live r n (hold _ _ h)

end Replace

/-! ## The trees the constructors build

`From` of a map is a `Transparent` root over distinct leaves, and `from_iter` inserts one path at a
time; both give well-formed trees. -/

/-- Where a walk ends in a tree of one `Transparent` root over `Opaque` leaves. -/
theorem walk_of_leaves {ids : HashMap OsString NodeId} (hroot : t.arena.slot t.root = some (.Transparent ids))
    (hleaf : ∀ k n, (k, n) ∈ ids.entries → ∃ e, t.arena.slot n = some (.Opaque e)) {q : Path} {n : NodeId}
    (h : t.arena.walk t.root q = some n) : (q = [] ∧ n = t.root) ∨ ∃ k, q = [k] ∧ (k, n) ∈ ids.entries := by
  match q, h with
  | [], h => exact .inl ⟨rfl, (Option.some.inj h).symm⟩
  | k :: q, h =>
    obtain ⟨c, hc, hw⟩ := Arena.walk_cons_eq_some.1 h
    have hkc := (Arena.child_of_transparent hroot).1 hc
    cases q with
    | nil => exact .inr ⟨k, rfl, Option.some.inj hw ▸ hkc⟩
    | cons k' q =>
      obtain ⟨e, he⟩ := hleaf k c hkc
      simp [Arena.walk_cons, Arena.child_of_slot he] at hw

/-- **A root over distinct leaves is well formed.** -/
theorem wellFormed_of_leaves {ids : HashMap OsString NodeId} (hroot : t.arena.slot t.root = some (.Transparent ids))
    (hleaf : ∀ k n, (k, n) ∈ ids.entries → n ≠ t.root ∧ ∃ e, t.arena.slot n = some (.Opaque e))
    (hnd : (ids.entries.map Prod.snd).Nodup) : t.WellFormed := by
  have hleaf' := fun k n h => (hleaf k n h).2
  refine ⟨fun q n h => ?_, fun q q' n h h' => ?_⟩
  · rcases walk_of_leaves hroot hleaf' h with ⟨-, rfl⟩ | ⟨k, -, hk⟩
    · simp [hroot]
    · obtain ⟨e, he⟩ := (hleaf k n hk).2
      simp [he]
  · rcases walk_of_leaves hroot hleaf' h with ⟨rfl, rfl⟩ | ⟨k, rfl, hk⟩ <;>
      rcases walk_of_leaves hroot hleaf' h' with ⟨rfl, hn⟩ | ⟨k', rfl, hk'⟩
    · rfl
    · exact absurd rfl (hleaf k' _ hk').1
    · exact absurd hn (hleaf k _ hk).1
    · rw [(Prod.mk.inj (List.inj_on_of_nodup_map hnd hk hk' rfl)).1]

theorem wellFormed_ofLeaves (l : List (OsString × SubtreeEntry)) (h : (l.map Prod.fst).Nodup) :
    (Tree.ofLeaves l h).WellFormed := by
  have hlen : (Arena.allocLeaves ⟨[]⟩ l).1.entries.length = l.length := by simp [Arena.allocLeaves_fst]
  have hids := Arena.allocLeaves_ids ⟨[]⟩ l
  have hnd : (((Arena.allocLeaves ⟨[]⟩ l).2.map Prod.snd).map NodeId.val).Nodup := by
    rw [List.map_map]
    exact hids ▸ List.nodup_range' _ _
  obtain ⟨ids, hroot, hids'⟩ : ∃ ids : HashMap OsString NodeId, (Tree.ofLeaves l h).arena.slot (Tree.ofLeaves l h).root =
      some (.Transparent ids) ∧ ids.entries = (Arena.allocLeaves ⟨[]⟩ l).2 :=
    ⟨⟨_, (Arena.allocLeaves_keys ⟨[]⟩ l).symm ▸ h⟩, by simp [ofLeaves, Arena.slot_alloc, hlen], rfl⟩
  rw [← hids'] at hids hnd
  refine wellFormed_of_leaves hroot (fun k n hk => ?_) (hnd.of_map _)
  · have hn : n.val < l.length := by
      have : n.val ∈ ids.entries.map fun x => x.2.val := List.mem_map.2 ⟨_, hk, rfl⟩
      rw [hids] at this
      simpa using this
    refine ⟨fun h' => absurd (h' ▸ hn) (by simp [ofLeaves, hlen]), ?_⟩
    simp only [ofLeaves, Arena.slot_alloc, hlen, if_neg hn.ne, Arena.slot, Arena.allocLeaves_fst]
    simp [Arena.alloc, List.getElem?_append_left (show n.val < (l.map _).length by simpa using hn), hn]

theorem insertPair_wellFormed (ht : t.WellFormed) {x : Path × SubtreeEntry} {t' : Tree}
    (h : t.insertPair x = .ok t') : t'.WellFormed := by
  obtain ⟨p, e⟩ := x
  rcases entry_cases ht p with ⟨m, hm, he⟩ | ⟨q, c, rest, m, entries, rfl, hq, hs, hc, he⟩ |
    ⟨q, c, rest, m, e', rfl, hq, hs, he⟩
  · simp only [insertPair, he, replace_eq ht hm, except_ok_bind, except_pure, Except.ok.injEq] at h
    exact h ▸ wellFormed_replace ht hm e
  · obtain ⟨a', hins, hi⟩ := insert_spec ht hq hs rest e
    simp only [insertPair, he, except_ok_bind] at h
    rw [hins] at h
    cases h
    exact hi.wellFormed ht hq hs hc
  · simp [insertPair, he] at h

theorem foldlM_insertPair_wellFormed : ∀ (l : List (Path × SubtreeEntry)) {t t' : Tree}, t.WellFormed →
    l.foldlM Tree.insertPair t = .ok t' → t'.WellFormed
  | [], _, _, ht, h => by cases h; exact ht
  | x :: l, t, t', ht, h => by
    rw [List.foldlM_cons] at h
    cases hx : t.insertPair x with
    | error _ => simp [hx] at h
    | ok t₁ =>
      rw [hx, except_ok_bind] at h
      exact foldlM_insertPair_wellFormed l (insertPair_wellFormed ht hx) h

theorem fromIter_wellFormed {iter : List (Path × SubtreeEntry)} (h : Tree.fromIter iter = .ok t) : t.WellFormed :=
  foldlM_insertPair_wellFormed _ (wellFormed_ofLeaves _ _) h

/-- The pairs of a sample tree: the files `a/b` and `a/c`, and a stub `d`, the entry of a directory
of one entry that is not loaded.  `from_iter` builds a `Transparent` root over the `Transparent`
directory `a` and the leaf `d`. -/
def sampleLeaves : List (Path × SubtreeEntry) :=
  [([[97], [98]], .File .zero 0), ([[97], [99]], .File .zero 1), ([[100]], .Subtree ⟨List.replicate 32 1, rfl⟩)]

theorem sampleLeaves_sorted : (sampleLeaves.mergeSort fun a b => decide (a.1 ≤ b.1)) = sampleLeaves :=
  List.mergeSort_of_sorted (by decide)

/-- `from_iter`'s sort leaves the sample's pairs in place. -/
theorem fromIter_sampleLeaves :
    Tree.fromIter sampleLeaves = sampleLeaves.foldlM Tree.insertPair (Tree.ofBTreeMap .empty) := by
  rw [Tree.fromIter, sampleLeaves_sorted]

section Spec

variable (ht : t.WellFormed)
include ht

/-- On a `Blocked` entry of a well-formed tree, `object_hash` is the blocking leaf's hash. -/
theorem objectHash_blocked (hq : t.arena.walk t.root q = some m) (hs : t.arena.slot m = some (.Opaque e)) :
    (⟨m, c, rest, t⟩ : Blocked).objectHash = .ok e.hash := by
  simp [Blocked.objectHash, Arena.index_of_lt (ht.lt_length hq), hs]

theorem entry_occupied_iff (o : OccupiedEntry) :
    t.entry p = .ok (.ok (.Occupied o)) ↔ ∃ m, t.arena.walk t.root p = some m ∧ o = ⟨m, t, []⟩ := by
  refine ⟨fun h => ?_, fun ⟨m, hm, ho⟩ => ho ▸ entry_occupied hm⟩
  rcases entry_cases ht p with ⟨m, hm, he⟩ | ⟨_, _, _, _, _, _, _, _, _, he⟩ | ⟨_, _, _, _, _, _, _, _, he⟩ <;>
    rw [he] at h <;> cases h
  exact ⟨m, hm, rfl⟩

theorem entry_vacant_iff (v : VacantEntry) :
    t.entry p = .ok (.ok (.Vacant v)) ↔ ∃ q c rest m entries, p = q ++ c :: rest ∧
      t.arena.walk t.root q = some m ∧ t.arena.slot m = some (.Transparent entries) ∧ entries.get c = none ∧
      v = ⟨m, some c, rest, t⟩ := by
  refine ⟨fun h => ?_, fun ⟨q, c, rest, m, entries, hp, hq, hs, hc, hv⟩ => hp ▸ hv ▸ entry_vacant hq hs hc⟩
  rcases entry_cases ht p with ⟨_, _, he⟩ | ⟨q, c, rest, m, entries, hp, hq, hs, hc, he⟩ | ⟨_, _, _, _, _, _, _, _, he⟩ <;>
    rw [he] at h <;> cases h
  exact ⟨q, c, rest, m, entries, hp, hq, hs, hc, rfl⟩

theorem entry_blocked_iff (b : Blocked) :
    t.entry p = .ok (.error b) ↔ ∃ q c rest m e, p = q ++ c :: rest ∧
      t.arena.walk t.root q = some m ∧ t.arena.slot m = some (.Opaque e) ∧ b = ⟨m, c, rest, t⟩ := by
  refine ⟨fun h => ?_, fun ⟨q, c, rest, m, e, hp, hq, hs, hb⟩ => hp ▸ hb ▸ entry_blocked hq hs⟩
  rcases entry_cases ht p with ⟨_, _, he⟩ | ⟨_, _, _, _, _, _, _, _, _, he⟩ | ⟨q, c, rest, m, e, hp, hq, hs, he⟩ <;>
    rw [he] at h <;> cases h
  exact ⟨q, c, rest, m, e, hp, hq, hs, rfl⟩

/-- **`entry` on a well-formed tree, and the edits of its outcomes.**  `Occupied` exactly when the
whole path is matched, at the node reached; `Vacant` exactly when a prefix is matched at a
`Transparent` node without the next component; `Blocked` exactly when a proper prefix is matched at
an `Opaque` node, whose hash `object_hash` returns.  `insert` then adds the leaf at the path,
`replace` grafts it there. -/
theorem entry_spec (p : Path) :
    (∀ o, t.entry p = .ok (.ok (.Occupied o)) ↔ ∃ m, t.arena.walk t.root p = some m ∧ o = ⟨m, t, []⟩) ∧
    (∀ v, t.entry p = .ok (.ok (.Vacant v)) ↔ ∃ q c rest m entries, p = q ++ c :: rest ∧
      t.arena.walk t.root q = some m ∧ t.arena.slot m = some (.Transparent entries) ∧ entries.get c = none ∧
      v = ⟨m, some c, rest, t⟩) ∧
    (∀ b, t.entry p = .ok (.error b) ↔ ∃ q c rest m e, p = q ++ c :: rest ∧
      t.arena.walk t.root q = some m ∧ t.arena.slot m = some (.Opaque e) ∧ b = ⟨m, c, rest, t⟩) ∧
    (∀ b, t.entry p = .ok (.error b) → ∃ q e, (∃ m, t.arena.walk t.root q = some m ∧
      t.arena.slot m = some (.Opaque e)) ∧ q <+: p ∧ q ≠ p ∧ b.objectHash = .ok e.hash) ∧
    (∀ v, t.entry p = .ok (.ok (.Vacant v)) → ∀ e, ∃ o, v.insert e = .ok o ∧ o.intoInner.view = View.addLeaf t.view p e) ∧
    (∀ o, t.entry p = .ok (.ok (.Occupied o)) → ∀ e, ∃ o', o.replace e = .ok o' ∧ o'.intoInner.view = View.graft t.view p e) := by
  refine ⟨entry_occupied_iff ht, entry_vacant_iff ht, entry_blocked_iff ht, fun b h => ?_, fun v h e => ?_,
    fun o h e => ?_⟩
  · obtain ⟨q, c, rest, m, e, rfl, hq, hs, rfl⟩ := (entry_blocked_iff ht b).1 h
    exact ⟨q, e, ⟨m, hq, hs⟩, List.prefix_append _ _, by simp, objectHash_blocked ht hq hs⟩
  · obtain ⟨q, c, rest, m, entries, rfl, hq, hs, hc, rfl⟩ := (entry_vacant_iff ht v).1 h
    obtain ⟨a', hins, hi⟩ := insert_spec ht hq hs rest e
    exact ⟨_, hins, funext (hi.view ht hq hs hc)⟩
  · obtain ⟨m, hm, rfl⟩ := (entry_occupied_iff ht o).1 h
    exact ⟨_, replace_eq ht hm e, funext (view_replace ht hm e)⟩

end Spec

/-- The sample tree: `a/b` is `Occupied`, `a/e` is `Vacant` in the directory `a`, and `d/e` is
`Blocked` at the stub `d`. -/
theorem entry_spec_sample :
    ∃ t, Tree.fromIter sampleLeaves = .ok t ∧ t.WellFormed ∧
      (∃ o, t.entry [[97], [98]] = .ok (.ok (.Occupied o))) ∧
      (∃ v, t.entry [[97], [101]] = .ok (.ok (.Vacant v)) ∧ v.immediateComponentOpt = some [101]) ∧
      (∃ b, t.entry [[100], [101]] = .ok (.error b) ∧ b.objectHash = .ok ⟨List.replicate 32 1, rfl⟩) ∧
      ∀ p, (∀ o, t.entry p = .ok (.ok (.Occupied o)) ↔ ∃ m, t.arena.walk t.root p = some m ∧ o = ⟨m, t, []⟩) ∧
      (∀ v, t.entry p = .ok (.ok (.Vacant v)) ↔ ∃ q c rest m entries, p = q ++ c :: rest ∧
        t.arena.walk t.root q = some m ∧ t.arena.slot m = some (.Transparent entries) ∧ entries.get c = none ∧
        v = ⟨m, some c, rest, t⟩) ∧
      (∀ b, t.entry p = .ok (.error b) ↔ ∃ q c rest m e, p = q ++ c :: rest ∧
        t.arena.walk t.root q = some m ∧ t.arena.slot m = some (.Opaque e) ∧ b = ⟨m, c, rest, t⟩) ∧
      (∀ b, t.entry p = .ok (.error b) → ∃ q e, (∃ m, t.arena.walk t.root q = some m ∧
        t.arena.slot m = some (.Opaque e)) ∧ q <+: p ∧ q ≠ p ∧ b.objectHash = .ok e.hash) ∧
      (∀ v, t.entry p = .ok (.ok (.Vacant v)) → ∀ e, ∃ o, v.insert e = .ok o ∧
        o.intoInner.view = View.addLeaf t.view p e) ∧
      (∀ o, t.entry p = .ok (.ok (.Occupied o)) → ∀ e, ∃ o', o.replace e = .ok o' ∧
        o'.intoInner.view = View.graft t.view p e) := by
  have h₀ : Tree.fromIter sampleLeaves = .ok _ := fromIter_sampleLeaves.trans rfl
  exact ⟨_, h₀, fromIter_wellFormed h₀, ⟨_, rfl⟩, ⟨_, rfl, rfl⟩, ⟨_, rfl, rfl⟩, entry_spec (fromIter_wellFormed h₀)⟩

end Tree

/-! ## `entry` up to node ids -/

/-- What `entry` returns, without the node ids and the tree: `Occupied` with its (empty) remaining
path, `Vacant` with its immediate component and remaining path, `Blocked` with its immediate
component, its remaining path and what `object_hash` gives. -/
inductive Reached where
  | occupied (emptyIter : List OsString)
  | vacant (immediateComponentOpt : Option OsString) (remainingPath : List OsString)
  | blocked (immediateComponent : OsString) (remainingPath : List OsString) (objectHash : Except String ObjectHash)

def Reached.of : Except Blocked Entry → Reached
  | .ok (.Occupied o) => .occupied o.emptyIter
  | .ok (.Vacant v) => .vacant v.immediateComponentOpt v.remainingPath
  | .error b => .blocked b.immediateComponent b.remainingPath b.objectHash

/-- The tree an outcome of `entry` carries, which its `into_inner` gives back. -/
def entryInner : Except Blocked Entry → Tree
  | .ok (.Occupied o) => o.intoInner
  | .ok (.Vacant v) => v.intoInner
  | .error b => b.intoInner

/-- `entry` on a denotation: from the directory at `q`, follow the components while each one is
there; stop at a leaf, or where a component is missing. -/
def View.entryFrom (d : View) (q : Path) : List OsString → Reached
  | [] => .occupied []
  | c :: rest =>
    match d q with
    | some (.Opaque e) => .blocked c rest (.ok e.hash)
    | _ => if (d (q ++ [c])).isSome then d.entryFrom (q ++ [c]) rest else .vacant (some c) rest

namespace Tree

variable {t : Tree} (ht : t.WellFormed)
include ht

/-- **The walk of `entry_from` refines the walk on the denotation**, one component at a time. -/
theorem entryFrom_reached : ∀ (p : List OsString) {q : Path} {m : NodeId}, t.arena.walk t.root q = some m →
    (t.entryFrom m none p).map Reached.of = .ok (t.view.entryFrom q p)
  | [], _, _, _ => rfl
  | c :: p, q, m, hq => by
    obtain ⟨node, hs⟩ := ht.exists_slot hq
    have hv : t.view q = some node.kind := by simp [view, hq, hs]
    cases node with
    | Opaque e =>
      simp [entryFrom, Arena.walkFrom_blocked hs, View.entryFrom, hv, Node.kind, Reached.of,
        objectHash_blocked ht hq hs, Except.map]
    | Transparent entries =>
      have hw : t.arena.walk t.root (q ++ [c]) = entries.get c := by
        rw [Arena.walk_append_of_walk hq]
        simp [Arena.walk_cons, Arena.child_of_slot hs]
      cases hc : entries.get c with
      | none =>
        have hv' : t.view (q ++ [c]) = none := by simp [view, hw, hc]
        simp [entryFrom, Arena.walkFrom_vacant hs hc, View.entryFrom, hv, hv', Node.kind, Reached.of, Except.map]
      | some k =>
        have hk : t.arena.walk t.root (q ++ [c]) = some k := hw.trans hc
        have hchild : t.arena.walk m [c] = some k := by simp [Arena.walk_cons, Arena.child_of_slot hs, hc]
        have hstep : t.entryFrom m none (c :: p) = t.entryFrom k none p := by
          simp only [entryFrom, Option.toList, List.nil_append]
          rw [show c :: p = [c] ++ p from rfl, Arena.walkFrom_append hchild]
        have hv' : (t.view (q ++ [c])).isSome := by
          obtain ⟨node', hs'⟩ := ht.exists_slot hk
          simp [view, hk, hs']
        rw [hstep, entryFrom_reached p hk]
        simp [View.entryFrom, hv, hv', Node.kind]

/-- **What `entry` returns, up to node ids, is read off the denotation.** -/
theorem entry_reached (p : Path) : (t.entry p).map Reached.of = .ok (t.view.entryFrom [] p) :=
  entryFrom_reached ht p rfl

/-- The tree an outcome of `entry` carries is the tree it walked. -/
theorem entryInner_of_entry {p : Path} {r : Except Blocked Entry} (h : t.entry p = .ok r) : entryInner r = t := by
  rcases entry_cases ht p with ⟨_, _, he⟩ | ⟨_, _, _, _, _, _, _, _, _, he⟩ | ⟨_, _, _, _, _, _, _, _, he⟩ <;>
    rw [he, Except.ok.injEq] at h <;> subst h <;> rfl

end Tree

end Attaca
