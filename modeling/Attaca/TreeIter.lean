import Attaca.TreeGraft
/-!
# TreeIter — what `into_iter` yields

On a well-formed tree, `into_iter` never panics and yields every leaf exactly once, with the path
from the root to it, and nothing else (`Tree.items_nodup_mem`).  The invariant of the loop is `Pending`:
the stack holds reachable nodes whose subtrees are pairwise apart and still untouched in the arena.
Each pop takes one live slot, so the fuel of `collect` (one more than the arena's length) is never
used up; and more fuel gives the same items (`IntoIter.collect_add`), so the loop of `next` ends on
one list whatever fuel beyond the arena's length it is given (`Tree.intoIter_spec`).
-/
namespace Attaca

namespace Arena

/-- The live slots of the arena. -/
def somes (a : Arena) : Nat := a.entries.countP Option.isSome

theorem countP_set_none : ∀ {l : List (Option Node)} {i : Nat}, (l[i]?.join).isSome →
    (l.set i none).countP Option.isSome + 1 = l.countP Option.isSome
  | [], _, h => by simp at h
  | x :: l, 0, h => by simp_all
  | x :: l, i + 1, h => by
    have := countP_set_none (show (l[i]?.join).isSome by simpa using h)
    simp only [List.set_cons_succ, List.countP_cons]
    omega

theorem somes_update_none {a : Arena} {n : NodeId} (h : (a.slot n).isSome) :
    (a.update n none).somes + 1 = a.somes :=
  countP_set_none h

theorem somes_le (a : Arena) : a.somes ≤ a.entries.length := List.countP_le_length _

end Arena

/-- **More fuel, same items**: a run of `next` that ends before the fuel does ends the same way with
more of it. -/
theorem IntoIter.collect_add : ∀ {fuel : Nat} {it : IntoIter} {l : List (Path × SubtreeEntry)},
    IntoIter.collect fuel it = .ok l → ∀ k, IntoIter.collect (fuel + k) it = .ok l
  | 0, _, _, h, _ => nomatch h
  | fuel + 1, ⟨[], _⟩, _, h, k => by rw [Nat.add_right_comm]; exact h
  | fuel + 1, ⟨(path, nodeId) :: stack, a⟩, l, h, k => by
    rw [Nat.add_right_comm]
    simp only [IntoIter.collect] at h ⊢
    cases ha : a.take nodeId with
    | error err => rw [ha] at h; cases h
    | ok x =>
      obtain ⟨node, a'⟩ := x
      simp only [ha, except_ok_bind] at h ⊢
      rcases node with _ | _ | entries
      · exact h
      · cases hr : IntoIter.collect fuel ⟨stack, a'⟩ with
        | error err => rw [hr] at h; cases h
        | ok r => rw [hr] at h; rw [collect_add hr k]; exact h
      · exact collect_add h k

namespace Tree

variable {t : Tree}

/-- The stack of `IntoIter`, mid-iteration: reachable nodes, their paths pairwise apart, and every
slot under them as the tree had it. -/
structure Pending (t : Tree) (stack : List (Path × NodeId)) (a : Arena) : Prop where
  walk : ∀ x ∈ stack, t.arena.walk t.root x.1 = some x.2
  apart : stack.Pairwise fun x y => ¬ x.1 <+: y.1 ∧ ¬ y.1 <+: x.1
  agree : ∀ r n, (∃ x ∈ stack, x.1 <+: r) → t.arena.walk t.root r = some n → a.slot n = t.arena.slot n
  length_eq : a.entries.length = t.arena.entries.length

/-- Whether the stack has the leaf `x` still to yield. -/
def Below (t : Tree) (stack : List (Path × NodeId)) (x : Path × SubtreeEntry) : Prop :=
  (∃ y ∈ stack, y.1 <+: x.1) ∧ t.view x.1 = some (.Opaque x.2)

theorem below_opaque_eq {q : Path} {n : NodeId} {e : SubtreeEntry} (hq : t.arena.walk t.root q = some n)
    (hn : t.arena.slot n = some (.Opaque e)) {x : Path × SubtreeEntry} (hx : q <+: x.1)
    (hv : t.view x.1 = some (.Opaque x.2)) : x = (q, e) := by
  obtain ⟨s, hs⟩ := hx
  cases s with
  | nil =>
    rw [List.append_nil] at hs
    rw [← hs] at hv
    simp [view, hq, hn, Node.kind] at hv
    exact Prod.ext hs.symm hv.symm
  | cons d s =>
    rw [← hs] at hv
    simp [view, Arena.walk_append_of_walk hq, Arena.walk_cons, Arena.child, hn] at hv

theorem below_child {q : Path} {n : NodeId} {entries : HashMap OsString NodeId} (hq : t.arena.walk t.root q = some n)
    (hn : t.arena.slot n = some (.Transparent entries)) {x : Path × SubtreeEntry} (hx : q <+: x.1)
    (hv : t.view x.1 = some (.Opaque x.2)) : ∃ y ∈ entries.entries, q ++ [y.1] <+: x.1 := by
  obtain ⟨s, hs⟩ := hx
  cases s with
  | nil =>
    rw [List.append_nil] at hs
    rw [← hs] at hv
    simp [view, hq, hn, Node.kind] at hv
  | cons d s =>
    rw [← hs] at hv
    simp only [view, Arena.walk_append_of_walk hq, Arena.walk_cons, Arena.child, hn, Option.some_bind,
      Node.child_transparent] at hv
    cases hd : entries.get d with
    | none => simp [hd] at hv
    | some k => exact ⟨(d, k), HashMap.get_eq_some_iff.1 hd, ⟨s, by simp [← hs]⟩⟩

/-- Two prefixes of one path are prefixes of each other, one way or the other. -/
theorem prefix_total {q q' r : Path} (hq : q <+: r) (hq' : q' <+: r) : q <+: q' ∨ q' <+: q := by
  rcases le_total q.length q'.length with h | h
  exacts [.inl (List.prefix_of_prefix_length_le hq hq' h), .inr (List.prefix_of_prefix_length_le hq' hq h)]

/-- The stack a `Transparent` node at `q` is replaced with: its children, pushed in iteration order. -/
def children (q : Path) (entries : HashMap OsString NodeId) : List (Path × NodeId) :=
  (entries.entries.map fun (component, nodeId) => (q ++ [component], nodeId)).reverse

section Pop

variable (ht : t.WellFormed) {q : Path} {n : NodeId} {stack : List (Path × NodeId)} {a : Arena}
  (hp : t.Pending ((q, n) :: stack) a)
include ht hp

omit ht in
theorem Pending.head_walk : t.arena.walk t.root q = some n := hp.walk (q, n) (List.mem_cons_self _ _)

omit ht in
theorem Pending.slot_head : a.slot n = t.arena.slot n :=
  hp.agree q n ⟨(q, n), List.mem_cons_self _ _, List.prefix_refl q⟩ hp.head_walk

omit ht in
theorem Pending.head_apart {y : Path × NodeId} (hy : y ∈ stack) : ¬ q <+: y.1 ∧ ¬ y.1 <+: q :=
  List.rel_of_pairwise_cons hp.apart hy

omit ht in
theorem Pending.not_prefix_of_mem {y : Path × NodeId} {r : Path} (hy : y ∈ stack) (hyr : y.1 <+: r) : ¬ q <+: r :=
  fun hq => (prefix_total hq hyr).elim (hp.head_apart hy).1 (hp.head_apart hy).2

/-- After the pop, every slot under the stack's other nodes is still the tree's. -/
theorem Pending.agree_update {r : Path} {n' : NodeId} (hr : ∃ x ∈ stack, x.1 <+: r) (hw : t.arena.walk t.root r = some n')
    (hnot : ¬ q <+: r) : (a.update n none).slot n' = t.arena.slot n' := by
  rw [Arena.slot_update (hp.length_eq ▸ ht.lt_length hp.head_walk), if_neg]
  · exact hp.agree r n' (by obtain ⟨x, hx, h⟩ := hr; exact ⟨x, List.mem_cons_of_mem _ hx, h⟩) hw
  · rintro rfl
    exact hnot (ht.unique _ _ _ hw hp.head_walk ▸ List.prefix_refl r)

theorem Pending.tail : t.Pending stack (a.update n none) where
  walk x hx := hp.walk x (List.mem_cons_of_mem _ hx)
  apart := (List.pairwise_cons.1 hp.apart).2
  agree r n' hr hw := by
    obtain ⟨x, hx, hxr⟩ := hr
    exact hp.agree_update ht ⟨x, hx, hxr⟩ hw (hp.not_prefix_of_mem hx hxr)
  length_eq := by simp [hp.length_eq]

theorem Pending.push {entries : HashMap OsString NodeId} (hn : t.arena.slot n = some (.Transparent entries)) :
    t.Pending (children q entries ++ stack) (a.update n none) where
  walk x hx := by
    rcases List.mem_append.1 hx with hx | hx
    · obtain ⟨⟨c, k⟩, hck, rfl⟩ := List.mem_map.1 (List.mem_reverse.1 hx)
      simp [Arena.walk_append_of_walk hp.head_walk, Arena.walk_cons, Arena.child, hn,
        HashMap.get_eq_some_iff.2 hck]
    · exact hp.walk x (List.mem_cons_of_mem _ hx)
  apart := by
    rw [List.pairwise_append]
    refine ⟨?_, (List.pairwise_cons.1 hp.apart).2, fun x hx y hy => ?_⟩
    · rw [children, List.pairwise_reverse, List.pairwise_map]
      exact (List.pairwise_map.1 entries.nodup_keys).imp fun h => by simpa [eq_comm] using h
    · obtain ⟨⟨c, k⟩, -, rfl⟩ := List.mem_map.1 (List.mem_reverse.1 hx)
      refine ⟨fun h => (hp.head_apart hy).1 ((List.prefix_append q [c]).trans h), fun h => ?_⟩
      rcases prefix_cases h with h | ⟨r', hr, -⟩
      · exact (hp.head_apart hy).2 h
      · exact (hp.head_apart hy).1 (hr ▸ List.prefix_append _ _)
  agree r n' hr hw := by
    obtain ⟨x, hx, hxr⟩ := hr
    rcases List.mem_append.1 hx with hx | hx
    · obtain ⟨⟨c, k⟩, -, rfl⟩ := List.mem_map.1 (List.mem_reverse.1 hx)
      rw [Arena.slot_update (hp.length_eq ▸ ht.lt_length hp.head_walk), if_neg]
      · exact hp.agree r n' ⟨(q, n), List.mem_cons_self _ _, (List.prefix_append q [c]).trans hxr⟩ hw
      · rintro rfl
        have := (ht.unique _ _ _ hw hp.head_walk ▸ hxr).length_le
        simp at this
    · exact hp.agree_update ht ⟨x, hx, hxr⟩ hw (hp.not_prefix_of_mem hx hxr)
  length_eq := by simp [hp.length_eq]

omit ht in
theorem Pending.not_below_head {e : SubtreeEntry} : ¬ t.Below stack (q, e) :=
  fun ⟨⟨_, hy, hyq⟩, _⟩ => (hp.head_apart hy).2 hyq

omit ht in
theorem Pending.below_opaque {e : SubtreeEntry} (hn : t.arena.slot n = some (.Opaque e)) (x : Path × SubtreeEntry) :
    t.Below ((q, n) :: stack) x ↔ x = (q, e) ∨ t.Below stack x := by
  constructor
  · rintro ⟨⟨y, hy, hyx⟩, hv⟩
    rcases List.mem_cons.1 hy with rfl | hy
    · exact .inl (below_opaque_eq hp.head_walk hn hyx hv)
    · exact .inr ⟨⟨y, hy, hyx⟩, hv⟩
  · rintro (rfl | ⟨⟨y, hy, hyx⟩, hv⟩)
    · exact ⟨⟨(q, n), List.mem_cons_self _ _, List.prefix_refl q⟩, by simp [view, hp.head_walk, hn, Node.kind]⟩
    · exact ⟨⟨y, List.mem_cons_of_mem _ hy, hyx⟩, hv⟩

omit ht in
theorem Pending.below_transparent {entries : HashMap OsString NodeId} (hn : t.arena.slot n = some (.Transparent entries))
    (x : Path × SubtreeEntry) : t.Below ((q, n) :: stack) x ↔ t.Below (children q entries ++ stack) x := by
  constructor
  · rintro ⟨⟨y, hy, hyx⟩, hv⟩
    rcases List.mem_cons.1 hy with rfl | hy
    · obtain ⟨z, hz, hzx⟩ := below_child hp.head_walk hn hyx hv
      exact ⟨⟨(q ++ [z.1], z.2), List.mem_append_left _ (List.mem_reverse.2 (List.mem_map.2 ⟨z, hz, rfl⟩)), hzx⟩, hv⟩
    · exact ⟨⟨y, List.mem_append_right _ hy, hyx⟩, hv⟩
  · rintro ⟨⟨y, hy, hyx⟩, hv⟩
    rcases List.mem_append.1 hy with hy | hy
    · obtain ⟨⟨c, k⟩, -, rfl⟩ := List.mem_map.1 (List.mem_reverse.1 hy)
      exact ⟨⟨(q, n), List.mem_cons_self _ _, (List.prefix_append q [c]).trans hyx⟩, hv⟩
    · exact ⟨⟨y, List.mem_cons_of_mem _ hy, hyx⟩, hv⟩

end Pop

/-- **The loop of `into_iter`**: from a pending stack, with fuel beyond the live slots, `collect`
yields each leaf under the stack exactly once, and nothing else. -/
theorem collect_pending (ht : t.WellFormed) : ∀ (fuel : Nat) (stack : List (Path × NodeId)) (a : Arena),
    t.Pending stack a → a.somes < fuel →
      ∃ l, IntoIter.collect fuel ⟨stack, a⟩ = .ok l ∧ l.Nodup ∧ ∀ x, x ∈ l ↔ t.Below stack x
  | 0, _, _, _, h => absurd h (Nat.not_lt_zero _)
  | fuel + 1, [], a, _, _ => ⟨[], rfl, List.nodup_nil, fun x => by simp [Below]⟩
  | fuel + 1, (q, n) :: stack, a, hp, hf => by
    have hlt : n.val < a.entries.length := hp.length_eq ▸ ht.lt_length hp.head_walk
    obtain ⟨node, hn⟩ := ht.exists_slot hp.head_walk
    have ha : a.slot n = some node := hp.slot_head.trans hn
    have hsomes := Arena.somes_update_none (show (a.slot n).isSome by simp [ha])
    cases node with
    | Opaque e =>
      obtain ⟨l, hl, hnd, hc⟩ := collect_pending ht fuel stack _ (hp.tail ht) (by omega)
      refine ⟨(q, e) :: l, by simp [IntoIter.collect, Arena.take_of_lt hlt, ha, hl],
        List.nodup_cons.2 ⟨fun h => hp.not_below_head ((hc _).1 h), hnd⟩, fun x => ?_⟩
      rw [List.mem_cons, hc, hp.below_opaque hn x]
    | Transparent entries =>
      obtain ⟨l, hl, hnd, hc⟩ := collect_pending ht fuel _ _ (hp.push ht hn) (by omega)
      exact ⟨l, by simpa [IntoIter.collect, Arena.take_of_lt hlt, ha] using hl, hnd,
        fun x => (hc x).trans (hp.below_transparent hn x).symm⟩

/-- **`into_iter` on a well-formed tree yields every leaf exactly once, and nothing else.** -/
theorem items_nodup_mem (ht : t.WellFormed) :
    ∃ l, t.items = .ok l ∧ l.Nodup ∧ ∀ x, x ∈ l ↔ t.view x.1 = some (.Opaque x.2) := by
  have hp : t.Pending [([], t.root)] t.arena :=
    ⟨by simp, List.pairwise_singleton _ _, fun _ _ _ _ => rfl, rfl⟩
  obtain ⟨l, hl, hnd, hc⟩ := collect_pending ht _ _ _ hp (Nat.lt_succ_of_le t.arena.somes_le)
  exact ⟨l, hl, hnd, fun x => by simp [hc, Below]⟩

/-- **`into_iter` on a well-formed tree terminates and yields every leaf once.**  With any fuel
beyond the arena's length the loop of `next` ends on one list of items: the pairs of a path to an
`Opaque` node and its entry, each once and each path once, and nothing else. -/
theorem intoIter_spec (ht : t.WellFormed) :
    ∃ l, (∀ fuel, t.arena.entries.length < fuel → t.intoIter.collect fuel = .ok l) ∧ l.Nodup ∧
      (l.map Prod.fst).Nodup ∧
      ∀ p e, (p, e) ∈ l ↔ ∃ n, t.arena.walk t.root p = some n ∧ t.arena.slot n = some (.Opaque e) := by
  obtain ⟨l, hl, hnd, hc⟩ := items_nodup_mem ht
  have hmem : ∀ p e, (p, e) ∈ l ↔ ∃ n, t.arena.walk t.root p = some n ∧ t.arena.slot n = some (.Opaque e) :=
    fun p e => (hc (p, e)).trans view_opaque_iff
  refine ⟨l, fun fuel hf => ?_, hnd, hnd.map_on fun x hx y hy hxy => ?_, hmem⟩
  · obtain ⟨k, rfl⟩ := Nat.exists_eq_add_of_lt hf
    rw [Nat.add_right_comm]
    exact IntoIter.collect_add hl k
  · obtain ⟨n, hn, hx'⟩ := (hmem x.1 x.2).1 hx
    obtain ⟨n', hn', hy'⟩ := (hmem y.1 y.2).1 hy
    rw [hxy, hn'] at hn
    cases hn
    exact Prod.ext hxy (Node.Opaque.inj (Option.some.inj (hx'.symm.trans hy')))

/-- The sample tree: `into_iter` yields the stub `d`, then `a/c` and `a/b`, each once. -/
theorem intoIter_spec_sample :
    ∃ t, Tree.fromIter sampleLeaves = .ok t ∧ t.WellFormed ∧ t.arena.entries.length = 5 ∧
      t.items = .ok [([[100]], .Subtree ⟨List.replicate 32 1, rfl⟩), ([[97], [99]], .File .zero 1),
        ([[97], [98]], .File .zero 0)] ∧
      ∃ l, (∀ fuel, t.arena.entries.length < fuel → t.intoIter.collect fuel = .ok l) ∧ l.Nodup ∧
        (l.map Prod.fst).Nodup ∧
        ∀ p e, (p, e) ∈ l ↔ ∃ n, t.arena.walk t.root p = some n ∧ t.arena.slot n = some (.Opaque e) := by
  have h₀ : Tree.fromIter sampleLeaves = .ok _ := fromIter_sampleLeaves.trans rfl
  exact ⟨_, h₀, fromIter_wellFormed h₀, rfl, rfl, intoIter_spec (fromIter_wellFormed h₀)⟩

end Tree

end Attaca
