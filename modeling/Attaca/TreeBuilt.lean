import Attaca.Marshal
/-!
# TreeBuilt — the trees a program can build are well formed

`Built` is every tree the public API can produce: the three `From` impls, `FromIterator`, and then
any number of `entry` calls each followed by `insert`, `replace` or `unblock` with a well-formed
subtree, and `into_inner`.  Every such tree is well formed (`Built.wellFormed`), so on it
`into_iter` and `marshal` never unwrap an empty slot, `insert` on a `Vacant` entry never finds its
node not vacant, and `object_hash` on a `Blocked` entry never finds its node not blocked
(`built_spec`).
-/
namespace Attaca

namespace Tree

variable {t : Tree}

/-- `into_inner` of whichever variant an entry result is. -/
def entryIntoInner : Except Blocked Entry → Tree
  | .ok (.Occupied occupied) => occupied.intoInner
  | .ok (.Vacant vacant) => vacant.intoInner
  | .error blocked => blocked.intoInner

/-- An entry carries the tree it was taken from. -/
theorem entryFrom_intoInner {current : NodeId} {preChain : Option OsString} {path : List OsString}
    {r : Except Blocked Entry} (h : t.entryFrom current preChain path = .ok r) : entryIntoInner r = t := by
  unfold entryFrom at h
  cases hw : t.arena.walkFrom current (preChain.toList ++ path) with
  | error x => simp [hw] at h
  | ok v =>
    obtain ⟨pre, cur, rest⟩ := v
    simp only [hw, except_ok_bind, except_pure, Except.ok.injEq] at h
    subst h
    cases pre <;> rfl

/-- Every tree the public API builds: the `From` impls, `FromIterator`, and then `entry` followed by
`insert`, `replace`, or `unblock` with a well-formed subtree, and `into_inner`. -/
inductive Built : Tree → Prop
  | ofHashMap (subtree : HashMap OsString SubtreeEntry) : Built (.ofHashMap subtree)
  | ofBTreeMap (subtree : BTreeMap OsString SubtreeEntry) : Built (.ofBTreeMap subtree)
  | ofSubtreeEntry (rootHash : SubtreeEntry) : Built (.ofSubtreeEntry rootHash)
  | fromIter {iter t} : Tree.fromIter iter = .ok t → Built t
  | insert {t p v e o} : Built t → t.entry p = .ok (.ok (.Vacant v)) → v.insert e = .ok o → Built o.intoInner
  | replace {t p o e o'} : Built t → t.entry p = .ok (.ok (.Occupied o)) → o.replace e = .ok o' → Built o'.intoInner
  | unblock {t p b s r} : Built t → t.entry p = .ok (.error b) → s.WellFormed → b.unblock s = .ok r →
      Built (entryIntoInner r)

section Entry

variable (ht : t.WellFormed) {p : Path}
include ht

/-- `entry` on a well-formed tree never panics. -/
theorem entry_ok (p : Path) : ∃ r, t.entry p = .ok r := by
  rcases entry_cases ht p with ⟨_, _, he⟩ | ⟨_, _, _, _, _, _, _, _, _, he⟩ | ⟨_, _, _, _, _, _, _, _, he⟩ <;>
    exact ⟨_, he⟩

/-- `insert` on a `Vacant` entry of a well-formed tree never panics. -/
theorem insert_ok {v : VacantEntry} (hv : t.entry p = .ok (.ok (.Vacant v))) (e : SubtreeEntry) :
    ∃ o, v.insert e = .ok o := by
  rcases entry_cases ht p with ⟨_, _, he⟩ | ⟨q, c, rest, m, entries, rfl, hq, hs, hc, he⟩ | ⟨_, _, _, _, _, _, _, _, he⟩ <;>
    rw [he] at hv <;> cases hv
  obtain ⟨a', hins, -⟩ := insert_spec ht hq hs rest e
  exact ⟨_, hins⟩

theorem objectHash_ok {b : Blocked} (hb : t.entry p = .ok (.error b)) : ∃ h, b.objectHash = .ok h := by
  rcases entry_cases ht p with ⟨_, _, he⟩ | ⟨_, _, _, _, _, _, _, _, _, he⟩ | ⟨q, c, rest, m, e, rfl, hq, hs, he⟩ <;>
    rw [he] at hb <;> cases hb
  exact ⟨_, objectHash_blocked ht hq hs⟩

end Entry

theorem Built.wellFormed (hb : t.Built) : t.WellFormed := by
  induction hb with
  | ofHashMap subtree => exact wellFormed_ofLeaves _ _
  | ofBTreeMap subtree => exact wellFormed_ofLeaves _ _
  | ofSubtreeEntry rootHash => exact wellFormed_ofSubtreeEntry rootHash
  | fromIter h => exact fromIter_wellFormed h
  | @insert t p v e o _ hv ho ht =>
    rcases entry_cases ht p with ⟨_, _, he⟩ | ⟨q, c, rest, m, entries, rfl, hq, hs, hc, he⟩ | ⟨_, _, _, _, _, _, _, _, he⟩ <;>
      rw [he] at hv <;> cases hv
    obtain ⟨a', hins, hi⟩ := insert_spec ht hq hs rest e
    rw [hins] at ho
    cases ho
    exact hi.wellFormed ht hq hs hc
  | @replace t p o e o' _ ho ho' ht =>
    rcases entry_cases ht p with ⟨m, hm, he⟩ | ⟨_, _, _, _, _, _, _, _, _, he⟩ | ⟨_, _, _, _, _, _, _, _, he⟩ <;>
      rw [he] at ho <;> cases ho
    rw [replace_eq ht hm] at ho'
    cases ho'
    exact wellFormed_replace ht hm e
  | @unblock t p b s r _ hb hs hr ht =>
    rcases entry_cases ht p with ⟨_, _, he⟩ | ⟨_, _, _, _, _, _, _, _, _, he⟩ | ⟨q, c, rest, m, e, rfl, hq, _, he⟩ <;>
      rw [he] at hb <;> cases hb
    rw [Grafted.unblock_eq ht hs hq] at hr
    rw [entryFrom_intoInner hr]
    exact Grafted.wellFormed ht hs hq

/-- **Every tree the API builds is well formed, and nothing on it panics**: `into_iter` and every
run of `marshal` never unwrap an empty slot, `entry` returns, `insert` on its `Vacant` entries
never finds the node not vacant, and `object_hash` on its `Blocked` entries never finds the node
not blocked. -/
theorem built_spec (hb : t.Built) :
    t.WellFormed ∧ (∃ l, t.items = .ok l) ∧
    (∀ M c, Relation.ReflTransGen (Marshalling.Poll M) t.marshalStart c → ¬ c.future.Panics) ∧
    (∀ p, ∃ r, t.entry p = .ok r) ∧
    (∀ p v, t.entry p = .ok (.ok (.Vacant v)) → ∀ e, ∃ o, v.insert e = .ok o) ∧
    (∀ p b, t.entry p = .ok (.error b) → ∃ h, b.objectHash = .ok h) := by
  have ht := hb.wellFormed
  obtain ⟨l, hl, -⟩ := items_nodup_mem ht
  exact ⟨ht, ⟨l, hl⟩, fun M c hc => (marshalSound_of_run ht hc).1.not_panics, entry_ok ht,
    fun _ _ hv => insert_ok ht hv, fun _ _ hb => objectHash_ok ht hb⟩

/-- A chain of edits from the sample tree: unblock the stub `d` with a directory holding the file
`e`, insert the file `a/e`, then replace `a/b`. -/
theorem built_spec_chain :
    ∃ t₀ b r v o o₁ o₂, Tree.fromIter sampleLeaves = .ok t₀ ∧ t₀.entry [[100], [101]] = .ok (.error b) ∧
      b.unblock (Tree.ofHashMap (.singleton [101] (.File .zero 2))) = .ok r ∧
      (entryIntoInner r).entry [[97], [101]] = .ok (.ok (.Vacant v)) ∧ v.insert (.File .zero 3) = .ok o ∧
      o.intoInner.entry [[97], [98]] = .ok (.ok (.Occupied o₁)) ∧ o₁.replace (.File .zero 4) = .ok o₂ ∧
      o₂.intoInner.Built ∧ o₂.intoInner.WellFormed ∧ (∃ l, o₂.intoInner.items = .ok l) ∧
      (∀ M c, Relation.ReflTransGen (Marshalling.Poll M) o₂.intoInner.marshalStart c → ¬ c.future.Panics) ∧
      (∀ p, ∃ r, o₂.intoInner.entry p = .ok r) ∧
      (∀ p v, o₂.intoInner.entry p = .ok (.ok (.Vacant v)) → ∀ e, ∃ o, v.insert e = .ok o) ∧
      (∀ p b, o₂.intoInner.entry p = .ok (.error b) → ∃ h, b.objectHash = .ok h) := by
  have h₀ : Tree.fromIter sampleLeaves = .ok _ := fromIter_sampleLeaves.trans rfl
  have hb := @Built.replace _ [[97], [98]] _ (.File .zero 4) _
    (@Built.insert _ [[97], [101]] _ (.File .zero 3) _
      (@Built.unblock _ [[100], [101]] _ (Tree.ofHashMap (.singleton [101] (.File .zero 2))) _ (.fromIter h₀) rfl
        (wellFormed_ofLeaves _ _) rfl) rfl rfl) rfl rfl
  exact ⟨_, _, _, _, _, _, _, h₀, rfl, rfl, rfl, rfl, rfl, rfl, hb, built_spec hb⟩

end Tree

end Attaca
