import Attaca.Tree
/-!
# PathBuf — `PathBuf::join` and `Path::iter` on bytes

A `PathBuf` on Unix is its bytes.  `IntoIter::next` builds each item's path from `PathBuf::new()`
with `path.join(component)`, and `from_iter` reads each key back with `key.iter()`.  `join` is
`push` on a clone: a component that starts with `/` replaces the path; otherwise a `/` separates the
two unless the path is empty or already ends in one.  `iter` yields the root `/` of an absolute
path, a leading `.`, and then every segment between separators that is neither empty nor `.`.

The tree's `Path` is a list of components, and `IntoIter.collect`'s `path ++ [component]` stands
for `path.join(component)`.  That is exact when every component is `Normal`, as `Path::components`
says: nonempty, without `/`, and neither `.` nor `..`.  Joined one by one and read back with `iter`,
such components come back as they were (`iter_ofComponents`); a key such as `a/b` does not: it comes
back as two components.
-/
namespace Attaca

/-- A `PathBuf` on Unix: its bytes. -/
abbrev PathBuf := List (Fin 256)

namespace PathBuf

def sep : Fin 256 := 47

def curDir : OsString := [46]

def parentDir : OsString := [46, 46]

/-- `PathBuf::join`, that is `push` on a clone. -/
def join (path : PathBuf) (component : OsString) : PathBuf :=
  if component.head? = some sep then component
  else if path = [] ∨ path.getLast? = some sep then path ++ component
  else path ++ sep :: component

/-- `Path::iter`: the bytes of each of `components()`. -/
def iter (path : PathBuf) : List OsString :=
  let segments := path.splitOn sep
  let kept := segments.filter fun s => s ≠ [] ∧ s ≠ curDir
  if path.head? = some sep then [sep] :: kept
  else if segments.head? = some curDir then curDir :: kept
  else kept

/-- The path `into_iter` gives a node: its components joined from `PathBuf::new()`. -/
def ofComponents (components : List OsString) : PathBuf := components.foldl join []

/-- A `Component::Normal`. -/
def Normal (c : OsString) : Prop := c ≠ [] ∧ sep ∉ c ∧ c ≠ curDir ∧ c ≠ parentDir

instance : DecidablePred Normal := fun _ => inferInstanceAs (Decidable (_ ∧ _ ∧ _ ∧ _))

variable {c : OsString}

theorem Normal.head (hc : Normal c) : c.head? ≠ some sep := fun h => hc.2.1 (List.mem_of_mem_head? h)

theorem Normal.getLast (hc : Normal c) : c.getLast? ≠ some sep := fun h => hc.2.1 (List.mem_of_getLast?_eq_some h)

theorem join_nil (hc : Normal c) : join [] c = c := by
  simp [join, hc.head]

theorem join_of_normal {path : PathBuf} (hp : path ≠ []) (hl : path.getLast? ≠ some sep) (hc : Normal c) :
    join path c = path ++ sep :: c := by
  simp [join, hc.head, hp, hl]

theorem foldl_join : ∀ (q : List OsString) (acc : PathBuf), acc ≠ [] → acc.getLast? ≠ some sep →
    (∀ d ∈ q, Normal d) → q.foldl join acc = acc ++ q.flatMap (sep :: ·)
  | [], _, _, _, _ => by simp
  | d :: q, acc, h₁, h₂, hq => by
    have hd := hq d (List.mem_cons_self _ _)
    have hl : (acc ++ sep :: d).getLast? ≠ some sep := by
      have h := hd.getLast
      rw [← List.singleton_append, ← List.append_assoc, List.getLast?_append]
      rw [List.getLast?_eq_getLast d hd.1] at h ⊢
      exact h
    rw [List.foldl_cons, join_of_normal h₁ h₂ hd,
      foldl_join q _ (by simp) hl fun e he => hq e (List.mem_cons_of_mem _ he)]
    simp

theorem ofComponents_cons {q : List OsString} (hc : Normal c) (hq : ∀ d ∈ q, Normal d) :
    ofComponents (c :: q) = c ++ q.flatMap (sep :: ·) := by
  rw [ofComponents, List.foldl_cons, join_nil hc, foldl_join q c hc.1 hc.getLast hq]

theorem splitOn_flatMap : ∀ (c : OsString) (q : List OsString), sep ∉ c → (∀ d ∈ q, sep ∉ d) →
    (c ++ q.flatMap (sep :: ·)).splitOn sep = c :: q
  | c, [], hc, _ => by
    rw [List.flatMap_nil, List.append_nil]
    exact List.splitOnP_eq_single _ _ fun x hx h => hc (by rwa [← eq_of_beq h])
  | c, d :: q, hc, hq => by
    rw [List.flatMap_cons, List.cons_append, List.splitOn,
      List.splitOnP_first (· == sep) c (fun x hx h => hc (by rwa [← eq_of_beq h])) sep (beq_self_eq_true sep), ← List.splitOn,
      splitOn_flatMap d q (hq d (List.mem_cons_self _ _)) fun e he => hq e (List.mem_cons_of_mem _ he)]

/-- **Normal components come back**: joined one by one from `PathBuf::new()` and read back with
`iter`, they are what they were. -/
theorem iter_ofComponents : ∀ q : List OsString, (∀ d ∈ q, Normal d) → iter (ofComponents q) = q
  | [], _ => rfl
  | c :: q, hq => by
    have hc := hq c (List.mem_cons_self _ _)
    have hq' : ∀ d ∈ q, Normal d := fun d hd => hq d (List.mem_cons_of_mem _ hd)
    have hsplit := splitOn_flatMap c q hc.2.1 fun d hd => (hq' d hd).2.1
    have hhead : (c ++ q.flatMap (sep :: ·)).head? ≠ some sep := by
      obtain ⟨x, c', rfl⟩ := List.exists_cons_of_ne_nil hc.1
      simpa using hc.head
    rw [ofComponents_cons hc hq', iter]
    simp only [hsplit, if_neg hhead, List.head?_cons, Option.some.injEq, if_neg hc.2.2.1]
    exact List.filter_eq_self.2 fun d hd => by simpa using ⟨(hq d hd).1, (hq d hd).2.2.1⟩

example : iter (ofComponents [[97, 47, 98]]) = [[97], [98]] := by decide

end PathBuf

end Attaca
