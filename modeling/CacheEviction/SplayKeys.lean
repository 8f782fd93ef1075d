import CacheEviction.SplayTree
import Mathlib.Algebra.Order.Ring.Int

/-!
# The keys of the splay tree

`key_cmp` subtracts two keys of type `long long`, which is undefined if the difference does not
fit into that type. The functions here are those of `SplayTree` with that comparison, and are
the same as long as the difference of the argument to every key fits.
-/
namespace SplayKeys

open SplayTree (STree Header nodeValue linkLeft linkRight hangLeft hangRight joinRight Sized Sorted)

/-- The difference of two keys fits into `long long`. -/
def Fits (i j : Int) : Prop := -2 ^ 63 ≤ i - j ∧ i - j < 2 ^ 63

instance (i j : Int) : Decidable (Fits i j) := inferInstanceAs (Decidable (_ ∧ _))

def keyCmp (i j : Int) : Option Int := if Fits i j then some (i - j) else none

def splayLoop (i : Int) : STree → Header → Option (STree × Header)
  | .nil, h => some (.nil, h)
  | .node left key value right, h => do
    let c ← keyCmp i key
    if c < 0 then
      match left with
      | .nil => some (.node .nil key value right, h)
      | .node ll lkey lvalue lr =>
        let c ← keyCmp i lkey
        if c < 0 then
          match ll with
          | .nil => some (.node .nil lkey lvalue
              (.node lr key (nodeValue lr + nodeValue right + 1) right), h)
          | .node a x w b => splayLoop i (.node a x w b) (linkRight h lkey lvalue
              (.node lr key (nodeValue lr + nodeValue right + 1) right))
        else splayLoop i (.node ll lkey lvalue lr) (linkRight h key value right)
    else if 0 < c then
      match right with
      | .nil => some (.node left key value .nil, h)
      | .node rl rkey rvalue rr =>
        let c ← keyCmp i rkey
        if 0 < c then
          match rr with
          | .nil => some (.node (.node left key (nodeValue left + nodeValue rl + 1) rl)
              rkey rvalue .nil, h)
          | .node a x w b => splayLoop i (.node a x w b) (linkLeft h
              (.node left key (nodeValue left + nodeValue rl + 1) rl) rkey rvalue)
        else splayLoop i (.node rl rkey rvalue rr) (linkLeft h left key value)
    else some (.node left key value right, h)

def splay (i : Int) (t : STree) : Option STree := do
  let (t, h) ← splayLoop i t ⟨[], [], 0, 0⟩
  match t with
  | .nil => some .nil
  | .node left key _ right =>
    some (.node (hangLeft left (h.lSize + nodeValue left) h.ls) key
      (h.lSize + nodeValue left + (h.rSize + nodeValue right) + 1)
      (hangRight right (h.rSize + nodeValue right) h.rs))

def insert (i : Int) (t : STree) : Option STree := do
  match ← splay i t with
  | .nil => some (.node .nil i 1 .nil)
  | .node left key value right =>
    let c ← keyCmp i key
    if c < 0 then
      let t := STree.node .nil key (1 + nodeValue right) right
      some (.node left i (1 + nodeValue left + nodeValue t) t)
    else if 0 < c then
      let t := STree.node left key (1 + nodeValue left) .nil
      some (.node t i (1 + nodeValue t + nodeValue right) right)
    else some (.node left key value right)

def splayDelete (i : Int) (t : STree) : Option STree := do
  match ← splay i t with
  | .nil => some .nil
  | .node left key value right =>
    let c ← keyCmp i key
    if c = 0 then
      match left with
      | .nil => match right with
        | .nil => some .nil
        | .node rl rkey _ rr => some (.node rl rkey (nodeValue t - 1) rr)
      | .node a x w b =>
        let x ← splay i (.node a x w b)
        some (joinRight x right (nodeValue t - 1))
    else some (.node left key value right)

variable {i key value : Int} {t left right : STree} {K : List Int}

/-! ## Differences that fit -/

theorem keyCmp_eq (fits : Fits i key) : keyCmp i key = some (i - key) := if_pos fits

theorem splayLoop_eq (h : Header) (fits : ∀ k ∈ t.keys, Fits i k) :
    splayLoop i t h = some (SplayTree.splayLoop i t h) := by
  have root : ∀ {left key value right}, (∀ k ∈ (STree.node left key value right).keys, Fits i k) →
      keyCmp i key = some (i - key) ∧ (∀ k ∈ left.keys, Fits i k) ∧ ∀ k ∈ right.keys, Fits i k := by
    intro left key value right fits
    refine ⟨keyCmp_eq (fits key (by simp [STree.keys])), fun k member => fits k ?_, fun k member => fits k ?_⟩
    · exact List.mem_append_left _ member
    · exact List.mem_append_right _ (List.mem_cons_of_mem _ member)
  fun_induction SplayTree.splayLoop i t h with
  | case1 => rfl
  | case2 key value right h less =>
    rw [splayLoop.eq_def]
    simp [(root fits).1, less]
  | case3 key value right h less lkey lvalue lr lless =>
    rw [splayLoop.eq_def]
    simp [(root fits).1, (root (root fits).2.1).1, less, lless]
  | case4 key value right h less lkey lvalue lr lless a x w b ih =>
    rw [splayLoop.eq_def]
    simp [(root fits).1, (root (root fits).2.1).1, less, lless,
      ih (root (root fits).2.1).2.1]
  | case5 key value right h less ll lkey lvalue lr lless ih =>
    rw [splayLoop.eq_def]
    simp [(root fits).1, (root (root fits).2.1).1, less, lless, ih (root fits).2.1]
  | case6 left key value h less greater =>
    rw [splayLoop.eq_def]
    simp [(root fits).1, less]
  | case7 left key value h less greater rl rkey rvalue rgreater =>
    rw [splayLoop.eq_def]
    simp [(root fits).1, (root (root fits).2.2).1, less, greater, rgreater]
  | case8 left key value h less greater rl rkey rvalue rgreater a x w b ih =>
    rw [splayLoop.eq_def]
    simp [(root fits).1, (root (root fits).2.2).1, less, greater, rgreater, ih (root (root fits).2.2).2.2]
  | case9 left key value h less greater rl rkey rvalue rr rgreater ih =>
    rw [splayLoop.eq_def]
    simp [(root fits).1, (root (root fits).2.2).1, less, greater, rgreater, ih (root fits).2.2]
  | case10 left key value right h less greater =>
    rw [splayLoop.eq_def]
    simp [(root fits).1, less, greater]

theorem splay_eq (fits : ∀ k ∈ t.keys, Fits i k) : splay i t = some (SplayTree.splay i t) := by
  rw [splay, splayLoop_eq _ fits, SplayTree.splay]
  rcases SplayTree.splayLoop i t ⟨[], [], 0, 0⟩ with ⟨_ | _, h⟩ <;> rfl

/-- The three functions return search trees with the right sizes: `splay` the same keys, with
the argument at the root if it is one of them, `insert` and `splay_delete` the keys with the
argument added and removed. -/
structure Correct (i : Int) (t : STree) : Prop where
  splays : ∃ u, splay i t = some u ∧ u.keys = t.keys ∧ Sized u ∧
    (i ∈ t.keys → ∃ left value right, u = .node left i value right)
  inserts : ∃ u, insert i t = some u ∧ Sorted u.keys ∧ Sized u ∧ ∀ k, k ∈ u.keys ↔ k = i ∨ k ∈ t.keys
  deletes : ∃ u, splayDelete i t = some u ∧ Sorted u.keys ∧ Sized u ∧ ∀ k, k ∈ u.keys ↔ k ≠ i ∧ k ∈ t.keys

theorem split_keys (sorted : Sorted t.keys) (sized : Sized t) (i : Int) : ∃ lower upper,
    (∀ x ∈ lower, x < i) ∧ (∀ x ∈ upper, i < x) ∧ (t.keys = lower ++ i :: upper ∨ t.keys = lower ++ upper) := by
  by_cases root : t = .nil
  · subst root
    exact ⟨[], [], nofun, nofun, Or.inr rfl⟩
  · obtain ⟨keys, -, left, key, value, right, shape, lefts, rights⟩ :=
      SplayTree.splay_splayed (i := i) sorted sized root
    rw [shape] at keys
    rcases Int.lt_trichotomy key i with less | rfl | greater
    · refine ⟨left.keys ++ [key], right.keys, SplayTree.mem_concat_below less lefts, rights, Or.inr ?_⟩
      rw [← keys]
      simp [STree.keys]
    · exact ⟨left.keys, right.keys, lefts, rights, Or.inl keys.symm⟩
    · refine ⟨left.keys, key :: right.keys, lefts, fun x member => ?_, Or.inr keys.symm⟩
      rcases List.mem_cons.mp member with rfl | later
      · exact greater
      · exact rights x later

theorem root_fits (sorted : Sorted t.keys) (sized : Sized t) (fits : ∀ k ∈ t.keys, Fits i k)
    (shape : SplayTree.splay i t = .node left key value right) :
    keyCmp i key = some (i - key) ∧ ∀ k ∈ left.keys, Fits i k := by
  have keys : (STree.node left key value right).keys = t.keys := by
    by_cases root : t = .nil
    · subst root
      cases shape
    · rw [← shape]
      exact (SplayTree.splay_splayed sorted sized root).keys
  constructor
  · exact keyCmp_eq (fits key (by rw [← keys]; simp [STree.keys]))
  · intro k member
    exact fits k (by rw [← keys]; exact List.mem_append_left _ member)

theorem insert_eq (sorted : Sorted t.keys) (sized : Sized t) (fits : ∀ k ∈ t.keys, Fits i k) :
    insert i t = some (SplayTree.insert i t) := by
  rw [insert, splay_eq fits, SplayTree.insert]
  cases shape : SplayTree.splay i t with
  | nil => rfl
  | node left key value right =>
    have root := (root_fits sorted sized fits shape).1
    simp only [Option.bind_eq_bind, Option.bind_some, root, sub_neg, sub_pos]
    split_ifs <;> rfl

theorem splayDelete_eq (sorted : Sorted t.keys) (sized : Sized t) (fits : ∀ k ∈ t.keys, Fits i k) :
    splayDelete i t = some (SplayTree.splayDelete i t) := by
  rw [splayDelete, splay_eq fits, SplayTree.splayDelete]
  cases shape : SplayTree.splay i t with
  | nil => rfl
  | node left key value right =>
    obtain ⟨root, below⟩ := root_fits sorted sized fits shape
    simp only [Option.bind_eq_bind, Option.bind_some, root, Int.sub_eq_zero]
    split
    · cases left with
      | nil => cases right <;> rfl
      | node a x w b =>
        simp only [splay_eq below]
        rfl
    · rfl

theorem correct_of_fits (sorted : Sorted t.keys) (sized : Sized t) (fits : ∀ k ∈ t.keys, Fits i k) :
    Correct i t := by
  obtain ⟨lower, upper, below, above, cut⟩ := split_keys sorted sized i
  have absent : t.keys = lower ++ upper → i ∉ t.keys := by
    intro cut member
    rw [cut] at member
    rcases List.mem_append.mp member with low | high
    · exact absurd (below i low) (Int.lt_irrefl i)
    · exact absurd (above i high) (Int.lt_irrefl i)
  have splayed : ∃ u, SplayTree.splay i t = u ∧ u.keys = t.keys ∧ Sized u ∧
      (i ∈ t.keys → ∃ left value right, u = .node left i value right) ∧
      (i ∉ t.keys → SplayTree.splayDelete i t = u) := by
    by_cases root : t = .nil
    · subst root
      exact ⟨.nil, rfl, rfl, trivial, nofun, fun _ => rfl⟩
    · have splays := SplayTree.splay_splayed (i := i) sorted sized root
      refine ⟨_, rfl, splays.keys, splays.sized, fun member => ?_, fun out => ?_⟩
      · rcases cut with here | cut
        · obtain ⟨left, value, right, shape, -⟩ := splays.at_key sorted here
          exact ⟨left, value, right, shape⟩
        · exact absurd member (absent cut)
      · obtain ⟨left, key, value, right, shape, -⟩ := splays.root
        have other : i ≠ key := by
          rintro rfl
          apply out
          rw [← splays.keys, shape]
          simp [STree.keys]
        rw [SplayTree.splayDelete, shape]
        exact if_neg other
  obtain ⟨u, shape, keys, sizedU, atRoot, unchanged⟩ := splayed
  refine ⟨⟨u, by rw [splay_eq fits, shape], keys, sizedU, atRoot⟩, ⟨_, insert_eq sorted sized fits, ?_⟩,
    ⟨_, splayDelete_eq sorted sized fits, ?_⟩⟩
  · rcases cut with here | cut
    · -- the key is at the root after splaying, and nothing is added
      have member : i ∈ t.keys := by
        rw [here]
        simp
      obtain ⟨left, value, right, rfl⟩ := atRoot member
      have same : SplayTree.insert i t = .node left i value right := by
        rw [SplayTree.insert, shape]
        simp
      rw [same, keys]
      exact ⟨sorted, sizedU, fun k => ⟨Or.inr, fun or => or.elim (fun equal => equal ▸ member) id⟩⟩
    · obtain ⟨inserted, sizedI⟩ := SplayTree.insert_keys sorted sized cut below above
      rw [cut, Sorted, List.pairwise_append] at sorted
      obtain ⟨low, high, across⟩ := sorted
      refine ⟨?_, sizedI, fun k => ?_⟩
      · rw [inserted, Sorted, List.pairwise_append, List.pairwise_cons]
        refine ⟨low, ⟨above, high⟩, fun x left y right => ?_⟩
        rcases List.mem_cons.mp right with rfl | later
        · exact below x left
        · exact across x left y later
      · rw [inserted, cut]
        simp only [List.mem_append, List.mem_cons, or_left_comm]
  · rcases cut with here | cut
    · obtain ⟨deleted, sizedD⟩ := SplayTree.splayDelete_keys sorted sized here
      rw [here, Sorted, List.pairwise_append, List.pairwise_cons] at sorted
      obtain ⟨low, ⟨_, high⟩, across⟩ := sorted
      refine ⟨?_, sizedD, fun k => ?_⟩
      · rw [deleted, Sorted, List.pairwise_append]
        exact ⟨low, high, fun x left y right => across x left y (List.mem_cons_of_mem i right)⟩
      · rw [deleted, here]
        simp only [List.mem_append, List.mem_cons]
        constructor
        · rintro (left | right)
          · exact ⟨Int.ne_of_lt (below k left), Or.inl left⟩
          · exact ⟨(Int.ne_of_lt (above k right)).symm, Or.inr (Or.inr right)⟩
        · rintro ⟨other, left | rfl | right⟩
          · exact Or.inl left
          · exact absurd rfl other
          · exact Or.inr right
    · have out := absent cut
      rw [unchanged out, keys]
      exact ⟨sorted, sizedU, fun k => ⟨fun member => ⟨fun same => out (same ▸ member), member⟩, And.right⟩⟩

/-! ## Differences that do not fit -/

/-- A search tree without left children. -/
def chain : List Int → STree
  | [] => .nil
  | k :: rest => .node .nil k (rest.length + 1) (chain rest)

theorem chain_keys (l : List Int) : (chain l).keys = l := by
  induction l with
  | nil => rfl
  | cons k rest ih => rw [chain, STree.keys, ih]; rfl

theorem chain_sized (l : List Int) : Sized (chain l) := by
  induction l with
  | nil => trivial
  | cons k rest ih =>
    refine ⟨?_, trivial, ih⟩
    rw [SplayTree.nodeValue_eq ih, chain_keys]
    simp [nodeValue]

/-- The three functions are right for every search tree with these keys if and only if the
difference of the argument to each of them fits. -/
theorem splay_correct_iff (i : Int) {K : List Int} (sorted : Sorted K) :
    (∀ t, t.keys = K → Sized t → Correct i t) ↔ ∀ k ∈ K, Fits i k := by
  constructor
  · intro correct k member
    obtain ⟨lower, upper, rfl⟩ := List.append_of_mem member
    by_contra wide
    -- the tree with this key at its root is compared with it first
    obtain ⟨u, run, -⟩ := (correct (.node (chain lower) k (nodeValue (chain lower) + nodeValue (chain upper) + 1)
      (chain upper)) (by rw [STree.keys, chain_keys, chain_keys]) ⟨rfl, chain_sized lower, chain_sized upper⟩).splays
    rw [splay, splayLoop.eq_def] at run
    simp [keyCmp, wide] at run
  · rintro fits t rfl sized
    exact correct_of_fits sorted sized fits

/-- The keys 3 and 5, and the argument 4. -/
theorem splay_correct_iff_small : Sorted [3, 5] ∧ ∀ t, t.keys = [3, 5] → Sized t → Correct 4 t := by
  have sorted : Sorted [3, 5] := by simp [Sorted]
  exact ⟨sorted, (splay_correct_iff 4 sorted).mpr (by decide)⟩

/-- The largest `long long` cannot be inserted into a tree that has the key -1. -/
theorem splay_overflows : Sized (.node .nil (-1) 1 .nil) ∧ splay (2 ^ 63 - 1) (.node .nil (-1) 1 .nil) = none ∧
    insert (2 ^ 63 - 1) (.node .nil (-1) 1 .nil) = none := by
  refine ⟨⟨rfl, trivial, trivial⟩, by decide, by decide⟩

end SplayKeys
