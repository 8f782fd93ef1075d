import Mathlib.Data.List.DropRight
import Mathlib.Data.Finset.Card

/-!
# The recency stack

The items requested so far, by their last request, the newest last. An LRU cache
of `c` items holds the last `c` of them, whatever `c` is, so one stack tells the
hits of every cache size at once.
-/
namespace LruStack

variable {α : Type*} [DecidableEq α] {c : Nat} {x y : α} {S : List α}

def touch (S : List α) (x : α) : List α := S.erase x ++ [x]

def touches (S : List α) (σ : List α) : List α := σ.foldl touch S

/-- How many requests are to one of the `c` newest items. -/
def hits (c : Nat) : List α → List α → Nat
  | _, [] => 0
  | S, x :: σ => (if x ∈ S.rtake c then 1 else 0) + hits c (touch S x) σ

/-- One request to an LRU cache that has room for `c` items. -/
def lruStep (c : Nat) (R : List α) (x : α) : List α :=
  if x ∈ R then touch R x else if R.length < c then R ++ [x] else R.tail ++ [x]

theorem mem_touch : y ∈ touch S x ↔ y = x ∨ y ∈ S := by
  rw [touch, List.mem_append, List.mem_singleton]
  by_cases same : y = x
  · simp [same]
  · simp [same, List.mem_erase_of_ne same]

theorem touch_perm (member : x ∈ S) : (touch S x).Perm S := by
  rw [touch]
  exact (List.perm_append_singleton x _).trans (List.perm_cons_erase member).symm

theorem touch_nodup (nodup : S.Nodup) : (touch S x).Nodup := by
  rw [touch, List.nodup_append]
  refine ⟨nodup.erase x, List.nodup_singleton x, ?_⟩
  rintro a member b single rfl
  rw [List.mem_singleton.mp single] at member
  exact nodup.not_mem_erase member

theorem mem_lruStep (member : y ∈ lruStep c S x) : y = x ∨ y ∈ S := by
  rw [lruStep] at member
  split at member
  · exact mem_touch.mp member
  · split at member
    · simpa [or_comm] using member
    · rcases List.mem_append.mp member with old | new
      · exact Or.inr (List.mem_of_mem_tail old)
      · exact Or.inl (List.mem_singleton.mp new)

theorem lruStep_nodup (nodup : S.Nodup) : (lruStep c S x).Nodup := by
  rw [lruStep]
  split
  · exact touch_nodup nodup
  · rename_i new
    split
    · refine List.nodup_append.mpr ⟨nodup, List.nodup_singleton x, ?_⟩
      rintro a old b single rfl
      exact new (List.mem_singleton.mp single ▸ old)
    · refine List.nodup_append.mpr ⟨nodup.tail, List.nodup_singleton x, ?_⟩
      rintro a old b single rfl
      exact new (List.mem_singleton.mp single ▸ List.mem_of_mem_tail old)

theorem lruStep_length (room : 1 ≤ c) (fits : S.length ≤ c) : (lruStep c S x).length ≤ c := by
  rw [lruStep]
  split
  · rename_i here
    rw [(touch_perm here).length_eq]
    exact fits
  · split
    · simpa
    · simp
      omega

theorem touches_nodup (nodup : S.Nodup) (σ : List α) : (touches S σ).Nodup := by
  induction σ generalizing S with
  | nil => exact nodup
  | cons x σ ih => exact ih (touch_nodup nodup)

theorem mem_touches {σ : List α} : y ∈ touches S σ ↔ y ∈ S ∨ y ∈ σ := by
  induction σ generalizing S with
  | nil => simp [touches]
  | cons x σ ih =>
    rw [touches, List.foldl_cons]
    rw [show List.foldl touch (touch S x) σ = touches (touch S x) σ from rfl, ih, mem_touch,
      List.mem_cons]
    tauto

theorem length_touches (σ : List α) : (touches [] σ).length = σ.dedup.length := by
  rw [← List.toFinset_card_of_nodup (touches_nodup List.nodup_nil σ),
    ← List.toFinset_card_of_nodup σ.nodup_dedup]
  congr 1
  ext y
  simp [mem_touches]

omit [DecidableEq α] in
theorem newest_cut (c : Nat) (S : List α) :
    ∃ A, S = A ++ S.rtake c ∧ ((S.rtake c).length = c ∨ A = [] ∧ (S.rtake c).length < c) := by
  refine ⟨S.take (S.length - c), (List.take_append_drop _ S).symm, ?_⟩
  by_cases few : S.length < c
  · right
    rw [List.rtake, show S.length - c = 0 by omega]
    exact ⟨rfl, few⟩
  · left
    rw [List.rtake, List.length_drop]
    omega

omit [DecidableEq α] in
theorem newest_append {A B : List α} (h : B.length = c) : (A ++ B).rtake c = B := by
  rw [List.rtake, List.length_append, h, Nat.add_sub_cancel_right, List.drop_left]

omit [DecidableEq α] in
theorem newest_of_le (h : S.length ≤ c) : S.rtake c = S := by
  rw [List.rtake, show S.length - c = 0 by omega]
  rfl

theorem newest_touch (nodup : S.Nodup) (room : 1 ≤ c) (x : α) :
    (touch S x).rtake c = lruStep c (S.rtake c) x := by
  obtain ⟨A, cut, size⟩ := newest_cut c S
  generalize S.rtake c = B at *
  subst cut
  rw [lruStep]
  by_cases hit : x ∈ B
  · have elsewhere : x ∉ A := fun member => (List.nodup_append.mp nodup).2.2 x member x hit rfl
    have length : (B.erase x ++ [x]).length = B.length := (touch_perm hit).length_eq
    rw [if_pos hit, touch, List.erase_append_right _ elsewhere, List.append_assoc]
    rcases size with full | ⟨rfl, few⟩
    · exact newest_append (length.trans full)
    · exact newest_of_le (by rw [List.nil_append, length]; omega)
  · rw [if_neg hit]
    rcases size with full | ⟨rfl, few⟩
    · obtain ⟨b, B, rfl⟩ := List.exists_cons_of_length_pos (show 0 < B.length by omega)
      rw [if_neg (by omega), touch]
      by_cases older : x ∈ A
      · rw [List.erase_append_left _ older, List.append_assoc, List.cons_append,
          List.append_cons, List.tail_cons]
        exact newest_append (by simpa using full)
      · rw [List.erase_append_right _ older, List.erase_of_not_mem hit, List.append_assoc,
          List.cons_append, List.append_cons, List.tail_cons]
        exact newest_append (by simpa using full)
    · rw [if_pos few, touch, List.nil_append, List.erase_of_not_mem hit]
      exact newest_of_le (by rw [List.length_append, List.length_singleton]; omega)

omit [DecidableEq α] in
theorem mem_newest {A B : List α} (once : x ∉ B) :
    x ∈ (A ++ x :: B).rtake c ↔ B.length < c := by
  rw [List.rtake, List.length_append, List.length_cons]
  by_cases new : B.length < c
  · rw [List.drop_append_of_le_length (by omega)]
    simp [new]
  · obtain ⟨d, depth⟩ : ∃ d, A.length + (B.length + 1) - c = A.length + (d + 1) :=
      ⟨B.length - c, by omega⟩
    rw [depth, List.drop_append, List.drop_of_length_le (by omega), Nat.add_sub_cancel_left,
      List.drop_succ_cons, List.nil_append]
    exact ⟨fun member => absurd (List.mem_of_mem_drop member) once, fun h => absurd h new⟩

omit [DecidableEq α] in
theorem mem_newest_cons (other : y ≠ x) : y ∈ (x :: S).rtake c ↔ y ∈ S.rtake c := by
  by_cases deep : c ≤ S.length
  · rw [List.rtake, List.rtake, List.length_cons, Nat.succ_sub deep, List.drop_succ_cons]
  · rw [newest_of_le (by rw [List.length_cons]; omega), newest_of_le (by omega), List.mem_cons]
    simp [other]

theorem hits_cons (c : Nat) (bottom : x ∉ S) (σ : List α) : hits c (x :: S) σ = hits c S σ +
    if x ∈ σ ∧ (touches S (σ.takeWhile (· ≠ x))).length < c then 1 else 0 := by
  induction σ generalizing S with
  | nil => simp [hits]
  | cons y σ ih =>
    by_cases same : y = x
    · subst same
      have miss : y ∉ S.rtake c := fun member => bottom (List.mem_of_mem_drop member)
      have here := mem_newest (c := c) (A := []) bottom
      rw [List.nil_append] at here
      simp only [hits, here, miss, touch, List.erase_cons_head, List.erase_of_not_mem bottom,
        List.mem_cons_self, true_and, List.takeWhile_cons, ne_eq, not_true, decide_false]
      simp only [touches, Bool.false_eq_true, if_false, List.foldl_nil]
      omega
    · have later := ih (S := touch S y) (by rw [mem_touch]; simp [bottom, Ne.symm same])
      have shape : touch (x :: S) y = x :: touch S y := by
        rw [touch, List.erase_cons_tail (by simpa using Ne.symm same)]
        rfl
      have passed : (y :: σ).takeWhile (· ≠ x) = y :: σ.takeWhile (· ≠ x) :=
        List.takeWhile_cons_of_pos (by simpa using same)
      rw [hits, hits, shape, later, passed, ← Nat.add_assoc]
      simp only [mem_newest_cons same, List.mem_cons, Ne.symm same, false_or]
      rfl

theorem hits_first (c : Nat) (x : α) (σ : List α) : hits c [] (x :: σ) = hits c [] σ +
    if x ∈ σ ∧ (σ.takeWhile (· ≠ x)).dedup.length < c then 1 else 0 := by
  have miss : x ∉ ([] : List α).rtake c := by simp
  rw [hits, if_neg miss, Nat.zero_add, ← length_touches]
  exact hits_cons c (List.not_mem_nil) σ

end LruStack
