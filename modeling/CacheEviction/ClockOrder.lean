import Mathlib.Data.List.Basic

/-!
# The order of a clock hand

A hand stands at a member of a list and goes on from there, around the end of the list:
it comes to the list cut before that member, with the two parts exchanged. A hand that
takes one off a positive count at each member it passes stops at the first of the members
that have the least count.
-/
namespace ClockOrder

variable {α κ : Type} {l before after c rest : List α} {a : α}

theorem turn (cut : l = before ++ a :: after) : ∃ b before' after', after.head?.or l.head? = some b ∧
    l = before' ++ b :: after' ∧ b :: after' ++ before' = after ++ before ++ [a] := by
  cases after with
  | nil =>
    obtain ⟨b, tail, shape⟩ : ∃ b tail, l = b :: tail := List.exists_cons_of_ne_nil (by simp [cut])
    refine ⟨b, [], tail, ?_, shape, ?_⟩
    · rw [shape]
      rfl
    · rw [List.append_nil, ← shape, cut]
      rfl
  | cons b after' => exact ⟨b, before ++ [a], after', rfl, by simp [cut], by simp⟩

theorem find_around (p : α → Bool) (before ahead : List α) :
    (ahead.find? p).or ((before ++ ahead).find? p) = (ahead ++ before).find? p := by
  rw [List.find?_append, List.find?_append]
  cases ahead.find? p with
  | none => simp
  | some o => rfl

/-- The key of the first member with the least count. -/
def FirstLeast (count : α → Nat) (key : α → κ) (c : List α) (k : κ) : Prop :=
  ∃ least o, c.find? (fun x => decide (count x ≤ least)) = some o ∧ key o = k ∧ ∀ x ∈ c, least ≤ count x

variable {count : α → Nat} {key : α → κ} {k : κ}

theorem FirstLeast.turn {a' : α} (first : FirstLeast count key (a :: rest) k) (same : key a' = key a)
    (less : count a' + 1 = count a) : FirstLeast count key (rest ++ [a']) k := by
  obtain ⟨least, o, found, named, bound⟩ := first
  have head := bound a List.mem_cons_self
  have others : ∀ x ∈ rest, least ≤ count x := fun x member => bound x (List.mem_cons_of_mem a member)
  by_cases here : count a ≤ least
  · -- the hand leaves the first member with the least count, which now has less than all others
    rw [List.find?_cons_of_pos (by simpa using here)] at found
    cases found
    refine ⟨count a', a', ?_, same.trans named, fun x member => ?_⟩
    · rw [List.find?_append, List.find?_eq_none.mpr, Option.none_or, List.find?_cons_of_pos (by simp)]
      intro x member
      have := others x member
      simp only [decide_eq_true_eq]
      omega
    · rcases List.mem_append.mp member with old | new
      · have := others x old
        omega
      · exact Nat.le_of_eq (congrArg count (List.mem_singleton.mp new)).symm
  · rw [List.find?_cons_of_neg (by simpa using here)] at found
    refine ⟨least, o, ?_, named, fun x member => ?_⟩
    · rw [List.find?_append, found]
      rfl
    · rcases List.mem_append.mp member with old | new
      · exact others x old
      · rw [List.mem_singleton.mp new]
        omega

theorem FirstLeast.head (first : FirstLeast count key (a :: rest) k) (zero : count a = 0) : key a = k := by
  obtain ⟨least, o, found, named, -⟩ := first
  rw [List.find?_cons_of_pos (by simp [zero])] at found
  cases found
  exact named

end ClockOrder
