import Mathlib.Data.List.Perm.Basic

/-!
# Ordered sets

A set that is kept in the order of a comparison, as the associative containers of
C++ keep it: two elements neither of which comes first are the same element to the
set. `emplace` does not take an element that the set has already, and answers with
the place of the one that it has. A place in the set is named by the element there.
-/
namespace OrderedSets

universe u
variable {α : Type u} (lt : α → α → Bool)

def Ordered (l : List α) : Prop := l.Pairwise fun a b => lt a b = true

/-- The place of the element and the set with it. -/
def emplace (a : α) : List α → α × List α
  | [] => (a, [a])
  | b :: l =>
    if lt a b then (a, a :: b :: l)
    else if lt b a then ((emplace a l).1, b :: (emplace a l).2)
    else (b, b :: l)

def Fresh (a : α) (l : List α) : Prop := ∀ b ∈ l, lt a b = true ∨ lt b a = true

variable {lt} {a : α} {l : List α}

theorem Fresh.tail {b : α} (fresh : Fresh lt a (b :: l)) : Fresh lt a l :=
  fun c member => fresh c (List.mem_cons_of_mem b member)

theorem emplace_fresh (fresh : Fresh lt a l) :
    (emplace lt a l).1 = a ∧ (emplace lt a l).2.Perm (a :: l) := by
  induction l with
  | nil => exact ⟨rfl, .refl _⟩
  | cons b l ih =>
    obtain ⟨place, perm⟩ := ih fresh.tail
    rw [emplace]
    by_cases before : lt a b = true
    · rw [if_pos before]
      exact ⟨rfl, .refl _⟩
    · have after := (fresh b List.mem_cons_self).resolve_left before
      rw [if_neg before, if_pos after]
      exact ⟨place, (perm.cons b).trans (.swap a b l)⟩

theorem mem_emplace_fresh (fresh : Fresh lt a l) {c : α} :
    c ∈ (emplace lt a l).2 ↔ c = a ∨ c ∈ l := by
  rw [(emplace_fresh fresh).2.mem_iff, List.mem_cons]

theorem ordered_emplace (trans : ∀ a b c, lt a b = true → lt b c = true → lt a c = true)
    (fresh : Fresh lt a l) (ordered : Ordered lt l) : Ordered lt (emplace lt a l).2 := by
  induction l with
  | nil => exact List.pairwise_singleton _ _
  | cons b l ih =>
    obtain ⟨first, rest⟩ := List.pairwise_cons.mp ordered
    rw [emplace]
    by_cases before : lt a b = true
    · rw [if_pos before]
      refine List.pairwise_cons.mpr ⟨?_, ordered⟩
      intro c member
      rcases List.mem_cons.mp member with rfl | later
      · exact before
      · exact trans a b c before (first c later)
    · have after := (fresh b List.mem_cons_self).resolve_left before
      rw [if_neg before, if_pos after]
      refine List.pairwise_cons.mpr ⟨?_, ih fresh.tail rest⟩
      intro c member
      rcases (mem_emplace_fresh fresh.tail).mp member with rfl | old
      · exact after
      · exact first c old

theorem Ordered.erase [DecidableEq α] (ordered : Ordered lt l) (a : α) : Ordered lt (l.erase a) :=
  ordered.sublist List.erase_sublist

theorem Ordered.nodup (irrefl : ∀ a, lt a a = false) (ordered : Ordered lt l) : l.Nodup := by
  refine List.Pairwise.imp ?_ ordered
  rintro a b before rfl
  rw [irrefl a] at before
  cases before

theorem Ordered.first {b : α} (ordered : Ordered lt (a :: l)) (member : b ∈ l) : lt a b = true :=
  (List.pairwise_cons.mp ordered).1 b member

end OrderedSets
