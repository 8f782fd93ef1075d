import Mathlib.Algebra.BigOperators.Group.List.Basic
import Mathlib.Algebra.Ring.Int.Defs

/-!
# Finite traces of a step relation

A trace keeps the edges it has taken, oldest first, so that a statement about a
run can speak of every step of it and can add up a weight along it.
-/
namespace StepTraces

universe u
variable {α : Type u} {step : α → α → Prop} {origin : α}
variable {a b : α} {es : List (α × α)}

inductive Trace (step : α → α → Prop) (origin : α) : List (α × α) → α → Prop where
  | nil : Trace step origin [] origin
  | snoc {es : List (α × α)} {a b : α} : Trace step origin es a → step a b →
      Trace step origin (es ++ [(a, b)]) b

def Reachable (step : α → α → Prop) (origin a : α) : Prop := ∃ es, Trace step origin es a

theorem Reachable.refl : Reachable step origin origin := ⟨[], .nil⟩

theorem Reachable.next (h : Reachable step origin a) (hs : step a b) : Reachable step origin b := by
  obtain ⟨es, trace⟩ := h
  exact ⟨_, .snoc trace hs⟩

theorem Trace.append {fs : List (α × α)} (h : Trace step origin es a) (k : Trace step a fs b) :
    Trace step origin (es ++ fs) b := by
  induction k with
  | nil => simpa using h
  | snoc _ hs ih => simpa [← List.append_assoc] using Trace.snoc ih hs

theorem Reachable.trans (h : Reachable step origin a) (k : Reachable step a b) :
    Reachable step origin b := by
  obtain ⟨es, first⟩ := h
  obtain ⟨fs, second⟩ := k
  exact ⟨es ++ fs, first.append second⟩

theorem Trace.invariant (I : α → Prop) (initially : I origin)
    (preserved : ∀ a b, I a → step a b → I b) (h : Trace step origin es a) : I a := by
  induction h with
  | nil => exact initially
  | snoc _ hs ih => exact preserved _ _ ih hs

theorem Reachable.invariant (I : α → Prop) (initially : I origin)
    (preserved : ∀ a b, I a → step a b → I b) (h : Reachable step origin a) : I a := by
  obtain ⟨es, trace⟩ := h
  exact trace.invariant I initially preserved

theorem Trace.edge (h : Trace step origin es a) :
    ∀ e ∈ es, Reachable step origin e.1 ∧ step e.1 e.2 := by
  induction h with
  | nil => simp
  | snoc ht hs ih =>
    intro e he
    rcases List.mem_append.mp he with he | he
    · exact ih e he
    · rw [List.mem_singleton.mp he]
      exact ⟨⟨_, ht⟩, hs⟩

theorem Trace.split {pre post : List (α × α)} {e : α × α} (h : Trace step origin es a)
    (cut : es = pre ++ e :: post) :
    Trace step origin pre e.1 ∧ step e.1 e.2 ∧ Trace step e.2 post a := by
  induction h generalizing post with
  | nil => simp at cut
  | @snoc es a b before hs ih =>
    rcases List.eq_nil_or_concat post with rfl | ⟨init, last, rfl⟩
    · obtain ⟨rfl, rfl⟩ := List.append_singleton_inj.mp cut
      exact ⟨before, hs, .nil⟩
    · have shape : es ++ [(a, b)] = (pre ++ e :: init) ++ [last] := by
        rw [cut, List.concat_eq_append]
        simp
      obtain ⟨inner, rfl⟩ := List.append_singleton_inj.mp shape
      obtain ⟨first, middle, rest⟩ := ih inner
      rw [List.concat_eq_append]
      exact ⟨first, middle, .snoc rest hs⟩

theorem Trace.cut {fs : List (α × α)} (h : Trace step origin (es ++ fs) a) :
    ∃ m, Trace step origin es m ∧ Trace step m fs a := by
  cases fs with
  | nil => exact ⟨a, by simpa using h, .nil⟩
  | cons e fs =>
    obtain ⟨before, hs, after⟩ := h.split rfl
    have first : Trace step e.1 [e] e.2 := Trace.nil.snoc hs
    exact ⟨e.1, before, first.append after⟩

theorem Trace.sum (m : α → Int) (weight : α × α → Int) (h : Trace step origin es a)
    (change : ∀ a b, Reachable step origin a → step a b → m b = m a + weight (a, b)) :
    m a = m origin + (es.map weight).sum := by
  induction h with
  | nil => simp
  | snoc ht hs ih =>
    rw [change _ _ ⟨_, ht⟩ hs, ih, List.map_append, List.sum_append]
    simp [add_assoc]

end StepTraces
