import CacheEviction.FuelLoops
import Mathlib.Data.List.Nodup
import Mathlib.Logic.Function.Basic

/-!
# Chains of forward links

A singly linked list: each node knows the next one, and the last knows none. A
walk is the list of the nodes met from a start.
-/
namespace ForwardChains

open FuelLoops

variable {P : Type} {ε : Type} {next next' : P → Option P} {start : Option P} {l m : List P} {x y : P}

/-- `l` is what is met from `start` on. -/
def Walk (next : P → Option P) : Option P → List P → Prop
  | start, [] => start = none
  | start, x :: l => start = some x ∧ Walk next (next x) l

theorem Walk.congr (walk : Walk next start l) (same : ∀ x ∈ l, next' x = next x) :
    Walk next' start l := by
  induction l generalizing start with
  | nil => exact walk
  | cons x l ih =>
    refine ⟨walk.1, ?_⟩
    rw [same x List.mem_cons_self]
    exact ih walk.2 fun y member => same y (List.mem_cons_of_mem x member)

theorem Walk.unique (first : Walk next start l) (second : Walk next start m) : l = m := by
  induction l generalizing start m with
  | nil =>
    cases m with
    | nil => rfl
    | cons y m => cases (show start = none from first).symm.trans second.1
  | cons x l ih =>
    cases m with
    | nil => cases (show start = none from second).symm.trans first.1
    | cons y m =>
      have same : x = y := Option.some.inj (first.1.symm.trans second.1)
      subst same
      rw [ih first.2 second.2]

theorem Walk.start_eq (walk : Walk next start l) : start = l.head? := by
  cases l with
  | nil => exact walk
  | cons x l => exact walk.1

theorem Walk.onward (walk : Walk next start (l ++ x :: m)) : Walk next (next x) m := by
  induction l generalizing start with
  | nil => exact walk.2
  | cons y l ih => exact ih walk.2

theorem Walk.nodup (walk : Walk next start l) : l.Nodup := by
  induction l generalizing start with
  | nil => exact List.nodup_nil
  | cons x l ih =>
    refine List.nodup_cons.mpr ⟨fun again => ?_, ih walk.2⟩
    obtain ⟨p, q, rfl⟩ := List.append_of_mem again
    -- the rest after `x` would be the same list both times
    have same := walk.2.unique walk.2.onward
    have := congrArg List.length same
    simp only [List.length_append, List.length_cons] at this
    omega

theorem Walk.next_eq (walk : Walk next start (l ++ x :: m)) : next x = m.head? :=
  walk.onward.start_eq

theorem Walk.mem_without (walk : Walk next start (l ++ x :: m)) :
    y ∈ l ++ m ↔ y ∈ l ++ x :: m ∧ y ≠ x := by
  have once := (List.nodup_cons.mp (List.nodup_middle.mp walk.nodup)).1
  rw [List.perm_middle.mem_iff, List.mem_cons]
  constructor
  · intro member
    refine ⟨Or.inr member, ?_⟩
    rintro rfl
    exact once member
  · rintro ⟨same | member, other⟩
    · exact absurd same other
    · exact member

section Change

variable [DecidableEq P]

theorem Walk.update (walk : Walk next start l) (off : x ∉ l) (link : Option P) :
    Walk (Function.update next x link) start l := by
  refine walk.congr fun y member => Function.update_of_ne ?_ _ _
  rintro rfl
  exact off member

theorem Walk.push (walk : Walk next start l) (fresh : x ∉ l) :
    Walk (Function.update next x start) (some x) (x :: l) := by
  refine ⟨rfl, ?_⟩
  rw [Function.update_self]
  exact walk.update fresh start

theorem Walk.unlink (walk : Walk next start (l ++ x :: y :: m)) :
    Walk (Function.update next x (next y)) start (l ++ x :: m) := by
  have nodup := walk.nodup
  induction l generalizing start with
  | nil =>
    refine ⟨walk.1, ?_⟩
    rw [Function.update_self]
    refine walk.2.2.update ?_ _
    exact fun member => (List.nodup_cons.mp nodup).1 (List.mem_cons_of_mem y member)
  | cons z l ih =>
    obtain ⟨apart, nodup'⟩ := List.nodup_cons.mp nodup
    have other : z ≠ x := by
      rintro rfl
      exact apart (List.mem_append_right l List.mem_cons_self)
    refine ⟨walk.1, ?_⟩
    rw [Function.update_of_ne other]
    exact ih walk.2 nodup'

end Change

/-! ## Searching -/

def seekRound (next : P → Option P) (stop : P → Bool) :
    Option P → Except (Stop ε) (Round (Option P) (Option P))
  | none => .ok (.done none)
  | some x => if stop x then .ok (.done (some x)) else .ok (.again (next x))

/-- Go on from `start` to the first node that `stop` accepts. -/
def seek (next : P → Option P) (stop : P → Bool) (fuel : Nat) (start : Option P) :
    Except (Stop ε) (Option P) :=
  loop (seekRound next stop) fuel start

theorem Walk.seek (walk : Walk next start l) (stop : P → Bool) :
    Yields (fun fuel => seek (ε := ε) next stop fuel start) (.ok (l.find? stop)) := by
  induction l generalizing start with
  | nil =>
    rw [show start = none from walk]
    exact .done rfl
  | cons x l ih =>
    obtain ⟨rfl, rest⟩ := walk
    by_cases found : stop x = true
    · rw [List.find?_cons_of_pos found]
      exact .done (if_pos found)
    · rw [List.find?_cons_of_neg found]
      exact .again (if_neg found) (ih rest)

def seekAfterRound (next : P → Option P) (stop : P → Bool) (prev : P) :
    Except (Stop ε) (Round P (P × Option P)) :=
  match next prev with
  | none => .ok (.done (prev, none))
  | some cur => if stop cur then .ok (.done (prev, some cur)) else .ok (.again cur)

/-- The same from the node after `prev` on, with the node before the one found. -/
def seekAfter (next : P → Option P) (stop : P → Bool) (fuel : Nat) (prev : P) :
    Except (Stop ε) (P × Option P) :=
  loop (seekAfterRound next stop) fuel prev

theorem Walk.seekAfter (walk : Walk next (next x) l) (stop : P → Bool) :
    Ends (fun fuel => seekAfter (ε := ε) next stop fuel x) fun r => r.2 = l.find? stop ∧
      ∀ y ∈ r.2, ∃ p q, x :: l = p ++ r.1 :: y :: q := by
  induction l generalizing x with
  | nil =>
    refine ⟨(x, none), .done ?_, rfl, nofun⟩
    rw [seekAfterRound, show next x = none from walk]
  | cons y l ih =>
    obtain ⟨link, rest⟩ := walk
    by_cases found : stop y = true
    · refine ⟨(x, some y), .done ?_, ?_, ?_⟩
      · rw [seekAfterRound, link]
        exact if_pos found
      · rw [List.find?_cons_of_pos found]
      · rintro z same
        cases same
        exact ⟨[], l, rfl⟩
    · obtain ⟨⟨prev, cur⟩, run, same, before⟩ := ih rest
      refine ⟨(prev, cur), .again ?_ run, ?_, ?_⟩
      · rw [seekAfterRound, link]
        exact if_neg found
      · rw [List.find?_cons_of_neg found]
        exact same
      · intro z member
        obtain ⟨p, q, cut⟩ := before z member
        exact ⟨x :: p, q, by rw [cut]; rfl⟩

theorem Walk.find_before [DecidableEq P] (walk : Walk next start l) (x : P) :
    (∀ y, l.find? (fun y => next y = some x) = some y → ∃ p q, l = p ++ y :: x :: q) ∧
      (l.find? (fun y => next y = some x) = none → x ∈ l → start = some x) := by
  refine ⟨fun y found => ?_, fun missing member => ?_⟩
  · obtain ⟨p, s, rfl⟩ := List.append_of_mem (List.mem_of_find?_eq_some found)
    have link : next y = some x := by simpa using List.find?_some found
    rw [walk.next_eq] at link
    cases s with
    | nil => cases link
    | cons z q =>
      cases link
      exact ⟨p, q, rfl⟩
  · obtain ⟨p, q, rfl⟩ := List.append_of_mem member
    rcases List.eq_nil_or_concat p with rfl | ⟨r, y, rfl⟩
    · exact walk.1
    · rw [List.concat_eq_append, List.append_assoc] at walk missing
      have link : next y = some x := walk.next_eq
      have passed := List.find?_eq_none.mp missing y (by simp)
      simp [link] at passed

end ForwardChains
