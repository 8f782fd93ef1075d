import CacheEviction.ClockOrder
import CacheEviction.MmCarRuns

/-!
# The clock of CAR

`findVictimInT1` and `findVictimInT2` go from the hand through the order of the clock,
clear the reference bits they find set and stop at the first one that is clear. The bound
of one and a half rounds is reached only in a list of one item, whose tail is the item
that was just cleared.
-/
namespace MmCar

open HookedList

variable {P : Type} [DecidableEq P] {s : State P} {l : Side → List P} {side : Side}

/-- The bits of these items are cleared, and the hand is at `b`. -/
def passedTo (s : State P) (side : Side) (passed : List P) (b : P) : State P :=
  { s with
    item := fun x => if x ∈ passed then { s.item x with refBit := false } else s.item x
    hand := Function.update s.hand side (some b) }

theorem advance_passed {x : P} (s : State P) (side : Side) (passed : List P) (b c : P) :
    passedTo (passedTo s side [x] b) side passed c = passedTo s side (x :: passed) c := by
  simp only [passedTo, Function.update_idem, List.mem_cons]
  congr 2
  funext y
  by_cases own : y = x <;> by_cases later : y ∈ passed <;> simp [own, later]

theorem swept_passedTo (s : State P) (side : Side) (passed : List P) (b : P) :
    Swept s (passedTo s side passed b) := by
  refine ⟨rfl, rfl, fun x => ?_, fun x => ?_, rfl, rfl, rfl⟩ <;>
    by_cases member : x ∈ passed <;> simp [passedTo, member]

omit [DecidableEq P] in
theorem Listed.aim_hand {b : P} (listed : Listed s l) (inside : b ∈ l side) (hand : s.hand side = some b) :
    aim s side = some b := by
  rw [aim, hand]
  exact if_pos ((listed.flags side b).mpr inside)

theorem scan_passes {before after passed rest : List P} {a : P} (listed : Listed s l)
    (cut : l side = before ++ a :: after) (hand : s.hand side = some a)
    (order : a :: after ++ before = passed ++ rest) (referenced : ∀ x ∈ passed, (s.item x).refBit = true)
    (n : Nat) : ∃ b ∈ l side, (rest ++ passed).head? = some b ∧
      scan side (n + passed.length) s = scan side n (passedTo s side passed b) := by
  induction passed generalizing s before a after rest with
  | nil =>
    refine ⟨a, by simp [cut], by rw [List.append_nil, ← List.nil_append rest, ← order]; rfl, ?_⟩
    rw [passedTo, ← hand, Function.update_eq_self]
    simp
  | cons x passed ih =>
    rw [List.cons_append, List.cons_append] at order
    obtain ⟨rfl, onward⟩ := List.cons.inj order
    have member : a ∈ l side := by simp [cut]
    have spells := listed.spells side
    have nodup := spells.chain.nodup
    obtain ⟨b, before', after', next, cut', turned⟩ := ClockOrder.turn cut
    have step : advance (s.write a fun i => { i with refBit := false }) side a = passedTo s side [a] b := by
      have link : (s.hooks a).prev = after.head? := by
        rw [cut] at spells
        exact spells.prev
      simp only [advance, State.write, passedTo, link, spells.tail, next]
      congr 2
      funext y
      by_cases own : y = a
      · subst own
        simp
      · simp [own]
    have apart : a ∉ passed ++ rest := by
      rw [← onward, List.mem_append, or_comm, ← List.mem_append]
      rw [cut] at nodup
      exact (List.nodup_cons.mp (List.nodup_middle.mp nodup)).1
    have still : ∀ x ∈ passed, ((passedTo s side [a] b).item x).refBit = true := by
      intro x later
      have other : x ≠ a := fun same => apart (List.mem_append_left _ (same ▸ later))
      simp only [passedTo, List.mem_singleton, if_neg other]
      exact referenced x (List.mem_cons_of_mem a later)
    have around : b :: after' ++ before' = passed ++ (rest ++ [a]) := by
      rw [turned, onward, List.append_assoc]
    obtain ⟨c, inside, first, run⟩ := ih ((swept_passedTo s side [a] b).listed listed) cut'
      (Function.update_self ..) around still
    refine ⟨c, inside, by simpa using first, ?_⟩
    rw [List.length_cons, ← Nat.add_assoc, scan, listed.aim_hand member hand]
    simp only [if_pos (referenced a List.mem_cons_self)]
    rw [step, run, advance_passed]

/-- The clock starts where the hand points if that is in the list, at the tail otherwise,
and clears the bits of the items it passes. It returns an item of the list whose bit is
clear, before it has gone around once or at the item where it began. -/
theorem findVictim_clear (listed : Listed s l) (held : l side ≠ []) :
    ∃ before ahead passed rest victim t, l side = before ++ ahead ∧ ahead.head? = aim s side ∧
      ahead ++ before = passed ++ rest ∧ findVictim s side = (some victim, t) ∧ victim ∈ l side ∧
      (rest ++ passed).head? = some victim ∧ (t.item victim).refBit = false ∧
      ∀ x, t.item x = if x ∈ passed then { s.item x with refBit := false } else s.item x := by
  obtain ⟨a, member, aimed⟩ := listed.aim_mem held
  obtain ⟨before, after, cut⟩ := List.append_of_mem member
  have spells := listed.spells side
  let referenced := fun x => (s.item x).refBit
  let order := a :: after ++ before
  let aimedState : State P := { s with hand := Function.update s.hand side (some a) }
  have length : (l side).length = (order.takeWhile referenced).length + (order.dropWhile referenced).length := by
    rw [← List.length_append, List.takeWhile_append_dropWhile, cut]
    simp [order]
    omega
  obtain ⟨rounds, enough⟩ : ∃ rounds, (l side).length + (l side).length / 2 =
      rounds + (order.takeWhile referenced).length := ⟨_, (Nat.sub_add_cancel (by omega)).symm⟩
  obtain ⟨b, inside, first, run⟩ := scan_passes (s := aimedState) ((swept_hand s _).listed listed) cut
    (Function.update_self ..) List.takeWhile_append_dropWhile.symm
    (List.all_eq_true.mp List.all_takeWhile) rounds
  have clear : ((passedTo aimedState side (order.takeWhile referenced) b).item b).refBit = false := by
    by_cases passed : b ∈ order.takeWhile referenced
    · simp [passedTo, passed]
    · have stopped := List.head?_dropWhile_not referenced order
      rcases List.head?_append.symm.trans first |> Option.or_eq_some_iff.mp with here | ⟨-, back⟩
      · rw [here] at stopped
        simpa [passedTo, passed] using stopped
      · exact absurd (List.mem_of_mem_head? back) passed
  have occupied : (s.list side).size ≠ 0 := by
    rw [spells.size]
    exact fun empty => held (List.length_eq_zero_iff.mp empty)
  have scanned : findVictim s side = scan side rounds (passedTo aimedState side (order.takeWhile referenced) b) := by
    rw [findVictim, if_neg occupied, aimed, ← run, ← enough, ← spells.size]
  cases rounds with
  | zero =>
    -- one item, whose bit was set
    have single : (l side).length = 1 := by
      have := List.length_pos_iff.mpr held
      omega
    obtain ⟨x, shape⟩ := List.length_eq_one_iff.mp single
    have tail : (s.list side).tail = some b := by
      rw [shape, List.mem_singleton] at inside
      rw [spells.tail, shape, inside]
      rfl
    refine ⟨before, a :: after, _, _, b, _, cut, aimed.symm, List.takeWhile_append_dropWhile.symm, ?_, inside, first,
      clear, fun x => rfl⟩
    rw [scanned, scan]
    exact congrArg (·, _) tail
  | succ rounds =>
    have here := ((swept_passedTo aimedState side (order.takeWhile referenced) b).listed
      ((swept_hand s _).listed listed)).aim_hand inside (Function.update_self ..)
    refine ⟨before, a :: after, _, _, b, advance (passedTo aimedState side (order.takeWhile referenced) b) side b,
      cut, aimed.symm, List.takeWhile_append_dropWhile.symm, ?_, inside, first, clear, fun x => rfl⟩
    rw [scanned, scan, here]
    simp only [clear, Bool.false_eq_true, if_false]

/-- One item that was read. -/
theorem findVictim_clear_one : ∃ s : State Nat, Listed s (Function.update (fun _ => []) .t1 [0]) ∧
    (s.item 0).refBit = true ∧ ∃ victim t, findVictim s .t1 = (some victim, t) ∧ (t.item victim).refBit = false := by
  have listed : Listed (setRefBit (addTo (fresh Nat) .t1 0) 0) (Function.update (fun _ => []) .t1 [0]) :=
    ((fresh_kept Nat).toListed.addTo (by simp) .t1).write 0 fun _ => rfl
  obtain ⟨_, _, _, _, victim, t, _, _, _, found, _, _, clear, _⟩ := findVictim_clear listed
    (by decide : Function.update (fun _ => []) Side.t1 [0] Side.t1 ≠ [])
  exact ⟨_, listed, by decide, victim, t, found, clear⟩

end MmCar
