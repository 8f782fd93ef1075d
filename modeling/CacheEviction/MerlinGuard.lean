import CacheEviction.MerlinStructure

/-!
# The adaptive guard

`merlin_adjustguard` moves the guard along the histogram until its population
meets the number of objects in core. Downwards it stops at 1 by its own test.
Upwards it has no bound of its own: it stays inside the histogram exactly when some
level from the guard to `MAXFREQ` is already no larger than core.
-/
namespace MerlinPolicy

open FuelLoops FifoCache StepTraces Relation

variable {b : Budgets} {cbf : CountingFilter.Cbf} {s t : State} {r : Request} {fuel : Nat}

def GuardInRange (guard : Int) : Prop := 1 ≤ guard ∧ guard ≤ maxFreq

instance (guard : Int) : Decidable (GuardInRange guard) := inferInstanceAs (Decidable (_ ∧ _))

/-- Some level that the upward search can reach is no larger than core. -/
def Meets (s : State) : Prop :=
  ∃ f, s.guardFreq ≤ f ∧ f ≤ maxFreq ∧ s.hotdistribution f ≤ s.core.nObj

theorem readHot_ok (s : State) {i : Int} (low : 0 ≤ i) (high : i ≤ maxFreq) :
    readHot s i = .ok (s.hotdistribution i) := if_pos ⟨low, high⟩

theorem readHot_above {i : Int} (h : maxFreq < i) :
    readHot s i = .error (.fault .hotOutOfRange) := if_neg (by omega)

theorem raiseRound_eq (s : State) (threshold : Int) {guard : Int} (low : 0 ≤ guard) (high : guard ≤ maxFreq) :
    raiseRound s threshold guard =
      .ok (if s.hotdistribution guard > threshold then .again (guard + 1) else .done guard) := by
  rw [raiseRound, readHot_ok s low high]
  rfl

theorem lowerRound_eq (s : State) (threshold : Int) {guard : Int} (low : 1 < guard) (high : guard ≤ maxFreq + 1) :
    lowerRound s threshold guard =
      .ok (if s.hotdistribution (guard - 1) < threshold then .again (guard - 1)
        else .done guard) := by
  rw [lowerRound, if_pos low, readHot_ok s (by omega) (by omega)]
  rfl

theorem raise_outcome (threshold : Int) (n : Nat) :
    ∀ (guard : Int) (fuel : Nat), 1 ≤ guard → guard + n = maxFreq + 1 → n < fuel →
      ((∃ f, guard ≤ f ∧ f ≤ maxFreq ∧ s.hotdistribution f ≤ threshold) ∧
        ∃ g, loop (raiseRound s threshold) fuel guard = .ok g ∧ GuardInRange g) ∨
      ((¬ ∃ f, guard ≤ f ∧ f ≤ maxFreq ∧ s.hotdistribution f ≤ threshold) ∧
        loop (raiseRound s threshold) fuel guard = .error (.fault .hotOutOfRange)) := by
  induction n with
  | zero =>
    intro guard fuel _ last enough
    obtain ⟨fuel, rfl⟩ : ∃ k, fuel = k + 1 := ⟨fuel - 1, by omega⟩
    have outside : maxFreq < guard := by omega
    refine Or.inr ⟨?_, ?_⟩
    · rintro ⟨f, above, below, _⟩
      omega
    · apply loop_error
      rw [raiseRound, readHot_above outside]
      rfl
  | succ n ih =>
    intro guard fuel low last enough
    obtain ⟨fuel, rfl⟩ : ∃ k, fuel = k + 1 := ⟨fuel - 1, by omega⟩
    have high : guard ≤ maxFreq := by omega
    have round := raiseRound_eq s threshold (by omega : 0 ≤ guard) high
    by_cases crowded : s.hotdistribution guard > threshold
    · rw [if_pos crowded] at round
      rw [loop_again round]
      have shift : (∃ f, guard ≤ f ∧ f ≤ maxFreq ∧ s.hotdistribution f ≤ threshold) ↔
          ∃ f, guard + 1 ≤ f ∧ f ≤ maxFreq ∧ s.hotdistribution f ≤ threshold := by
        constructor
        · rintro ⟨f, above, below, small⟩
          have ne : f ≠ guard := by
            intro same
            subst same
            omega
          exact ⟨f, by omega, below, small⟩
        · rintro ⟨f, above, below, small⟩
          exact ⟨f, by omega, below, small⟩
      rw [shift]
      exact ih (guard + 1) fuel (by omega) (by omega) (by omega)
    · rw [if_neg crowded] at round
      exact Or.inl ⟨⟨guard, Int.le_refl _, high, by omega⟩, guard, loop_done round fuel, low, high⟩

theorem lower_outcome (threshold : Int) (n : Nat) :
    ∀ (guard : Int) (fuel : Nat), guard = n + 1 → guard ≤ maxFreq → n < fuel →
      ∃ g, loop (lowerRound s threshold) fuel guard = .ok g ∧ GuardInRange g := by
  induction n with
  | zero =>
    intro guard fuel first high enough
    obtain ⟨fuel, rfl⟩ : ∃ k, fuel = k + 1 := ⟨fuel - 1, by omega⟩
    have round : lowerRound s threshold guard = .ok (.done guard) := if_neg (by omega)
    exact ⟨guard, loop_done round fuel, by omega, high⟩
  | succ n ih =>
    intro guard fuel first high enough
    obtain ⟨fuel, rfl⟩ : ∃ k, fuel = k + 1 := ⟨fuel - 1, by omega⟩
    have round := lowerRound_eq s threshold (by omega : 1 < guard) (by omega)
    by_cases sparse : s.hotdistribution (guard - 1) < threshold
    · rw [if_pos sparse] at round
      rw [loop_again round]
      exact ih (guard - 1) fuel (by omega) (by omega) (by omega)
    · rw [if_neg sparse] at round
      exact ⟨guard, loop_done round fuel, by omega, high⟩

theorem adjustguard_outcome (guard : GuardInRange s.guardFreq) :
    (Meets s ∧ ∃ g, merlinAdjustguard s = .ok { s with guardFreq := g } ∧ GuardInRange g) ∨
      (¬ Meets s ∧ merlinAdjustguard s = .error (.fault .hotOutOfRange)) := by
  obtain ⟨low, high⟩ := guard
  have read := readHot_ok s (by omega : 0 ≤ s.guardFreq) high
  have unfolded : merlinAdjustguard s = (do
      let g ← settleGuard s (s.hotdistribution s.guardFreq)
      return { s with guardFreq := g }) := by
    rw [merlinAdjustguard, read]
    rfl
  have seven : maxFreq = 7 := rfl
  by_cases crowded : s.hotdistribution s.guardFreq > s.core.nObj
  · have settle : settleGuard s (s.hotdistribution s.guardFreq) =
        loop (raiseRound s s.core.nObj) guardRounds s.guardFreq := if_pos crowded
    have levels : s.guardFreq + ((8 - s.guardFreq).toNat : Int) = maxFreq + 1 := by omega
    have rounds : (8 - s.guardFreq).toNat < guardRounds := by
      simp only [guardRounds]
      omega
    rcases raise_outcome s.core.nObj (8 - s.guardFreq).toNat s.guardFreq guardRounds low levels
      rounds with ⟨meets, g, raised, inRange⟩ | ⟨no, fault⟩
    · exact Or.inl ⟨meets, g, by rw [unfolded, settle, raised]; rfl, inRange⟩
    · exact Or.inr ⟨no, by rw [unfolded, settle, fault]; rfl⟩
  · have settle : settleGuard s (s.hotdistribution s.guardFreq) =
        loop (lowerRound s s.core.nObj) guardRounds s.guardFreq := if_neg crowded
    have levels : s.guardFreq = ((s.guardFreq - 1).toNat : Int) + 1 := by omega
    have rounds : (s.guardFreq - 1).toNat < guardRounds := by
      simp only [guardRounds]
      omega
    obtain ⟨g, lowered, inRange⟩ :=
      lower_outcome s.core.nObj (s.guardFreq - 1).toNat s.guardFreq guardRounds levels high rounds
    have meets : Meets s := ⟨s.guardFreq, Int.le_refl _, high, by omega⟩
    exact Or.inl ⟨meets, g, by rw [unfolded, settle, lowered]; rfl, inRange⟩

/-! ## The guard over a run -/

theorem graduate_guard (b : Budgets) (s : State) (o : Obj) :
    (graduate b s o).guardFreq = s.guardFreq := by
  obtain ⟨hot, q, frame⟩ := unshadowed_frame s o
  show (unshadowed s o).guardFreq = s.guardFreq
  rw [frame]

theorem Cools.guard (h : Cools b s t) : t.guardFreq = s.guardFreq := by
  induction h with
  | refl => rfl
  | tail _ cooling ih =>
    cases cooling with
    | demote => exact ih
    | graduate => exact (graduate_guard _ _ _).trans ih

theorem Promotes.guard {l : List Obj} (h : Promotes b s l t) : t.guardFreq = s.guardFreq := by
  induction h with
  | nil => rfl
  | snoc _ _ _ _ ih => exact ih

theorem RoomMade.guard (h : RoomMade b r s t) : t.guardFreq = s.guardFreq := by
  cases h with
  | filter _ promoted exit =>
    have kept := promoted.guard
    cases exit with
    | exhausted | swap | retire => exact kept
  | @staging u v _ cooled =>
    have kept : u.guardFreq = s.guardFreq := Cools.guard cooled
    exact kept
  | @replace u o v _ cooled =>
    have kept : u.guardFreq = s.guardFreq := Cools.guard cooled
    exact kept

theorem adjustGhost_guard (h : adjustGhost b fuel s = .ok t) : t.guardFreq = s.guardFreq := by
  obtain ⟨hot, q, frame⟩ := adjustGhost_frame h
  rw [frame]

theorem countEviction_meets (b : Budgets) (s : State) : Meets (countEviction b s) ↔ Meets s := by
  obtain ⟨cbf, epochCount, evictobjNum, frame⟩ := countEviction_frame b s
  rw [frame]
  exact Iff.rfl

theorem countEviction_guard (b : Budgets) (s : State) :
    (countEviction b s).guardFreq = s.guardFreq := by
  obtain ⟨cbf, epochCount, evictobjNum, frame⟩ := countEviction_frame b s
  rw [frame]
  rfl

theorem evict_guard (guard : GuardInRange s.guardFreq) (h : merlinEvict b fuel s r = .ok t) :
    GuardInRange t.guardFreq := by
  obtain ⟨g, u, adjusted, room, trimmed⟩ := evict_cases h
  rw [adjustGhost_guard trimmed, room.guard]
  rw [← countEviction_guard b s] at guard
  rcases adjustguard_outcome guard with ⟨_, g', settled, inRange⟩ | ⟨_, fault⟩
  · rw [settled] at adjusted
    cases adjusted
    exact inRange
  · rw [fault] at adjusted
    cases adjusted

theorem step_guard {x y : Config} (guard : GuardInRange x.state.guardFreq) (step : Step b x y) :
    GuardInRange y.state.guardFreq := by
  cases step with
  | hit _ find | miss _ find =>
    have looked := find_lookup find
    cases looked <;> exact guard
  | reject => exact guard
  | evict _ _ evicted => exact evict_guard guard evicted
  | @insert s r =>
    have placed := insert_placement b s r
    dsimp only
    generalize merlinInsert b s r = t at placed
    cases placed <;> exact guard

theorem reached_guard {c : Config} (h : Reached b cbf c) : GuardInRange c.state.guardFreq :=
  Reachable.invariant (fun c => GuardInRange c.state.guardFreq)
    (show GuardInRange 2 by decide)
    (fun _ _ guard step => step_guard guard step) h

end MerlinPolicy
