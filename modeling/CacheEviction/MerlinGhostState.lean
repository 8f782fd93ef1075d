import CacheEviction.MerlinStructure

/-!
# The sticky ghost state

`merlin_find` leaves `hit_on_ghost` and `move_to_core` for the `merlin_insert` of
the same request. Two paths do not consume them: a request that is too large for
the filter is refused before the insertion, and the warm-up insertion does not look
at them. A run in which no request with a ghost hit takes one of the two is exactly
a run in which the state is clear between requests.
-/
namespace MerlinPolicy

open FuelLoops FifoCache StepTraces Relation

variable {b : Budgets} {cbf : CountingFilter.Cbf} {s t u v : State} {r : Request}
variable {c x y : Config} {es : List (Config × Config)}

/-- The request ends here and its ghost hit is not consumed. -/
def leavesGhostState (b : Budgets) (c : Config) : Bool :=
  match c.point with
  | .idle => false
  | .serving r => c.state.hitOnGhost &&
      (!merlinCanInsert b r || (!overfull b c.state r && warmUp c.state))

def GhostClear (s : State) : Prop := s.hitOnGhost = false ∧ s.moveToCore = false

/-- Between any two requests of the run the ghost state is clear. -/
def ClearBetween (es : List (Config × Config)) : Prop :=
  ∀ e ∈ es, e.2.point = .idle → GhostClear e.2.state

/-- Whenever a request of the run ends with a new object of non-zero frequency in
core, its lookup has found a ghost entry of its own id at the guard or above. -/
def PlacedByOwnGhost (es : List (Config × Config)) : Prop :=
  ∀ pre evictions post s t u v r o,
    es = pre ++ (⟨.idle, s⟩, ⟨.serving r, t⟩) :: (evictions ++
      (⟨.serving r, u⟩, ⟨.idle, v⟩) :: post) →
    (∀ e ∈ evictions, e.1.point = .serving r ∧ e.2.point = .serving r) →
    v.core.objs = u.core.objs ++ [o] → o.tag.freq ≠ 0 →
    ∃ g, s.ghost.find r.objId = some g ∧ s.guardFreq ≤ (bumped g.tag).freq

/-! ## One step -/

/-- A promise to move to core is only made together with a ghost hit. -/
def GhostState (c : Config) : Prop :=
  match c.point with
  | .idle => GhostClear c.state
  | .serving _ => c.state.hitOnGhost = false → c.state.moveToCore = false

theorem Placement.ghostClear (h : Placement b s r t)
    (paired : s.hitOnGhost = false → s.moveToCore = false)
    (consumed : MerlinPolicy.warmUp s = true → s.hitOnGhost = false) : GhostClear t := by
  cases h with
  | warmUp cold => exact ⟨consumed cold, paired (consumed cold)⟩
  | core => exact ⟨rfl, rfl⟩
  | staging _ _ stay => exact ⟨rfl, stay⟩
  | filter _ fresh => exact ⟨fresh, paired fresh⟩

theorem step_ghostState (before : GhostState x) (consumed : leavesGhostState b x = false)
    (step : Step b x y) : GhostState y := by
  cases step with
  | hit _ find =>
    have looked := find_lookup find
    cases looked <;> exact before
  | miss _ find =>
    have looked := find_lookup find
    cases looked with
    | ghost => intro clear; cases clear
    | absent => intro _; exact before.2
  | @reject s r large =>
    have clear : s.hitOnGhost = false := by simpa [leavesGhostState, large] using consumed
    exact ⟨clear, before clear⟩
  | evict _ _ evicted =>
    obtain ⟨hit, move, _⟩ := (evict_moves evicted).ghostState
    intro clear
    rw [move]
    exact before (hit.symm.trans clear)
  | @insert s r fits room =>
    refine (insert_placement b s r).ghostClear before ?_
    intro cold
    simpa [leavesGhostState, fits, room, cold] using consumed

theorem step_leaves (left : leavesGhostState b x = true) (step : Step b x y) :
    y.point = .idle ∧ y.state.hitOnGhost = true := by
  cases step with
  | hit | miss => cases left
  | @reject s r large =>
    have hit : s.hitOnGhost = true := by simpa [leavesGhostState, large] using left
    exact ⟨rfl, hit⟩
  | evict fits full => simp [leavesGhostState, fits, full] at left
  | @insert s r fits room =>
    have both : s.hitOnGhost = true ∧ warmUp s = true := by
      simpa [leavesGhostState, fits, room] using left
    refine ⟨rfl, ?_⟩
    simp only [merlinInsert, both.2, if_true]
    exact both.1

/-! ## Runs -/

theorem run_ghostState (run : Run b cbf es c) (consumed : ∀ e ∈ es, leavesGhostState b e.1 = false) :
    GhostState c := by
  induction run with
  | nil => exact ⟨rfl, rfl⟩
  | @snoc es x y _ step ih =>
    have before := ih (fun e mem => consumed e (List.mem_append_left _ mem))
    have last := consumed (x, y) (by simp)
    exact step_ghostState before last step

theorem run_clearBetween (run : Run b cbf es c)
    (consumed : ∀ e ∈ es, leavesGhostState b e.1 = false) : ClearBetween es := by
  intro e mem idle
  obtain ⟨pre, post, cut⟩ := List.append_of_mem mem
  obtain ⟨before, step, _⟩ := run.split cut
  have state : GhostState e.2 := by
    refine step_ghostState (run_ghostState before ?_) (consumed e mem) step
    intro d earlier
    exact consumed d (by rw [cut]; exact List.mem_append_left _ earlier)
  rw [GhostState, idle] at state
  exact state

theorem evictions_ghostState (run : Trace (Step b) x es y)
    (serving : ∀ e ∈ es, e.1.point = .serving r ∧ e.2.point = .serving r) :
    y.state.moveToCore = x.state.moveToCore := by
  induction run with
  | nil => rfl
  | @snoc es m n _ step ih =>
    have earlier := ih (fun e mem => serving e (List.mem_append_left _ mem))
    obtain ⟨before, after⟩ := serving (m, n) (by simp)
    cases step with
    | evict _ _ evicted => exact (evict_moves evicted).ghostState.2.1.trans earlier
    | hit | miss => cases before
    | reject | insert => cases after

theorem Placement.moved {o : Obj} (h : Placement b u r v) (placed : v.core.objs = u.core.objs ++ [o])
    (hot : o.tag.freq ≠ 0) : u.moveToCore = true := by
  have unchanged : ∀ l : List Obj, l ≠ l ++ [o] := by
    intro l same
    have := congrArg List.length same
    simp at this
  cases h with
  | warmUp =>
    have same : createCacheObj r ⟨0, false⟩ = o := by simpa using placed
    subst same
    exact absurd rfl hot
  | core _ _ move => exact move
  | staging | filter => exact absurd placed (unchanged _)

theorem run_placedByOwnGhost (run : Run b cbf es c)
    (consumed : ∀ e ∈ es, leavesGhostState b e.1 = false) : PlacedByOwnGhost es := by
  intro pre evictions post s t u v r o cut serving placed hot
  obtain ⟨before, lookup, later⟩ := run.split cut
  obtain ⟨between, ending, _⟩ := later.split rfl
  have clear : GhostClear s := run_ghostState before (fun e mem => consumed e (by
    rw [cut]
    exact List.mem_append_left _ mem))
  have kept : u.moveToCore = t.moveToCore := evictions_ghostState between serving
  have moved : u.moveToCore = true := by
    cases ending with
    | reject =>
      have := congrArg List.length placed
      simp at this
    | insert => exact (insert_placement b u r).moved placed hot
  rw [kept] at moved
  -- Nothing was promised before the lookup, so the lookup itself has made the promise.
  cases lookup with
  | miss _ find =>
    have looked := find_lookup find
    cases looked with
    | @ghost g _ _ _ found =>
      refine ⟨g, found, ?_⟩
      by_contra below
      simp [show ¬ (bumped g.tag).freq ≥ s.guardFreq from below, clear.2] at moved
    | absent =>
      rw [clear.2] at moved
      cases moved

/-- The ghost state of a run belongs to one request each, and objects enter core
with a frequency through their own ghost entry, if and only if no request of the
run ends with an unconsumed ghost hit. -/
theorem ghost_state_per_request_iff {es : List (Config × Config)} {c : Config}
    (run : Run b cbf es c) :
    (ClearBetween es ∧ PlacedByOwnGhost es) ↔ ∀ e ∈ es, leavesGhostState b e.1 = false := by
  constructor
  · rintro ⟨clear, _⟩ e mem
    by_contra left
    have left : leavesGhostState b e.1 = true := by simpa using left
    obtain ⟨idle, hit⟩ := step_leaves left (run.edge e mem).2
    have none := (clear e mem idle).1
    rw [hit] at none
    cases none
  · intro consumed
    exact ⟨run_clearBetween run consumed, run_placedByOwnGhost run consumed⟩

theorem ghost_state_per_request_iff_refused :
    ∃ es s, Run threeBytes sixteenCounters es ⟨.idle, s⟩ ∧
      ∃ e ∈ es, leavesGhostState threeBytes e.1 = true := by
  obtain ⟨s, gets, passed⟩ := servesTo_gets threeBytes 20 sixteenCounters
    [⟨1, 1⟩, ⟨2, 1⟩, ⟨3, 1⟩, ⟨4, 1⟩, ⟨5, 1⟩, ⟨4, 2⟩] (fun s => s.hitOnGhost) (by decide +kernel)
  obtain ⟨es, run⟩ := gets_reached gets
  refine ⟨es, s, run, ?_⟩
  by_contra none
  push Not at none
  obtain ⟨clear, _⟩ := (ghost_state_per_request_iff run).mpr
    (fun e mem => by simpa using none e mem)
  cases run with
  | nil => cases passed
  | snoc before step =>
    have hit := (clear _ (List.mem_append_right _ (List.mem_singleton_self _)) rfl).1
    rw [show s.hitOnGhost = true from passed] at hit
    cases hit

/-- The refused request 4 leaves both flags set, and object 6, which was never seen
before, goes straight to core with frequency 1. -/
theorem ghost_state_leaks :
    ∃ s t, Gets threeBytes sixteenCounters
        [⟨1, 1⟩, ⟨2, 1⟩, ⟨3, 1⟩, ⟨4, 1⟩, ⟨5, 1⟩, ⟨4, 2⟩] s ∧
      s.hitOnGhost = true ∧ s.moveToCore = true ∧ s.ghost.find 6 = none ∧
      merlinGet threeBytes 20 s ⟨6, 1⟩ = .ok (false, t) ∧
      (t.core.find 6).map (fun o => o.tag.freq) = some 1 := by
  obtain ⟨s, gets, passed⟩ := servesTo_gets threeBytes 20 sixteenCounters
    [⟨1, 1⟩, ⟨2, 1⟩, ⟨3, 1⟩, ⟨4, 1⟩, ⟨5, 1⟩, ⟨4, 2⟩]
    (fun s => s.hitOnGhost = true ∧ s.moveToCore = true ∧ s.ghost.find 6 = none ∧
      Returns (merlinGet threeBytes 20 s ⟨6, 1⟩) (fun a =>
        !a.1 && decide ((a.2.core.find 6).map (fun o => o.tag.freq) = some 1)) = true) (by decide +kernel)
  obtain ⟨hit, move, unseen, served⟩ := of_decide_eq_true passed
  obtain ⟨⟨missed, t⟩, got, placed⟩ := exists_of_returns served
  simp only [Bool.and_eq_true, Bool.not_eq_true', decide_eq_true_eq] at placed
  obtain ⟨rfl, first⟩ := placed
  exact ⟨s, t, gets, hit, move, unseen, got, first⟩

end MerlinPolicy
