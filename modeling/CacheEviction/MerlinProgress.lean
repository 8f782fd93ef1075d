import CacheEviction.MerlinFlashWrites

/-!
# Evictions finish and make room

The three simple loops of `merlin_evict` shorten a queue in every round. The loop
around `adjust_core` and `adjust_staging` passes objects back and forth, but core
within its budget leaves bytes in staging, so each round either finds a cold tail or
charges at least one object a unit of frequency. One `merlin_evict` may evict nothing,
when it promotes the whole filter; the filter is then empty, and the next one does.
-/
namespace MerlinPolicy

open FuelLoops FifoCache WeightedLists StepTraces Relation

variable {b : Budgets} {cbf : CountingFilter.Cbf} {s t u : State} {r : Request} {fuel : Nat}

/-! ## The loops over one queue -/

theorem length_remove_oldest {q : Fifo Meta} {o : Obj} (tail : q.toEvict = some o) :
    (q.remove o.objId).objs.length < q.objs.length := by
  obtain ⟨rest, shape⟩ := Fifo.toEvict_eq_some tail
  rw [Fifo.objs_remove_oldest shape, shape, List.length_cons]
  omega

theorem adjustGhost_returns (b : Budgets) (s : State) :
    ∃ t, Yields (fun n => adjustGhost b n s) (.ok t) := by
  refine loop_returns (adjustGhostRound b) (fun _ => True) (fun u => u.ghost.objs.length) ?_ s
    trivial
  intro u _
  by_cases exceeds : u.ghost.occupiedByte > b.ghostLimit
  · obtain ⟨o, tail⟩ := Fifo.toEvict_of_occupied (q := u.ghost) (by omega)
    refine Or.inr ⟨dropGhost u o, ?_, trivial, length_remove_oldest tail⟩
    simp only [adjustGhostRound, exceeds, if_true, tail]
  · exact Or.inl ⟨u, if_neg exceeds⟩

theorem adjustCore_returns (b : Budgets) (nonneg : 0 ≤ b.coreLimit) (range : FreqsInRange s) :
    ∃ t, Yields (fun n => adjustCore b n s) (.ok t) := by
  refine loop_returns (adjustCoreRound b) FreqsInRange (fun u => u.core.objs.length) ?_ s range
  intro u range
  by_cases exceeds : b.coreLimit < u.core.occupiedByte
  · obtain ⟨o, tail⟩ := Fifo.toEvict_of_occupied (q := u.core) (by omega)
    have inRange : 0 ≤ o.tag.freq ∧ o.tag.freq ≤ maxFreq := range.core (Fifo.toEvict_mem tail)
    refine Or.inr ⟨demote u o, ?_, (Move.demote (b := b) tail).freqs range,
      length_remove_oldest tail⟩
    simp only [adjustCoreRound, exceeds, if_true, tail, inRange, and_self]
  · exact Or.inl ⟨u, if_neg exceeds⟩

theorem graduate_staging (b : Budgets) (s : State) (o : Obj) :
    (graduate b s o).staging = s.staging.remove o.objId := by
  obtain ⟨hot, q, frame⟩ := unshadowed_frame s o
  show (unshadowed s o).staging.remove o.objId = _
  rw [frame]

theorem adjustStaging_returns (b : Budgets) (s : State) :
    ∃ p, Yields (fun n => adjustStaging b n s) (.ok p) := by
  refine loop_returns (adjustStagingRound b) (fun _ => True) (fun u => u.staging.objs.length) ?_ s
    trivial
  intro u _
  by_cases held : u.staging.occupiedByte > 0
  · obtain ⟨o, tail⟩ := Fifo.toEvict_of_occupied held
    by_cases cold : o.tag.freq = 0
    · exact Or.inl ⟨(1, u), by simp only [adjustStagingRound, held, if_true, tail, cold]⟩
    · refine Or.inr ⟨graduate b u o, ?_, trivial, ?_⟩
      · simp only [adjustStagingRound, held, if_true, tail, cold, if_false]
      · rw [graduate_staging]
        exact length_remove_oldest tail
  · exact Or.inl ⟨(0, u), if_neg held⟩

theorem evictStaging_returns {v : Obj} (tail : s.staging.toEvict = some v) :
    evictStaging s = .ok (dropStaging s v) := by
  simp only [evictStaging, tail]

theorem adjustFilter_returns (b : Budgets) (s : State) :
    ∃ p, Yields (fun n => adjustFilter b n s) (.ok p) := by
  refine loop_returns (adjustFilterRound b) (fun _ => True) (fun u => u.filter.objs.length) ?_ s
    trivial
  intro u _
  by_cases held : u.filter.occupiedByte > 0
  · obtain ⟨o, tail⟩ := Fifo.toEvict_of_occupied held
    by_cases hot : o.tag.freq ≥ u.guardFreq
    · refine Or.inr ⟨promote b u o, ?_, trivial, length_remove_oldest tail⟩
      simp only [adjustFilterRound, held, if_true, tail, hot]
    · left
      simp only [adjustFilterRound, held, if_true, tail, hot, if_false]
      rcases compare_cases b u with ⟨lost, _⟩ | ⟨o', v, _, victim, won⟩
      · split
        · rename_i heq
          exact absurd (congrArg Prod.fst heq) lost
        · exact ⟨_, rfl⟩
      · rw [won]
        simp only [evictStaging_returns (replaceStaging_toEvict victim)]
        exact ⟨_, rfl⟩
  · exact Or.inl ⟨(false, u), if_neg held⟩

/-! ## Cooling staging -/

/-- The frequency that core and staging hold together. -/
def warmth (s : State) : Int := (s.load (fun o => o.tag.freq)).flash

theorem warmth_nonneg (range : FreqsInRange s) : 0 ≤ warmth s := by
  have staging := total_nonneg (fun o : Obj => o.tag.freq) s.staging.objs
    (fun o mem => (range.staging mem).1)
  have core := total_nonneg (fun o : Obj => o.tag.freq) s.core.objs
    (fun o mem => (range.core mem).1)
  simp only [warmth, Load.flash, State.load]
  omega

theorem graduate_warmth {o : Obj} (tail : s.staging.toEvict = some o) :
    warmth (graduate b s o) = warmth s - 1 := by
  rw [warmth, load_graduate _ tail]
  simp only [warmth, Load.flash]
  omega

theorem Cools.warmth_le (h : Cools b s t) : warmth t ≤ warmth s := by
  induction h with
  | refl => exact le_refl _
  | tail _ cooling ih =>
    cases cooling with
    | demote tail =>
      rw [warmth, load_demote _ tail]
      simp only [warmth, Load.flash] at ih ⊢
      omega
    | graduate tail =>
      rw [graduate_warmth tail]
      omega

theorem adjustStaging_cooler (h : adjustStaging b fuel s = .ok (0, t))
    (held : 0 < s.staging.occupiedByte) : warmth t < warmth s := by
  refine loop_invariant (adjustStagingRound b) (fun u => u = s ∨ warmth u < warmth s)
    (fun p => p.1 = 0 → warmth p.2 < warmth s) ?_ ?_ fuel s (Or.inl rfl) (0, t) h rfl
  · intro u v hu hv
    obtain ⟨o, tail, _, rfl⟩ := adjustStagingRound_again hv
    rw [graduate_warmth tail]
    rcases hu with rfl | less
    · exact Or.inr (by omega)
    · exact Or.inr (by omega)
  · rintro u ⟨k, v⟩ hu hv emptied
    obtain ⟨rfl, cold | empty⟩ := adjustStagingRound_done hv
    · have one := cold.1
      dsimp only at emptied
      omega
    · rcases hu with rfl | less
      · exact absurd empty.2 (by omega)
      · exact less

/-- The precondition under which `merlin_evict` turns to staging. -/
structure Crowded (b : Budgets) (r : Request) (s : State) : Prop where
  full : b.cacheSize < merlinGetOccupiedByte s + r.objSize
  fits : s.filter.occupiedByte + r.objSize ≤ b.filterLimit

theorem Cools.crowded (h : Cools b s t) (crowded : Crowded b r s) : Crowded b r t := by
  obtain ⟨flash, filter, _⟩ := Cools.flash (w := CacheObj.bytes) (fun _ _ => rfl) h
  constructor
  · have full := crowded.full
    simp only [merlinGetOccupiedByte, Fifo.occupied_eq, filter] at full ⊢
    simp only [Load.flash, State.load] at flash
    omega
  · rw [filter]
    exact crowded.fits

theorem Cools.freqs (h : Cools b s t) (range : FreqsInRange s) : FreqsInRange t :=
  Moves.freqs (Cools.moves h) range

theorem coreLimit_bounds (split : b.filterLimit + b.stagingLimit ≤ b.cacheSize) :
    0 ≤ b.coreLimit ∧ b.coreLimit ≤ (b.cacheSize : Int) - b.filterLimit - b.stagingLimit := by
  have word : (2 : Int) ^ 64 = 18446744073709551616 := by norm_num
  simp only [Budgets.coreLimit, word]
  omega

theorem staging_held (split : b.filterLimit + b.stagingLimit ≤ b.cacheSize)
    (crowded : Crowded b r s) (core : s.core.occupiedByte ≤ b.coreLimit) :
    0 < s.staging.occupiedByte := by
  have limit := (coreLimit_bounds split).2
  have full := crowded.full
  have fits := crowded.fits
  have room := b.staging_pos
  simp only [merlinGetOccupiedByte] at full
  omega

theorem coolStaging_returns (split : b.filterLimit + b.stagingLimit ≤ b.cacheSize)
    (range : FreqsInRange s) (crowded : Crowded b r s) :
    ∃ t, Yields (fun n => coolStaging b n s) (.ok t) := by
  have yields := loop_yields (coolStagingRound b)
    (fun u => FreqsInRange u ∧ Crowded b r u) (fun u => (warmth u).toNat)
    (fun x => ∃ t, x = .ok t) (by
      rintro u ⟨range, crowded⟩
      obtain ⟨v, cooled⟩ := adjustCore_returns b (coreLimit_bounds split).1 range
      obtain ⟨⟨k, w⟩, staged⟩ := adjustStaging_returns b v
      refine ⟨.ok (if k = 0 then .again w else .done w), cooled.bind (staged.bind (.const _)), ?_⟩
      -- What the two loops have done is read off at one large budget.
      obtain ⟨N, hN⟩ := cooled
      obtain ⟨M, hM⟩ := staged
      obtain ⟨first, core⟩ := adjustCore_cools (hN N (Nat.le_refl N))
      have emptied := hM M (Nat.le_refl M)
      obtain ⟨second, _⟩ := adjustStaging_cools emptied
      have both : Cools b u w := first.trans second
      by_cases hk : k = 0
      · subst hk
        have held := staging_held split (Cools.crowded first crowded) core
        have less := adjustStaging_cooler emptied held
        have before := Cools.warmth_le first
        have after := warmth_nonneg (Cools.freqs both range)
        rw [if_pos rfl]
        refine ⟨⟨Cools.freqs both range, Cools.crowded both crowded⟩, ?_⟩
        dsimp only
        omega
      · rw [if_neg hk]
        exact ⟨w, rfl⟩) s ⟨range, crowded⟩
  obtain ⟨x, hx, t, rfl⟩ := yields
  exact ⟨t, hx⟩

theorem compare_toEvict {v : Obj} (tail : s.staging.toEvict = some v) :
    (compare b s).2.staging.toEvict = some v := by
  rcases compare_cases b s with ⟨_, same⟩ | ⟨o, w, _, _, won⟩
  · rw [same]
    exact tail
  · rw [won]
    exact replaceStaging_toEvict tail

/-! ## One eviction -/

theorem makeRoom_returns (split : b.filterLimit + b.stagingLimit ≤ b.cacheSize)
    (range : FreqsInRange s) (full : overfull b s r = true) :
    ∃ t, Yields (fun n => makeRoom b n s r) (.ok t) := by
  by_cases filter : filterFull b s r = true
  · obtain ⟨⟨k, t⟩, yields⟩ := adjustFilter_returns b s
    simp only [makeRoom, filter, if_true]
    exact ⟨t, yields.bind (.const _)⟩
  · have crowded : Crowded b r s := by
      constructor
      · simpa [overfull] using full
      · simpa [filterFull] using filter
    obtain ⟨t, yields⟩ := coolStaging_returns split range crowded
    obtain ⟨N, hN⟩ := yields
    obtain ⟨_, v, victim, _⟩ := coolStaging_cools (hN N (Nat.le_refl N))
    have dropped := evictStaging_returns (compare_toEvict (b := b) victim)
    simp only [makeRoom, filter]
    refine ⟨dropStaging (compare b t).2 v, Yields.bind ⟨N, hN⟩ ?_⟩
    simp only [dropped]
    exact .const _

/-- What the guard leaves as the outcome of a terminating computation. -/
def Finishes {α : Type} (Q : α → Prop) (x : Outcome α) : Prop :=
  (∃ a, x = .ok a ∧ Q a) ∨ x = .error (.fault .hotOutOfRange)

theorem evict_finishes (split : b.filterLimit + b.stagingLimit ≤ b.cacheSize)
    (range : FreqsInRange s) (guard : GuardInRange s.guardFreq) (full : overfull b s r = true) :
    ∃ x, Yields (fun n => merlinEvict b n s r) x ∧ Finishes (fun _ => True) x := by
  rw [← countEviction_guard b s] at guard
  rcases adjustguard_outcome guard with ⟨_, g, settled, _⟩ | ⟨_, fault⟩
  · obtain ⟨cbf', epochCount, evictobjNum, guard', frame⟩ := adjusted_frame settled
    have fullAfter : overfull b { countEviction b s with guardFreq := g } r = true := by
      rw [frame]
      exact full
    have rangeAfter : FreqsInRange { countEviction b s with guardFreq := g } := by
      rw [frame]
      exact range
    obtain ⟨u, room⟩ := makeRoom_returns split rangeAfter fullAfter
    obtain ⟨t, trimmed⟩ := adjustGhost_returns b u
    refine ⟨.ok t, ?_, Or.inl ⟨t, rfl, trivial⟩⟩
    have yields : Yields (fun _ => merlinAdjustguard (countEviction b s))
        (.ok { countEviction b s with guardFreq := g }) := .of_eq (fun _ => settled)
    exact yields.bind (room.bind trimmed)
  · refine ⟨.error (.fault .hotOutOfRange), ?_, Or.inr rfl⟩
    have yields : Yields (fun _ => merlinAdjustguard (countEviction b s))
        (.error (.fault .hotOutOfRange)) := .of_eq (fun _ => fault)
    exact yields.bind_error

/-! ## The eviction loop -/

def one (_ : Obj) : Int := 1

/-- Twice the resident objects, and one more while the filter holds bytes. -/
def backlog (s : State) : Nat :=
  (2 * (s.load one).resident + if s.filter.occupiedByte > 0 then 1 else 0).toNat

theorem one_nonneg (o : Obj) : 0 ≤ one o := by
  simp [one]

theorem RoomMade.progress (h : RoomMade b r s t) (fits : r.objSize ≤ b.filterLimit) :
    (t.load one).resident < (s.load one).resident ∨
      ((t.load one).resident ≤ (s.load one).resident ∧ 0 < s.filter.occupiedByte ∧
        t.filter.occupiedByte ≤ 0) := by
  have swapped : ∀ {u : State} {o v : Obj}, u.filter.toEvict = some o →
      u.staging.toEvict = some v →
      ((dropStaging (replaceStaging b u o) v).load one).resident = (u.load one).resident - 1 := by
    intro u o v tail victim
    rw [load_dropStaging _ (replaceStaging_toEvict victim), load_replaceStaging _ tail]
    simp only [Load.resident, one]
    omega
  cases h with
  | @filter l u _ full promoted exit =>
    have kept := promoted.moves.resident_le one_nonneg (fun _ _ => rfl)
    cases exit with
    | exhausted empty =>
      have held : b.filterLimit < s.filter.occupiedByte + r.objSize := by
        simpa [filterFull] using full
      exact Or.inr ⟨kept, by omega, empty⟩
    | swap tail _ victim =>
      have less := swapped tail victim
      exact Or.inl (by omega)
    | retire tail =>
      left
      rw [load_retire _ tail]
      simp only [Load.resident, one] at kept ⊢
      omega
  | staging _ cooled victim =>
    have kept := (Cools.moves cooled).resident_le one_nonneg (fun _ _ => rfl)
    left
    rw [load_dropStaging _ victim]
    simp only [Load.resident, one] at kept ⊢
    omega
  | replace _ cooled tail victim =>
    have kept := (Cools.moves cooled).resident_le one_nonneg (fun _ _ => rfl)
    have less := swapped tail victim
    exact Or.inl (by omega)

theorem evict_progress (h : merlinEvict b fuel s r = .ok t) (fits : r.objSize ≤ b.filterLimit) :
    backlog t < backlog s := by
  obtain ⟨g, u, adjusted, room, trimmed⟩ := evict_cases h
  obtain ⟨cbf', epochCount, evictobjNum, guard, rfl⟩ := adjusted_frame adjusted
  obtain ⟨hot, q, rfl⟩ := adjustGhost_frame trimmed
  have progress := room.progress fits
  have nonneg := load_nonneg one_nonneg u
  simp only [load_bookkeeping] at progress
  have count : (({ u with hotdistribution := hot, ghost := q } : State).load one).resident =
      (u.load one).resident := rfl
  have books : (s.bookkeeping cbf' epochCount evictobjNum guard).filter = s.filter := rfl
  rw [books] at progress
  simp only [backlog, count]
  simp only [Load.resident] at progress nonneg ⊢
  split_ifs <;> omega

theorem evictLoop_finishes (split : b.filterLimit + b.stagingLimit ≤ b.cacheSize)
    (range : FreqsInRange s) (guard : GuardInRange s.guardFreq)
    (fits : r.objSize ≤ b.filterLimit) :
    ∃ x, Yields (fun n => evictLoop b n s r) x ∧
      Finishes (fun t => merlinGetOccupiedByte t + r.objSize ≤ b.cacheSize) x := by
  refine loop_yields (fun n => evictRound b n r)
    (fun u => FreqsInRange u ∧ GuardInRange u.guardFreq) backlog
    (Finishes (fun t => merlinGetOccupiedByte t + r.objSize ≤ b.cacheSize)) ?_ s ⟨range, guard⟩
  rintro u ⟨range, guard⟩
  by_cases full : overfull b u r = true
  · obtain ⟨x, yields, ⟨t, rfl, _⟩ | rfl⟩ := evict_finishes split range guard full
    · refine ⟨.ok (.again t), ?_, ?_⟩
      · simp only [evictRound, full, if_true]
        exact yields.bind (.const _)
      · obtain ⟨N, hN⟩ := yields
        have evicted := hN N (Nat.le_refl N)
        exact ⟨⟨(evict_moves evicted).freqs range, evict_guard guard evicted⟩,
          evict_progress evicted fits⟩
    · refine ⟨.error (.fault .hotOutOfRange), ?_, Or.inr rfl⟩
      simp only [evictRound, full, if_true]
      exact yields.bind_error
  · refine ⟨.ok (.done u), ?_, ?_⟩
    · simp only [evictRound, full]
      exact .const _
    · exact Or.inl ⟨u, rfl, by simpa [overfull] using full⟩

/-- In every state of a run, for every admitted request that does not fit yet:
`merlin_evict` returns, and so does the eviction loop, with room for the request,
unless the guard reads outside the histogram. No other fault is met, and no fuel
bound is. -/
theorem eviction_terminates {c : Config} (split : b.filterLimit + b.stagingLimit ≤ b.cacheSize)
    (reached : Reached b cbf c) (fits : r.objSize ≤ b.filterLimit)
    (full : b.cacheSize < merlinGetOccupiedByte c.state + r.objSize) :
    (∃ x, Yields (fun n => merlinEvict b n c.state r) x ∧
      ((∃ t, x = .ok t) ∨ x = .error (.fault .hotOutOfRange))) ∧
    (∃ x, Yields (fun n => evictLoop b n c.state r) x ∧
      ((∃ t, x = .ok t ∧ merlinGetOccupiedByte t + r.objSize ≤ b.cacheSize) ∨
        x = .error (.fault .hotOutOfRange))) := by
  have range := (reached_invariant reached).freqs
  have guard := reached_guard reached
  have overfull_ : overfull b c.state r = true := by simpa [overfull] using full
  constructor
  · obtain ⟨x, yields, ⟨t, ok, _⟩ | fault⟩ := evict_finishes split range guard overfull_
    · exact ⟨x, yields, Or.inl ⟨t, ok⟩⟩
    · exact ⟨x, yields, Or.inr fault⟩
  · exact evictLoop_finishes split range guard fits

/-- The first request that finds a cache of three objects full. -/
theorem eviction_terminates_first :
    ∃ s, Reached threeBytes sixteenCounters ⟨.idle, s⟩ ∧
      ∃ x, Yields (fun n => evictLoop threeBytes n s ⟨4, 1⟩) x ∧
        ((∃ t, x = .ok t ∧ merlinGetOccupiedByte t + 1 ≤ 3) ∨
          x = .error (.fault .hotOutOfRange)) := by
  obtain ⟨s, gets, passed⟩ := servesTo_gets threeBytes 20 sixteenCounters
    [⟨1, 1⟩, ⟨2, 1⟩, ⟨3, 1⟩] (fun s => 3 < merlinGetOccupiedByte s + 1) (by decide +kernel)
  have full : 3 < merlinGetOccupiedByte s + 1 := of_decide_eq_true passed
  exact ⟨s, gets_reached gets, (eviction_terminates (r := ⟨4, 1⟩) (by decide)
    (gets_reached gets) (by decide) full).2⟩

end MerlinPolicy
