import CacheEviction.MerlinVictims
import CacheEviction.MerlinProgress

/-!
# Merlin without object sizes

With objects of one byte the cache fills core alone until its first eviction; from
then on every miss of a full cache drops exactly one object before it inserts one,
and a miss that inserts into the filter has either found room there or has just taken
an object out of it.
-/
namespace MerlinPolicy

open FuelLoops FifoCache WeightedLists StepTraces Relation

variable {b : Budgets} {cbf : CountingFilter.Cbf} {s t : State} {r : Request} {fuel : Nat}

/-- The request being served, if any, is for one byte. -/
def UnitSized (c : Config) : Prop := ∀ r, c.point = .serving r → r.objSize = 1

/-- A step that calls `merlin_evict`: the request is being served before and after. -/
def evicts (e : Config × Config) : Prop := e.1.point ≠ .idle ∧ e.2.point ≠ .idle

/-- The weight of the objects that have not one byte. -/
def unsized (o : Obj) : Int := if o.objSize = 1 then 0 else 1

theorem unsized_nonneg (o : Obj) : 0 ≤ unsized o := by
  simp only [unsized]
  split <;> omega

theorem unsized_blind : Blind unsized := fun _ _ => rfl

theorem one_blind : Blind one := fun _ _ => rfl

theorem total_one (q : Fifo Meta) : total one q.objs = q.nObj := by
  have ones : one = fun _ => (1 : Int) := rfl
  rw [q.nObj_eq, ones]
  simp [total]

theorem getNObj_eq_load (s : State) : merlinGetNObj s = (s.load one).resident := by
  simp only [merlinGetNObj, Load.resident, State.load, total_one]

theorem bytes_of_unit {o : Obj} (h : unsized o = 0) : o.bytes = one o := by
  by_cases unit : o.objSize = 1
  · rw [CacheObj.bytes, unit]
    rfl
  · simp [unsized, unit] at h

theorem bytes_of_units (units : (s.load unsized).resident = 0) :
    s.filter.occupiedByte = (s.load one).filter ∧
      s.staging.occupiedByte = (s.load one).staging ∧
      s.core.occupiedByte = (s.load one).core := by
  have nonneg := load_nonneg unsized_nonneg s
  have each : ∀ q : Fifo Meta, total unsized q.objs = 0 → q.occupiedByte = total one q.objs := by
    intro q none
    rw [q.occupied_eq]
    apply total_congr
    intro o mem
    exact bytes_of_unit ((total_eq_zero_iff unsized_nonneg _).mp none o mem)
  simp only [Load.resident, State.load] at units nonneg
  exact ⟨each _ (by omega), each _ (by omega), each _ (by omega)⟩

theorem occupied_of_units (units : (s.load unsized).resident = 0) :
    merlinGetOccupiedByte s = (s.load one).resident := by
  obtain ⟨filter, staging, core⟩ := bytes_of_units units
  rw [merlinGetOccupiedByte, filter, staging, core]
  rfl

/-! ## One eviction -/

theorem RoomMade.counts (h : RoomMade b r s t) :
    ((t.load one).resident + 1 = (s.load one).resident ∧
      ((t.load one).filter + 1 ≤ (s.load one).filter ∨
        (filterFull b s r = false ∧ (t.load one).filter ≤ (s.load one).filter))) ∨
    ((t.load one).resident = (s.load one).resident ∧ t.filter.occupiedByte ≤ 0) := by
  cases h with
  | @filter l u _ full promoted exit =>
    have kept := promoted.resident one_blind
    have queue := (promoted.flash one_blind).2.1
    have promotions := total_nonneg one l (fun o _ => one_nonneg o)
    have fewer : (s.load one).filter = total one l + (u.load one).filter := by
      simp only [State.load, queue, total_append]
    cases exit with
    | exhausted empty => exact Or.inr ⟨kept, empty⟩
    | @swap o v tail _ victim =>
      have change := swap_resident (b := b) one_blind tail victim
      left
      refine ⟨by simp only [one] at change; omega, Or.inl ?_⟩
      rw [load_dropStaging _ (replaceStaging_toEvict victim), load_replaceStaging _ tail]
      simp only [one] at fewer promotions ⊢
      omega
    | retire tail =>
      left
      rw [load_retire _ tail]
      simp only [Load.resident, one] at kept fewer promotions ⊢
      exact ⟨by omega, Or.inl (by omega)⟩
  | staging fits cooled victim =>
    have kept := Cools.resident one_blind cooled
    have queue := (Cools.flash one_blind cooled).2.1
    left
    rw [load_dropStaging _ victim]
    simp only [Load.resident, State.load, queue, one] at kept ⊢
    exact ⟨by omega, Or.inr ⟨fits, le_refl _⟩⟩
  | @replace u o v fits cooled tail victim =>
    have kept := Cools.resident one_blind cooled
    have queue := (Cools.flash one_blind cooled).2.1
    have change := swap_resident (b := b) one_blind tail victim
    left
    refine ⟨by simp only [one] at change; omega, Or.inr ⟨fits, ?_⟩⟩
    rw [load_dropStaging _ (replaceStaging_toEvict victim), load_replaceStaging _ tail]
    simp only [State.load, queue, one]
    omega

theorem evict_counts (h : merlinEvict b fuel s r = .ok t) :
    ((t.load one).resident + 1 = (s.load one).resident ∧
      ((t.load one).filter + 1 ≤ (s.load one).filter ∨
        (filterFull b s r = false ∧ (t.load one).filter ≤ (s.load one).filter))) ∨
    ((t.load one).resident = (s.load one).resident ∧ t.filter.occupiedByte ≤ 0) := by
  obtain ⟨g, u, adjusted, room, trimmed⟩ := evict_cases h
  obtain ⟨cbf', epochCount, evictobjNum, guard, rfl⟩ := adjusted_frame adjusted
  obtain ⟨hot, q, rfl⟩ := adjustGhost_frame trimmed
  exact room.counts

theorem evict_units (h : merlinEvict b fuel s r = .ok t)
    (units : (s.load unsized).resident = 0) : (t.load unsized).resident = 0 := by
  have le := (evict_moves h).resident_le unsized_nonneg unsized_blind
  have nonneg := load_nonneg unsized_nonneg t
  simp only [Load.resident] at le units nonneg ⊢
  omega

/-! ## Whole runs -/

/-- How full the cache is, before (`past` false) and after its first eviction. A
request that has made its eviction finds one object missing. -/
structure Filled (b : Budgets) (past : Prop) (c : Config) : Prop where
  units : (c.state.load unsized).resident = 0
  early : ¬ past → (c.state.load one).filter = 0 ∧ (c.state.load one).staging = 0
  late : past →
    ((c.state.load one).resident = b.cacheSize ∧ (c.state.load one).filter ≤ b.filterLimit) ∨
    (c.point ≠ .idle ∧ (c.state.load one).resident + 1 = b.cacheSize ∧
      (c.state.load one).filter + 1 ≤ b.filterLimit)

theorem Lookup.filled {hit : Bool} {p : Point} {past : Prop} (h : Lookup s r hit t)
    (filled : Filled b past ⟨.idle, s⟩) : Filled b past ⟨p, t⟩ := by
  have sizes := h.load_eq unsized_blind
  have counts := h.load_eq one_blind
  refine ⟨?_, ?_, ?_⟩
  · show (t.load unsized).resident = 0
    rw [sizes]
    exact filled.units
  · intro before
    show (t.load one).filter = 0 ∧ (t.load one).staging = 0
    rw [counts]
    exact filled.early before
  · intro past_
    rcases filled.late past_ with full | ⟨serving, _⟩
    · refine Or.inl ?_
      show (t.load one).resident = _ ∧ (t.load one).filter ≤ _
      rw [counts]
      exact full
    · exact absurd rfl serving

theorem evict_filled {past : Prop} (unit : r.objSize = 1)
    (full : overfull b s r = true) (evicted : merlinEvict b fuel s r = .ok t)
    (occupied : merlinGetOccupiedByte s ≤ b.cacheSize)
    (filled : Filled b past ⟨.serving r, s⟩) : Filled b True ⟨.serving r, t⟩ := by
  have units : (s.load unsized).resident = 0 := filled.units
  have unitsAfter := evict_units evicted units
  have limit := b.filter_pos
  have same := occupied_of_units units
  have crowded : (b.cacheSize : Int) < merlinGetOccupiedByte s + r.objSize := by
    simpa [overfull] using full
  have filterBefore : (s.load one).filter ≤ b.filterLimit := by
    by_cases happened : past
    · rcases filled.late happened with ⟨_, bound⟩ | ⟨_, _, bound⟩
      · exact bound
      · have : (s.load one).filter + 1 ≤ b.filterLimit := bound
        omega
    · have := (filled.early happened).1
      dsimp only at this
      omega
  refine ⟨unitsAfter, fun no => absurd trivial no, fun _ => ?_⟩
  rcases evict_counts evicted with ⟨dropped, filter⟩ | ⟨kept, empty⟩
  · refine Or.inr ⟨by simp, by show (t.load one).resident + 1 = _; omega, ?_⟩
    show (t.load one).filter + 1 ≤ b.filterLimit
    rcases filter with fewer | ⟨fits, le⟩
    · omega
    · have fits : s.filter.occupiedByte + r.objSize ≤ b.filterLimit := by
        simpa [filterFull] using fits
      rw [(bytes_of_units units).1] at fits
      omega
  · rw [(bytes_of_units unitsAfter).1] at empty
    refine Or.inl ⟨by show (t.load one).resident = _; omega, ?_⟩
    show (t.load one).filter ≤ b.filterLimit
    omega

theorem createCacheObj_unsized (unit : r.objSize = 1) (tag : Meta) :
    unsized (createCacheObj r tag) = 0 := by
  simp [unsized, createCacheObj, unit]

theorem Placement.counts (h : Placement b s r t) :
    (t.load one).resident = (s.load one).resident + 1 ∧
      (t.load one).filter ≤ (s.load one).filter + 1 := by
  cases h <;>
  · simp only [Load.resident, State.load, Fifo.objs_insert, total_append, total_cons, total_nil,
      one]
    omega

theorem Placement.units (h : Placement b s r t) (unit : r.objSize = 1)
    (units : (s.load unsized).resident = 0) : (t.load unsized).resident = 0 := by
  have mine := createCacheObj_unsized unit
  cases h <;>
  · simp only [Load.resident, State.load, Fifo.objs_insert, total_append, total_cons, total_nil,
      mine] at units ⊢
    omega

theorem insert_early (units : (s.load unsized).resident = 0)
    (early : (s.load one).filter = 0 ∧ (s.load one).staging = 0) :
    (merlinInsert b s r).core = s.core.insert r ⟨0, false⟩ ∧
      (merlinInsert b s r).filter = s.filter ∧ (merlinInsert b s r).staging = s.staging := by
  obtain ⟨filter, staging, _⟩ := bytes_of_units units
  have cold : warmUp s = true := by
    simp only [warmUp, filter, staging, early.1, early.2]
    rfl
  simp only [merlinInsert, cold, if_true, and_self]

theorem insert_filled {past : Prop} (unit : r.objSize = 1) (room : overfull b s r = false)
    (filled : Filled b past ⟨.serving r, s⟩) : Filled b past ⟨.idle, merlinInsert b s r⟩ := by
  have placed := insert_placement b s r
  have units : (s.load unsized).resident = 0 := filled.units
  have same := occupied_of_units units
  have fits : merlinGetOccupiedByte s + r.objSize ≤ b.cacheSize := by simpa [overfull] using room
  refine ⟨placed.units unit units, fun before => ?_, fun happened => ?_⟩
  · have early := filled.early before
    obtain ⟨_, filter, staging⟩ := insert_early (b := b) (r := r) units early
    simp only [State.load, filter, staging] at early ⊢
    exact early
  · obtain ⟨more, filter⟩ := placed.counts
    left
    rcases filled.late happened with ⟨full, _⟩ | ⟨_, missing, bound⟩
    · dsimp only at full
      omega
    · dsimp only at missing bound ⊢
      exact ⟨by omega, by omega⟩

theorem step_filled {past : Prop} {x y : Config} (inv : Invariant b x) (unit : UnitSized x)
    (filled : Filled b past x) (step : Step b x y) : Filled b (past ∨ evicts (x, y)) y := by
  have other : ∀ {p q : Prop} {c : Config}, (p ↔ q) → Filled b p c → Filled b q c :=
    fun same filled => propext same ▸ filled
  cases step with
  | hit _ find =>
    exact other (by simp [evicts]) ((find_lookup find).filled filled)
  | miss _ find =>
    exact other (by simp [evicts]) ((find_lookup find).filled filled)
  | @reject s r large =>
    have limit := b.filter_pos
    have size := unit r rfl
    simp only [merlinCanInsert, decide_eq_false_iff_not] at large
    omega
  | @evict s t r _ _ full evicted =>
    exact other (by simp [evicts])
      (evict_filled (unit r rfl) full evicted inv.occupied filled)
  | @insert s r _ room =>
    exact other (by simp [evicts]) (insert_filled (unit r rfl) room filled)

theorem boot_filled (b : Budgets) (cbf : CountingFilter.Cbf) : Filled b False (boot cbf) where
  units := rfl
  early := fun _ => ⟨rfl, rfl⟩
  late := fun no => no.elim

theorem run_filled {es : List (Config × Config)} {c : Config} (run : Run b cbf es c)
    (units : ∀ e ∈ es, UnitSized e.1) : Filled b (∃ e ∈ es, evicts e) c := by
  induction run with
  | nil => simpa using boot_filled b cbf
  | @snoc es x y before step ih =>
    have earlier := ih (fun e mem => units e (List.mem_append_left _ mem))
    have unit : UnitSized x := units (x, y) (by simp)
    have next := step_filled (reached_invariant ⟨es, before⟩) unit earlier step
    simpa [or_and_right, exists_or] using next

theorem unit_get_finishes (split : b.filterLimit + b.stagingLimit ≤ b.cacheSize)
    (reached : Reached b cbf ⟨.idle, s⟩) (unit : r.objSize = 1) :
    ∃ x, Yields (fun n => merlinGet b n s r) x ∧ Finishes (fun _ => True) x := by
  have limit := b.filter_pos
  have fits : merlinCanInsert b r = true := by
    simp only [merlinCanInsert, decide_eq_true_eq]
    omega
  simp only [merlinGet]
  cases find : merlinFind s r with
  | mk hit t =>
    cases hit with
    | true => exact ⟨_, .const _, Or.inl ⟨_, rfl, trivial⟩⟩
    | false =>
      have missed := reached.next (.miss (by omega) find)
      obtain ⟨x, yields, finishes⟩ := evictLoop_finishes split (reached_invariant missed).freqs
        (reached_guard missed) (r := r) (by omega)
      simp only [fits, if_true]
      rcases finishes with ⟨u, rfl, _⟩ | rfl
      · exact ⟨_, yields.bind (.const _), Or.inl ⟨_, rfl, trivial⟩⟩
      · exact ⟨_, yields.bind_error, Or.inr rfl⟩

/-- Runs in which every request is for one byte: the filter stays within its
budget between requests, insertions go to core until the first eviction, and from
then on the cache is full between requests. The next request is served, unless
the guard reads outside the histogram. -/
theorem unit_sizes {es : List (Config × Config)} {c : Config}
    (split : b.filterLimit + b.stagingLimit ≤ b.cacheSize) (run : Run b cbf es c)
    (units : ∀ e ∈ es, UnitSized e.1) :
    (c.point = .idle → c.state.filter.nObj ≤ b.filterLimit) ∧
    ((∀ e ∈ es, ¬ evicts e) → c.state.filter.objs = [] ∧ c.state.staging.objs = [] ∧
      ∀ r, (merlinInsert b c.state r).core = c.state.core.insert r ⟨0, false⟩ ∧
        (merlinInsert b c.state r).filter = c.state.filter ∧
        (merlinInsert b c.state r).staging = c.state.staging) ∧
    (c.point = .idle → (∃ e ∈ es, evicts e) → merlinGetNObj c.state = b.cacheSize) ∧
    (c.point = .idle → ∀ r : Request, r.objSize = 1 →
      ∃ x, Yields (fun n => merlinGet b n c.state r) x ∧
        ((∃ p, x = .ok p) ∨ x = .error (.fault .hotOutOfRange))) := by
  have filled := run_filled run units
  have count := total_one c.state.filter
  have none : ∀ q : Fifo Meta, total one q.objs = 0 → q.objs = [] := by
    intro q empty
    rw [total_one, q.nObj_eq] at empty
    exact List.length_eq_zero_iff.mp (by omega)
  have full : c.point = .idle → (∃ e ∈ es, evicts e) →
      (c.state.load one).resident = b.cacheSize ∧ (c.state.load one).filter ≤ b.filterLimit := by
    intro idle happened
    rcases filled.late happened with full | ⟨serving, _⟩
    · exact full
    · exact absurd idle serving
  refine ⟨fun idle => ?_, fun before => ?_, fun idle happened => ?_, fun idle r unit => ?_⟩
  · by_cases happened : ∃ e ∈ es, evicts e
    · have bound := (full idle happened).2
      simp only [State.load] at bound
      omega
    · have empty := (filled.early happened).1
      simp only [State.load] at empty
      omega
  · have early := filled.early (by simpa using before)
    exact ⟨none _ early.1, none _ early.2, fun r => insert_early filled.units early⟩
  · rw [getNObj_eq_load]
    exact (full idle happened).1
  · obtain ⟨point, s⟩ := c
    cases idle
    obtain ⟨x, yields, ⟨p, ok, _⟩ | fault⟩ := unit_get_finishes split ⟨es, run⟩ unit
    · exact ⟨x, yields, Or.inl ⟨p, ok⟩⟩
    · exact ⟨x, yields, Or.inr fault⟩

/-- Five requests to a cache of three objects. -/
theorem unit_sizes_five :
    ∃ es s, Run threeBytes sixteenCounters es ⟨.idle, s⟩ ∧ (∀ e ∈ es, UnitSized e.1) ∧
      (∃ e ∈ es, evicts e) ∧ s.filter.nObj ≤ 1 ∧ merlinGetNObj s = 3 := by
  obtain ⟨s, gets, passed⟩ := servesTo_gets threeBytes 20 sixteenCounters
    [⟨1, 1⟩, ⟨2, 1⟩, ⟨3, 1⟩, ⟨4, 1⟩, ⟨5, 1⟩] (fun s => s.filter.objs ≠ []) (by decide +kernel)
  have held : s.filter.objs ≠ [] := of_decide_eq_true passed
  obtain ⟨es, run, served⟩ := gets_run gets
  have units : ∀ e ∈ es, UnitSized e.1 := by
    intro e mem r serving
    have all : ∀ q ∈ [⟨1, 1⟩, ⟨2, 1⟩, ⟨3, 1⟩, ⟨4, 1⟩, (⟨5, 1⟩ : Request)], q.objSize = 1 := by
      decide
    exact all r (served e mem r serving)
  obtain ⟨bound, early, late, _⟩ := unit_sizes (b := threeBytes) (by decide) run units
  have happened : ∃ e ∈ es, evicts e := by
    by_contra none
    exact held (early (by simpa using none)).1
  exact ⟨es, s, run, units, happened, bound rfl, late rfl happened⟩

end MerlinPolicy
