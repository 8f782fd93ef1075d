import CacheEviction.CacheusProjection
import CacheEviction.CacheusRemovals
import CacheEviction.SrLruCounters

/-!
# The counters of SR_LRU in runs of Cacheus

A request to the two experts is one to `SR_LRU` under some votes, so what a request does to
the counters carries over.
-/
namespace CacheusExperts

open FuelLoops FifoCache CacheGet Cacheus StepTraces

variable {c : Setup} {s t : Experts} {x : Nat}

abbrev Gets (c : Setup) (mayGet : Experts → Request → Prop) : Experts → Experts → Prop :=
  RecordedCalls.Called (cacheus c) (cacheusRemove c) (fun s r => r.objSize = 1 ∧ mayGet s r)
    fun _ _ => False

theorem init_steady (large : 2 ≤ c.cacheSize) (left : BitVec 64) :
    Steady c.cacheSize (cacheusInit c left).lru where
  toUnits := init_units large left
  fits := Nat.zero_le _
  demoted := rfl
  new := rfl

theorem served_drifts (steady : Steady c.cacheSize s.lru) (large : 2 ≤ c.cacheSize) {hit : Bool}
    (served : Serves (cacheus c) s ⟨x, 1⟩ hit t) :
    Units c.cacheSize t.lru ∧ t.lru.held.length ≤ c.cacheSize ∧
      (t.lru.demotedSurplus = 0 ∧ t.lru.newSurplus = 0 ↔ ¬ Drifts c.cacheSize s.lru x) := by
  obtain ⟨N, run⟩ := served
  obtain ⟨vote, projected⟩ := (cacheusGet_projects (run N le_rfl)).exists
  exact cacheusGet_drifts steady large projected

theorem gets_steady (large : 2 ≤ c.cacheSize) {left : BitVec 64}
    (history : Reachable (Gets c fun s r => ¬ Drifts c.cacheSize s.lru r.objId) (cacheusInit c left) s) :
    Steady c.cacheSize s.lru := by
  refine history.invariant (fun s => Steady c.cacheSize s.lru) (init_steady large left) ?_
  intro s t steady call
  cases call with
  | get r allowed served =>
    obtain ⟨x, size⟩ := r
    obtain ⟨unit, calm⟩ := allowed
    have unit : size = 1 := unit
    subst unit
    obtain ⟨ok, fits, level⟩ := served_drifts steady large served
    obtain ⟨demoted, new⟩ := level.mpr calm
    exact { ok with fits := fits, demoted := demoted, new := new }
  | remove _ allowed _ => exact allowed.elim

theorem gets_settled {mayGet : Experts → Request → Prop} (large : 2 ≤ c.cacheSize)
    (counted : c.cacheSize < 2 ^ 32) {left : BitVec 64}
    (history : Reachable (Gets c mayGet) (cacheusInit c left) s) : Settled c s := by
  refine history.invariant (Settled c) (init_settled large left) ?_
  intro s t settled call
  cases call with
  | get r allowed served =>
    obtain ⟨x, size⟩ := r
    have unit : size = 1 := allowed.1
    subst unit
    exact ((cacheusGet_ends settled large counted x).result served).1
  | remove _ allowed _ => exact allowed.elim

/-- In every run of requests that take no counted mark away, the counters are the numbers of
marked objects and the two lists share the cache. After one more request that returns, this
is so if and only if the request takes no counted mark away; up to 32 bits of cache size
every request returns. -/
theorem srLru_counted_iff {c : Setup} (large : 2 ≤ c.cacheSize) (wide : c.cacheSize < 2 ^ 64)
    {left : BitVec 64} {s : Experts}
    (history : Reachable (Gets c fun s r => ¬ Drifts c.cacheSize s.lru r.objId) (cacheusInit c left) s) :
    Counted c.cacheSize s.lru ∧
      (∀ x hit t, Serves (cacheus c) s ⟨x, 1⟩ hit t →
        (Counted c.cacheSize t.lru ↔ ¬ Drifts c.cacheSize s.lru x)) ∧
      (c.cacheSize < 2 ^ 32 → ∀ x, ∃ hit t, Serves (cacheus c) s ⟨x, 1⟩ hit t) := by
  have steady := gets_steady large history
  refine ⟨(counted_iff steady.toUnits steady.fits wide).mpr ⟨steady.demoted, steady.new⟩, ?_, ?_⟩
  · intro x hit t served
    obtain ⟨ok, fits, level⟩ := served_drifts steady large served
    exact (counted_iff ok fits wide).trans level
  · intro counted x
    have settled := gets_settled large counted history
    obtain ⟨⟨hit, t⟩, served, _⟩ := cacheusGet_ends settled large counted x
    exact ⟨hit, t, served⟩

/-- A cache of three with a demoted object in `SR_list` and an object in `H_list` that left
when it was new. -/
theorem srLru_counted_iff_marks : ∃ s,
    Reachable (Gets units3 fun s r => ¬ Drifts units3.cacheSize s.lru r.objId) (cacheusInit units3 0) s ∧
      s.lru.cDemoted = 1 ∧ s.lru.cNew = 1 ∧ Counted 3 s.lru := by
  have run : (RecordedCalls.callAll (cacheus units3) (cacheusRemove units3)
      (fun s r => decide (r.objSize = 1 ∧ ¬ Drifts units3.cacheSize s.lru r.objId)) (fun _ _ => false) 6
      (cacheusInit units3 0)
      [.get ⟨3, 1⟩, .get ⟨1, 1⟩, .get ⟨1, 1⟩, .get ⟨2, 1⟩, .get ⟨2, 1⟩, .get ⟨4, 1⟩]).map
        (fun s => (s.lru.cDemoted, s.lru.cNew)) = some (1, 1) := by
    decide +kernel
  obtain ⟨s, reached, facts⟩ := Option.map_eq_some_iff.mp run
  obtain ⟨demoted, new⟩ := Prod.mk.inj facts
  have history : Reachable (Gets units3 fun s r => ¬ Drifts units3.cacheSize s.lru r.objId)
      (cacheusInit units3 0) s :=
    RecordedCalls.callAll_reachable (cacheusGet_mono units3) (fun _ _ ok => of_decide_eq_true ok)
      (fun _ _ refused => Bool.noConfusion refused) reached
  exact ⟨s, history, demoted, new, (srLru_counted_iff (by decide) (by decide) history).1⟩

/-- Two runs of a cache of two. In the first a demoted object is hit, and `C_demoted` is 2
with one demoted object in the lists. In the second an entry is driven out of `H_list`, and
`C_new` is 2 with one entry in it. -/
theorem srLru_miscounts :
    (∃ s, Reachable (Gets units2 fun _ _ => True) (cacheusInit units2 0) s ∧ s.lru.cDemoted = 2 ∧
      s.lru.srList.objs.countP (fun o => o.tag.demoted) + s.lru.rList.objs.countP (fun o => o.tag.demoted) = 1 ∧
      ¬ Counted 2 s.lru) ∧
    ∃ s, Reachable (Gets units2 fun _ _ => True) (cacheusInit units2 0) s ∧ s.lru.cNew = 2 ∧
      s.lru.hList.objs.length = 1 ∧ ¬ Counted 2 s.lru := by
  have history : ∀ {calls s}, RecordedCalls.callAll (cacheus units2) (cacheusRemove units2)
      (fun _ r => decide (r.objSize = 1)) (fun _ _ => false) 5 (cacheusInit units2 0) calls = some s →
      Reachable (Gets units2 fun _ _ => True) (cacheusInit units2 0) s := fun reached =>
    RecordedCalls.callAll_reachable (cacheusGet_mono units2) (fun _ _ ok => ⟨of_decide_eq_true ok, trivial⟩)
      (fun _ _ refused => Bool.noConfusion refused) reached
  constructor
  · have run : (RecordedCalls.callAll (cacheus units2) (cacheusRemove units2)
        (fun _ r => decide (r.objSize = 1)) (fun _ _ => false) 5 (cacheusInit units2 0)
        [.get ⟨1, 1⟩, .get ⟨1, 1⟩, .get ⟨2, 1⟩, .get ⟨2, 1⟩, .get ⟨1, 1⟩]).map
          (fun s => (s.lru.cDemoted, s.lru.srList.objs.countP (fun o => o.tag.demoted) +
            s.lru.rList.objs.countP (fun o => o.tag.demoted))) = some (2, 1) := by
      decide +kernel
    obtain ⟨s, reached, facts⟩ := Option.map_eq_some_iff.mp run
    obtain ⟨counter, marks⟩ := Prod.mk.inj facts
    refine ⟨s, history reached, counter, marks, fun counted => ?_⟩
    have equal := counted.demoted
    rw [counter, marks] at equal
    cases equal
  · have run : (RecordedCalls.callAll (cacheus units2) (cacheusRemove units2)
        (fun _ r => decide (r.objSize = 1)) (fun _ _ => false) 5 (cacheusInit units2 0)
        [.get ⟨1, 1⟩, .get ⟨2, 1⟩, .get ⟨3, 1⟩, .get ⟨4, 1⟩]).map
          (fun s => (s.lru.cNew, s.lru.hList.objs.length)) = some (2, 1) := by
      decide +kernel
    obtain ⟨s, reached, facts⟩ := Option.map_eq_some_iff.mp run
    obtain ⟨counter, entries⟩ := Prod.mk.inj facts
    refine ⟨s, history reached, counter, entries, fun counted => ?_⟩
    have few := List.countP_le_length (p := fun o : CacheObj Marks => o.tag.newObj) (l := s.lru.hList.objs)
    rw [← counted.new, counter, entries] at few
    exact absurd few (by decide)

end CacheusExperts
