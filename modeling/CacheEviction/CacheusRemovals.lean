import CacheEviction.CacheusAgreement
import CacheEviction.RecordedCalls

/-!
# Removals from Cacheus

`Cacheus_remove` takes an object out of both experts, for `H_list`. `CR_LFU_remove` looks
for the next frequency above an empty node and, if there is none, leaves `min_freq` where it
is, while `CR_LFU_evict` sets it to -1. An object that then comes back from `H_list` as the
only one has a frequency that may be above `min_freq`, and `CR_LFU_insert` only lowers it.
-/
namespace CacheusExperts

open FuelLoops FifoCache CacheGet Cacheus LruRuns StepTraces

variable {c : Setup} {s t : Experts} {x : Nat}

def cacheusRemove (c : Setup) (s : Experts) (id : Nat) :
    Except (Stop Cacheus.Fault) (Bool × Experts) := do
  let lruRemoved := (s.lru.rList.find id).isSome || (s.lru.srList.find id).isSome
  let s ← lruRemove c s id
  let s ← lfuRemove s id
  return (lruRemoved, s)

/-- What is expected of `CR_LFU` while it holds an object: the node of `min_freq` has an
object, no object has a smaller frequency, and the victim is an object of this frequency. -/
def Knows (s : CrLfu.State) : Prop :=
  ∀ id obj, s.objs id = some obj →
    (∃ node, s.freqMap s.minFreq = some node ∧ node.objs ≠ [] ∧ 0 < node.nObj) ∧
    (∀ y p, s.objs y = some p → s.minFreq ≤ p.freq) ∧
    ∃ v p, CrLfu.crLfuToEvict s = some v ∧ s.objs v = some p ∧ p.freq = s.minFreq

/-- The cache is empty, and the id would come back from `H_list` with a frequency that is
above `min_freq`. -/
def Stale (s : Experts) (x : Nat) : Prop :=
  s.lru.held = [] ∧ x ∈ resident s.lru.hList ∧ s.lfu.minFreq ≠ -1 ∧ s.lfu.minFreq < s.historyFreq x + 1

instance (s : Experts) (x : Nat) : Decidable (Stale s x) := inferInstanceAs (Decidable (_ ∧ _))

/-- Calls of `Cacheus_get` for objects of one byte, of a kind, and of `Cacheus_remove`. -/
abbrev Calls (c : Setup) (mayGet : Experts → Request → Prop) : Experts → Experts → Prop :=
  RecordedCalls.Called (cacheus c) (cacheusRemove c) (fun s r => r.objSize = 1 ∧ mayGet s r)
    fun _ _ => True

/-! ## The least frequency -/

theorem knows_iff_sound {s : CrLfu.State} (indexed : CrLfu.Indexed s) : Knows s ↔ CrLfu.Sound s := by
  constructor
  · intro knows
    refine ⟨indexed, fun stored => ?_⟩
    obtain ⟨⟨node, found, some_, _⟩, below, _⟩ := knows _ _ stored
    exact ⟨⟨node, found, some_⟩, fun other => below _ _ other⟩
  · intro sound id obj stored
    have least := sound.least stored
    obtain ⟨node, found, some_⟩ := least.node
    have last := List.getLast?_eq_some_getLast some_
    obtain ⟨p, held, freq⟩ := sound.freq_of found (List.mem_of_getLast? last)
    refine ⟨⟨node, found, some_, (sound.positive_iff found).mpr some_⟩, fun y p other => least.below other,
      _, p, ?_, held, freq⟩
    rw [CrLfu.crLfuToEvict, found]
    exact last

/-! ## Requests -/

theorem cacheusFind_lfu {r : Request} {a : Bool × Experts} (run : cacheusFind c s r = .ok a)
    (absent : s.lfu.objs r.objId = none) : a.2.lfu = s.lfu := by
  obtain ⟨⟨hit, lru⟩, _, run⟩ := bind_eq_ok.mp run
  obtain ⟨⟨_, lfu⟩, found, run⟩ := bind_eq_ok.mp run
  rw [CrLfu.crLfuFind_absent absent] at found
  cases found
  cases run
  cases hit with
  | true => rfl
  | false => rfl

/-- While room is made, an empty cache stays as it was found. -/
structure Opening (c : Setup) (s : Experts) (x : Nat) (u : Experts) : Prop extends Making c s x u where
  idle : u.lru.held = [] → u.lfu = s.lfu ∧ u.historyFreq = s.historyFreq

theorem insert_alone (incoming : Incoming c s x) (large : 2 ≤ c.cacheSize) (empty : s.lru.held = [])
    (past : x ∈ resident s.lru.hList) :
    ∃ t, cacheusInsert c s ⟨x, 1⟩ = .ok t ∧ (¬ Stale s x → Agreed c t) ∧ (Stale s x → ¬ Knows t.lfu) := by
  have agreed := incoming.toAgreed
  have hollow : ∀ y, s.lfu.objs y = none := fun y => agreed.absent (by rw [empty]; exact List.not_mem_nil)
  obtain ⟨freq, positive⟩ := agreed.recorded x past
  have recalls : recalled s x = some (s.evictedFreq x) := by rw [recalled_eq agreed, if_pos past]
  have known : ∀ f ∈ recalled s x, 1 ≤ f := by
    rw [recalls]
    rintro f ⟨⟩
    exact positive
  have entering : ((recalled s x).map (· + 1)).getD 1 = s.evictedFreq x + 1 := by
    rw [recalls]
    rfl
  obtain ⟨objs, indexed, sound_iff⟩ :=
    @CrLfu.crLfuInsert_alone _ x _ _ agreed.sound.toIndexed hollow 1 known entering
  obtain ⟨lru, run, entered⟩ := cacheusInsert_run incoming large
  have stale_iff : Stale s x ↔ ¬ CrLfu.Sound (CrLfu.crLfuInsert s.lfu x 1 (recalled s x)) := by
    rw [sound_iff, Stale, freq]
    simp only [empty, past, true_and]
    omega
  refine ⟨_, run, ?_, ?_⟩
  · intro fresh
    have sound := not_not.mp (stale_iff.not.mp fresh)
    exact (incoming.inserted entered sound (by rw [objs, if_pos past])).toAgreed
  · intro stale knows
    exact stale_iff.mp stale ((knows_iff_sound indexed).mp knows)

theorem Opening.insert {u : Experts} (opening : Opening c s x u) (large : 2 ≤ c.cacheSize)
    (counted : c.cacheSize < 2 ^ 32) (room : u.lru.held.length + 1 ≤ c.cacheSize) :
    ∃ t, cacheusInsert c u ⟨x, 1⟩ = .ok t ∧ (¬ Stale s x → Agreed c t) ∧ (Stale s x → ¬ Knows t.lfu) := by
  have incoming := opening.toMaking.incoming room
  by_cases alone : u.lru.held = [] ∧ x ∈ resident u.lru.hList
  · obtain ⟨empty, past⟩ := alone
    obtain ⟨lfu, freq⟩ := opening.idle empty
    have same : Stale u x ↔ Stale s x := by
      rcases opening.steps with ⟨length, history⟩ | ⟨_, one, _⟩
      · rw [Stale, Stale, lfu, freq, history, ← List.length_eq_zero_iff, ← List.length_eq_zero_iff, length]
      · rw [empty, List.length_nil] at one
        omega
    rw [← same]
    exact insert_alone incoming large empty past
  · obtain ⟨t, run, inserted⟩ := cacheusInsert_inserted incoming large counted
      fun past empty => alone ⟨empty, past⟩
    refine ⟨t, run, fun _ => inserted.toAgreed, fun stale => ?_⟩
    -- an empty cache has no one to evict
    rcases opening.steps with ⟨length, history⟩ | ⟨full, _⟩
    · refine absurd ⟨?_, ?_⟩ alone
      · rw [← List.length_eq_zero_iff, length, stale.1]
        rfl
      · rw [history]
        exact stale.2.1
    · rw [stale.1, List.length_nil] at full
      omega

theorem Opening.evict {u : Experts} (opening : Opening c s x u) (large : 2 ≤ c.cacheSize) {v : Nat}
    (evicted : Evicted c u v t) (full : u.lru.held.length = c.cacheSize) : Opening c s x t := by
  refine ⟨opening.toMaking.evict evicted full, fun empty => ?_⟩
  have length := evicted.held.length_eq
  rw [empty, List.length_singleton] at length
  omega

theorem cacheusGet_agreed (agreed : Agreed c s) (large : 2 ≤ c.cacheSize) (counted : c.cacheSize < 2 ^ 32)
    (x : Nat) : Ends (fun n => cacheGetBase (cacheus c) n s ⟨x, 1⟩)
      fun a => (¬ Stale s x → Agreed c a.2) ∧ (Stale s x → ¬ Knows a.2.lfu) := by
  refine cacheGetBase_ends
    (Q := fun _ t => (¬ Stale s x → Agreed c t) ∧ (Stale s x → ¬ Knows t.lfu))
    (Opening c s x) (Opening c s x) (fun u => u.lru.held.length) ?_ ?_ ?_ ?_
  · obtain ⟨t, run, found⟩ := cacheusFind_found agreed counted ⟨x, 1⟩
    refine ⟨_, t, run, ?_⟩
    have length := found.moved.held.length_eq
    by_cases here : x ∈ s.lru.held
    · rw [if_pos (decide_eq_true here)]
      refine ⟨fun _ => found.toAgreed, fun stale => ?_⟩
      rw [stale.1] at here
      cases here
    · rw [if_neg fun hit => here (of_decide_eq_true hit)]
      exact { found.toAgreed with
        missing := fun member => here (found.moved.held.subset member)
        forgotten := found.forgotten here
        known := congrFun found.evictedFreq x
        steps := Or.inl ⟨length, by rw [found.moved.hList]⟩
        idle := fun _ => ⟨cacheusFind_lfu run (agreed.absent here), found.historyFreq⟩ }
  · intro t opening
    have small : 1 ≤ c.cacheSize := by omega
    simp only [cacheus, small, decide_true]
    exact Ends.const opening
  · intro u opening crowded
    have crowded : (c.cacheSize : Int) < srLruOccupied c.lists u.lru + 1 := crowded
    rw [Setup.lists, srLruOccupied_units opening.lists.toPlain] at crowded
    have fits := opening.fits
    have full : u.lru.held.length = c.cacheSize := by omega
    refine (cacheusEvict_evicted opening.toAgreed large full).mono ?_
    rintro t ⟨v, evicted⟩
    have length := evicted.held.length_eq
    rw [List.length_cons] at length
    exact ⟨opening.evict large evicted full, by omega⟩
  · intro u opening room
    have room : srLruOccupied c.lists u.lru + 1 ≤ (c.cacheSize : Int) := room
    rw [Setup.lists, srLruOccupied_units opening.lists.toPlain] at room
    exact opening.insert large counted (by omega)

/-! ## Removals -/

theorem cacheusRemove_present (agreed : Agreed c s) (large : 2 ≤ c.cacheSize) (here : x ∈ s.lru.held) :
    ∃ t, cacheusRemove c s x = .ok (true, t) ∧ Agreed c t := by
  obtain ⟨o, stored⟩ := agreed.stored here
  obtain ⟨lru, lruRun, left⟩ := srLruRemove_units agreed.lists large here
  obtain ⟨lfu, lfuRun, sound, objs⟩ := CrLfu.crLfuRemove_takes agreed.sound stored
  have removed := (lfuRemove_run (s := { s with
    lru := lru, historyFreq := Function.update s.historyFreq x 0 }) lfuRun left.entry).trans
    (congrArg _ (departed_after s lru lfu x o.freq))
  refine ⟨_, ?_, (departed_evicted agreed left sound stored objs).toAgreed⟩
  simp only [cacheusRemove, lruRemove_run here lruRun, lru_present here]
  exact map_eq_ok.mpr ⟨_, removed, rfl⟩

theorem cacheusRemove_absent (agreed : Agreed c s) (gone : x ∉ s.lru.held) :
    cacheusRemove c s x = .ok (false, s) := by
  have inSr := find_of_absent fun member => gone (List.mem_append_left _ member)
  have inR := find_of_absent fun member => gone (List.mem_append_right (resident s.lru.srList) member)
  have first : lruRemove c s x = .ok s := by
    simp only [lruRemove, srLruRemove, inSr, inR]
    rfl
  have second : lfuRemove s x = .ok s := by
    rw [lfuRemove, CrLfu.crLfuRemove, agreed.absent gone]
    rfl
  rw [cacheusRemove, first, inSr, inR]
  exact map_eq_ok.mpr ⟨s, second, rfl⟩

theorem cacheusRemove_agreed (agreed : Agreed c s) (large : 2 ≤ c.cacheSize) (x : Nat) :
    ∃ found t, cacheusRemove c s x = .ok (found, t) ∧ Agreed c t := by
  by_cases here : x ∈ s.lru.held
  · obtain ⟨t, run, after⟩ := cacheusRemove_present agreed large here
    exact ⟨true, t, run, after⟩
  · exact ⟨false, s, cacheusRemove_absent agreed here, agreed⟩

/-! ## Runs -/

theorem calls_agreed (large : 2 ≤ c.cacheSize) (counted : c.cacheSize < 2 ^ 32) {left : BitVec 64}
    (history : Reachable (Calls c fun s r => ¬ Stale s r.objId) (cacheusInit c left) s) : Agreed c s := by
  refine history.invariant (Agreed c) (init_agreed large left) ?_
  intro s t agreed call
  cases call with
  | get r allowed served =>
    obtain ⟨x, size⟩ := r
    obtain ⟨unit, fresh⟩ := allowed
    have unit : size = 1 := unit
    subst unit
    exact ((cacheusGet_agreed agreed large counted x).result served).1 fresh
  | remove id _ removed =>
    obtain ⟨found, u, run, after⟩ := cacheusRemove_agreed agreed large id
    cases run.symm.trans removed
    exact after

/-- In every run without a stale request `CR_LFU` knows its minimum. A further request is
served, and `CR_LFU` knows its minimum after it if and only if the request is not stale; a
further removal returns, and `CR_LFU` knows its minimum after it. -/
theorem crLfu_knows_iff {c : Setup} (large : 2 ≤ c.cacheSize) (counted : c.cacheSize < 2 ^ 32)
    {left : BitVec 64} {s : Experts}
    (history : Reachable (Calls c fun s r => ¬ Stale s r.objId) (cacheusInit c left) s) :
    Knows s.lfu ∧
      (∀ x, ∃ hit t, Serves (cacheus c) s ⟨x, 1⟩ hit t ∧ (Knows t.lfu ↔ ¬ Stale s x)) ∧
      ∀ x, ∃ found t, cacheusRemove c s x = .ok (found, t) ∧ Knows t.lfu := by
  have agreed := calls_agreed large counted history
  have knows : ∀ {t}, Agreed c t → Knows t.lfu :=
    fun after => (knows_iff_sound after.sound.toIndexed).mpr after.sound
  refine ⟨knows agreed, fun x => ?_, fun x => ?_⟩
  · obtain ⟨⟨hit, t⟩, served, fresh, stale⟩ := cacheusGet_agreed agreed large counted x
    refine ⟨hit, t, served, fun found isStale => stale isStale found, fun notStale => ?_⟩
    exact knows (fresh notStale)
  · obtain ⟨found, t, run, after⟩ := cacheusRemove_agreed agreed large x
    exact ⟨found, t, run, knows after⟩

/-- A cache of three. Object 1 is removed, which leaves object 2, and comes back from `H_list`
with frequency 2. -/
theorem crLfu_knows_iff_return : ∃ s,
    Reachable (Calls units3 fun s r => ¬ Stale s r.objId) (cacheusInit units3 0) s ∧
      (s.lfu.objs 1).map CrLfu.Obj.freq = some 2 ∧ Knows s.lfu := by
  have run : (RecordedCalls.callAll (cacheus units3) (cacheusRemove units3)
      (fun s r => decide (r.objSize = 1 ∧ ¬ Stale s r.objId)) (fun _ _ => true) 5 (cacheusInit units3 0)
      [.get ⟨1, 1⟩, .get ⟨2, 1⟩, .remove 1, .get ⟨1, 1⟩]).map
        (fun s => (s.lfu.objs 1).map CrLfu.Obj.freq) = some (some 2) := by
    decide +kernel
  obtain ⟨s, reached, freq⟩ := Option.map_eq_some_iff.mp run
  have history : Reachable (Calls units3 fun s r => ¬ Stale s r.objId) (cacheusInit units3 0) s :=
    RecordedCalls.callAll_reachable (cacheusGet_mono units3) (fun _ _ ok => of_decide_eq_true ok)
      (fun _ _ _ => trivial) reached
  exact ⟨s, history, freq, (crLfu_knows_iff (by decide) (by decide) history).1⟩

/-- Object 1 is requested, removed and requested again, in a cache of two. It has frequency 2,
`min_freq` is 1, and there is no victim. -/
theorem crLfu_loses_minimum : ∃ s,
    Reachable (Calls units2 fun _ _ => True) (cacheusInit units2 0) s ∧
      s.lfu.objs 1 = some ⟨1, 2⟩ ∧ s.lfu.minFreq = 1 ∧ CrLfu.crLfuToEvict s.lfu = none ∧
      ¬ Knows s.lfu := by
  have run : (RecordedCalls.callAll (cacheus units2) (cacheusRemove units2)
      (fun _ r => decide (r.objSize = 1)) (fun _ _ => true) 5 (cacheusInit units2 0)
      [.get ⟨1, 1⟩, .remove 1, .get ⟨1, 1⟩]).map
        (fun s => (s.lfu.objs 1, s.lfu.minFreq, CrLfu.crLfuToEvict s.lfu)) =
      some (some ⟨1, 2⟩, 1, none) := by
    decide +kernel
  obtain ⟨s, reached, facts⟩ := Option.map_eq_some_iff.mp run
  simp only [Prod.mk.injEq] at facts
  obtain ⟨stored, least, victim⟩ := facts
  refine ⟨s, ?_, stored, least, victim, fun knows => ?_⟩
  · exact RecordedCalls.callAll_reachable (cacheusGet_mono units2)
      (fun _ _ ok => ⟨of_decide_eq_true ok, trivial⟩) (fun _ _ _ => trivial) reached
  · obtain ⟨_, _, v, p, found, _⟩ := knows 1 _ stored
    cases victim.symm.trans found

end CacheusExperts
