import CacheEviction.LfuRuns

/-!
# LFU with more objects than a node can count

2^32 + 1 objects of one byte are requested once each. The node of frequency 1 then holds all
of them, and its 32-bit count is 1. A hit on one of them brings the count to 0, so that
`min_freq` rises to 2, and the next eviction takes the object that was hit.
-/
namespace Lfu

open FifoCache FuelLoops CacheGet RecordedCalls StepTraces WeightedLists Function
open CrLfu (FreqNode)

/-- The objects below `n` were requested once each, in order. -/
structure Filled (n : Nat) (s : State) (l : Ledger Standing) : Prop where
  objs : s.table.objs = (List.range n).map fun id => ⟨id, 1, 1⟩
  first : s.freqMap 1 = some ⟨UInt32.ofNat n, List.range n⟩
  second : s.freqMap 2 = none
  minFreq : s.minFreq = 1
  maxFreq : s.maxFreq = 1
  standings : ∀ id < n, ∃ reached, l.standings id = some ⟨1, reached⟩

variable {n : Nat} {s : State} {l : Ledger Standing}

theorem Filled.find (filled : Filled n s l) {id : Nat} (below : id < n) :
    s.table.find id = some ⟨id, 1, 1⟩ := by
  have present : id ∈ s.table.objs.map CacheObj.objId := by
    rw [filled.objs, List.map_map]
    exact List.mem_map.mpr ⟨id, List.mem_range.mpr below, rfl⟩
  cases found : s.table.find id with
  | none => exact absurd present (Fifo.find_eq_none.mp found)
  | some o =>
    have own := Fifo.find_objId found
    have member := Fifo.find_mem found
    rw [filled.objs] at member
    obtain ⟨i, _, rfl⟩ := List.mem_map.mp member
    cases own
    rfl

theorem Filled.find_new (filled : Filled n s l) {id : Nat} (above : n ≤ id) :
    s.table.find id = none := by
  rw [Fifo.find_eq_none, filled.objs, List.map_map]
  intro member
  obtain ⟨i, below, rfl⟩ := List.mem_map.mp member
  have small := List.mem_range.mp below
  simp only [Function.comp_apply] at above
  omega

theorem Filled.distinct (filled : Filled n s l) : s.table.Distinct := by
  refine (nodup_iff_copies CacheObj.objId s.table.objs).mp ?_
  rw [filled.objs, List.map_map]
  exact List.nodup_range.map fun _ _ same => same

theorem Filled.occupied (filled : Filled n s l) : s.table.occupiedByte = n := by
  have one : ∀ id : Nat, CacheObj.bytes (⟨id, 1, 1⟩ : CacheObj Int) = 1 := fun _ => rfl
  rw [s.table.occupied_eq, filled.objs]
  simp [total, Function.comp_def, one]

abbrev AnyCalls (c : Nat) : State × Ledger Standing → State × Ledger Standing → Prop :=
  Calls ⟨c, false⟩ fun _ _ => True

theorem fill_one {c : Nat} (filled : Filled n s l) (room : n < c) :
    ∃ hit t, Serves (bookkeeper.policy (lfu ⟨c, false⟩)) (s, l) ⟨n, 1⟩ hit t ∧
      Filled (n + 1) t.1 t.2 := by
  let ticked : State := { s with nReq := s.nReq + 1 }
  have missed : s.table.find n = none := filled.find_new le_rfl
  refine serves_of (p := bookkeeper.policy (lfu ⟨c, false⟩)) (Q := fun _ t => Filled (n + 1) t.1 t.2)
    (fun a => a = (ticked, l)) (fun _ => 0) true ?_ ?_ ?_ ?_ ?_
  · rintro k _ rfl
    have fits : 1 ≤ c := by omega
    simp [Recorder.policy, lfu, Setup.objMdSize, Except.map, fits]
  · refine ⟨false, (ticked, l), ?_, rfl⟩
    simp only [Recorder.policy, lfu, lfuFind, missed]
    rfl
  · intro _ _ impossible
    cases impossible
  · rintro _ rfl _ full
    have bytes := filled.occupied
    simp only [Recorder.policy, lfu, Setup.objMdSize, occupiedByte, ticked, bytes] at full
    simp at full
    omega
  · rintro _ rfl _ _
    have run : lfuInsert ticked ⟨n, 1⟩ = .ok { ticked with
        table := s.table.insert ⟨n, 1⟩ 1
        freqMap := update s.freqMap 1
          (some (FreqNode.push ⟨UInt32.ofNat n, List.range n⟩ n))
        minFreq := 1 } := by
      simp only [lfuInsert, ticked, filled.first]
    refine ⟨_, congrArg (Except.map _) run, ?_⟩
    constructor
    · have last := congrArg (· ++ [(⟨n, 1, 1⟩ : CacheObj Int)]) filled.objs
      simp only [List.range_succ, List.map_append, List.map_cons, List.map_nil]
      exact last
    · simp only [update_self, FreqNode.push, UInt32.ofNat_add, List.range_succ]
      rfl
    · simp only [update_of_ne (by decide : (2 : Int) ≠ 1)]
      exact filled.second
    · rfl
    · exact filled.maxFreq
    · intro id below
      by_cases last : id = n
      · exact ⟨_, by rw [last]; exact update_self ..⟩
      · obtain ⟨reached, known⟩ := filled.standings id (by omega)
        exact ⟨reached, (update_of_ne last _ _).trans known⟩

theorem fills {c : Nat} (n : Nat) (room : n ≤ c) :
    ∃ s l, Reachable (AnyCalls c) (lfuInit, .empty) (s, l) ∧ Filled n s l := by
  induction n with
  | zero =>
    refine ⟨lfuInit, .empty, .refl, ?_⟩
    constructor
    · rfl
    · rfl
    · rfl
    · rfl
    · rfl
    · intro id impossible
      omega
  | succ n ih =>
    obtain ⟨s, l, history, filled⟩ := ih (by omega)
    obtain ⟨hit, ⟨t, k⟩, served, after⟩ := fill_one filled (Nat.lt_of_succ_le room)
    exact ⟨t, k, history.next (.get _ trivial served), after⟩

/-! ## The hit -/

/-- One object more than the count of a node can tell from none. -/
def tooMany : Nat := 2 ^ 32 + 1

/-- The object 0 was requested twice, and all others once, but `min_freq` is 2. -/
structure Misled (s : State) (l : Ledger Standing) : Prop where
  own : s.table.find 0 = some ⟨0, 1, 2⟩
  others : ∀ id, tooMany ≤ id → s.table.find id = none
  distinct : s.table.Distinct
  occupied : s.table.occupiedByte = tooMany
  first : ∃ node, s.freqMap 1 = some node
  second : s.freqMap 2 = some ⟨1, [0]⟩
  minFreq : s.minFreq = 2
  twice : ∃ reached, l.standings 0 = some ⟨2, reached⟩
  once : ∃ reached, l.standings 1 = some ⟨1, reached⟩

theorem nextFreq_two {i : CrLfu.State} (minFreq : i.minFreq = 1) (maxFreq : i.maxFreq = 2)
    (second : i.freqMap 2 = some ⟨1, [0]⟩) : i.nextFreq = some 2 := by
  have one : ((2 : Int) - 1).toNat = 1 := rfl
  rw [CrLfu.State.nextFreq, minFreq, maxFreq, one]
  simp [second]

theorem misled_of_hit (filled : Filled tooMany s l) :
    ∃ hit t, Serves (bookkeeper.policy (lfu ⟨tooMany, false⟩)) (s, l) ⟨0, 1⟩ hit t ∧
      Misled t.1 t.2 := by
  let ticked : State := { s with nReq := s.nReq + 1 }
  let node : FreqNode := ⟨UInt32.ofNat tooMany, List.range tooMany⟩
  let after : State := moved ticked 0 ⟨0, 1, 1⟩ node
  have found : ticked.table.find 0 = some ⟨0, 1, 1⟩ := filled.find (by decide)
  have first : ticked.freqMap 1 = some node := filled.first
  have second : after.freqMap 2 = some ⟨1, [0]⟩ := by
    simp [after, ticked, moved, filled.second, FreqNode.push]
  have highest : after.maxFreq = 2 := by
    simp [after, ticked, moved, filled.maxFreq]
  have next : after.index.nextFreq = some 2 := nextFreq_two filled.minFreq highest second
  have zero : (node.drop 0).nObj = 0 := by decide
  have run : lfuFind ticked ⟨0, 1⟩ = .ok (true, { after with minFreq := 2 }) := by
    have run := lfuFind_settled (r := ⟨0, 1⟩) found first
    have least : ticked.minFreq = 1 := filled.minFreq
    rw [run, if_neg fun both => both.2 rfl, settled, if_pos ⟨least, zero⟩, updateMinFreq, next]
    rfl
  obtain ⟨reached, known⟩ := filled.standings 0 (by decide)
  have touched : touch l 0 (s.nReq + 1) = l.enter 0 ⟨2, s.nReq + 1⟩ := by
    simp only [touch, known]
    rfl
  refine ⟨true, ({ after with minFreq := 2 }, l.enter 0 ⟨2, s.nReq + 1⟩), ?_, ?_⟩
  · refine serves_hit ?_
    rw [← touched]
    exact congrArg (Except.map _) run
  · have table := Fifo.find_retag (fun _ => (1 : Int) + 1) found
    constructor
    · exact (congrFun table 0).trans (update_self ..)
    · intro id above
      have apart : id ≠ 0 := by
        have positive : 0 < tooMany := by decide
        omega
      exact (congrFun table id).trans ((update_of_ne apart _ _).trans (filled.find_new above))
    · exact filled.distinct.retag _ _
    · exact filled.occupied
    · refine ⟨node.drop 0, ?_⟩
      simp [after, moved]
    · exact second
    · rfl
    · refine ⟨s.nReq + 1, ?_⟩
      simp [Ledger.enter]
    · obtain ⟨time, other⟩ := filled.standings 1 (by decide)
      refine ⟨time, ?_⟩
      simp [Ledger.enter, other]

/-! ## The eviction -/

theorem misled_evicts (misled : Misled s l) :
    ∃ hit t, Serves (bookkeeper.policy (lfu ⟨tooMany, false⟩)) (s, l) ⟨tooMany, 1⟩ hit t ∧
      ∃ e ∈ t.2.evictions, ¬ e.Least Standing.le := by
  let ticked : State := { s with nReq := s.nReq + 1 }
  let left : State := { ticked with
    table := s.table.remove 0
    freqMap := update s.freqMap 2 (some ⟨0, []⟩)
    minFreq := 0 }
  have missed : s.table.find tooMany = none := misled.others _ le_rfl
  have bytes : left.table.occupiedByte = tooMany - 1 := by
    have rest := Fifo.total_remove_found CacheObj.bytes misled.own
    rw [left.table.occupied_eq]
    refine rest.trans ?_
    rw [← s.table.occupied_eq, misled.occupied]
    rfl
  have evicted : lfuEvict ticked = .ok left := by
    have least : ticked.minFreq = 2 := misled.minFreq
    have second : ticked.freqMap 2 = some ⟨1, [0]⟩ := misled.second
    have lookup : getMinFreqNode ticked = (ticked, some ⟨1, [0]⟩) := by
      simp [getMinFreqNode, least, second]
    simp only [lfuEvict, lookup, List.head?_cons, least, FreqNode.drop]
    rfl
  have cached : (s.table.find 0).isSome = true := by
    rw [misled.own]
    rfl
  refine serves_of (p := bookkeeper.policy (lfu ⟨tooMany, false⟩))
    (Q := fun _ t => ∃ e ∈ t.2.evictions, ¬ e.Least Standing.le)
    (fun a => a = (ticked, l) ∨ a = (left, l.evict 0)) (fun a => a.1.table.objs.length) true ?_ ?_ ?_ ?_ ?_
  · intro k t _
    have fits : 1 ≤ tooMany := by decide
    simp [Recorder.policy, lfu, Setup.objMdSize, Except.map, fits]
  · refine ⟨false, (ticked, l), ?_, .inl rfl⟩
    simp only [Recorder.policy, lfu, lfuFind, missed]
    rfl
  · intro _ _ impossible
    cases impossible
  · rintro u (rfl | rfl) _ full
    · refine ⟨(left, l.evict 0), ?_, .inr rfl, Fifo.length_remove_lt misled.own⟩
      intro k
      have entered := l.depart_remove misled.distinct cached (t := left.table) rfl
      have step := congrArg (Except.map fun t => (t, l.depart s.table t.table)) evicted
      rw [← entered]
      exact step
    · simp only [Recorder.policy, lfu, Setup.objMdSize, occupiedByte, bytes] at full
      simp at full
  · rintro u (rfl | rfl) _ fits
    · have full := misled.occupied
      simp only [Recorder.policy, lfu, Setup.objMdSize, occupiedByte, ticked, full] at fits
      simp at fits
    · obtain ⟨node, first⟩ := misled.first
      have there : left.freqMap 1 = some node := by
        simp [left, first]
      have run : lfuInsert left ⟨tooMany, 1⟩ = .ok { left with
          table := left.table.insert ⟨tooMany, 1⟩ 1
          freqMap := update left.freqMap 1 (some (node.push tooMany))
          minFreq := 1 } := by
        simp only [lfuInsert, there]
      refine ⟨_, congrArg (Except.map _) run, ⟨0, l.standings⟩, List.mem_cons_self, ?_⟩
      rintro ⟨own, known, least⟩
      obtain ⟨reached, twice⟩ := misled.twice
      obtain ⟨time, once⟩ := misled.once
      cases known.symm.trans twice
      rcases least 1 _ once with less | ⟨equal, _⟩
      · simp at less
      · simp at equal

end Lfu
