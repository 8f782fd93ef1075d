import CacheEviction.GhostTable

/-!
# The window of a ghost

A slot is meant to be remembered for as many slot-allocating insertions as the
queue is long. Its age is the difference of two readings of a clock that starts
again after `2 ^ 28` of them, and a slot is only looked at when its bucket is
probed. So a slot that is left alone for a full turn of the clock looks young again.

A ghost is run together with a count of the allocations and, for each slot, what the
count was when the slot was allocated.
-/
namespace MerlinGhost

open ItemRef (maxFreq)
open StepTraces

structure Chronicle where
  ghost : Ghost
  allocs : Nat := 0
  born : Nat → Nat := fun _ => 0

def Chronicle.insert (c : Chronicle) (key : Key) (freq : Nat) : Chronicle :=
  let ghost := MerlinGhost.insert c.ghost key freq
  match allocation c.ghost key with
  | none => { c with ghost := ghost }
  | some i => ⟨ghost, c.allocs + 1, Function.update c.born i c.allocs⟩

def Chronicle.contains (c : Chronicle) (key : Key) : Chronicle :=
  { c with ghost := (MerlinGhost.contains c.ghost key).2 }

inductive Recorded : Chronicle → Chronicle → Prop where
  | insert {c : Chronicle} (key : Key) {freq : Nat} (small : freq ≤ maxFreq)
      (defined : 0 < c.ghost.numElem) : Recorded c (c.insert key freq)
  | contains {c : Chronicle} (key : Key) (defined : 0 < c.ghost.numElem) :
      Recorded c (c.contains key)

def opening (fifoSize : Nat) : Chronicle := { ghost := fresh fifoSize }

variable {c c' : Chronicle} {g : Ghost} {key : Key} {fifoSize : Nat}

theorem Recorded.operation (recorded : Recorded c c') : Operation c.ghost c'.ghost := by
  cases recorded with
  | @insert key freq small defined =>
    have same : (c.insert key freq).ghost = MerlinGhost.insert c.ghost key freq := by
      rw [Chronicle.insert]
      split <;> rfl
    rw [same]
    exact .insert key small defined
  | contains key defined => exact .contains key defined

theorem recorded_reachable (history : Reachable Recorded (opening fifoSize) c) :
    Reachable Operation (fresh fifoSize) c.ghost :=
  history.invariant (fun c => Reachable Operation (fresh fifoSize) c.ghost) .refl
    fun _ _ reached recorded => reached.next recorded.operation

/-! ## Ages -/

/-- The slots allocated at a count are behind the clock by the allocations since,
up to full turns of the clock. -/
structure Synced (c : Chronicle) : Prop where
  clock : c.ghost.numInserts ≤ maxValue + 1
  born_le : ∀ i, c.born i ≤ c.allocs
  turns : ∀ i, c.ghost.hashTable i ≠ 0 → ∃ turns, c.allocs + getInsertionTime (c.ghost.hashTable i) =
    c.born i + c.ghost.numInserts + (maxValue + 1) * turns

theorem Synced.quiet (synced : Synced c) {ghost : Ghost}
    (clock : ghost.numInserts = c.ghost.numInserts)
    (times : ∀ i, ghost.hashTable i ≠ 0 → c.ghost.hashTable i ≠ 0 ∧
      getInsertionTime (ghost.hashTable i) = getInsertionTime (c.ghost.hashTable i)) :
    Synced { c with ghost := ghost } := by
  refine ⟨clock ▸ synced.clock, synced.born_le, ?_⟩
  intro i full
  obtain ⟨old, same⟩ := times i full
  obtain ⟨turns, balance⟩ := synced.turns i old
  exact ⟨turns, by rw [same, clock]; exact balance⟩

theorem Synced.resetClock (synced : Synced c) :
    Synced { c with ghost := resetClock c.ghost } := by
  rcases resetClock_cases c.ghost with ⟨same, _⟩ | ⟨same, late⟩
  · rw [same]
    exact synced
  · rw [same]
    refine ⟨Nat.zero_le _, synced.born_le, ?_⟩
    intro i full
    obtain ⟨turns, balance⟩ := synced.turns i full
    have clock := synced.clock
    refine ⟨turns + 1, ?_⟩
    dsimp only
    rw [balance, Nat.mul_add]
    omega

theorem probed_times {g g' : Ghost} {now : Nat} {slots : List Nat} {hit : Option Nat}
    (probed : Probed key now slots g g' hit) (i : Nat) (live : g'.hashTable i ≠ 0) :
    g.hashTable i ≠ 0 ∧ getInsertionTime (g'.hashTable i) = getInsertionTime (g.hashTable i) := by
  rcases probed.kept i with kept | ⟨_, _, zero⟩
  · rw [kept] at live ⊢
    exact ⟨live, rfl⟩
  · exact absurd zero live

theorem touched_times {g g' r : Ghost} {now i : Nat} {slots : List Nat} {hit : Option Nat}
    (probed : Probed key now slots g g' hit) (found : hit = some i) (touched : Touched key i g' r) :
    ∀ j, r.hashTable j ≠ 0 → g.hashTable j ≠ 0 ∧
      getInsertionTime (r.hashTable j) = getInsertionTime (g.hashTable j) := by
  obtain ⟨_, same, full, _⟩ := probed.found i found
  intro j live
  by_cases here : j = i
  · subst here
    refine ⟨full, ?_⟩
    rcases touched.slot with kept | ⟨freq, _, written⟩
    · rw [kept, same]
    · have bound := getInsertionTime_lt (g'.hashTable j)
      rw [written, getInsertionTime_gen _ bound, same]
  · rw [touched.others j here] at live ⊢
    exact probed_times probed j live

theorem contains_synced (synced : Synced c) (key : Key) : Synced (c.contains key) := by
  obtain ⟨g', hit, probed, ⟨_, same⟩ | ⟨i, found, _, touched⟩⟩ := contains_cases c.ghost key
  · rw [Chronicle.contains, same]
    exact synced.quiet probed.numInserts (probed_times probed)
  · exact synced.quiet (touched.numInserts.trans probed.numInserts)
      (touched_times probed found touched)

theorem insert_synced (synced : Synced c) (key : Key) (freq : Nat) : Synced (c.insert key freq) := by
  obtain ⟨g', hit, probed, ⟨i, found, none_, touched⟩ | ⟨_, i, _, some_, allocated⟩⟩ :=
    insert_cases c.ghost key freq
  · rw [Chronicle.insert, none_]
    exact synced.resetClock.quiet (touched.numInserts.trans probed.numInserts)
      (touched_times probed found touched)
  · have start := synced.resetClock.quiet probed.numInserts (probed_times probed)
    have early := resetClock_le c.ghost
    rw [← probed.numInserts] at early
    simp only [Chronicle.insert, some_]
    refine ⟨?_, ?_, ?_⟩
    · rw [allocated.numInserts]
      omega
    · intro j
      have before := synced.born_le j
      by_cases here : j = i
      · subst here
        simp
      · simp only [Function.update_of_ne here]
        omega
    · intro j live
      by_cases here : j = i
      · subst here
        have fits : g'.numInserts < 2 ^ 28 := by
          rw [maxValue] at early
          omega
        refine ⟨0, ?_⟩
        simp only [Function.update_self, allocated.slot, allocated.numInserts]
        rw [getInsertionTime_gen _ fits]
        omega
      · dsimp only at live ⊢
        rw [allocated.others j here] at live ⊢
        obtain ⟨turns, balance⟩ := start.turns j live
        refine ⟨turns, ?_⟩
        simp only [Function.update_of_ne here, allocated.numInserts]
        dsimp only at balance
        omega

theorem history_synced (history : Reachable Recorded (opening fifoSize) c) : Synced c := by
  refine history.invariant Synced ⟨Nat.zero_le _, fun _ => le_refl _, ?_⟩ ?_
  · exact fun i full => absurd rfl full
  · intro c c' synced recorded
    cases recorded with
    | insert key small defined => exact insert_synced synced key _
    | contains key defined => exact contains_synced synced key

/-! ## The window -/

theorem contains_ne_zero_iff (shaped : Shaped g) (key : Key) : (contains g key).1 ≠ 0 ↔
    ∃ i, g.hashTable i ≠ 0 ∧ slotKey (g.hashTable i) = key ∧
      expired g g.numInserts (g.hashTable i) = false := by
  obtain ⟨g', hit, probed, ⟨missed, same⟩ | ⟨i, found, nonzero, _⟩⟩ := contains_cases g key
  · rw [same]
    refine ⟨fun h => absurd rfl h, ?_⟩
    rintro ⟨i, full, own, young⟩
    have kept : g'.hashTable i = g.hashTable i := by
      refine (probed.kept i).resolve_right ?_
      rintro ⟨_, old, _⟩
      rw [young] at old
      cases old
    have place : i ∈ bucket g key := own ▸ shaped.home i full
    exact absurd (kept ▸ own) (probed.missed missed i place (kept ▸ full))
  · refine ⟨fun _ => ?_, fun _ => nonzero⟩
    obtain ⟨_, _, full, young, own⟩ := probed.found i found
    exact ⟨i, full, own, young⟩

/-- If a lookup answers with a frequency, the slot of the key was allocated no
more than a window of allocations ago. -/
def Remembers (c : Chronicle) (key : Key) : Prop :=
  (contains c.ghost key).1 ≠ 0 → ∃ i, c.ghost.hashTable i ≠ 0 ∧
    slotKey (c.ghost.hashTable i) = key ∧ c.allocs - c.born i ≤ c.ghost.fifoSize

/-- The window holds at a lookup if and only if the slot of the key, if there is
one, is expired by the clock or was allocated less than a turn of it ago (or less
than a window, where that is longer). -/
theorem remembers_iff (history : Reachable Recorded (opening fifoSize) c) (key : Key) :
    Remembers c key ↔ ∀ i, c.ghost.hashTable i ≠ 0 → slotKey (c.ghost.hashTable i) = key →
      expired c.ghost c.ghost.numInserts (c.ghost.hashTable i) = true ∨
        c.allocs - c.born i ≤ max c.ghost.fifoSize maxValue := by
  have shaped : Shaped c.ghost := (history_shaped (recorded_reachable history)).1
  have synced := history_synced history
  constructor
  · intro remembers i full own
    rw [or_iff_not_imp_left, Bool.not_eq_true]
    intro young
    obtain ⟨j, full', own', recent⟩ :=
      remembers ((contains_ne_zero_iff shaped key).mpr ⟨i, full, own, young⟩)
    obtain rfl : j = i := shaped.unique j i full' full (own'.trans own.symm)
    exact le_trans recent (le_max_left _ _)
  · intro recent answer
    obtain ⟨i, full, own, young⟩ := (contains_ne_zero_iff shaped key).mp answer
    refine ⟨i, full, own, ?_⟩
    have bound := (recent i full own).resolve_left (by simp [young])
    obtain ⟨turns, balance⟩ := synced.turns i full
    simp only [expired, Bool.or_eq_false_iff, decide_eq_false_iff_not, Nat.not_lt] at young
    rcases le_max_iff.mp bound with short | short
    · exact short
    · -- less than a turn of the clock has passed, so its reading is the true age
      have none_ : turns = 0 := by
        by_contra some_
        have turn : (maxValue + 1) * 1 ≤ (maxValue + 1) * turns :=
          Nat.mul_le_mul_left _ (by omega)
        omega
      subst none_
      omega

theorem remembers_iff_one_key : Remembers ((opening 0).insert 1 0) 1 := by
  have recorded : Recorded (opening 0) ((opening 0).insert 1 0) := .insert 1 (by decide) (by decide)
  rw [remembers_iff (Reachable.refl.next recorded)]
  intro i full own
  refine .inr (le_max_of_le_left ?_)
  have count : ((opening 0).insert 1 0).allocs = 1 := by decide +kernel
  have size : ((opening 0).insert 1 0).ghost.fifoSize = 8 := by decide +kernel
  omega

/-! ## A full turn of the clock

A table of sixteen slots. Key 1 is inserted into the first bucket; after that
`2 ^ 28` different keys go to the second bucket, and the last of them finds the
clock at its end. -/

def laterKey (n : Nat) : Key := BitVec.ofNat 32 (16 * n + 8)

def turning : Nat → Chronicle
  | 0 => (opening 0).insert 1 0
  | n + 1 => (turning n).insert (laterKey n) 0

theorem laterKey_toNat {n : Nat} (hn : n < 2 ^ 28) : (laterKey n).toNat = 16 * n + 8 := by
  rw [laterKey, BitVec.toNat_ofNat]
  omega

/-- After `n` of the later keys: the slot of key 1 has not been looked at. -/
structure Turning (n : Nat) (c : Chronicle) : Prop where
  history : Reachable Recorded (opening 0) c
  numElem : c.ghost.numElem = 16
  fifoSize : c.ghost.fifoSize = 8
  clock : c.ghost.numInserts = if n < 2 ^ 28 then n + 1 else 1
  allocs : c.allocs = n + 1
  born : c.born 7 = 0
  slot : c.ghost.hashTable 7 = genHashtableVal 1 0 0
  keys : ∀ i, i ≠ 7 → c.ghost.hashTable i ≠ 0 → ∃ m < n, slotKey (c.ghost.hashTable i) = laterKey m

theorem bucket_later {n i : Nat} (hn : n < 2 ^ 28) (numElem : g.numElem = 16)
    (place : i ∈ bucket g (laterKey n)) : i ≠ 7 := by
  obtain ⟨j, _, rfl⟩ := List.mem_map.mp place
  rw [getBucketIdx, laterKey_toNat hn, numElem]
  omega

theorem turning_zero : Turning 0 (turning 0) := by
  have recorded : Recorded (opening 0) (turning 0) := .insert 1 (by decide) (by decide)
  refine ⟨Reachable.refl.next recorded, by decide +kernel, by decide +kernel, by decide +kernel,
    by decide +kernel, by decide +kernel, by decide +kernel, ?_⟩
  intro i other full
  obtain ⟨g', hit, probed, ⟨j, found, _⟩ | ⟨_, j, _, slot, allocated⟩⟩ := insert_cases (fresh 0) 1 0
  · exact absurd rfl (probed.found j found).2.2.1
  · have seventh : allocation (fresh 0) 1 = some 7 := by decide +kernel
    rw [seventh] at slot
    cases slot
    have same : (turning 0).ghost = insert (fresh 0) 1 0 := by
      rw [turning, Chronicle.insert, opening, seventh]
    rw [same, allocated.others i other] at full
    rcases probed.kept i with kept | ⟨_, _, zero⟩
    · exact absurd (kept.trans rfl) full
    · exact absurd zero full

theorem turning_succ {n : Nat} {c : Chronicle} (hn : n < 2 ^ 28) (h : Turning n c) :
    Turning (n + 1) (c.insert (laterKey n) 0) := by
  obtain ⟨table, numElem, fifoSize⟩ := resetClock_same c.ghost
  have positive : 0 < c.ghost.numElem := by
    rw [h.numElem]
    decide
  have recorded : Recorded c (c.insert (laterKey n) 0) := .insert _ (Nat.zero_le _) positive
  obtain ⟨g', hit, probed, ⟨i, found, _⟩ | ⟨_, i, place, slot, allocated⟩⟩ :=
    insert_cases c.ghost (laterKey n) 0
  · -- no slot has this key yet
    obtain ⟨place, _, full, _, own⟩ := probed.found i found
    rw [table] at full own
    obtain ⟨m, hm, same⟩ := h.keys i (bucket_later hn h.numElem place) full
    have equal := congrArg BitVec.toNat (same.symm.trans own)
    rw [laterKey_toNat hn, laterKey_toNat (by omega)] at equal
    omega
  · have apart : i ≠ 7 := bucket_later hn h.numElem place
    have away : 7 ∉ bucket c.ghost (laterKey n) := fun member =>
      bucket_later hn h.numElem member rfl
    have shape : c.insert (laterKey n) 0 =
        ⟨insert c.ghost (laterKey n) 0, c.allocs + 1, Function.update c.born i c.allocs⟩ := by
      rw [Chronicle.insert, slot]
    have history := h.history.next recorded
    rw [shape] at history ⊢
    constructor
    · exact history
    · exact allocated.numElem.trans (probed.numElem.trans (numElem.trans h.numElem))
    · exact allocated.fifoSize.trans (probed.fifoSize.trans (fifoSize.trans h.fifoSize))
    · have start := h.clock
      rw [if_pos hn] at start
      dsimp only
      rw [allocated.numInserts, probed.numInserts]
      rcases resetClock_cases c.ghost with ⟨same, early⟩ | ⟨same, late⟩
      · rw [start, maxValue] at early
        rw [same, start, if_pos (by omega)]
      · rw [start, maxValue] at late
        rw [same, if_neg (by omega)]
    · exact congrArg (· + 1) h.allocs
    · exact (Function.update_of_ne apart.symm _ _).trans h.born
    · have kept : g'.hashTable 7 = (resetClock c.ghost).hashTable 7 :=
        (probed.kept 7).resolve_right fun cleared => away cleared.1
      dsimp only
      rw [allocated.others 7 apart.symm, kept, table, h.slot]
    · intro j other full
      dsimp only at full ⊢
      by_cases here : j = i
      · refine ⟨n, Nat.lt_succ_self n, ?_⟩
        rw [here, allocated.slot, slotKey_gen]
      · rw [allocated.others j here] at full ⊢
        have kept : g'.hashTable j = (resetClock c.ghost).hashTable j :=
          (probed.kept j).resolve_right fun cleared => full cleared.2.2
        rw [kept, table] at full ⊢
        obtain ⟨m, hm, same⟩ := h.keys j other full
        exact ⟨m, by omega, same⟩

theorem turning_all (n : Nat) (hn : n ≤ 2 ^ 28) : Turning n (turning n) := by
  induction n with
  | zero => exact turning_zero
  | succ n ih => exact turning_succ (by omega) (ih (by omega))

/-- After a full turn of the clock key 1 is answered for again, although its slot
was allocated `2 ^ 28 + 1` allocations ago and the window is eight. -/
theorem window_forgotten_after_turn : ∃ c, Reachable Recorded (opening 0) c ∧
    c.ghost.fifoSize = 8 ∧ (contains c.ghost 1).1 ≠ 0 ∧ slotKey (c.ghost.hashTable 7) = 1 ∧
    c.allocs - c.born 7 = 2 ^ 28 + 1 ∧ ¬ Remembers c 1 := by
  have h := turning_all (2 ^ 28) (le_refl _)
  have shaped : Shaped (turning (2 ^ 28)).ghost := (history_shaped (recorded_reachable h.history)).1
  have full : (turning (2 ^ 28)).ghost.hashTable 7 ≠ 0 := by
    rw [h.slot]
    decide
  have own : slotKey ((turning (2 ^ 28)).ghost.hashTable 7) = 1 := by
    rw [h.slot]
    decide
  have young : expired (turning (2 ^ 28)).ghost (turning (2 ^ 28)).ghost.numInserts
      ((turning (2 ^ 28)).ghost.hashTable 7) = false := by
    rw [expired, h.clock, h.slot, h.fifoSize]
    decide
  have answer := (contains_ne_zero_iff shaped 1).mpr ⟨7, full, own, young⟩
  have age : (turning (2 ^ 28)).allocs - (turning (2 ^ 28)).born 7 = 2 ^ 28 + 1 := by
    rw [h.allocs, h.born]
    rfl
  refine ⟨turning (2 ^ 28), h.history, h.fifoSize, answer, own, age, ?_⟩
  intro remembers
  obtain ⟨i, full', own', recent⟩ := remembers answer
  obtain rfl : i = 7 := shaped.unique i 7 full' full (own'.trans own.symm)
  rw [age, h.fifoSize] at recent
  omega

end MerlinGhost
