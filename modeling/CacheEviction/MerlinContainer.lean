import CacheEviction.ShardRuns

/-!
# MMMerlin: the container around the list

An item is marked while it belongs to the container, and an eviction iterator hands
out one candidate after another. Producing a candidate already unlinks it from the
list; only consuming it takes the mark away. So a candidate that the allocator
refuses and passes over stays marked and is in no queue.

The body of `withEvictionIterator` runs to its end before anything else: while there
is an iterator, only it is used. Update times are never read; they are left out.
-/
namespace MerlinContainer

open FuelLoops ItemRef MerlinFifo MerlinShards ShardQueues StepTraces

/-! ## The code -/

section Code

variable {Q P : Type} [DecidableEq P] (L : Layout P) (s : Shards Q P)

def isInMMContainer (s : Shards Q P) (node : P) : Bool := isFlagSet (s.ref node) .kLinked

def markInMMContainer (s : Shards Q P) (node : P) : Shards Q P :=
  s.updateRef node (setFlag · .kLinked)

def unmarkInMMContainer (s : Shards Q P) (node : P) : Shards Q P :=
  s.updateRef node (unSetFlag · .kLinked)

inductive AccessMode where
  | kRead
  | kWrite
  deriving DecidableEq

structure Config where
  updateOnWrite : Bool := false
  updateOnRead : Bool := true

def recordAccess (config : Config) (node : P) (mode : AccessMode) : Bool × Shards Q P :=
  if (mode = .kWrite ∧ config.updateOnWrite = false) ∨
      (mode = .kRead ∧ config.updateOnRead = false) then (false, s)
  else if isInMMContainer s node then (true, incFreq L s node)
  else (false, s)

def replace (oldNode newNode : P) : Bool × Shards Q P :=
  if isInMMContainer s oldNode = false ∨ isInMMContainer s newNode = true then (false, s)
  else (true, markInMMContainer (unmarkInMMContainer s oldNode) newNode)

variable [FifoStore Q P]

def add (node : P) (thread : Nat) : Bool × Shards Q P :=
  if isInMMContainer s node then (false, s)
  else (true, markInMMContainer (MerlinShards.add L s node thread) node)

def remove (node : P) : Bool × Shards Q P :=
  if isInMMContainer s node then
    (true, unmarkInMMContainer (MerlinShards.remove L s node) node)
  else (false, s)

end Code

structure LockedIterator (P : Type) where
  candidate : P
  threadId : Nat

structure Container (P : Type) where
  merlinlist : Linkage P
  iterator : Option (LockedIterator P) := none

inductive Operation (P : Type) where
  | allocate (node : P) (word : Word)
  | add (node : P) (thread : Nat)
  | recordAccess (config : Config) (node : P) (mode : AccessMode)
  | remove (node : P)
  | replace (oldNode newNode : P)
  | getEvictionIterator (thread : Nat)
  | next
  | consume
  | drop

variable {P : Type} [DecidableEq P]

/-- What each operation does. `next` is `operator++` of the iterator, `consume`
is the removal of its candidate. The allocator hands out memory that is not in
the container, with a word that has no mark of it and no cuckoo mark. -/
inductive Performs (L : Layout P) : Container P → Operation P → Container P → Prop where
  | allocate {s : Linkage P} {node : P} {word : Word} (free : isInMMContainer s node = false)
      (unmarked : (marks word).linked = false) (fresh : (marks word).cuckoo = false) :
      Performs L ⟨s, none⟩ (.allocate node word) ⟨s.updateRef node fun _ => word, none⟩
  | add {s : Linkage P} {node : P} {thread : Nat} :
      Performs L ⟨s, none⟩ (.add node thread) ⟨(add L s node thread).2, none⟩
  | recordAccess {s : Linkage P} {config : Config} {node : P} {mode : AccessMode} :
      Performs L ⟨s, none⟩ (.recordAccess config node mode)
        ⟨(recordAccess L s config node mode).2, none⟩
  | remove {s : Linkage P} {node : P} :
      Performs L ⟨s, none⟩ (.remove node) ⟨(remove L s node).2, none⟩
  | replace {s : Linkage P} {oldNode newNode : P} :
      Performs L ⟨s, none⟩ (.replace oldNode newNode) ⟨(replace s oldNode newNode).2, none⟩
  | getEvictionIterator {s t : Linkage P} {node : P} {fuel thread : Nat}
      (run : getEvictionCandidate L fuel s thread = .ok (node, t)) :
      Performs L ⟨s, none⟩ (.getEvictionIterator thread) ⟨t, some ⟨node, thread⟩⟩
  | next {s t : Linkage P} {it : LockedIterator P} {node : P} {fuel : Nat}
      (run : getEvictionCandidate L fuel s it.threadId = .ok (node, t)) :
      Performs L ⟨s, some it⟩ .next ⟨t, some { it with candidate := node }⟩
  | consume {s : Linkage P} {it : LockedIterator P} :
      Performs L ⟨s, some it⟩ .consume ⟨unmarkInMMContainer s it.candidate, some it⟩
  | drop {s : Linkage P} {it : LockedIterator P} : Performs L ⟨s, some it⟩ .drop ⟨s, none⟩

/-- A run of operations, each allowed where it is performed. -/
inductive Runs (L : Layout P) (allowed : Container P → Operation P → Prop) :
    List (Operation P) → Container P → Container P → Prop where
  | nil {s : Container P} : Runs L allowed [] s s
  | cons {s t u : Container P} {op : Operation P} {ops : List (Operation P)} (ok : allowed s op)
      (performs : Performs L s op t) (rest : Runs L allowed ops t u) :
      Runs L allowed (op :: ops) s u

structure Start (s : Container P) : Prop where
  boot : Boot s.merlinlist
  idle : s.iterator = none
  unmarked : ∀ x, isInMMContainer s.merlinlist x = false

/-! ## When the container keeps track of its items -/

/-- The item has an older one before it in the queue that its marks name. -/
def HasOlder (L : Layout P) (s : Linkage P) (node : P) : Prop :=
  ∃ older newer, older ≠ [] ∧ Represents s.queues.hooks
    (s.queues.fifo (getQueueID L s node, kindOf (marks (s.ref node)))) (older ++ node :: newer)

/-- An operation that the container is up to: an added item has no cuckoo mark,
a removed one has an older item before it, nothing is replaced, and an iterator
moves on or ends only when its candidate was consumed. -/
def Regular (L : Layout P) (s : Container P) : Operation P → Prop
  | .add node _ => isInMMContainer s.merlinlist node = true ∨
      (marks (s.merlinlist.ref node)).cuckoo = false
  | .remove node => isInMMContainer s.merlinlist node = false ∨ HasOlder L s.merlinlist node
  | .replace oldNode newNode => isInMMContainer s.merlinlist oldNode = false ∨
      isInMMContainer s.merlinlist newNode = true
  | .next | .drop => ∀ it, s.iterator = some it → isInMMContainer s.merlinlist it.candidate = false
  | _ => True

/-- The list is sound and the marked items are those in its queues, apart from
a candidate that waits to be consumed. -/
structure Tracked (L : Layout P) (s : Container P) : Prop where
  list : Invariant L s.merlinlist
  resident : ∀ x, Resident s.merlinlist x → isInMMContainer s.merlinlist x = true
  marked : ∀ x, isInMMContainer s.merlinlist x = true →
    Resident s.merlinlist x ∨ ∃ it, s.iterator = some it ∧ it.candidate = x
  popped : ∀ it, s.iterator = some it → ¬ Resident s.merlinlist it.candidate

variable {L : Layout P} {s t : Linkage P} {n x : P}

theorem marked_updateRef {f : Word → Word} {value : Bool}
    (put : ∀ w, marks (f w) = (marks w).put value .kLinked) (s : Linkage P) (n x : P) :
    isInMMContainer (s.updateRef n f) x = if x = n then value else isInMMContainer s x := by
  by_cases here : x = n
  · subst here
    rw [if_pos rfl]
    refine (congrArg (isFlagSet · .kLinked) (updateRef_same s x f)).trans ?_
    exact congrArg Marks.linked (put (s.ref x))
  · rw [if_neg here, isInMMContainer, updateRef_other s n f here]
    rfl

theorem remark_invariant (inv : Invariant L s) {f : Word → Word} {value : Bool}
    (put : ∀ w, marks (f w) = (marks w).put value .kLinked) (n : P) :
    Invariant L (s.updateRef n f) := by
  obtain ⟨c, holds, sound⟩ := inv
  refine ⟨c, holds, sound.remark n ?_⟩
  intro w
  rw [put]
  rfl

omit [DecidableEq P] in
theorem start_tracked {s : Container P} (start : Start s) : Tracked L s := by
  refine ⟨boot_invariant start.boot, ?_, ?_, ?_⟩
  · intro x resident
    exact absurd resident (boot_vacant start.boot x)
  · intro x marked
    rw [start.unmarked x] at marked
    cases marked
  · intro it iterator
    rw [start.idle] at iterator
    cases iterator

omit [DecidableEq P] in
theorem Tracked.resident_iff (h : Tracked L ⟨s, none⟩) (x : P) :
    Resident s x ↔ isInMMContainer s x = true := by
  refine ⟨h.resident x, ?_⟩
  intro marked
  rcases h.marked x marked with resident | ⟨it, iterator, _⟩
  · exact resident
  · cases iterator

omit [DecidableEq P] in
theorem Tracked.of_iff (list : Invariant L s)
    (residents : ∀ x, Resident s x ↔ isInMMContainer s x = true) : Tracked L ⟨s, none⟩ :=
  ⟨list, fun x => (residents x).mp, fun x marked => .inl ((residents x).mpr marked),
    fun _ iterator => by cases iterator⟩

omit [DecidableEq P] in
theorem Tracked.unlinked (h : Tracked L ⟨s, none⟩) (unmarked : isInMMContainer s n = false) :
    ¬ Resident s n := by
  rw [h.resident_iff, unmarked]
  exact Bool.false_ne_true

theorem allocate_tracked (h : Tracked L ⟨s, none⟩) {word : Word}
    (free : isInMMContainer s n = false) (unmarked : (marks word).linked = false) :
    Tracked L ⟨s.updateRef n fun _ => word, none⟩ := by
  refine .of_iff (allocate_invariant h.list (h.unlinked free) word) ?_
  intro x
  refine (h.resident_iff x).trans ?_
  by_cases here : x = n
  · subst here
    have blank : isInMMContainer (s.updateRef x fun _ => word) x = false :=
      (congrArg (isFlagSet · .kLinked) (updateRef_same s x fun _ => word)).trans unmarked
    rw [free, blank]
  · rw [isInMMContainer, isInMMContainer, updateRef_other s n _ here]

theorem add_tracked (h : Tracked L ⟨s, none⟩)
    (fresh : isInMMContainer s n = true ∨ (marks (s.ref n)).cuckoo = false) (thread : Nat) :
    Tracked L ⟨(add L s n thread).2, none⟩ := by
  rw [add]
  split
  case isTrue => exact h
  case isFalse free =>
    have unmarked : isInMMContainer s n = false := by simpa using free
    obtain ⟨list, residents, others⟩ := add_effect h.list (h.unlinked unmarked)
      (fresh.resolve_left free) thread
    have put : ∀ w, marks (setFlag w .kLinked) = (marks w).put true .kLinked := fun w =>
      marks_setFlag w .kLinked
    refine .of_iff (remark_invariant list put n) ?_
    intro x
    rw [markInMMContainer, marked_updateRef put]
    refine (residents x).trans ?_
    split
    case isTrue here => simp [here]
    case isFalse other =>
      rw [h.resident_iff, isInMMContainer, isInMMContainer, others x other]
      simp [other]

theorem recordAccess_tracked (h : Tracked L ⟨s, none⟩) (config : Config) (mode : AccessMode) :
    Tracked L ⟨(recordAccess L s config n mode).2, none⟩ := by
  rw [recordAccess]
  split
  · exact h
  · split
    case isTrue marked =>
      refine .of_iff (incFreq_effect h.list ((h.resident_iff n).mpr marked)) ?_
      intro x
      have same : isInMMContainer (incFreq L s n) x = isInMMContainer s x := by
        by_cases here : x = n
        · subst here
          exact congrArg Marks.linked (incFreq_marks s x L)
        · exact congrArg (isFlagSet · .kLinked) (updateRef_other s n raiseFreq here)
      rw [same]
      exact h.resident_iff x
    case isFalse => exact h

theorem remove_tracked (h : Tracked L ⟨s, none⟩)
    (regular : isInMMContainer s n = false ∨ HasOlder L s n) :
    Tracked L ⟨(remove L s n).2, none⟩ := by
  rw [remove]
  split
  case isFalse => exact h
  case isTrue marked =>
    have named : HasOlder L s n := regular.resolve_left (by simp [marked])
    obtain ⟨older, newer, behind, represents⟩ := named
    obtain ⟨c, holds, sound⟩ := id h.list
    have shape := (holds.represents _).unique represents
    have member : n ∈ c (getQueueID L s n, kindOf (marks (s.ref n))) := by simp [shape]
    obtain ⟨d, holds', same⟩ := remove_sim (L := L) holds shape behind
    have removed := remove_sound (a := s.withQueues c) sound member
    rw [same] at removed
    have put : ∀ w, marks (unSetFlag w .kLinked) = (marks w).put false .kLinked := fun w =>
      marks_unSetFlag w .kLinked
    refine .of_iff (remark_invariant ⟨d, holds', removed.1⟩ put n) ?_
    intro x
    rw [unmarkInMMContainer, marked_updateRef put]
    refine (MerlinShards.resident_iff holds' x).trans ((removed.2 x).trans ?_)
    rw [← MerlinShards.resident_iff holds, h.resident_iff]
    split
    case isTrue here => simp [here]
    case isFalse other => exact and_iff_left other

theorem produce_tracked {it : Option (LockedIterator P)} (h : Tracked L ⟨s, it⟩)
    (consumed : ∀ old, it = some old → isInMMContainer s old.candidate = false) {fuel thread : Nat}
    (run : getEvictionCandidate L fuel s thread = .ok (n, t)) :
    Tracked L ⟨t, some ⟨n, thread⟩⟩ := by
  obtain ⟨list, resident, residents, marked, _⟩ := evict_effect h.list run
  have same : ∀ x, isInMMContainer t x = isInMMContainer s x := marked
  refine ⟨list, ?_, ?_, ?_⟩
  · intro x there
    rw [same]
    exact h.resident x ((residents x).mp there).1
  · intro x isMarked
    rw [same] at isMarked
    by_cases here : x = n
    · exact .inr ⟨_, rfl, here.symm⟩
    · rcases h.marked x isMarked with there | ⟨old, iterator, rfl⟩
      · exact .inl ((residents x).mpr ⟨there, here⟩)
      · rw [consumed old iterator] at isMarked
        cases isMarked
  · intro it iterator there
    cases iterator
    exact ((residents n).mp there).2 rfl

theorem consume_tracked {it : LockedIterator P} (h : Tracked L ⟨s, some it⟩) :
    Tracked L ⟨unmarkInMMContainer s it.candidate, some it⟩ := by
  have put : ∀ w, marks (unSetFlag w .kLinked) = (marks w).put false .kLinked := fun w =>
    marks_unSetFlag w .kLinked
  have unlinked := h.popped it rfl
  refine ⟨remark_invariant h.list put it.candidate, ?_, ?_, ?_⟩
  · intro x there
    have other : x ≠ it.candidate := by
      rintro rfl
      exact unlinked there
    rw [unmarkInMMContainer, marked_updateRef put, if_neg other]
    exact h.resident x there
  · intro x marked
    rw [unmarkInMMContainer, marked_updateRef put] at marked
    split at marked
    · cases marked
    · exact h.marked x marked
  · intro it' iterator
    exact h.popped it' iterator

theorem performs_tracked {s t : Container P} {op : Operation P} (h : Tracked L s)
    (regular : Regular L s op) (performs : Performs L s op t) : Tracked L t := by
  cases performs with
  | allocate free unmarked => exact allocate_tracked h free unmarked
  | add => exact add_tracked h regular _
  | recordAccess => exact recordAccess_tracked h _ _
  | remove => exact remove_tracked h regular
  | @replace s oldNode newNode =>
    have refused : isInMMContainer s oldNode = false ∨ isInMMContainer s newNode = true := regular
    rw [replace, if_pos refused]
    exact h
  | getEvictionIterator run =>
    exact produce_tracked h (fun _ iterator => by cases iterator) run
  | next run => exact produce_tracked h regular run
  | consume => exact consume_tracked h
  | drop =>
    refine ⟨h.list, h.resident, ?_, fun _ iterator => by cases iterator⟩
    intro x marked
    rcases h.marked x marked with there | ⟨it, iterator, rfl⟩
    · exact .inl there
    · rw [regular it iterator] at marked
      cases marked

theorem runs_tracked {s t : Container P} {ops : List (Operation P)} (h : Tracked L s)
    (run : Runs L (Regular L) ops s t) : Tracked L t := by
  induction run with
  | nil => exact h
  | cons regular performs _ ih => exact ih (performs_tracked h regular performs)

/-- In every run of regular operations, once the iterator is dropped every item
that is marked as being in the container stands in exactly one queue. -/
theorem marked_items_linked {s t : Container P} {ops : List (Operation P)} (start : Start s)
    (run : Runs L (Regular L) ops s t) (dropped : t.iterator = none) (x : P)
    (marked : isInMMContainer t.merlinlist x = true) : ∃! place, Stored t.merlinlist place x := by
  have tracked := runs_tracked (start_tracked start) run
  obtain ⟨list, iterator⟩ := t
  obtain rfl : iterator = none := dropped
  obtain ⟨place, stored⟩ := (tracked.resident_iff x).mpr marked
  obtain ⟨c, holds, sound⟩ := tracked.list
  exact ⟨place, stored, fun other there => (sound.inPlace holds stored).only other there⟩

theorem Runs.append {allowed : Container P → Operation P → Prop} {s t u : Container P}
    {ops later : List (Operation P)} (first : Runs L allowed ops s t)
    (second : Runs L allowed later t u) : Runs L allowed (ops ++ later) s u := by
  induction first with
  | nil => exact second
  | cons ok performs _ ih => exact .cons ok performs (ih second)

theorem Runs.forget {allowed : Container P → Operation P → Prop} {s t : Container P}
    {ops : List (Operation P)} (run : Runs L allowed ops s t) :
    Runs L (fun _ _ => True) ops s t := by
  induction run with
  | nil => exact .nil
  | cons _ performs _ ih => exact .cons trivial performs ih

/-! Two items and one worker without contention. -/

def filled : Linkage Nat := (add oneShard (add oneShard (blank fun _ => 0) 0 0).2 1 0).2

theorem start_blank : Start (⟨blank fun _ => 0, none⟩ : Container Nat) := by
  have unmarked : isFlagSet 0 .kLinked = false := by decide
  exact ⟨blank_boot _, rfl, fun _ => unmarked⟩

theorem filled_runs : Runs oneShard (Regular oneShard) [.add 0 0, .add 1 0]
    ⟨blank fun _ => 0, none⟩ ⟨filled, none⟩ := by
  refine .cons (.inr (by decide)) .add (.cons (.inr ?_) .add .nil)
  decide +kernel

/-- The first candidate is consumed, and the second item is still in its queue. -/
theorem marked_items_linked_consumed : ∃ t, Runs oneShard (Regular oneShard)
      [.add 0 0, .add 1 0, .getEvictionIterator 0, .consume, .drop]
      ⟨blank fun _ => 0, none⟩ ⟨t, none⟩ ∧
    isInMMContainer t 1 = true ∧ ∃! place, Stored t place 1 := by
  have returns : Returns (getEvictionCandidate oneShard 5 filled 0) (fun r =>
      r.1 == 0 && !isInMMContainer (unmarkInMMContainer r.2 0) 0 &&
        isInMMContainer (unmarkInMMContainer r.2 0) 1) = true := by decide +kernel
  obtain ⟨⟨n, t⟩, run, found⟩ := exists_of_returns returns
  simp only [Bool.and_eq_true, beq_iff_eq, Bool.not_eq_true'] at found
  obtain ⟨⟨rfl, consumed⟩, marked⟩ := found
  have settled : Regular oneShard ⟨unmarkInMMContainer t 0, some ⟨0, 0⟩⟩ .drop := by
    rintro it iterator
    cases iterator
    exact consumed
  have open_ : Regular oneShard ⟨filled, none⟩ (.getEvictionIterator 0) := trivial
  have taken : Regular oneShard ⟨t, some ⟨0, 0⟩⟩ .consume := trivial
  have runs := filled_runs.append (.cons open_ (.getEvictionIterator run)
    (.cons taken .consume (.cons settled .drop .nil)))
  exact ⟨_, runs, marked, marked_items_linked start_blank runs rfl 1 marked⟩

/-- Item 0 is refused and passed over, item 1 is consumed: item 0 is marked as
being in the container and stands in no queue. -/
theorem skipped_candidate_lost : ∃ t, Runs oneShard (fun _ _ => True)
      [.add 0 0, .add 1 0, .getEvictionIterator 0, .next, .consume, .drop]
      ⟨blank fun _ => 0, none⟩ ⟨t, none⟩ ∧
    isInMMContainer t 0 = true ∧ ¬ Resident t 0 := by
  have returns : Returns (getEvictionCandidate oneShard 5 filled 0) (fun r => r.1 == 0 &&
      Returns (getEvictionCandidate oneShard 5 r.2 0) (fun r => r.1 == 1 &&
        isInMMContainer (unmarkInMMContainer r.2 1) 0)) = true := by decide +kernel
  obtain ⟨⟨n, u⟩, first, found⟩ := exists_of_returns returns
  simp only [Bool.and_eq_true, beq_iff_eq] at found
  obtain ⟨rfl, found⟩ := found
  obtain ⟨⟨m, t⟩, second, found⟩ := exists_of_returns found
  simp only [Bool.and_eq_true, beq_iff_eq] at found
  obtain ⟨rfl, marked⟩ := found
  have runs := filled_runs.forget.append (.cons trivial (.getEvictionIterator first)
    (.cons trivial (.next second) (.cons trivial .consume (.cons trivial .drop .nil))))
  have tracked := runs_tracked (start_tracked start_blank) filled_runs
  obtain ⟨list, _, residents, _, _⟩ := evict_effect tracked.list first
  obtain ⟨_, _, residents', _, _⟩ := evict_effect list second
  refine ⟨_, runs, marked, ?_⟩
  intro there
  have before : Resident u 0 := ((residents' 0).mp there).1
  exact ((residents 0).mp before).2 rfl

end MerlinContainer
