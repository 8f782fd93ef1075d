import CacheEviction.MerlinShards

/-!
# Reading the updates of a Merlin list

What each small update of the policy leaves in the fields of the state: the marks
and the frequency of an item, the counters of a shard, the ghosts, and the queue
in which an insertion lands.
-/
namespace MerlinShards

open FuelLoops ItemRef MerlinSketch ShardQueues WeightedLists
open MerlinGhost hiding getFreq

variable {Q P : Type} [DecidableEq P]

def Shards.counter (s : Shards Q P) (q level : Nat) : Int := (s.queueInfo q).freqDistribution level

def GhostsCounted (s : Shards Q P) : Prop := ∀ q, Counted addresses (s.queueInfo q).ghost

/-- No lock attempt to come will fail. -/
def Quiet (s : Shards Q P) : Prop := ∀ i, s.missed i = 0

/-! ## Fields of the updates -/

section Fields

variable (s : Shards Q P) (node : P) (q q' : Nat)

@[simp] theorem updateRef_same (f : Word → Word) :
    (s.updateRef node f).ref node = f (s.ref node) := by
  simp [Shards.updateRef]

theorem updateRef_other (f : Word → Word) {x : P} (h : x ≠ node) :
    (s.updateRef node f).ref x = s.ref x := by
  simp [Shards.updateRef, h]

@[simp] theorem updateRef_queueInfo (f : Word → Word) :
    (s.updateRef node f).queueInfo = s.queueInfo := rfl

omit [DecidableEq P]

@[simp] theorem withQueues_queues {Q' : Type} (c : Q') : (s.withQueues c).queues = c := rfl

@[simp] theorem withQueues_ref {Q' : Type} (c : Q') : (s.withQueues c).ref = s.ref := rfl

@[simp] theorem withQueues_queueInfo {Q' : Type} (c : Q') :
    (s.withQueues c).queueInfo = s.queueInfo := rfl

theorem updateInfo_queueInfo (f : QueueInfo → QueueInfo) : (s.updateInfo q f).queueInfo q' =
    if q' = q then f (s.queueInfo q') else s.queueInfo q' := by
  by_cases here : q' = q
  · subst here
    simp [Shards.updateInfo]
  · simp [Shards.updateInfo, here]

@[simp] theorem count_queueInfo (f : (Nat → Int) → Nat → Int) : (s.count q f).queueInfo q' =
    { s.queueInfo q' with freqDistribution := if q' = q then f (s.queueInfo q').freqDistribution
        else (s.queueInfo q').freqDistribution } := by
  rw [Shards.count, updateInfo_queueInfo]
  split <;> rfl

@[simp] theorem touchSketch_queueInfo (key : Key) : (s.touchSketch q key).queueInfo q' =
    { s.queueInfo q' with sketch := if q' = q then estimate (s.queueInfo q').sketch key
        else (s.queueInfo q').sketch } := by
  rw [Shards.touchSketch, updateInfo_queueInfo]
  split <;> rfl

@[simp] theorem rememberGhost_queueInfo (key : Key) (freq : Nat) :
    (s.rememberGhost q key freq).queueInfo q' =
    { s.queueInfo q' with ghost := if q' = q then insert (s.queueInfo q').ghost key freq
        else (s.queueInfo q').ghost } := by
  rw [Shards.rememberGhost, updateInfo_queueInfo]
  split <;> rfl

@[simp] theorem shrinkFilter_queueInfo : (s.shrinkFilter q).queueInfo q' =
    { s.queueInfo q' with filterSize := if q' = q then (s.queueInfo q').filterSize - 1
        else (s.queueInfo q').filterSize } := by
  rw [Shards.shrinkFilter, updateInfo_queueInfo]
  split <;> rfl

@[simp] theorem shrinkStaging_queueInfo : (s.shrinkStaging q).queueInfo q' =
    { s.queueInfo q' with stagingSize := if q' = q then (s.queueInfo q').stagingSize - 1
        else (s.queueInfo q').stagingSize } := by
  rw [Shards.shrinkStaging, updateInfo_queueInfo]
  split <;> rfl

theorem counter_count {f : (Nat → Int) → Nat → Int} {n : Int} {level : Nat}
    (change : ∀ d : Nat → Int, f d level = d level + n) :
    (s.count q f).counter q' level = s.counter q' level + if q' = q then n else 0 := by
  rw [Shards.counter, count_queueInfo, Shards.counter]
  dsimp only
  split
  · exact change _
  · exact (add_zero _).symm

theorem ghosts_rememberGhost (h : GhostsCounted s) (key : Key) {freq : Nat}
    (small : freq ≤ maxFreq) : GhostsCounted (s.rememberGhost q key freq) := by
  intro q'
  rw [rememberGhost_queueInfo]
  dsimp only
  split
  · exact insert_counted (h q') key small
  · exact h q'

end Fields

section Marks

variable (s : Shards Q P) (node : P) (L : Layout P)

@[simp] theorem setCore_marks :
    marks ((setCore s node).ref node) = { marks (s.ref node) with core := true } :=
  (congrArg marks (updateRef_same s node _)).trans (marks_setFlag _ .kMMFlag1)

@[simp] theorem unSetCore_marks :
    marks ((unSetCore s node).ref node) = { marks (s.ref node) with core := false } :=
  (congrArg marks (updateRef_same s node _)).trans (marks_unSetFlag _ .kMMFlag1)

@[simp] theorem setFilter_marks :
    marks ((setFilter s node).ref node) = { marks (s.ref node) with filter := true } :=
  (congrArg marks (updateRef_same s node _)).trans (marks_setFlag _ .kMMFlag0)

@[simp] theorem unSetFilter_marks :
    marks ((unSetFilter s node).ref node) = { marks (s.ref node) with filter := false } :=
  (congrArg marks (updateRef_same s node _)).trans (marks_unSetFlag _ .kMMFlag0)

@[simp] theorem resetFreq_marks :
    marks ((resetFreq s node).ref node) = { marks (s.ref node) with freq := 0 } :=
  (congrArg marks (updateRef_same s node _)).trans (marks_wipeFreq _)

@[simp] theorem clearFreq_marks :
    marks ((clearFreq L s node).ref node) = { marks (s.ref node) with freq := 0 } :=
  (congrArg marks (updateRef_same s node _)).trans (marks_dropFreq _)

@[simp] theorem decFreq_marks : marks ((decFreq L s node).2.ref node) =
    { marks (s.ref node) with freq := getFreq (s.ref node) - 1 } :=
  (congrArg marks (updateRef_same s node _)).trans (marks_lowerFreq _)

@[simp] theorem incFreq_marks : marks ((incFreq L s node).ref node) =
    { marks (s.ref node) with freq := min (getFreq (s.ref node) + 1) maxFreq } :=
  (congrArg marks (updateRef_same s node _)).trans (marks_raiseFreq _)

@[simp] theorem setFreq_marks {freq : Nat} (small : freq ≤ maxFreq) :
    marks ((setFreq L s node freq).ref node) = { marks (s.ref node) with freq := freq } :=
  (congrArg marks (updateRef_same s node (writeFreq · freq))).trans (marks_writeFreq _ small)

variable {level : Nat} (hl : level = 1 ∨ level = 2) (q' : Nat)
include hl

theorem counter_clearFreq : (clearFreq L s node).counter q' level = s.counter q' level +
    if q' = getQueueID L s node then -reaches level (getFreq (s.ref node)) else 0 := by
  have change : ∀ d : Nat → Int, countFreq d (getFreq (s.ref node)) (-1) level =
      d level + -reaches level (getFreq (s.ref node)) := by
    intro d
    rw [countFreq_apply d _ _ hl]
    ring
  exact counter_count (f := fun d => countFreq d _ _) (s.updateRef node dropFreq) _ q' change

theorem counter_decFreq : (decFreq L s node).2.counter q' level = s.counter q' level +
    if q' = getQueueID L s node then reaches level (getFreq (s.ref node) - 1) -
      reaches level (getFreq (s.ref node)) else 0 := by
  have change : ∀ d : Nat → Int, countStep d (getFreq (s.ref node)) (-1) level =
      d level + (reaches level (getFreq (s.ref node) - 1) - reaches level (getFreq (s.ref node))) := by
    intro d
    cases getFreq (s.ref node) with
    | zero => simp [countStep]
    | succ f =>
      rw [countStep_apply d f _ hl, Nat.add_sub_cancel]
      ring
  exact counter_count (f := fun d => countStep d _ _) (s.updateRef node lowerFreq) _ q' change

theorem counter_incFreq : (incFreq L s node).counter q' level = s.counter q' level +
    if q' = getQueueID L s node then reaches level (getFreq (s.ref node) + 1) -
      reaches level (getFreq (s.ref node)) else 0 := by
  have change : ∀ d : Nat → Int, countStep d (getFreq (s.ref node) + 1) 1 level =
      d level + (reaches level (getFreq (s.ref node) + 1) - reaches level (getFreq (s.ref node))) := by
    intro d
    rw [countStep_apply d _ _ hl]
    ring
  exact counter_count (f := fun d => countStep d _ _) (s.updateRef node raiseFreq) _ q' change

theorem counter_setFreq (freq : Nat) : (setFreq L s node freq).counter q' level =
    s.counter q' level + if q' = getQueueID L s node then reaches level freq else 0 := by
  have change : ∀ d : Nat → Int, countFreq d freq 1 level = d level + reaches level freq := by
    intro d
    rw [countFreq_apply d _ _ hl]
    ring
  exact counter_count (f := fun d => countFreq d _ _) (s.updateRef node (writeFreq · freq)) _ q'
    change

end Marks

/-! ## Insertion -/

section Insertion

variable [FifoStore Q P] (s : Shards Q P) (node : P) (kind : Kind) (q c : Nat) (first : Bool)

/-- Whether the next insertion ends in the primary queue. -/
def staysPrimary (s : Shards Q P) (cuckoofirst : Bool) : Bool :=
  decide (s.missed 0 % 2 = 1) == cuckoofirst

def landing (s : Shards Q P) (kind : Kind) (fifo cuckoofifo : Nat) (cuckoofirst : Bool) : Place :=
  (if staysPrimary s cuckoofirst then fifo else cuckoofifo, kind)

theorem cuckooInsert_queues : (cuckooInsert s node kind q c first).queues =
    FifoStore.linkAtHead s.queues (landing s kind q c first) node := by
  simp only [cuckooInsert, landing, staysPrimary, beq_iff_eq]
  split <;> rfl

@[simp] theorem cuckooInsert_queueInfo :
    (cuckooInsert s node kind q c first).queueInfo = s.queueInfo := by
  simp only [cuckooInsert]
  split <;> rfl

theorem cuckooInsert_missed :
    (cuckooInsert s node kind q c first).missed = fun i => s.missed (i + 1) := by
  simp only [cuckooInsert]
  split <;> rfl

theorem cuckooInsert_initializedGs :
    (cuckooInsert s node kind q c first).initializedGs = s.initializedGs := by
  simp only [cuckooInsert]
  split <;> rfl

theorem cuckooInsert_ref : (cuckooInsert s node kind q c first).ref =
    if staysPrimary s first then s.ref
    else Function.update s.ref node (setFlag (s.ref node) .kMMFlag5) := by
  simp only [cuckooInsert, staysPrimary, beq_iff_eq]
  split <;> rfl

theorem cuckooInsert_other {x : P} (h : x ≠ node) :
    (cuckooInsert s node kind q c first).ref x = s.ref x := by
  simp only [cuckooInsert]
  split
  · rfl
  · exact updateRef_other _ _ _ h

theorem cuckooInsert_marks : marks ((cuckooInsert s node kind q c first).ref node) =
    { marks (s.ref node) with cuckoo := !staysPrimary s first || (marks (s.ref node)).cuckoo } := by
  simp only [cuckooInsert, staysPrimary]
  split
  case isTrue h => simp [h]
  case isFalse h => simp [h, setCuckoo, Marks.put]

end Insertion

end MerlinShards
