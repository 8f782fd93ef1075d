import CacheEviction.ShardRuns

/-!
# Saving and restoring a Merlin list

The queues save their two ends and `size_`, a field that no operation writes, while
`size()` is the difference of two counters that are not saved. The counters of a
shard are written seven at a time and read back eight at a time. Of what a thread
knows only the hotness threshold is written; its target shard is taken to be its own
index, and the number of shards falls back to its default.

The links of the items live in the saved memory and are not touched.
-/
namespace MerlinShards

open ItemRef LinkedChains MerlinFifo MerlinGhost ShardQueues StepTraces

def threadNum : Nat := 65

/-- Pointer compression, of which only the round trip matters here. -/
structure PtrCompressor (P : Type) where
  compress : Option P → Int
  unCompress : Int → Option P
  unCompress_compress : ∀ p, unCompress (compress p) = p

structure MerlinFIFOObject where
  compressedHead : Int
  compressedTail : Int
  size : Int

structure MerlinListObject where
  filterfifo : List MerlinFIFOObject
  corefifo : List MerlinFIFOObject
  stagingfifo : List MerlinFIFOObject
  hotnessThreshold : List Int
  freqDistribution : List Int

/-- A queue with the size field that its save and restore go by. -/
structure SavedFifo (P : Type) extends Fifo P where
  size_ : Nat := 0

/-- The members of a list that the restoring constructor has to fill. -/
structure Members (P : Type) where
  fifo : Place → SavedFifo P
  freqDistribution : Nat → Nat → Int
  hotnessThreshold : Nat → Nat
  targetQueue : Nat → Int
  totalThreads : Nat → Nat

section Code

variable {P : Type}

/-- The members of a running list. No operation has written a `size_`. -/
def members (L : Layout P) (s : Linkage P) : Members P where
  fifo := fun place => { s.queues.fifo place with }
  freqDistribution := fun q => (s.queueInfo q).freqDistribution
  hotnessThreshold := fun thread => (s.threadInfo thread).hotnessThreshold
  targetQueue := fun thread => L.targetQueue thread
  totalThreads := fun _ => L.totalThreads

def Members.getQueueID (l : Members P) (hashNode : P → Key) (ref : P → Word) (node : P)
    (thread : Nat) : Nat :=
  let queueId := (hashNode node).toNat % l.totalThreads thread
  if isFlagSet (ref node) .kMMFlag5 then queueId + l.totalThreads thread else queueId

variable (compressor : PtrCompressor P)

def SavedFifo.saveState (f : SavedFifo P) : MerlinFIFOObject where
  compressedHead := compressor.compress f.head
  compressedTail := compressor.compress f.tail
  size := f.size_

def MerlinFIFOObject.restore (object : MerlinFIFOObject) : SavedFifo P where
  head := compressor.unCompress object.compressedHead
  tail := compressor.unCompress object.compressedTail
  size_ := object.size.toNat

def Members.saveFifos (l : Members P) (kind : Kind) : List MerlinFIFOObject :=
  (List.range queueNum).map fun i => (l.fifo (i, kind)).saveState compressor

def Members.saveState (l : Members P) : MerlinListObject where
  filterfifo := l.saveFifos compressor .filter
  corefifo := l.saveFifos compressor .core
  stagingfifo := l.saveFifos compressor .staging
  hotnessThreshold := (List.range threadNum).map fun i => (l.hotnessThreshold i : Int)
  freqDistribution := (List.range queueNum).flatMap fun i =>
    (List.range maxFreq).map (l.freqDistribution i)

def MerlinListObject.fifos (object : MerlinListObject) : Kind → List MerlinFIFOObject
  | .filter => object.filterfifo
  | .core => object.corefifo
  | .staging => object.stagingfifo

/-- Where the next counter goes: the shard `i` and the level `j`. -/
def restoreFreq : List Int → Nat → Nat → (Nat → Nat → Int) → Nat → Nat → Int
  | [], _, _, freqs => freqs
  | f :: fs, i, j, freqs =>
    let freqs := Function.update freqs i (Function.update (freqs i) j f)
    if j + 1 > maxFreq then restoreFreq fs (i + 1) 0 freqs else restoreFreq fs i (j + 1) freqs

/-- A thread that is not in the object keeps what its own constructor set; a
queue that is not in it, which no saved object lacks, is taken to be empty. -/
def MerlinListObject.restore (object : MerlinListObject) : Members P where
  fifo := fun place => ((object.fifos place.2)[place.1]?.map (·.restore compressor)).getD {}
  freqDistribution := restoreFreq object.freqDistribution 0 0 fun _ _ => 0
  hotnessThreshold := fun i => (object.hotnessThreshold[i]?.getD 1).toNat
  targetQueue := fun i => if i < object.hotnessThreshold.length then i else -1
  totalThreads := fun _ => 1

def Members.restart (l : Members P) : Members P := (l.saveState compressor).restore compressor

end Code

variable {P : Type} {L : Layout P} {s s₀ : Linkage P} {i j threads : Nat}

/-! ## What comes back -/

theorem restart_fifo (compressor : PtrCompressor P) (l : Members P) (hi : i < queueNum)
    (kind : Kind) : (l.restart compressor).fifo (i, kind) =
      { head := (l.fifo (i, kind)).head, tail := (l.fifo (i, kind)).tail,
        size_ := (l.fifo (i, kind)).size_ } := by
  have saved : ((l.saveState compressor).fifos kind)[i]? =
      some ((l.fifo (i, kind)).saveState compressor) := by
    cases kind <;> simp [MerlinListObject.fifos, Members.saveState, Members.saveFifos, hi]
  simp [Members.restart, MerlinListObject.restore, saved, MerlinFIFOObject.restore,
    SavedFifo.saveState, compressor.unCompress_compress]

theorem restart_hotnessThreshold (compressor : PtrCompressor P) (l : Members P)
    (hi : i < threadNum) : (l.restart compressor).hotnessThreshold i = l.hotnessThreshold i := by
  simp [Members.restart, MerlinListObject.restore, Members.saveState, hi]

theorem restart_targetQueue (compressor : PtrCompressor P) (l : Members P) (hi : i < threadNum) :
    (l.restart compressor).targetQueue i = i := by
  simp [Members.restart, MerlinListObject.restore, Members.saveState, hi]

theorem restoreFreq_eq (fs : List Int) (freqs : Nat → Nat → Int) {i j i' j' : Nat}
    (hj : j ≤ maxFreq) (hj' : j' ≤ maxFreq) :
    restoreFreq fs i j freqs i' j' =
      if i * 8 + j ≤ i' * 8 + j' then fs[i' * 8 + j' - (i * 8 + j)]?.getD (freqs i' j')
      else freqs i' j' := by
  have bounds : maxFreq = 7 := rfl
  -- the induction carries the place of the next counter
  induction fs generalizing i j freqs with
  | nil => simp [restoreFreq]
  | cons f fs ih =>
    have written : Function.update freqs i (Function.update (freqs i) j f) i' j' =
        if i' * 8 + j' = i * 8 + j then f else freqs i' j' := by
      by_cases shard : i' = i
      · subst shard
        by_cases level : j' = j
        · simp [level]
        · simp [level]
      · rw [Function.update_of_ne shard, if_neg (by omega)]
    have next : restoreFreq (f :: fs) i j freqs i' j' =
        if i * 8 + j + 1 ≤ i' * 8 + j' then
          fs[i' * 8 + j' - (i * 8 + j + 1)]?.getD (if i' * 8 + j' = i * 8 + j then f else freqs i' j')
        else if i' * 8 + j' = i * 8 + j then f else freqs i' j' := by
      rw [restoreFreq, ← written]
      split
      · rw [ih _ (Nat.zero_le _), show (i + 1) * 8 + 0 = i * 8 + j + 1 by omega]
      · rw [ih _ (by omega), show i * 8 + (j + 1) = i * 8 + j + 1 by omega]
    rw [next]
    rcases lt_trichotomy (i' * 8 + j') (i * 8 + j) with before | here | after
    · rw [if_neg (by omega), if_neg (by omega), if_neg (by omega)]
    · simp [here]
    · rw [if_pos (by omega), if_neg (by omega), if_pos (by omega),
        show i' * 8 + j' - (i * 8 + j) = i' * 8 + j' - (i * 8 + j + 1) + 1 by omega,
        List.getElem?_cons_succ]

theorem flatMap_range_map (n m : Nat) (f : Nat → Nat → Int) (pos : 0 < m) :
    (List.range n).flatMap (fun i => (List.range m).map (f i)) =
      (List.range (n * m)).map fun k => f (k / m) (k % m) := by
  induction n with
  | zero => simp
  | succ n ih =>
    rw [List.range_succ, List.flatMap_append, ih, Nat.succ_mul, List.range_add, List.map_append]
    congr 1
    simp only [List.flatMap_cons, List.flatMap_nil, List.append_nil, List.map_map]
    apply List.map_congr_left
    intro k hk
    have below : k < m := List.mem_range.mp hk
    simp only [Function.comp]
    rw [Nat.mul_comm n m, Nat.mul_add_div pos, Nat.mul_add_mod, Nat.div_eq_of_lt below,
      Nat.mod_eq_of_lt below, Nat.add_zero]

theorem restart_freqDistribution (compressor : PtrCompressor P) (l : Members P) (hj : j ≤ maxFreq) :
    (l.restart compressor).freqDistribution i j =
      if i * 8 + j < queueNum * maxFreq then
        l.freqDistribution ((i * 8 + j) / maxFreq) ((i * 8 + j) % maxFreq)
      else 0 := by
  simp only [Members.restart, MerlinListObject.restore]
  rw [restoreFreq_eq _ _ (Nat.zero_le _) hj, if_pos (by omega), Members.saveState,
    flatMap_range_map _ _ _ (by decide)]
  by_cases inside : i * 8 + j < queueNum * maxFreq
  · simp [inside]
  · simp [inside]

/-! ## What is lost -/

/-- Following the links of a queue from its tail meets these items, up to its head. -/
def Members.Lists (l : Members P) (hooks : Hooks P) (place : Place) (items : List P) : Prop :=
  Chain hooks items ∧ (l.fifo place).tail = items.head? ∧ (l.fifo place).head = items.getLast?

/-- The members `l` agree with the list in all that the policy reads, as far as
the threads below `threads` go. -/
structure Restored (L : Layout P) (s : Linkage P) (threads : Nat) (l : Members P) : Prop where
  order : ∀ i < queueNum, ∀ kind items, l.Lists s.queues.hooks (i, kind) items ↔
    (members L s).Lists s.queues.hooks (i, kind) items
  sizes : ∀ i < queueNum, ∀ kind, (l.fifo (i, kind)).size = (s.queues.fifo (i, kind)).size
  counters : ∀ i < queueNum, ∀ level, level = 1 ∨ level = 2 →
    l.freqDistribution i level = s.counter i level
  threshold : ∀ i < threads, l.hotnessThreshold i = (s.threadInfo i).hotnessThreshold
  target : ∀ i < threads, l.targetQueue i = L.targetQueue i
  shards : ∀ i < threads, l.totalThreads i = L.totalThreads
  queueID : ∀ i < threads, ∀ node, l.getQueueID L.hashNode s.ref node i = getQueueID L s node

theorem restart_lists (compressor : PtrCompressor P) (l : Members P) (hooks : Hooks P)
    (hi : i < queueNum) (kind : Kind) (items : List P) :
    (l.restart compressor).Lists hooks (i, kind) items ↔ l.Lists hooks (i, kind) items := by
  simp only [Members.Lists, restart_fifo compressor l hi]

theorem restart_size (compressor : PtrCompressor P) (l : Members P) (hi : i < queueNum) (kind : Kind) :
    ((l.restart compressor).fifo (i, kind)).size = 0 := by
  rw [restart_fifo compressor l hi]
  rfl

theorem restart_counter (L : Layout P) (compressor : PtrCompressor P) (s : Linkage P) (i : Nat) {level : Nat}
    (hl : level = 1 ∨ level = 2) : ((members L s).restart compressor).freqDistribution i level =
      if i * 8 + level < queueNum * maxFreq then
        s.counter ((i * 8 + level) / maxFreq) ((i * 8 + level) % maxFreq) else 0 := by
  have small : level ≤ maxFreq := by
    rw [maxFreq]
    omega
  rw [restart_freqDistribution compressor _ small]
  rfl

theorem restart_lastThread (L : Layout P) (compressor : PtrCompressor P) (s : Linkage P) :
    ((members L s).restart compressor).targetQueue 64 ≠ L.targetQueue 64 := by
  rw [restart_targetQueue compressor _ (by decide)]
  have below : 64 % L.totalThreads < L.totalThreads := Nat.mod_lt _ L.positive
  have fits : L.totalThreads * 2 ≤ 128 := L.fits
  simp only [Layout.targetQueue]
  omega

theorem Sound.shard_lt {a : Lists P} {place : Place} {x : P} (sound : Sound L a)
    (member : x ∈ a.queues place) : place.1 < queueNum := by
  have home := sound.home place x member
  have below : L.primary x < L.totalThreads := Nat.mod_lt _ L.positive
  have fits := L.fits
  omega

variable [DecidableEq P]

/-- A restart never brings back every thread. Of the first `threads` it does only
if that is one thread with one shard, nothing is linked anywhere, and each counter
has the value that stands, seven to a shard, where the reading looks for it. -/
theorem restart_restored_iff (boot : Boot s₀) (history : Reachable (Step L) s₀ s)
    (compressor : PtrCompressor P) :
    ¬ Restored L s threadNum ((members L s).restart compressor) ∧
    ∀ threads, 0 < threads → threads ≤ threadNum →
      (Restored L s threads ((members L s).restart compressor) ↔
        threads = 1 ∧ L.totalThreads = 1 ∧
        (∀ x, ¬ Resident s x) ∧
        ∀ i < queueNum, ∀ level, level = 1 ∨ level = 2 →
          s.counter i level =
            if i * 8 + level < queueNum * maxFreq then
              s.counter ((i * 8 + level) / maxFreq) ((i * 8 + level) % maxFreq)
            else 0) := by
  obtain ⟨c, holds, sound⟩ := history_invariant boot history
  have length : ∀ place, (s.queues.fifo place).size = (c place).length := fun place =>
    (holds.represents place).size
  refine ⟨fun kept => restart_lastThread L compressor s (kept.target 64 (by decide)), ?_⟩
  intro threads pos bound
  constructor
  · intro kept
    have one : L.totalThreads = 1 := (kept.shards 0 pos).symm
    refine ⟨?_, one, ?_, ?_⟩
    · -- thread 1 has target 0 before and 1 after
      by_contra more
      have second := kept.target 1 (by omega)
      rw [restart_targetQueue compressor _ (by decide), Layout.targetQueue, one] at second
      simp at second
    · rintro x ⟨⟨i, kind⟩, stored⟩
      have member := (stored_iff holds (i, kind) x).mp stored
      have hi : i < queueNum := sound.shard_lt member
      have empty := kept.sizes i hi kind
      rw [restart_size compressor _ hi, length] at empty
      rw [List.length_eq_zero_iff.mp empty.symm] at member
      cases member
    · intro i hi level hl
      rw [← restart_counter L compressor s i hl]
      exact (kept.counters i hi level hl).symm
  · rintro ⟨rfl, one, vacant, aligned⟩
    constructor
    · exact fun i hi => restart_lists compressor _ _ hi
    · intro i hi kind
      rw [restart_size compressor _ hi, length, eq_comm, List.length_eq_zero_iff, List.eq_nil_iff_forall_not_mem]
      intro x member
      exact vacant x ⟨(i, kind), (stored_iff holds (i, kind) x).mpr member⟩
    · intro i hi level hl
      rw [restart_counter L compressor s i hl]
      exact (aligned i hi level hl).symm
    · exact fun i hi => restart_hotnessThreshold compressor _ (by omega)
    · intro i hi
      obtain rfl : i = 0 := by omega
      rw [restart_targetQueue compressor _ (by decide), Layout.targetQueue]
      simp
    · exact fun i hi => one.symm
    · intro i hi node
      rw [getQueueID, Layout.primary, one]
      rfl

/-! Items that are numbers: the null pointer is code 0. -/

def countingCode : Option Nat → Int
  | none => 0
  | some n => n + 1

def countingItem (code : Int) : Option Nat := if code = 0 then none else some (code - 1).toNat

theorem countingItem_countingCode (p : Option Nat) : countingItem (countingCode p) = p := by
  cases p with
  | none => rfl
  | some n =>
    have positive : ((n : Int) + 1) ≠ 0 := by omega
    simp [countingItem, countingCode, positive]

def countingCompressor : PtrCompressor Nat := ⟨countingCode, countingItem, countingItem_countingCode⟩

def twoShards : Layout Nat where
  totalThreads := 2
  hashNode := BitVec.ofNat 32
  positive := by decide
  fits := by decide

/-- A list of one shard with one item: no number of threads is restored. -/
theorem restart_restored_iff_one_item : ∃ s, Reachable (Step oneShard) (blank fun _ => 0) s ∧
    Resident s 0 ∧ ¬ Restored oneShard s 1 ((members oneShard s).restart countingCompressor) := by
  have boot : Boot (blank (fun _ => 0) : Linkage Nat) := blank_boot _
  obtain ⟨history, residents⟩ := allocate_steps (L := oneShard) (n := 0) boot .refl
    (boot_vacant boot 0)
  have stored : Resident _ 0 := (residents 0).mpr (.inl rfl)
  refine ⟨_, history, stored, ?_⟩
  rw [(restart_restored_iff boot history countingCompressor).2 1 (by decide) (by decide)]
  rintro ⟨-, -, vacant, -⟩
  exact vacant 0 stored

/-- Item 1 of a list of two shards. After the restart its queue reports no item,
and a thread looks for it in shard 0. -/
theorem restart_misplaces_item : ∃ s, Reachable (Step twoShards) (blank fun _ => 0) s ∧
    (s.queues.fifo (1, .filter)).tail = some 1 ∧ (s.queues.fifo (1, .filter)).size = 1 ∧
    (((members twoShards s).restart countingCompressor).fifo (1, .filter)).tail = some 1 ∧
    (((members twoShards s).restart countingCompressor).fifo (1, .filter)).size = 0 ∧
    getQueueID twoShards s 1 = 1 ∧
    ((members twoShards s).restart countingCompressor).getQueueID twoShards.hashNode s.ref 1 0 = 0 ∧
    ¬ Restored twoShards s threadNum ((members twoShards s).restart countingCompressor) := by
  have boot : Boot (blank (fun _ => 0) : Linkage Nat) := blank_boot _
  obtain ⟨history, -⟩ := allocate_steps (L := twoShards) (n := 1) boot .refl (boot_vacant boot 1)
  have linked : (1, Kind.filter).1 < queueNum := by decide
  refine ⟨_, history, by decide +kernel, by decide +kernel, ?_, ?_, by decide +kernel,
    by decide +kernel, ?_⟩
  · rw [restart_fifo countingCompressor _ linked]
    decide +kernel
  · rw [restart_fifo countingCompressor _ linked]
    decide +kernel
  · exact fun kept => restart_lastThread twoShards countingCompressor _ (kept.target 64 (by decide))

end MerlinShards
