import CacheEviction.FuelLoops
import CacheEviction.ItemRef
import CacheEviction.MerlinGhost
import CacheEviction.ShardQueues

/-!
# MerlinList: the sharded eviction policy of CacheLib

Items are spread over shards by their hash. A shard has a filter, a staging and a
core queue, and every primary shard is paired with a cuckoo shard that takes an
insertion when the primary's head lock is contended. Each thread evicts from the
pair of its target shard, by sizes and a hotness threshold that it copies into
shared fields only at every 1024th eviction.

Queues are any `FifoStore`. The thresholds compare an integer with a tenth or a
twentieth of a size, which is exact for the sizes a machine can hold. `missed` says
for each insertion to come how many attempts of `try_lock_head` fail. An item is
the life of one allocation, so a fresh item has no Merlin mark set. `core_size_` is
never read; it is left out, and with it the result of `cuckooInsert`.
-/
namespace MerlinShards

open FuelLoops ItemRef MerlinGhost MerlinSketch ShardQueues

def queueNum : Nat := 128
def maxRetries : Nat := 8

/-- What the constructor fixes. Thread `i` has target shard `i % totalThreads`. -/
structure Layout (P : Type) where
  totalThreads : Nat
  hashNode : P → Key
  positive : 0 < totalThreads
  fits : totalThreads * 2 ≤ queueNum

structure QueueInfo where
  ghost : Ghost := {}
  sketch : Sketch := {}
  freqDistribution : Nat → Int := fun _ => 0
  filterSize : Nat
  stagingSize : Nat
  totalSize : Nat

structure ThreadInfo where
  numInserts : Nat := 0
  hotnessThreshold : Nat := 1

structure Shards (Q P : Type) where
  queues : Q
  ref : P → Word
  queueInfo : Nat → QueueInfo
  threadInfo : Nat → ThreadInfo := fun _ => {}
  initializedGs : Bool := false
  missed : Nat → Nat

variable {Q P : Type} [DecidableEq P]

/-! ## Field updates -/

def Shards.withQueues {Q' : Type} (s : Shards Q P) (queues : Q') : Shards Q' P :=
  { s with queues := queues }

def Shards.updateRef (s : Shards Q P) (node : P) (f : Word → Word) : Shards Q P :=
  { s with ref := Function.update s.ref node (f (s.ref node)) }

def Shards.updateInfo (s : Shards Q P) (q : Nat) (f : QueueInfo → QueueInfo) : Shards Q P :=
  { s with queueInfo := Function.update s.queueInfo q (f (s.queueInfo q)) }

def Shards.count (s : Shards Q P) (q : Nat) (f : (Nat → Int) → Nat → Int) : Shards Q P :=
  s.updateInfo q fun i => { i with freqDistribution := f i.freqDistribution }

def Shards.touchSketch (s : Shards Q P) (q : Nat) (key : Key) : Shards Q P :=
  s.updateInfo q fun i => { i with sketch := estimate i.sketch key }

def Shards.shrinkFilter (s : Shards Q P) (q : Nat) : Shards Q P :=
  s.updateInfo q fun i => { i with filterSize := i.filterSize - 1 }

def Shards.shrinkStaging (s : Shards Q P) (q : Nat) : Shards Q P :=
  s.updateInfo q fun i => { i with stagingSize := i.stagingSize - 1 }

def Shards.rememberGhost (s : Shards Q P) (q : Nat) (key : Key) (freq : Nat) : Shards Q P :=
  s.updateInfo q fun i => { i with ghost := insert i.ghost key freq }

/-! ## Marks of an item -/

def setFilter (s : Shards Q P) (node : P) : Shards Q P :=
  s.updateRef node (setFlag · .kMMFlag0)

def unSetFilter (s : Shards Q P) (node : P) : Shards Q P :=
  s.updateRef node (unSetFlag · .kMMFlag0)

def setCore (s : Shards Q P) (node : P) : Shards Q P :=
  s.updateRef node (setFlag · .kMMFlag1)

def unSetCore (s : Shards Q P) (node : P) : Shards Q P :=
  s.updateRef node (unSetFlag · .kMMFlag1)

def setCuckoo (s : Shards Q P) (node : P) : Shards Q P :=
  s.updateRef node (setFlag · .kMMFlag5)

variable (L : Layout P)

def Layout.primary (node : P) : Nat := (L.hashNode node).toNat % L.totalThreads

def Layout.targetQueue (thread : Nat) : Nat := thread % L.totalThreads

def getQueueID (s : Shards Q P) (node : P) : Nat :=
  if isFlagSet (s.ref node) .kMMFlag5 then L.primary node + L.totalThreads else L.primary node

def incFreq (s : Shards Q P) (node : P) : Shards Q P :=
  let retval := getFreq (s.ref node) + 1
  (s.updateRef node raiseFreq).count (getQueueID L s node) (countStep · retval 1)

/-- The result is the frequency minus one, so `-1` for an item that had none left. -/
def decFreq (s : Shards Q P) (node : P) : Int × Shards Q P :=
  let retval := getFreq (s.ref node)
  (retval - 1, (s.updateRef node lowerFreq).count (getQueueID L s node) (countStep · retval (-1)))

def clearFreq (s : Shards Q P) (node : P) : Shards Q P :=
  let retval := getFreq (s.ref node)
  (s.updateRef node dropFreq).count (getQueueID L s node) (countFreq · retval (-1))

def resetFreq (s : Shards Q P) (node : P) : Shards Q P := s.updateRef node wipeFreq

def setFreq (s : Shards Q P) (node : P) (freq : Nat) : Shards Q P :=
  (s.updateRef node (writeFreq · freq)).count (getQueueID L s node) (countFreq · freq 1)

/-! ## Queues -/

variable [FifoStore Q P]

def popTail (s : Shards Q P) (place : Place) : Option P × Shards Q P :=
  let (node, queues) := FifoStore.removeTail s.queues place
  (node, s.withQueues queues)

/-- Attempts alternate between the two queues, beginning with the preferred one. -/
def cuckooInsert (s : Shards Q P) (node : P) (kind : Kind) (fifo cuckoofifo : Nat)
    (cuckoofirst : Bool) : Shards Q P :=
  let swapped := decide (s.missed 0 % 2 = 1)
  let s := { s with missed := fun i => s.missed (i + 1) }
  if swapped = cuckoofirst then
    s.withQueues (FifoStore.linkAtHead s.queues (fifo, kind) node)
  else
    setCuckoo (s.withQueues (FifoStore.linkAtHead s.queues (cuckoofifo, kind) node)) node

def shardSize (s : Shards Q P) (q : Nat) : Nat :=
  FifoStore.size s.queues (q, .filter) + FifoStore.size s.queues (q, .core) +
    FifoStore.size s.queues (q, .staging)

def size (s : Shards Q P) : Nat := ((List.range queueNum).map (shardSize s)).sum

/-! ## Thresholds -/

/-- A signed sum compared with an unsigned size: a negative sum is larger than any size. -/
def exceeds (sum : Int) (size : Nat) : Bool := sum < 0 || (size : Int) < sum

def Shards.refresh (s : Shards Q P) (q : Nat) : Shards Q P :=
  s.updateInfo q fun i => { i with
    filterSize := FifoStore.size s.queues (q, .filter)
    stagingSize := FifoStore.size s.queues (q, .staging)
    totalSize := shardSize s q }

/-- How many items of a pair, resident or remembered, the counters put at a level. -/
def pairFreq (s : Shards Q P) (q level : Nat) : Int :=
  (s.queueInfo q).freqDistribution level + (s.queueInfo q).ghost.freqDistribution level +
    (s.queueInfo (q + L.totalThreads)).freqDistribution level

def updateLocal (s : Shards Q P) (thread : Nat) : Shards Q P :=
  let targetQueue := L.targetQueue thread
  let cuckooQueue := targetQueue + L.totalThreads
  let s := (s.refresh targetQueue).refresh cuckooQueue
  let queueSize := (s.queueInfo targetQueue).totalSize + (s.queueInfo cuckooQueue).totalSize
  let threshold :=
    if exceeds (pairFreq L s targetQueue 2) queueSize then 3
    else if exceeds (pairFreq L s targetQueue 1) queueSize then 2
    else 1
  { s with threadInfo := Function.update s.threadInfo thread
            { s.threadInfo thread with hotnessThreshold := threshold } }

/-- `filter_size_ > listSize * 0.1`. -/
def filterOversized (s : Shards Q P) (q listSize : Nat) : Bool :=
  listSize < 10 * (s.queueInfo q).filterSize

/-- `staging_size_ > min(32.0, listSize * 0.05)`. -/
def stagingOversized (s : Shards Q P) (q listSize : Nat) : Bool :=
  32 < (s.queueInfo q).stagingSize || listSize < 20 * (s.queueInfo q).stagingSize

/-! ## Eviction -/

/-- How one of the three stages of the eviction loop ends: it moved an item and
the loop goes on, it has a victim, or its queue was empty. -/
inductive Turn (Q P : Type) where
  | moved (s : Shards Q P)
  | victim (node : P) (s : Shards Q P)
  | empty (s : Shards Q P)

/-- The queues one call of `getEviction_fromqueue` works on. -/
structure Site where
  thread : Nat
  target : Nat
  ori : Nat
  cuckoo : Nat
  listSize : Nat

def Site.cuckoofirst (e : Site) : Bool := e.target = e.cuckoo

def reinsert (s : Shards Q P) (e : Site) (node : P) (kind : Kind) : Shards Q P :=
  cuckooInsert s node kind e.ori e.cuckoo e.cuckoofirst

/-- A cold filter victim against the staging tail: it takes the tail's place if
the tail is cold and the sketch has seen the victim more often. -/
def contest (s : Shards Q P) (e : Site) (curr : P) : Turn Q P :=
  let (tailptr, s) :=
    if stagingOversized s e.target e.listSize then popTail s (e.target, .staging) else (none, s)
  match tailptr with
  | none => .victim curr s
  | some tail =>
    let sketch := (s.queueInfo e.ori).sketch
    let estCurr := getEstimate sketch (L.hashNode curr)
    let estTail := getEstimate sketch (L.hashNode tail)
    if getFreq (s.ref tail) = 0 ∧ estCurr < 0x3f ∧ estTail < estCurr then
      let s := reinsert (unSetFilter s curr) e curr .staging
      .victim tail (resetFreq (s.touchSketch e.ori (L.hashNode curr)) curr)
    else .victim curr (reinsert s e tail .staging)

def filterTurn (s : Shards Q P) (e : Site) : Turn Q P :=
  match popTail s (e.target, .filter) with
  | (none, s) => .empty s
  | (some curr, s) =>
    let s := s.shrinkFilter e.target
    let currFreq := getFreq (s.ref curr)
    let s := s.touchSketch e.ori (L.hashNode curr)
    if (s.threadInfo e.thread).hotnessThreshold ≤ currFreq then
      let s := reinsert (unSetFilter s curr) e curr .core
      .moved (clearFreq L (setCore s curr) curr)
    else
      let s := s.count e.target (countFreq · currFreq (-1))
      contest L (s.rememberGhost e.ori (L.hashNode curr) currFreq) e curr

def stagingTurn (s : Shards Q P) (e : Site) : Turn Q P :=
  match popTail s (e.target, .staging) with
  | (none, s) => .empty s
  | (some curr, s) =>
    let s := s.shrinkStaging e.target
    let dec := decFreq L s curr
    if dec.1 = -1 then .victim curr dec.2
    else .moved ((setCore (reinsert dec.2 e curr .core) curr).touchSketch e.ori (L.hashNode curr))

def coreTurn (s : Shards Q P) (e : Site) : Turn Q P :=
  match popTail s (e.target, .core) with
  | (none, s) => .empty s
  | (some curr, s) =>
    let dec := decFreq L s curr
    if dec.1 = -1 then .victim curr dec.2 else .moved (reinsert dec.2 e curr .core)

abbrev EvictionRound (Q P : Type) := Round (Nat × Shards Q P) (Option P × Shards Q P)

/-- How a stage goes on: round again after a move, out of the loop with a victim,
or to what follows when its queue was empty. -/
def Turn.round (i : Nat) (onEmpty : Shards Q P → EvictionRound Q P) : Turn Q P → EvictionRound Q P
  | .moved s => .again (i, s)
  | .victim node s => .done (some node, s)
  | .empty s => onEmpty s

def coreStage (e : Site) (i : Nat) (s : Shards Q P) : EvictionRound Q P :=
  (coreTurn L s e).round i fun s => .again (i + 1, s)

def stagingStage (e : Site) (i : Nat) (s : Shards Q P) : EvictionRound Q P :=
  if stagingOversized s e.target e.listSize then
    (stagingTurn L s e).round i (coreStage L e (i + 1))
  else coreStage L e i s

def filterStage (e : Site) (i : Nat) (s : Shards Q P) : EvictionRound Q P :=
  if filterOversized s e.target e.listSize then
    (filterTurn L s e).round i (stagingStage L e (i + 1))
  else stagingStage L e i s

/-- One round of the loop: `i` counts the empty queues met so far. -/
def evictionRound (e : Site) : Nat × Shards Q P → Except (Stop Empty) (EvictionRound Q P)
  | (i, s) => .ok (if i < maxRetries then filterStage L e i s else .done (none, s))

def getEvictionFromqueue (fuel : Nat) (s : Shards Q P) (target thread ori cuckoo : Nat) :
    Except (Stop Empty) (Option P × Shards Q P) :=
  let listSize := (s.queueInfo target).totalSize
  loop (evictionRound L ⟨thread, target, ori, cuckoo, listSize⟩) fuel (0, s)

/-- The larger shard of the pair, by the sizes cached for it. -/
def evictionTarget (s : Shards Q P) (queueId : Nat) : Nat :=
  let cuckooQueueId := queueId + L.totalThreads
  if (s.queueInfo cuckooQueueId).totalSize < (s.queueInfo queueId).totalSize then queueId
  else cuckooQueueId

def threadlocalRound (thread fuel : Nat) (s : Shards Q P) :
    Except (Stop Empty) (Round (Shards Q P) (P × Shards Q P)) := do
  let queueId := L.targetQueue thread
  let (curr, s) ← getEvictionFromqueue L fuel s (evictionTarget L s queueId) thread queueId
    (queueId + L.totalThreads)
  match curr with
  | none => return .again s
  | some node => return .done (node, s)

def getEvictionThreadlocal (fuel : Nat) (s : Shards Q P) (thread : Nat) :
    Except (Stop Empty) (P × Shards Q P) :=
  loop (threadlocalRound L thread fuel) fuel s

/-- The ghost and the sketch of every primary shard are sized at the first eviction. -/
def initializeGs (s : Shards Q P) : Shards Q P :=
  let averageSize := size s / L.totalThreads + 1
  let sized := fun q => max averageSize (shardSize s q + shardSize s (q + L.totalThreads))
  if s.initializedGs then s
  else { s with
    initializedGs := true
    queueInfo := fun q =>
      if q < L.totalThreads then
        { s.queueInfo q with
          ghost := MerlinGhost.initHashtable (MerlinGhost.setFIFOSize (s.queueInfo q).ghost (sized q))
          sketch := MerlinSketch.initHashtable
            (MerlinSketch.setFIFOSize (s.queueInfo q).sketch (sized q)) }
      else s.queueInfo q }

/-- What `getEvictionCandidate` does before it looks for a victim. -/
def prepareEviction (s : Shards Q P) (thread : Nat) : Shards Q P :=
  let s := initializeGs L s
  let s := if (s.threadInfo thread).numInserts % 1024 = 0 then updateLocal L s thread else s
  { s with threadInfo := Function.update s.threadInfo thread
            { s.threadInfo thread with numInserts := (s.threadInfo thread).numInserts + 1 } }

/-- The loop around `getEviction_threadlocal` is left out: that function only
returns with a victim. -/
def getEvictionCandidate (fuel : Nat) (s : Shards Q P) (thread : Nat) :
    Except (Stop Empty) (P × Shards Q P) :=
  getEvictionThreadlocal L fuel (prepareEviction L s thread) thread

/-! ## Admission and removal -/

/-- The frequency the ghost remembers for an item; looking it up reclaims slots. -/
def lookupHist (s : Shards Q P) (ghostId : Nat) (node : P) : Nat × Shards Q P :=
  let ghost := (s.queueInfo ghostId).ghost
  if ghost.initialized then
    let (freq, ghost) := contains ghost (L.hashNode node)
    (freq, s.updateInfo ghostId fun i => { i with ghost := ghost })
  else (0, s)

def add (s : Shards Q P) (node : P) (thread : Nat) : Shards Q P :=
  let queueId := getQueueID L s node
  let cuckooQueueId := queueId + L.totalThreads
  let (histFreq, s) := lookupHist L s (queueId % L.totalThreads) node
  if 0 < histFreq then
    if (s.threadInfo thread).hotnessThreshold ≤ histFreq then
      let s := cuckooInsert s node .core queueId cuckooQueueId false
      setFreq L (unSetFilter (setCore s node) node) node histFreq
    else
      let s := cuckooInsert s node .staging queueId cuckooQueueId false
      resetFreq (unSetFilter (unSetCore s node) node) node
  else
    let s := cuckooInsert s node .filter queueId cuckooQueueId false
    resetFreq (unSetCore (setFilter s node) node) node

/-- The kind of queue an item's marks point to. -/
def kindOf (m : Marks) : Kind :=
  if m.filter then .filter else if m.core then .core else .staging

def remove (s : Shards Q P) (node : P) : Shards Q P :=
  let queueId := getQueueID L s node
  let freq := getFreq (s.ref node)
  let s := s.withQueues (FifoStore.remove s.queues (queueId, kindOf (marks (s.ref node))) node)
  s.count queueId (countFreq · freq (-1))

end MerlinShards
