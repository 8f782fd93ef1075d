import CacheEviction.Binary64
import CacheEviction.CrLfu
import CacheEviction.RecordedCalls

/-!
# LeCaR

`LeCaR.c`: two experts, LRU and LFU, choose the victim; a random number and their weights
decide between them. The victim stays in the hash table as a ghost, in the history of the
expert that chose it, and a request for a ghost lowers the weight of that expert.

The lists hold ids, the tail first. The frequency of an object is a bit-field of 23 bits,
compared in 64 bits without sign. `update_weight`, for its exponential and its power, and the
random numbers are parameters. `LECAR_USE_BELADY` is not set.
-/
namespace Lecar

open FifoCache FuelLoops CacheGet
open CrLfu (FreqNode)

/-- `evict_expert`: 0, 1, 2 and -1. -/
inductive Expert where
  | none
  | lru
  | lfu
  | both
  deriving DecidableEq

structure Meta where
  freq : BitVec 23
  isGhost : Bool
  evictExpert : Expert
  evictionVtime : BitVec 40
  deriving DecidableEq

/-- The frequency as a key of the map and in comparisons. -/
def freqOf (freq : BitVec 23) : Int := freq.toInt % 2 ^ 64

/-- The history of an expert: `ghost_lru_head`, `ghost_lru_tail` and `lru_g_occupied_byte`,
and the same for LFU. -/
structure History where
  ids : List Nat
  occupiedByte : Int

structure State where
  table : Fifo Meta
  q : List Nat
  ghostLru : History
  ghostLfu : History
  freqMap : Int → Option FreqNode
  minFreq : Int
  maxFreq : Int
  occupiedByte : Int
  nObj : Int
  nReq : Nat
  wLru : ℚ
  wLfu : ℚ
  toEvictCandidate : Option Nat
  toEvictCandidateGenVtime : Int
  /-- How many random numbers were taken. -/
  draws : Nat

structure Setup where
  cacheSize : Nat
  considerObjMetadata : Bool
  lruWeight : ℚ
  /-- From the age of the ghost, the weight to lower and the other weight. -/
  updateWeight : Int → ℚ → ℚ → ℚ × ℚ
  nextRand : Nat → Nat

def Setup.objMdSize (b : Setup) : Nat := if b.considerObjMetadata then 40 else 0

/-- The weight of LFU is 0.5 also if that of LRU is set. -/
def lecarInit (b : Setup) : State where
  table := .empty
  q := []
  ghostLru := ⟨[], 0⟩
  ghostLfu := ⟨[], 0⟩
  freqMap := fun freq => if freq = 1 then some ⟨0, []⟩ else none
  minFreq := 1
  maxFreq := 1
  occupiedByte := 0
  nObj := 0
  nReq := 0
  wLru := b.lruWeight
  wLfu := 1 / 2
  toEvictCandidate := none
  toEvictCandidateGenVtime := 0
  draws := 0

/-- What must not happen: a node or an object that is missing is used, a failed assertion,
or an object that was freed. -/
inductive Fault where
  | nullNode
  | nullObject
  | freedObject
  | assertFailed
  deriving DecidableEq

/-! ## The frequency nodes -/

def State.index (s : State) : CrLfu.State where
  objs id := (s.table.find id).bind fun o =>
    if o.tag.isGhost then none else some ⟨o.objSize, freqOf o.tag.freq⟩
  freqMap := s.freqMap
  minFreq := s.minFreq
  maxFreq := s.maxFreq

def updateLfuMinFreq (s : State) : State :=
  { s with minFreq := s.index.nextFreq.getD s.minFreq }

/-- `get_min_freq_node`, of which the callers read `first_obj`. `freq_one_node` is the node
of frequency 1. -/
def firstOfMinFreq (s : State) : Except (Stop Fault) (Option Nat) :=
  match s.freqMap s.minFreq with
  | none => .error (.fault .nullNode)
  | some node => .ok node.objs.head?

def removeObjFromFreqNode (s : State) (id : Nat) (freq : BitVec 23) : Except (Stop Fault) State :=
  match s.freqMap (freqOf freq) with
  | none => .error (.fault .nullNode)
  | some node =>
    let left := node.drop id
    let s := { s with freqMap := Function.update s.freqMap (freqOf freq) (some left) }
    .ok (if freqOf freq = s.minFreq ∧ left.nObj = 0 then updateLfuMinFreq s else s)

/-- `insert_obj_info_freq_node`: a frequency that is new gets a node. -/
def insertObjInfoFreqNode (s : State) (id : Nat) (freq : BitVec 23) : State :=
  let node := (s.freqMap (freqOf freq)).getD ⟨0, []⟩
  { s with freqMap := Function.update s.freqMap (freqOf freq) (some (node.push id)) }

/-! ## Lookups and insertions -/

/-- The bytes of an object with its metadata. -/
def objCost (b : Setup) (o : CacheObj Meta) : Int := o.bytes + b.objMdSize

def History.enter (b : Setup) (h : History) (ghost : CacheObj Meta) : History :=
  ⟨h.ids ++ [ghost.objId], h.occupiedByte + objCost b ghost⟩

def History.leave (b : Setup) (h : History) (ghost : CacheObj Meta) : History :=
  ⟨h.ids.erase ghost.objId, h.occupiedByte - objCost b ghost⟩

/-- A request for a ghost: it leaves its history, if it is in one, and the table. -/
def forgetGhost (b : Setup) (s : State) (obj : CacheObj Meta) : Except (Stop Fault) State :=
  let age : Int := s.nReq - obj.tag.evictionVtime.toInt
  let gone := s.table.remove obj.objId
  match obj.tag.evictExpert with
  | .lru =>
    let w := b.updateWeight age s.wLru s.wLfu
    .ok { s with
      wLru := w.1
      wLfu := w.2
      ghostLru := s.ghostLru.leave b obj
      table := gone }
  | .lfu =>
    let w := b.updateWeight age s.wLfu s.wLru
    .ok { s with
      wLfu := w.1
      wLru := w.2
      ghostLfu := s.ghostLfu.leave b obj
      table := gone }
  | .both => .ok { s with table := gone }
  | .none => .error (.fault .assertFailed)

def touchObj (s : State) (obj : CacheObj Meta) : Except (Stop Fault) State := do
  let s := { s with q := s.q.erase obj.objId ++ [obj.objId] }
  let s ← removeObjFromFreqNode s obj.objId obj.tag.freq
  let freq := obj.tag.freq + 1
  let s := { s with
    table := s.table.retag obj.objId fun m => { m with freq := freq }
    maxFreq := max s.maxFreq (freqOf freq) }
  let s := insertObjInfoFreqNode s obj.objId freq
  let s := if s.nObj = 1 then updateLfuMinFreq s else s
  return if freqOf freq < s.minFreq then { s with minFreq := freqOf freq } else s

/-- `LeCaR_find` with `update_cache` set. -/
def lecarFind (b : Setup) (s : State) (r : Request) : Except (Stop Fault) (Bool × State) :=
  match s.table.find r.objId with
  | none => .ok (false, s)
  | some obj =>
    if obj.tag.isGhost then (forgetGhost b s obj).map fun s => (false, s)
    else (touchObj s obj).map fun s => (true, s)

def lecarInsert (b : Setup) (s : State) (r : Request) : Except (Stop Fault) State :=
  match s.freqMap 1 with
  | none => .error (.fault .nullNode)
  | some node =>
    let new : Meta := ⟨1, false, .none, 0⟩
    .ok { s with
      table := s.table.insert r new
      occupiedByte := s.occupiedByte + objCost b (createCacheObj r new)
      nObj := s.nObj + 1
      q := s.q ++ [r.objId]
      minFreq := 1
      freqMap := Function.update s.freqMap 1 (some (node.push r.objId)) }

/-! ## Evictions -/

/-- `(double)(next_rand() % 100) / 100.0` -/
def draw (b : Setup) (s : State) : ℚ := Binary64.double ((b.nextRand s.draws % 100 : Nat) / 100)

def lecarToEvict (b : Setup) (s : State) : Except (Stop Fault) (Option Nat × State) := do
  let drawn := { s with toEvictCandidateGenVtime := s.nReq, draws := s.draws + 1 }
  let candidate ← if draw b s < s.wLru then pure s.q.head? else firstOfMinFreq s
  return (candidate, { drawn with toEvictCandidate := candidate })

/-- The choice of `LeCaR_evict`. It writes the tail of the LRU list over the candidate that
`LeCaR_to_evict` has left. -/
def chooseVictim (b : Setup) (s : State) : Except (Stop Fault) (Option Nat × Expert × State) := do
  let lruCandidate := s.q.head?
  let s := { s with toEvictCandidate := lruCandidate }
  let lfuCandidate ← firstOfMinFreq s
  if s.toEvictCandidateGenVtime = s.nReq then
    let victim := s.toEvictCandidate
    let expert : Expert :=
      if lruCandidate = lfuCandidate then .both
      else if victim = lruCandidate then .lru
      else .lfu
    return (victim, expert, { s with toEvictCandidateGenVtime := -1 })
  else if lruCandidate = lfuCandidate then return (lruCandidate, .both, s)
  else
    let drawn := { s with draws := s.draws + 1 }
    return if draw b s < s.wLru then (lruCandidate, .lru, drawn) else (lfuCandidate, .lfu, drawn)

/-- One turn of the loop that shortens a history: the tail leaves it and the table. -/
def trim (b : Setup) (a : History × Fifo Meta) :
    Except (Stop Fault) (Round (History × Fifo Meta) (History × Fifo Meta)) :=
  if (b.cacheSize / 2 : Nat) < a.1.occupiedByte then
    match a.1.ids with
    | [] => .error (.fault .nullObject)
    | id :: _ =>
      match a.2.find id with
      | none => .error (.fault .freedObject)
      | some ghost => .ok (.again (a.1.leave b ghost, a.2.remove id))
  else .ok (.done a)

/-- The victim enters a history, and older ghosts leave it. -/
def record (b : Setup) (h : History) (table : Fifo Meta) (victim : CacheObj Meta) :
    Except (Stop Fault) (History × Fifo Meta) :=
  loop (trim b) (h.ids.length + 2) (h.enter b victim, table)

def remember (b : Setup) (s : State) (victim : CacheObj Meta) (expert : Expert) :
    Except (Stop Fault) State :=
  match expert with
  | .lru => (record b s.ghostLru s.table victim).map fun a => { s with ghostLru := a.1, table := a.2 }
  | .lfu => (record b s.ghostLfu s.table victim).map fun a => { s with ghostLfu := a.1, table := a.2 }
  | _ => .ok s

/-- The rest of `LeCaR_evict`: the victim leaves both experts and becomes a ghost. -/
def makeGhost (b : Setup) (s : State) (id : Nat) (expert : Expert) : Except (Stop Fault) State :=
  match s.table.find id with
  | none => .error (.fault .freedObject)
  | some obj => do
    let s := { s with
      table := s.table.retag id fun m =>
        { m with isGhost := true, evictExpert := expert, evictionVtime := BitVec.ofNat 40 s.nReq }
      q := s.q.erase id }
    let s ← removeObjFromFreqNode s id obj.tag.freq
    let s := { s with
      occupiedByte := s.occupiedByte - objCost b obj
      nObj := s.nObj - 1 }
    remember b s obj expert

def lecarEvict (b : Setup) (s : State) : Except (Stop Fault) State := do
  let (victim, expert, s) ← chooseVictim b s
  match victim with
  | none => .error (.fault .nullObject)
  | some id => makeGhost b s id expert

def lecarRemove (b : Setup) (s : State) (objId : Nat) : Except (Stop Fault) (Bool × State) :=
  match s.table.find objId with
  | none => .ok (false, s)
  | some obj => do
    let s := { s with q := s.q.erase objId }
    let s ← removeObjFromFreqNode s objId obj.tag.freq
    return (true, { s with
      table := s.table.remove objId
      occupiedByte := s.occupiedByte - objCost b obj
      nObj := s.nObj - 1 })

/-- `LeCaR_get` is `cache_get_base` with these functions. The metadata of the new object is
taken from the room that there is for it. -/
def lecar (b : Setup) : Policy State Fault where
  cacheSize := b.cacheSize - b.objMdSize
  tick s := { s with nReq := s.nReq + 1 }
  find := lecarFind b
  canInsert _ s r := .ok (decide (r.objSize + b.objMdSize ≤ b.cacheSize), s)
  occupiedByte := State.occupiedByte
  evict _ s _ := lecarEvict b s
  insert := lecarInsert b

end Lecar
