import CacheEviction.FuelLoops
import CacheEviction.FifoCache
import CacheEviction.CountingFilter

/-!
# The Merlin policy of libCacheSim

`merlin.cpp`: four FIFO queues, a cumulative frequency histogram with an adaptive
guard, and the sticky ghost-hit state that `merlin_find` sets for `merlin_insert`.
Every loop is a `FuelLoops.loop` whose round is a definition of its own; reading
outside the `MAXFREQ + 1` entries of the histogram, dereferencing the tail of an
empty queue and a failed `assert` are faults.

Left out are the counters that are only printed (`filter_hitnum`, `ghost2core`,
`seq_miss`, `timer`, ...) and what `TRACK_PARAMETERS` adds.
-/
namespace MerlinPolicy

open FuelLoops FifoCache

/-- `MERLIN_obj_metadata_t`, as far as the policy reads it. -/
structure Meta where
  freq : Int
  inghost : Bool
  deriving DecidableEq

abbrev Obj := CacheObj Meta

def maxFreq : Int := 7

/-- The byte budgets `merlin_init` sets and the constants of the sketch. -/
structure Budgets where
  cacheSize : Nat
  filterLimit : Nat
  stagingLimit : Nat
  ghostLimit : Nat
  epochUpdate : Int
  hash : Nat → UInt32 × UInt32
  filter_pos : 1 ≤ filterLimit
  staging_pos : 1 ≤ stagingLimit

/-- `merlin_init`: the two shares are the products of a ratio and the cache size,
cut to an integer, and at least one byte. -/
def splitBudget (cacheSize filterShare stagingShare ghostShare : Nat) (epochUpdate : Int)
    (hash : Nat → UInt32 × UInt32) : Budgets where
  cacheSize := cacheSize
  filterLimit := max 1 filterShare
  stagingLimit := max 1 stagingShare
  ghostLimit := ghostShare
  epochUpdate := epochUpdate
  hash := hash
  filter_pos := Nat.le_max_left _ _
  staging_pos := Nat.le_max_left _ _

/-- `core_limit` is a `uint64_t`: it wraps when the other two exceed the cache. -/
def Budgets.coreLimit (b : Budgets) : Int :=
  ((b.cacheSize : Int) - b.filterLimit - b.stagingLimit) % 2 ^ 64

structure State where
  filter : Fifo Meta
  staging : Fifo Meta
  core : Fifo Meta
  ghost : Fifo Meta
  cbf : CountingFilter.Cbf
  epochCount : Int
  evictobjNum : Int
  guardFreq : Int
  hotdistribution : Int → Int
  ghostFreq : Int
  hitOnGhost : Bool
  moveToCore : Bool
  nByteAdmitToCore : Int
  nByteMoveToCore : Int

def merlinInit (cbf : CountingFilter.Cbf) : State where
  filter := .empty
  staging := .empty
  core := .empty
  ghost := .empty
  cbf := cbf
  epochCount := 0
  evictobjNum := 0
  guardFreq := 2
  hotdistribution := fun _ => 0
  ghostFreq := 0
  hitOnGhost := false
  moveToCore := false
  nByteAdmitToCore := 0
  nByteMoveToCore := 0

inductive Fault where
  | hotOutOfRange
  | nullTail
  | assertFailed
  deriving DecidableEq

abbrev Outcome (α : Type) := Except (Stop Fault) α

def merlinGetOccupiedByte (s : State) : Int :=
  s.filter.occupiedByte + s.staging.occupiedByte + s.core.occupiedByte

def merlinGetNObj (s : State) : Int := s.filter.nObj + s.staging.nObj + s.core.nObj

def merlinCanInsert (b : Budgets) (r : Request) : Bool := r.objSize ≤ b.filterLimit

/-! ## The histogram -/

def countUp (hot : Int → Int) (i : Int) : Int → Int := Function.update hot i (hot i + 1)

def decreaseFrom (hot : Int → Int) : Nat → Int → Int → Int
  | 0, _ => hot
  | n + 1, i => decreaseFrom (Function.update hot i (hot i - 1)) n (i - 1)

/-- `for (int i = ori_freq; i > dest_freq; i--) hotdistribution[i]--;` -/
def decreasepop (hot : Int → Int) (ori dest : Int) : Int → Int :=
  decreaseFrom hot (ori - dest).toNat ori

/-! ## Lookup -/

/-- What a hit does to the object's frequency ... -/
def bumped (m : Meta) : Meta := if m.freq < maxFreq then { m with freq := m.freq + 1 } else m

/-- ... and to the histogram. -/
def bumpedHot (hot : Int → Int) (m : Meta) : Int → Int :=
  if m.freq < maxFreq then countUp hot (m.freq + 1) else hot

/-- `merlin_find` with `update_cache` set: whether the request hits, and the state. -/
def merlinFind (s : State) (r : Request) : Bool × State :=
  match s.filter.find r.objId with
  | some obj =>
    (true, { s with
      filter := s.filter.retag r.objId bumped
      hotdistribution := bumpedHot s.hotdistribution obj.tag })
  | none => match s.staging.find r.objId with
    | some obj =>
      (true, { s with
        staging := s.staging.retag r.objId bumped
        hotdistribution := bumpedHot s.hotdistribution obj.tag })
    | none => match s.core.find r.objId with
      | some obj =>
        (true, { s with
          core := s.core.retag r.objId bumped
          hotdistribution := bumpedHot s.hotdistribution obj.tag })
      | none => match s.ghost.find r.objId with
        | some obj =>
          (false, { s with
            ghost := s.ghost.retag r.objId bumped
            hotdistribution := bumpedHot s.hotdistribution obj.tag
            hitOnGhost := true
            ghostFreq := (bumped obj.tag).freq
            moveToCore := if (bumped obj.tag).freq ≥ s.guardFreq then true else s.moveToCore })
        | none => (false, s)

/-! ## Insertion -/

/-- The warm-up test: neither admission queue holds a byte. -/
def warmUp (s : State) : Bool := s.staging.occupiedByte = 0 && s.filter.occupiedByte = 0

def merlinInsert (b : Budgets) (s : State) (r : Request) : State :=
  if warmUp s then
    { s with
      core := s.core.insert r ⟨0, false⟩
      nByteAdmitToCore := s.nByteAdmitToCore + (createCacheObj r ()).bytes
      hotdistribution := countUp s.hotdistribution 0 }
  else if s.hitOnGhost then
    if s.moveToCore then
      { s with
        hitOnGhost := false
        moveToCore := false
        core := s.core.insert r ⟨s.ghostFreq, false⟩
        ghost := s.ghost.remove r.objId }
    else
      { s with
        hitOnGhost := false
        cbf := CountingFilter.add s.cbf (b.hash r.objId).1 (b.hash r.objId).2
        staging := s.staging.insert r ⟨0, true⟩
        nByteAdmitToCore := s.nByteAdmitToCore + (createCacheObj r ()).bytes
        hotdistribution := countUp s.hotdistribution 0 }
  else
    { s with
      filter := s.filter.insert r ⟨0, false⟩
      hotdistribution := countUp s.hotdistribution 0 }

/-! ## Moves between the queues -/

def addtoghost (s : State) (r : Request) (freq : Int) : State :=
  { s with ghost := s.ghost.insert r ⟨freq, false⟩ }

def removefromghost (s : State) (id : Nat) : State :=
  match s.ghost.find id with
  | some obj =>
    { s with
      hotdistribution := decreasepop s.hotdistribution obj.tag.freq (-1)
      ghost := s.ghost.remove id }
  | none => s

def cbfAdd (b : Budgets) (s : State) (id : Nat) : State :=
  { s with cbf := CountingFilter.add s.cbf (b.hash id).1 (b.hash id).2 }

/-- Core tail to staging, with its frequency. -/
def demote (s : State) (obj : Obj) : State :=
  { s with
    staging := s.staging.insert obj.toRequest ⟨obj.tag.freq, false⟩
    core := s.core.remove obj.objId }

def adjustCoreRound (b : Budgets) (s : State) : Outcome (Round State State) :=
  if b.coreLimit < s.core.occupiedByte then
    match s.core.toEvict with
    | none => .error (.fault .nullTail)
    | some obj =>
      if 0 ≤ obj.tag.freq ∧ obj.tag.freq ≤ maxFreq then .ok (.again (demote s obj))
      else .error (.fault .assertFailed)
  else .ok (.done s)

def adjustCore (b : Budgets) (fuel : Nat) (s : State) : Outcome State :=
  loop (adjustCoreRound b) fuel s

def dropStaging (s : State) (obj : Obj) : State :=
  { s with
    hotdistribution := decreasepop s.hotdistribution obj.tag.freq (-1)
    staging := s.staging.remove obj.objId }

def evictStaging (s : State) : Outcome State :=
  match s.staging.toEvict with
  | none => .error (.fault .nullTail)
  | some obj => .ok (dropStaging s obj)

/-- The filter candidate wins the comparison: it enters staging cold and leaves
its frequency in ghost. `obj_size` is read after the free, where it still stands. -/
def replaceStaging (b : Budgets) (s : State) (obj : Obj) : State :=
  { cbfAdd b s obj.objId with
    staging := s.staging.insert obj.toRequest ⟨0, true⟩
    hotdistribution := countUp s.hotdistribution 0
    ghost := s.ghost.insert obj.toRequest ⟨obj.tag.freq, false⟩
    filter := s.filter.remove obj.objId
    nByteMoveToCore := s.nByteMoveToCore + obj.bytes }

/-- `compare`: 0 when there is nothing to compare, 1 when the filter candidate
replaced the staging one, 2 when it lost. -/
def compare (b : Budgets) (s : State) : Nat × State :=
  match s.filter.toEvict, s.staging.toEvict with
  | some filterObj, some stagingObj =>
    if stagingObj.tag.freq > 0 then (0, s)
    else
      let filterValue := CountingFilter.estimate s.cbf (b.hash filterObj.objId).1
        (b.hash filterObj.objId).2
      if filterValue > b.epochUpdate then (0, s)
      else
        let stagingValue := CountingFilter.estimate s.cbf (b.hash stagingObj.objId).1
          (b.hash stagingObj.objId).2
        if filterValue > stagingValue then (1, replaceStaging b s filterObj) else (2, s)
  | _, _ => (0, s)

/-- A hot staging tail goes to core for one unit of frequency, and its shadow in
ghost is dropped. -/
def graduate (b : Budgets) (s : State) (obj : Obj) : State :=
  let t := if obj.tag.inghost then removefromghost s obj.objId else s
  { cbfAdd b t obj.objId with
    core := t.core.insert obj.toRequest ⟨obj.tag.freq - 1, false⟩
    hotdistribution := decreasepop t.hotdistribution obj.tag.freq (obj.tag.freq - 1)
    staging := t.staging.remove obj.objId }

/-- Returns 1 at the first cold tail, 0 when staging has run empty. -/
def adjustStagingRound (b : Budgets) (s : State) : Outcome (Round State (Nat × State)) :=
  if s.staging.occupiedByte > 0 then
    match s.staging.toEvict with
    | none => .error (.fault .nullTail)
    | some obj =>
      if obj.tag.freq = 0 then .ok (.done (1, s)) else .ok (.again (graduate b s obj))
  else .ok (.done (0, s))

def adjustStaging (b : Budgets) (fuel : Nat) (s : State) : Outcome (Nat × State) :=
  loop (adjustStagingRound b) fuel s

/-- A hot filter tail goes to core and starts again at frequency 0. -/
def promote (b : Budgets) (s : State) (obj : Obj) : State :=
  { cbfAdd b s obj.objId with
    core := s.core.insert obj.toRequest ⟨0, false⟩
    hotdistribution := decreasepop s.hotdistribution obj.tag.freq 0
    filter := s.filter.remove obj.objId }

/-- A cold filter tail that did not win leaves only its ghost entry. -/
def retire (b : Budgets) (s : State) (obj : Obj) : State :=
  { cbfAdd b (addtoghost s obj.toRequest obj.tag.freq) obj.objId with
    filter := s.filter.remove obj.objId }

/-- One round of the loop of `adjust_filter`; the result is `has_evicted`. -/
def adjustFilterRound (b : Budgets) (s : State) : Outcome (Round State (Bool × State)) :=
  if s.filter.occupiedByte > 0 then
    match s.filter.toEvict with
    | none => .error (.fault .nullTail)
    | some obj =>
      if obj.tag.freq ≥ s.guardFreq then .ok (.again (promote b s obj))
      else
        match compare b s with
        | (1, t) => do
          let u ← evictStaging t
          return .done (true, u)
        | (_, t) => .ok (.done (true, retire b t obj))
  else .ok (.done (false, s))

def adjustFilter (b : Budgets) (fuel : Nat) (s : State) : Outcome (Bool × State) :=
  loop (adjustFilterRound b) fuel s

def dropGhost (s : State) (obj : Obj) : State :=
  { s with
    ghost := s.ghost.remove obj.objId
    hotdistribution := decreasepop s.hotdistribution obj.tag.freq (-1) }

def adjustGhostRound (b : Budgets) (s : State) : Outcome (Round State State) :=
  if s.ghost.occupiedByte > b.ghostLimit then
    match s.ghost.toEvict with
    | none => .error (.fault .nullTail)
    | some obj => .ok (.again (dropGhost s obj))
  else .ok (.done s)

def adjustGhost (b : Budgets) (fuel : Nat) (s : State) : Outcome State :=
  loop (adjustGhostRound b) fuel s

/-! ## The guard -/

/-- `hotdistribution[i]`, a vector of `MAXFREQ + 1` entries. -/
def readHot (s : State) (i : Int) : Outcome Int :=
  if 0 ≤ i ∧ i ≤ maxFreq then .ok (s.hotdistribution i) else .error (.fault .hotOutOfRange)

/-- `while (hotdistribution[guradfreq] > guardthreshold) guradfreq++;` -/
def raiseRound (s : State) (threshold guard : Int) : Outcome (Round Int Int) := do
  let population ← readHot s guard
  return if population > threshold then .again (guard + 1) else .done guard

/-- `while (guradfreq > 1 && hotdistribution[guradfreq - 1] < guardthreshold) guradfreq--;` -/
def lowerRound (s : State) (threshold guard : Int) : Outcome (Round Int Int) :=
  if guard > 1 then do
    let population ← readHot s (guard - 1)
    return if population < threshold then .again (guard - 1) else .done guard
  else .ok (.done guard)

/-- Neither loop can make more rounds before its index leaves the histogram. -/
def guardRounds : Nat := 9

/-- The two branches of `merlin_adjustguard`, after its first read. -/
def settleGuard (s : State) (population : Int) : Outcome Int :=
  if population > s.core.nObj then loop (raiseRound s s.core.nObj) guardRounds s.guardFreq
  else loop (lowerRound s s.core.nObj) guardRounds s.guardFreq

def merlinAdjustguard (s : State) : Outcome State := do
  let population ← readHot s s.guardFreq
  let guard ← settleGuard s population
  return { s with guardFreq := guard }

/-! ## Eviction and the request loop -/

/-- One full-cache worth of evictions is an epoch; the sketch decays every
`epoch_update` epochs. -/
def countEviction (b : Budgets) (s : State) : State :=
  if s.evictobjNum + 1 = merlinGetNObj s then
    if s.epochCount + 1 ≥ b.epochUpdate then
      { s with evictobjNum := 0, epochCount := 0, cbf := CountingFilter.decay s.cbf }
    else { s with evictobjNum := 0, epochCount := s.epochCount + 1 }
  else { s with evictobjNum := s.evictobjNum + 1 }

/-- `while (ret == 0) { adjust_core(cache); ret = adjust_staging(cache); }` -/
def coolStagingRound (b : Budgets) (fuel : Nat) (s : State) : Outcome (Round State State) := do
  let t ← adjustCore b fuel s
  let (ret, u) ← adjustStaging b fuel t
  return if ret = 0 then .again u else .done u

def coolStaging (b : Budgets) (fuel : Nat) (s : State) : Outcome State :=
  loop (coolStagingRound b fuel) fuel s

/-- Whether the new object would overflow the filter. -/
def filterFull (b : Budgets) (s : State) (r : Request) : Bool :=
  s.filter.occupiedByte + r.objSize > b.filterLimit

def makeRoom (b : Budgets) (fuel : Nat) (s : State) (r : Request) : Outcome State :=
  if filterFull b s r then do
    let (_, t) ← adjustFilter b fuel s
    return t
  else do
    let t ← coolStaging b fuel s
    evictStaging (compare b t).2

def merlinEvict (b : Budgets) (fuel : Nat) (s : State) (r : Request) : Outcome State := do
  let t ← merlinAdjustguard (countEviction b s)
  let u ← makeRoom b fuel t r
  adjustGhost b fuel u

/-- The loop condition of `cache_get_base`. -/
def overfull (b : Budgets) (s : State) (r : Request) : Bool :=
  merlinGetOccupiedByte s + r.objSize > b.cacheSize

def evictRound (b : Budgets) (fuel : Nat) (r : Request) (s : State) :
    Outcome (Round State State) :=
  if overfull b s r then do
    let t ← merlinEvict b fuel s r
    return .again t
  else .ok (.done s)

/-- `while (occupied + obj_size > cache_size) cache->evict(cache, req);` -/
def evictLoop (b : Budgets) (fuel : Nat) (s : State) (r : Request) : Outcome State :=
  loop (evictRound b fuel r) fuel s

/-- `merlin_get`, that is `cache_get_base` over the functions above. -/
def merlinGet (b : Budgets) (fuel : Nat) (s : State) (r : Request) : Outcome (Bool × State) :=
  match merlinFind s r with
  | (true, t) => .ok (true, t)
  | (false, t) =>
    if merlinCanInsert b r then do
      let u ← evictLoop b fuel t r
      return (false, merlinInsert b u r)
    else .ok (false, t)

end MerlinPolicy
