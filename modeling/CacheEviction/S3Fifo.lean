import CacheEviction.CacheGet

/-!
# S3-FIFO

`S3FIFO.c` over the FIFO cache: a small queue `fifo`, a `main_cache`, and a ghost
of the ids that left `fifo` cold, which is served by `FIFO_get` and absent if its size
is zero. The tag of an object is its `S3FIFO.freq`. The history variable `entries`,
which nothing reads, has the objects that entered `main_cache` from outside.

`S3FIFO_init` cuts the products of the two ratios and the cache size to integers;
the model takes the results. What is only printed, the `TRACK_` builds and
`misc.freq`, which is never read, are left out.
-/
namespace S3Fifo

open FuelLoops FifoCache CacheGet WeightedLists

/-! ## The ghost -/

/-- `FIFO_evict` reads the tail without a test. -/
def fifoEvict {M : Type} (q : Fifo M) : Except (Stop Fault) (Fifo M) :=
  match q.toEvict with
  | none => .error (.fault .nullTail)
  | some obj => .ok (q.remove obj.objId)

/-- `FIFO_get` is `cache_get_base` over the queue; entries of a ghost have no metadata. -/
def fifoPolicy (cacheSize : Nat) : Policy (Fifo Unit) Fault where
  cacheSize := cacheSize
  tick := id
  find q r := .ok ((q.find r.objId).isSome, q)
  canInsert _ q r := .ok (r.objSize ≤ cacheSize, q)
  occupiedByte q := q.occupiedByte
  evict _ q _ := fifoEvict q
  insert q r := .ok (q.insert r ())

def fifoGet (cacheSize fuel : Nat) (q : Fifo Unit) (r : Request) : Except (Stop Fault) (Fifo Unit) :=
  (cacheGetBase (fifoPolicy cacheSize) fuel q r).map Prod.snd

/-! ## The policy -/

structure Params where
  cacheSize : Nat
  fifoSize : Nat
  ghostSize : Nat
  moveToMainThreshold : Int
  fifo_le : fifoSize ≤ cacheSize

def Params.mainSize (b : Params) : Nat := b.cacheSize - b.fifoSize

/-- How an object comes into `main_cache`: with a request that was in the ghost, or
from `fifo`. -/
inductive Entry where
  | admitted (r : Request)
  | moved (obj : CacheObj Int)
  deriving DecidableEq

structure State where
  fifo : Fifo Int
  fifoGhost : Option (Fifo Unit)
  mainCache : Fifo Int
  hitOnGhost : Bool := false
  nObjAdmitToFifo : Int := 0
  nObjAdmitToMain : Int := 0
  nObjMoveToMain : Int := 0
  nByteAdmitToFifo : Int := 0
  nByteAdmitToMain : Int := 0
  nByteMoveToMain : Int := 0
  entries : List Entry := []

def s3fifoInit (b : Params) : State where
  fifo := .empty
  fifoGhost := if 0 < b.ghostSize then some .empty else none
  mainCache := .empty

/-- Look an id up in the ghost and take it out. -/
def consumeGhost (ghost : Option (Fifo Unit)) (id : Nat) : Bool × Option (Fifo Unit) :=
  match ghost with
  | none => (false, none)
  | some g => ((g.find id).isSome, some (g.remove id))

/-- `S3FIFO_find` with `update_cache` set. -/
def s3fifoFind (s : State) (r : Request) : Bool × State :=
  if (s.fifo.find r.objId).isSome then
    (true, { s with hitOnGhost := false, fifo := s.fifo.retag r.objId (· + 1) })
  else
    let (onGhost, ghost) := consumeGhost s.fifoGhost r.objId
    let s := { s with hitOnGhost := onGhost, fifoGhost := ghost }
    if (s.mainCache.find r.objId).isSome then
      (true, { s with mainCache := s.mainCache.retag r.objId (· + 1) })
    else (false, s)

def s3fifoInsert (b : Params) (s : State) (r : Request) : State :=
  if s.hitOnGhost then
    { s with
      hitOnGhost := false
      nObjAdmitToMain := s.nObjAdmitToMain + 1
      nByteAdmitToMain := s.nByteAdmitToMain + r.objSize
      mainCache := s.mainCache.insert r 0
      entries := .admitted r :: s.entries }
  else if b.fifoSize ≤ r.objSize then s
  else
    { s with
      nObjAdmitToFifo := s.nObjAdmitToFifo + 1
      nByteAdmitToFifo := s.nByteAdmitToFifo + r.objSize
      fifo := s.fifo.insert r 0 }

/-- An object of `fifo` that is hot enough goes to `main_cache`, where it starts
with frequency zero. -/
def moveToMain (s : State) (obj : CacheObj Int) : State :=
  { s with
    nObjMoveToMain := s.nObjMoveToMain + 1
    nByteMoveToMain := s.nByteMoveToMain + obj.bytes
    mainCache := s.mainCache.insert obj.toRequest 0
    entries := .moved obj :: s.entries }

def ghostGet (b : Params) (fuel : Nat) (ghost : Option (Fifo Unit)) (r : Request) :
    Except (Stop Fault) (Option (Fifo Unit)) :=
  match ghost with
  | none => .ok none
  | some g => (fifoGet b.ghostSize fuel g r).map some

/-- `fifo->remove`, with the assertion that the object was there. -/
def dropFromFifo (s : State) (obj : CacheObj Int) : Except (Stop Fault) State :=
  if (s.fifo.find obj.objId).isSome then .ok { s with fifo := s.fifo.remove obj.objId }
  else .error (.fault .assertFailed)

/-- One round of the loop of `S3FIFO_evict_fifo`. -/
def evictFifoRound (b : Params) (fuel : Nat) (s : State) : Except (Stop Fault) (Round State State) :=
  if 0 < s.fifo.occupiedByte then
    match s.fifo.toEvict with
    | none => .error (.fault .nullTail)
    | some obj =>
      if b.moveToMainThreshold ≤ obj.tag then do
        return .again (← dropFromFifo (moveToMain s obj) obj)
      else do
        let ghost ← ghostGet b fuel s.fifoGhost obj.toRequest
        return .done (← dropFromFifo { s with fifoGhost := ghost } obj)
  else .ok (.done s)

/-- `int freq = obj_to_evict->S3FIFO.freq` keeps the low 32 bits. -/
def intFreq (freq : Int) : Int := freq.bmod (2 ^ 32)

/-- One round of the loop of `S3FIFO_evict_main`: a clock with a 2-bit counter. -/
def evictMainRound (s : State) : Except (Stop Fault) (Round State State) :=
  if 0 < s.mainCache.occupiedByte then
    match s.mainCache.toEvict with
    | none => .error (.fault .nullTail)
    | some obj =>
      let rest := s.mainCache.remove obj.objId
      if 1 ≤ intFreq obj.tag then
        .ok (.again { s with
          mainCache := rest.insert obj.toRequest (min (intFreq obj.tag) 3 - 1) })
      else .ok (.done { s with mainCache := rest })
  else .ok (.done s)

def s3fifoEvict (b : Params) (fuel : Nat) (s : State) : Except (Stop Fault) State :=
  if (b.mainSize : Int) < s.mainCache.occupiedByte ∨ s.fifo.occupiedByte = 0 then
    loop evictMainRound fuel s
  else loop (evictFifoRound b fuel) fuel s

def s3fifo (b : Params) : Policy State Fault where
  cacheSize := b.cacheSize
  tick := id
  find s r := .ok (s3fifoFind s r)
  canInsert _ s r := .ok (r.objSize ≤ b.fifoSize, s)
  occupiedByte s := s.fifo.occupiedByte + s.mainCache.occupiedByte
  evict fuel s _ := s3fifoEvict b fuel s
  insert s r := .ok (s3fifoInsert b s r)

def s3fifoGet (b : Params) (fuel : Nat) (s : State) (r : Request) :
    Except (Stop Fault) (Bool × State) :=
  cacheGetBase (s3fifo b) fuel s r

end S3Fifo
