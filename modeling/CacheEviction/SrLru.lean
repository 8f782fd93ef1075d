import CacheEviction.CacheGet
import CacheEviction.LruCache
import Mathlib.Algebra.Order.Group.Nat

/-!
# Cacheus

`Cacheus.c` serves requests with `cache_get_base` and holds every object twice, in
`SR_LRU` and in `CR_LFU`; on an eviction a random draw over learned weights decides
between their candidates. This is `SR_LRU.c`: `SR_list` takes what is new, `R_list`
what has been used again, and `H_list` remembers what has left. `CR_LFU`, the weights
and the draw are a parameter: the id that is evicted against the wish of `SR_LRU`, if
any, at each eviction.

The sizes of the lists are adjusted by `double` steps that are multiples of one half;
the model computes with twice the step. Every loop takes an object from a list in each
round, so it is run for one round more than the list has objects. `entries` is a history
variable, which nothing reads: the objects that entered `R_list`.
-/
namespace Cacheus

open FuelLoops FifoCache CacheGet

/-- What stops the policy: the tail of an empty list is read, or a counter that is
zero is divided by. -/
inductive Fault where
  | nullTail
  | divideByZero
  deriving DecidableEq

/-- `SR_LRU_obj_metadata_t`; a new object has both marks cleared. -/
structure Marks where
  demoted : Bool := false
  newObj : Bool := false
  deriving DecidableEq

structure Params where
  cacheSize : Nat
  considerObjMetadata : Bool
  /-- The victim of `CR_LFU` at each eviction that goes its way. -/
  vote : Nat → Option Nat

/-- `obj_md_size` of the two caches and of their lists. -/
def Params.cacheusMdSize (b : Params) : Nat := if b.considerObjMetadata then 8 * 2 + 8 * 2 + 8 else 0

def Params.srLruMdSize (b : Params) : Nat := if b.considerObjMetadata then 2 else 0

def Params.lruMdSize (b : Params) : Nat := if b.considerObjMetadata then 8 * 2 else 0

/-- `SR_LRU_params_t`, with the sizes of the two lists that change. -/
structure State where
  srList : Fifo Marks
  rList : Fifo Marks
  hList : Fifo Marks
  srSize : Int
  rSize : Int
  cDemoted : UInt64 := 0
  cNew : UInt64 := 0
  nByteWriteInR : BitVec 64
  nEvict : Nat := 0
  entries : List (CacheObj Marks) := []

/-- `SR_LRU_init` does not set `n_byte_write_in_R`: it has what the allocator left. -/
def srLruInit (b : Params) (left : BitVec 64) : State where
  srList := .empty
  rList := .empty
  hList := .empty
  srSize := b.cacheSize - (b.cacheSize / 2 : Nat)
  rSize := (b.cacheSize / 2 : Nat)
  nByteWriteInR := left

def occupied (b : Params) (q : Fifo Marks) : Int := q.occupiedByte + b.lruMdSize * q.nObj

def srLruOccupied (b : Params) (s : State) : Int := occupied b s.rList + occupied b s.srList

def tail (q : Fifo Marks) : Except (Stop Fault) (CacheObj Marks) :=
  match q.toEvict with
  | none => .error (.fault .nullTail)
  | some obj => .ok obj

/-- Twice the `delta` of the two adjustments: one, or the quotient and a half. -/
def twiceDelta (a d : UInt64) : Except (Stop Fault) Int :=
  if d = 0 then .error (.fault .divideByZero)
  else
    let quotient := (a / d).toUInt32.toInt32.toInt
    .ok (if 2 * quotient + 1 < 2 then 2 else 2 * quotient + 1)

/-! ## Moves between the lists -/

/-- One round of the two loops that move the tail of `R_list` to `SR_list` until
`need` more bytes fit. -/
def demoteRound (b : Params) (need : Int) (s : State) : Except (Stop Fault) (Round State State) :=
  if s.rSize < occupied b s.rList + need then do
    let obj ← tail s.rList
    return .again { s with
      srList := s.srList.insert obj.toRequest { demoted := !obj.tag.demoted }
      cDemoted := if obj.tag.demoted then s.cDemoted else s.cDemoted + 1
      rList := s.rList.remove obj.objId }
  else return .done s

def demote (b : Params) (need : Int) (s : State) : Except (Stop Fault) State :=
  loop (demoteRound b need) (s.rList.objs.length + 1) s

/-- An object leaves for the history; `demoted` is the mark it gets there. -/
def pushHistory (s : State) (obj : CacheObj Marks) (demoted : Bool) : State :=
  { s with
    hList := s.hList.insert obj.toRequest { demoted := demoted, newObj := obj.tag.newObj }
    cNew := if obj.tag.newObj then s.cNew + 1 else s.cNew
    cDemoted := if obj.tag.demoted then s.cDemoted - 1 else s.cDemoted }

def trimRound (b : Params) (s : State) : Except (Stop Fault) (Round State State) :=
  if (b.cacheSize : Int) ≤ occupied b s.hList then do
    let obj ← tail s.hList
    return .again { s with hList := s.hList.remove obj.objId }
  else return .done s

def trimHistory (b : Params) (s : State) : Except (Stop Fault) State :=
  loop (trimRound b) (s.hList.objs.length + 1) s

def overflowRound (b : Params) (s : State) : Except (Stop Fault) (Round State State) :=
  if s.srSize < occupied b s.srList then do
    let obj ← tail s.srList
    let s := pushHistory s obj false
    return .again { s with srList := s.srList.remove obj.objId }
  else return .done s

def overflowSr (b : Params) (s : State) : Except (Stop Fault) State :=
  loop (overflowRound b) (s.srList.objs.length + 1) s

/-! ## Lookup -/

/-- A hit in `SR_list` moves the object to `R_list`. -/
def moveToR (b : Params) (s : State) (obj : CacheObj Marks) : Except (Stop Fault) State :=
  demote b 0 { s with
    rList := s.rList.insert obj.toRequest {}
    srList := s.srList.remove obj.objId
    entries := obj :: s.entries }

/-- A demoted object was hit: `SR_list` gets smaller. -/
def shrinkSr (b : Params) (s : State) (id : Nat) : Except (Stop Fault) State := do
  let delta ← twiceDelta s.cNew s.cDemoted
  let size := if 2 < 2 * s.srSize - delta then (2 * s.srSize - delta).tdiv 2 else 1
  return { s with
    srSize := size
    rSize := b.cacheSize - size
    rList := s.rList.retag id fun marks => { marks with demoted := false }
    cDemoted := s.cDemoted - 1 }

/-- The adjustment after a hit in `SR_list`. The marks of the copy in `R_list` are
cleared, also if the copy has left `R_list` again. -/
def adjustOnHit (b : Params) (s : State) (id : Nat) : Except (Stop Fault) State :=
  match s.rList.find id with
  | none => .ok s
  | some copy => if copy.tag.demoted then shrinkSr b s id else .ok s

/-- `SR_LRU_find` with `update_cache` set. -/
def srLruFind (b : Params) (s : State) (r : Request) : Except (Stop Fault) (Bool × State) :=
  let hitR := (s.rList.find r.objId).isSome
  let s := { s with rList := s.rList.promote r.objId, srList := s.srList.promote r.objId }
  match s.srList.find r.objId, hitR with
  | none, _ => .ok (hitR, s)
  | some _, true => (adjustOnHit b s r.objId).map fun s => (true, s)
  | some obj, false => do
    let s ← moveToR b s obj
    let s ← adjustOnHit b s r.objId
    return (true, s)

/-! ## Insertion -/

def srLruCanInsert (b : Params) (s : State) (r : Request) : Bool :=
  if (s.hList.find r.objId).isSome then r.objSize + b.srLruMdSize ≤ s.rSize
  else r.objSize + b.srLruMdSize ≤ s.srSize

/-- A new object came back from the history: `SR_list` gets larger. -/
def growSr (b : Params) (s : State) (id : Nat) : Except (Stop Fault) State := do
  let delta ← twiceDelta s.cDemoted s.cNew
  let limit := srLruOccupied b s - 1
  let size := if 2 * limit < 2 * s.srSize + delta then limit else (2 * s.srSize + delta).tdiv 2
  return { s with
    srSize := size
    rSize := b.cacheSize - size
    rList := s.rList.retag id fun marks => { marks with newObj := false } }

/-- The adjustment after an insertion from the history. -/
def adjustOnReturn (b : Params) (s : State) (id : Nat) : Except (Stop Fault) State :=
  match s.rList.find id with
  | none => .ok s
  | some obj => if obj.tag.newObj then growSr b s id else .ok s

/-- A miss on an object of the history brings it to `R_list`. -/
def insertFromHistory (b : Params) (s : State) (r : Request) : Except (Stop Fault) State := do
  let s ← demote b (r.objSize + b.srLruMdSize) { s with hList := s.hList.remove r.objId }
  adjustOnReturn b { s with
    rList := s.rList.insert r {}
    entries := createCacheObj r {} :: s.entries } r.objId

def enter (b : Params) (s : State) (r : Request) : Except (Stop Fault) State :=
  if (s.hList.find r.objId).isSome then insertFromHistory b s r
  else .ok { s with srList := s.srList.insert r { newObj := true } }

def relieve (b : Params) (s : State) : Except (Stop Fault) State :=
  if (b.cacheSize : Int) < srLruOccupied b s then overflowSr b s else .ok s

def srLruInsert (b : Params) (s : State) (r : Request) : Except (Stop Fault) State := do
  let s ← enter b s r
  let s ← relieve b s
  trimHistory b s

/-! ## Eviction -/

def srLruToEvict (b : Params) (s : State) : Except (Stop Fault) (CacheObj Marks) :=
  tail (if occupied b s.srList = 0 then s.rList else s.srList)

def srLruEvict (b : Params) (s : State) : Except (Stop Fault) State := do
  let obj ← srLruToEvict b s
  let s := if 0 < occupied b s.srList then { s with srList := s.srList.remove obj.objId }
    else { s with rList := s.rList.remove obj.objId }
  trimHistory b (pushHistory s obj obj.tag.demoted)

def srLruRemove (b : Params) (s : State) (id : Nat) : Except (Stop Fault) State :=
  match s.rList.find id, s.srList.find id with
  | some obj, _ => trimHistory b (pushHistory { s with rList := s.rList.remove id } obj false)
  | none, some obj => trimHistory b (pushHistory { s with srList := s.srList.remove id } obj false)
  | none, none => .ok s

/-! ## The policy -/

/-- `Cacheus_evict`: both candidates are read before one of them is chosen. -/
def cacheusEvict (b : Params) (s : State) : Except (Stop Fault) State := do
  let _ ← srLruToEvict b s
  let voted := { s with nEvict := s.nEvict + 1 }
  match b.vote s.nEvict with
  | none => srLruEvict b voted
  | some id => srLruRemove b voted id

def cacheusInsert (b : Params) (s : State) (r : Request) : Except (Stop Fault) State :=
  if srLruCanInsert b s r then srLruInsert b s r else .ok s

/-- `cache_get_base` adds `obj_md_size` to the occupied bytes. -/
def cacheus (b : Params) : Policy State Fault where
  cacheSize := b.cacheSize
  tick := id
  find s r := srLruFind b s r
  canInsert _ s r := .ok (r.objSize + b.cacheusMdSize ≤ b.cacheSize, s)
  occupiedByte s := srLruOccupied b s + b.cacheusMdSize
  evict _ s _ := cacheusEvict b s
  insert s r := cacheusInsert b s r

abbrev Requests (b : Params) : State → State → Prop := Requested (cacheus b) fun _ => True

theorem cacheusGet_mono (b : Params) (s : State) (r : Request) :
    FuelMono fun n => cacheGetBase (cacheus b) n s r :=
  cacheGetBase_mono (fun _ => .const _) (fun _ => .const _) s

/-! ## The loops leave

A round takes an object from a list or leaves, so the rounds that are run are
enough. -/

theorem tail_cases (q : Fifo Marks) : tail q = .error (.fault .nullTail) ∨
    ∃ obj rest, tail q = .ok obj ∧ q.objs = obj :: rest := by
  cases h : q.toEvict with
  | none => exact .inl (by rw [tail, h])
  | some obj =>
    obtain ⟨rest, shape⟩ := Fifo.toEvict_eq_some h
    exact .inr ⟨obj, rest, by rw [tail, h], shape⟩

end Cacheus
