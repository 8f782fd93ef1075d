import CacheEviction.Binary64
import CacheEviction.HookedList
import CacheEviction.StepTraces

/-!
# CAR in CacheLib

`CARList.h` under `MMCAR.h`: two lists of items with a clock hand each, two ghost
lists of hashes, and a target size for the first list that ghost hits move. Members
that come in pairs (`listT1_` and `listT2_`, the hands, the ghosts) are indexed by
their side.

One thread at a time. An item is its address together with its key. Reading outside
a ghost buffer and dividing by a zero capacity are faults.
-/
namespace MmCar

open LinkedChains MerlinFifo HookedList Binary64 StepTraces

inductive Fault where
  | outOfRange
  | divisionByZero
  deriving DecidableEq

inductive AccessMode where
  | kRead
  | kWrite
  deriving DecidableEq

/-- `Config`, with what `checkConfig` demands. -/
structure Config where
  lruRefreshTime : Nat := 60
  updateOnWrite : Bool := false
  updateOnRead : Bool := true
  tryLockUpdate : Bool := false
  ghostMultiplier : ℚ := 1
  multiplier_pos : 0 < ghostMultiplier
  multiplier_le : ghostMultiplier ≤ 10

instance : Inhabited Config := ⟨{ multiplier_pos := by decide, multiplier_le := by decide }⟩

structure GhostEntry where
  hash : UInt32
  time : Nat
  deriving DecidableEq

structure GhostList where
  buffer : List GhostEntry := []
  hashSet : Finset UInt32 := ∅
  capacity : Nat := 0
  head : Nat := 0

/-- What the policy keeps in an item besides its links: `kMMFlag0` and `kMMFlag1` (in
which list), `kMMFlag2` (the reference bit), and the mark of the container. -/
structure Item where
  flag : Side → Bool := fun _ => false
  refBit : Bool := false
  inMMContainer : Bool := false
  updateTime : Nat := 0

structure Memory (P : Type) where
  hooks : Hooks P
  item : P → Item

structure CarList (P : Type) where
  list : Side → DList P := fun _ => {}
  hand : Side → Option P := fun _ => none
  ghost : Side → GhostList := fun _ => {}
  partitionSize : Nat := 0
  capacity : Nat := 0

structure State (P : Type) extends Memory P, CarList P

def fresh (P : Type) : State P where
  hooks := fun _ => ⟨none, none⟩
  item := fun _ => {}

/-! ## The ghost lists -/

namespace GhostList

def contains (g : GhostList) (hash : UInt32) : Bool := hash ∈ g.hashSet

def loadInsert (g : GhostList) (e : GhostEntry) : GhostList :=
  { g with buffer := g.buffer ++ [e], hashSet := insert e.hash g.hashSet }

def insert (g : GhostList) (hash : UInt32) (time : Nat) : Except Fault GhostList :=
  if hash ∈ g.hashSet then .ok g
  else if g.capacity ≤ g.buffer.length then
    match g.buffer[g.head]? with
    | none => .error .outOfRange
    | some old =>
      if g.capacity = 0 then .error .divisionByZero
      else .ok { g with
        buffer := g.buffer.set g.head ⟨hash, time⟩
        hashSet := Insert.insert hash (g.hashSet.erase old.hash)
        head := (g.head + 1) % g.capacity }
  else .ok { g with
    buffer := g.buffer ++ [⟨hash, time⟩]
    hashSet := Insert.insert hash g.hashSet }

/-- The buffer keeps the entry. -/
def remove (g : GhostList) (hash : UInt32) : GhostList := { g with hashSet := g.hashSet.erase hash }

def size (g : GhostList) : Nat := g.hashSet.card

end GhostList

/-! ## CARList -/

section Code

variable {P : Type} [DecidableEq P]

def isIn (s : State P) (side : Side) (node : P) : Bool := (s.item node).flag side

def State.size (s : State P) : Nat := (s.list .t1).size + (s.list .t2).size

def State.write (s : State P) (node : P) (f : Item → Item) : State P :=
  { s with item := Function.update s.item node (f (s.item node)) }

def State.link (s : State P) (side : Side) (node : P) : State P :=
  let linked := linkAtHead s.hooks (s.list side) node
  { s with hooks := linked.1, list := Function.update s.list side linked.2 }

def State.unlink (s : State P) (side : Side) (node : P) : State P :=
  let removed := HookedList.remove s.hooks (s.list side) node
  { s with hooks := removed.1, list := Function.update s.list side removed.2 }

/-- `setT1`, `setT2` -/
def Item.set (side : Side) (i : Item) : Item := { i with flag := fun x => x = side }

def Item.unsetAll (i : Item) : Item := { i with flag := fun _ => false, refBit := false }

/-- `addToT1`, `addToT2` -/
def addTo (s : State P) (side : Side) (node : P) : State P :=
  (s.link side node).write node fun i => { i.set side with refBit := false }

def removeNode (s : State P) (node : P) : State P :=
  let s := if isIn s .t1 node then s.unlink .t1 node
    else if isIn s .t2 node then s.unlink .t2 node
    else s
  s.write node Item.unsetAll

def setRefBit (s : State P) (node : P) : State P := s.write node fun i => { i with refBit := true }

def moveT1ToT2 (s : State P) (node : P) : State P :=
  let s := if isIn s .t1 node then
      ((s.unlink .t1 node).link .t2 node).write node (Item.set .t2)
    else s
  setRefBit s node

def markAccessed (s : State P) (node : P) : State P := setRefBit s node

def setCapacity (s : State P) (c : Nat) : State P :=
  { s with capacity := c, partitionSize := if s.partitionSize = 0 then c / 2 else s.partitionSize }

/-- `maxGhostSize_` itself is never read. -/
def setMaxGhostSize (s : State P) (size : Nat) : State P :=
  { s with ghost := fun side => { s.ghost side with capacity := size } }

def removeFromGhost (s : State P) (hash : UInt32) : State P :=
  { s with ghost := fun side => (s.ghost side).remove hash }

def isInGhost (s : State P) (side : Side) (hash : UInt32) : Bool := (s.ghost side).contains hash

/-- The step of an adaptation, from the sizes of the other ghost and of the one hit. -/
def delta (other own : Nat) : Nat := max 1 (other % 2 ^ 32 / max 1 (own % 2 ^ 32))

def adaptOnB1Hit (s : State P) : State P :=
  let d := delta (s.ghost .t2).size (s.ghost .t1).size
  { s with partitionSize := min ((s.partitionSize + d) % 2 ^ 32) s.capacity }

def adaptOnB2Hit (s : State P) : State P :=
  let d := delta (s.ghost .t1).size (s.ghost .t2).size
  { s with partitionSize := if d ≤ s.partitionSize then s.partitionSize - d else 0 }

/-- A hand that is not at an item of its list starts again at the tail. -/
def aim (s : State P) (side : Side) : Option P :=
  match s.hand side with
  | none => (s.list side).tail
  | some node => if isIn s side node then some node else (s.list side).tail

/-- The hand one item on, around the end of the list. -/
def advance (s : State P) (side : Side) (node : P) : State P :=
  { s with hand := Function.update s.hand side ((s.hooks node).prev.or (s.list side).tail) }

/-- The scanning loop, with the rounds it may still make. -/
def scan (side : Side) : Nat → State P → Option P × State P
  | 0, s => ((s.list side).tail, s)
  | n + 1, s =>
    match aim s side with
    | none => (none, { s with hand := Function.update s.hand side none })
    | some node =>
      if (s.item node).refBit then
        scan side n (advance (s.write node fun i => { i with refBit := false }) side node)
      else (some node, advance s side node)

/-- `findVictimInT1`, `findVictimInT2` -/
def findVictim (s : State P) (side : Side) : Option P × State P :=
  if (s.list side).size = 0 then (none, s)
  else
    let s := { s with hand := Function.update s.hand side (aim s side) }
    scan side ((s.list side).size + (s.list side).size / 2) s

variable (hashNode : P → UInt32)

/-- What `replace` does with the victim it has found in a list, if any. -/
def retire (side : Side) (time : Nat) (found : Option P × State P) :
    Except Fault (Option P × State P) :=
  match found with
  | (none, s) => .ok (none, s)
  | (some victim, s) => do
    let s := s.unlink side victim
    let g ← (s.ghost side).insert (hashNode victim) time
    return (some victim,
      { s with ghost := Function.update s.ghost side g }.write victim Item.unsetAll)

def replace (s : State P) (time : Nat) : Except Fault (Option P × State P) :=
  if (s.list .t1).size = 0 ∧ (s.list .t2).size = 0 then .ok (none, s)
  else if max 1 s.partitionSize ≤ (s.list .t1).size then
    retire hashNode .t1 time (findVictim s .t1)
  else if 0 < (s.list .t2).size then retire hashNode .t2 time (findVictim s .t2)
  else .ok (none, s)

/-! ## MMCAR -/

/-- The capacity of the ghosts for an estimate, a `double` cut to an integer. -/
def ghostSize (cfg : Config) (estimatedCapacity : Nat) : Nat :=
  ⌊double (estimatedCapacity * cfg.ghostMultiplier)⌋.toNat

/-- The first `add` sets the capacity and the ghost limits. -/
def initCapacity (cfg : Config) (s : State P) : State P :=
  if s.capacity = 0 then
    let estimatedCapacity := max (s.size + 1) 1000
    setMaxGhostSize (setCapacity s (estimatedCapacity % 2 ^ 32)) (ghostSize cfg estimatedCapacity)
  else s

def place (s : State P) (node : P) : State P :=
  let hash := hashNode node
  if isInGhost s .t1 hash then addTo (removeFromGhost (adaptOnB1Hit s) hash) .t2 node
  else if isInGhost s .t2 hash then addTo (removeFromGhost (adaptOnB2Hit s) hash) .t2 node
  else addTo s .t1 node

def add (cfg : Config) (s : State P) (node : P) (currTime : Nat) : Bool × State P :=
  if (s.item node).inMMContainer then (false, s)
  else (true, (place hashNode (initCapacity cfg s) node).write node fun i =>
    { i with inMMContainer := true, updateTime := currTime })

omit hashNode in
/-- The part of `recordAccess` under the lock. -/
def refresh (s : State P) (node : P) (curr : Nat) : State P :=
  let s := if isIn s .t1 node then moveT1ToT2 s node
    else if isIn s .t2 node then markAccessed s node
    else s
  s.write node fun i => { i with updateTime := curr }

omit hashNode in
def recordAccess (cfg : Config) (s : State P) (node : P) (mode : AccessMode) (curr : Nat) :
    Bool × State P :=
  if (mode = .kWrite ∧ !cfg.updateOnWrite) ∨ (mode = .kRead ∧ !cfg.updateOnRead) then (false, s)
  else if (s.item node).inMMContainer ∧
      ((s.item node).updateTime + cfg.lruRefreshTime) % 2 ^ 32 ≤ curr then
    (true, refresh s node curr)
  else if cfg.tryLockUpdate ∧ (s.item node).inMMContainer ∧ isIn s .t2 node then
    (false, markAccessed s node)
  else (false, s)

omit hashNode in
def removeLocked (s : State P) (node : P) : State P :=
  (removeNode s node).write node fun i => { i with inMMContainer := false }

/-- `fetchNextVictim`, and the `remove` by which the allocator consumes the victim. -/
def evict (s : State P) (now : Nat) : Except Fault (Option P × State P) := do
  match ← replace hashNode s now with
  | (none, s) => return (none, s)
  | (some victim, s) =>
    return (some victim, removeLocked (s.write victim fun i => { i with inMMContainer := false }) victim)

inductive Op (P : Type) where
  | add (node : P) (now : Nat)
  | recordAccess (node : P) (mode : AccessMode) (now : Nat)
  | evict (now : Nat)

def exec (cfg : Config) (s : State P) : Op P → Except Fault (State P)
  | .add node now => .ok (add hashNode cfg s node now).2
  | .recordAccess node mode now => .ok (recordAccess cfg s node mode now).2
  | .evict now => (evict hashNode s now).map Prod.snd

inductive Stepped (cfg : Config) : State P → State P → Prop where
  | step {s t : State P} (op : Op P) (ran : exec hashNode cfg s op = .ok t) : Stepped cfg s t

end Code

end MmCar
