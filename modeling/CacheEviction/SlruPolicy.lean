import CacheEviction.LruCache
import CacheEviction.RecordedCalls

/-!
# SLRU

`SLRU.c`: a cache of several LRU segments. An object that is hit goes to the next segment;
a segment above its size cools, that is, its last object goes to the head of the segment
below, which may have to cool in turn, and the first segment evicts.

`lru_n_bytes` and `lru_n_objs` count each segment apart from the lists. A lookup is a search
of the segments, and the tag of an object is its `lru_id`. Whatever the counters say, each
turn of the loop in `SLRU_cool` brings an object down or out, so the places of the objects
are its budget.
-/
namespace Slru

open FifoCache FuelLoops CacheGet RecordedCalls WeightedLists Function

/-! ## The code -/

structure Setup where
  cacheSize : Nat
  nSeg : Nat
  nSeg_pos : 0 < nSeg
  lruMaxNBytes : Nat → Nat
  considerObjMetadata : Bool

def Setup.objMdSize (b : Setup) : Nat := if b.considerObjMetadata then 16 else 0

/-- The segments as `SLRU_init` sizes them if it is told nothing else. -/
def equalSegments (cacheSize nSeg : Nat) (nSeg_pos : 0 < nSeg) (considerObjMetadata : Bool) : Setup :=
  ⟨cacheSize, nSeg, nSeg_pos, fun _ => cacheSize / nSeg, considerObjMetadata⟩

structure State where
  segs : Nat → Fifo Nat
  lruNBytes : Nat → Int
  lruNObjs : Nat → Int
  occupiedByte : Int

def slruInit : State := ⟨fun _ => .empty, fun _ => 0, fun _ => 0, 0⟩

/-- What must not happen: the tail of an empty list is used, or an object that was freed. -/
inductive Fault where
  | nullObject
  | freedObject
  deriving DecidableEq

def findObj (b : Setup) (s : State) (id : Nat) : Option (CacheObj Nat) :=
  (List.range b.nSeg).findSome? fun i => (s.segs i).find id

def unlink (s : State) (i id : Nat) : State :=
  { s with segs := Function.update s.segs i ((s.segs i).remove id) }

/-- `prepend_obj_to_head`, with the change of `lru_id`. -/
def link (s : State) (i : Nat) (r : Request) : State :=
  { s with segs := Function.update s.segs i ((s.segs i).insert r i) }

def charge (s : State) (i : Nat) (bytes objs : Int) : State :=
  { s with
    lruNBytes := Function.update s.lruNBytes i (s.lruNBytes i + bytes)
    lruNObjs := Function.update s.lruNObjs i (s.lruNObjs i + objs) }

def slruToEvict (b : Setup) (s : State) : Option (CacheObj Nat) :=
  ((List.range b.nSeg).find? fun i => 0 < s.lruNBytes i).bind fun i => (s.segs i).toEvict

def slruEvict (b : Setup) (s : State) : Except (Stop Fault) State :=
  match slruToEvict b s with
  | none => .error (.fault .nullObject)
  | some obj =>
    let s := charge s obj.tag (-(obj.bytes + b.objMdSize)) (-1)
    let s := unlink s obj.tag obj.objId
    .ok { s with occupiedByte := s.occupiedByte - (obj.bytes + b.objMdSize) }

/-- Each object counts for the moves that it can still make. -/
def placement (b : Setup) (s : State) : Int :=
  total (fun i => (i + 1) * (s.segs i).nObj) (List.range b.nSeg)

/-- The loop of a segment that is above its size. -/
def whileFull (b : Setup) (cool : State → Except (Stop Fault) State) (i : Nat) (s : State) :
    Except (Stop Fault) (Round State State) :=
  if b.lruMaxNBytes i < s.lruNBytes i then (cool s).map .again else .ok (.done s)

def slruCool (b : Setup) : Nat → State → Except (Stop Fault) State
  | 0, s => slruEvict b s
  | id + 1, s =>
    match (s.segs (id + 1)).toEvict with
    | none => .error (.fault .nullObject)
    | some obj =>
      let s := link (unlink s (id + 1) obj.objId) id obj.toRequest
      let s := charge (charge s (id + 1) (-obj.bytes) (-1)) id obj.bytes 1
      loop (whileFull b (slruCool b id) id) ((placement b s).toNat + 1) s

def slruPromoteToNextSeg (b : Setup) (s : State) (obj : CacheObj Nat) : State :=
  let s := charge (unlink s obj.tag obj.objId) obj.tag (-(obj.bytes + b.objMdSize)) (-1)
  charge (link s (obj.tag + 1) obj.toRequest) (obj.tag + 1) (obj.bytes + b.objMdSize) 1

/-- The loop of `SLRU_find` reads the segment of the object anew in each turn. -/
def settle (b : Setup) (id : Nat) (s : State) : Except (Stop Fault) (Round State State) :=
  match findObj b s id with
  | none => .error (.fault .freedObject)
  | some obj => whileFull b (slruCool b obj.tag) obj.tag s

/-- `SLRU_find` with `update_cache` set. -/
def slruFind (b : Setup) (s : State) (r : Request) : Except (Stop Fault) (Bool × State) :=
  match findObj b s r.objId with
  | none => .ok (false, s)
  | some obj =>
    if obj.tag = b.nSeg - 1 then
      .ok (true, { s with segs := Function.update s.segs obj.tag ((s.segs obj.tag).promote r.objId) })
    else
      let s := slruPromoteToNextSeg b s obj
      (loop (settle b r.objId) ((placement b s).toNat + 1) s).map fun s => (true, s)

/-- The loop of `SLRU_insert` for an object that fits into no segment. -/
def whileNoRoom (b : Setup) (r : Request) (s : State) : Except (Stop Fault) (Round State State) :=
  if b.cacheSize < s.occupiedByte + r.objSize + b.objMdSize then (slruEvict b s).map .again
  else .ok (.done s)

/-- The object enters a segment: the counters take the size of the request. -/
def place (b : Setup) (s : State) (r : Request) (i : Nat) : State :=
  let s := charge (link s i r) i (r.objSize + b.objMdSize) 1
  { s with occupiedByte := s.occupiedByte + ((createCacheObj r i).bytes + b.objMdSize) }

def slruInsert (b : Setup) (s : State) (r : Request) : Except (Stop Fault) State :=
  match (List.range b.nSeg).find? fun i =>
    s.lruNBytes i + r.objSize + b.objMdSize ≤ b.lruMaxNBytes i with
  | some i => .ok (place b s r i)
  | none =>
    (loop (whileNoRoom b r) ((placement b s).toNat + 1) s).map fun s => place b s r 0

def slruRemove (b : Setup) (s : State) (objId : Nat) : Except (Stop Fault) (Bool × State) :=
  match findObj b s objId with
  | none => .ok (false, s)
  | some obj =>
    let s := unlink s obj.tag objId
    .ok (true, { s with occupiedByte := s.occupiedByte - (obj.bytes + b.objMdSize) })

def slruCanInsert (b : Setup) (r : Request) : Bool :=
  r.objSize + b.objMdSize ≤ b.cacheSize ∧ r.objSize + b.objMdSize ≤ b.lruMaxNBytes 0

/-- `SLRU_get` is `cache_get_base` with these functions. The metadata of the new object is
taken from the room that there is for it. -/
def slru (b : Setup) : Policy State Fault where
  cacheSize := b.cacheSize - b.objMdSize
  tick s := s
  find := slruFind b
  canInsert _ s r := .ok (slruCanInsert b r, s)
  occupiedByte := State.occupiedByte
  evict _ s _ := slruEvict b s
  insert := slruInsert b

/-! ## What is expected -/

/-- The bytes of the objects of a list, each with its metadata. -/
def cost (b : Setup) (q : Fifo Nat) : Int := q.occupiedByte + b.objMdSize * q.nObj

def Accounted (b : Setup) (s : State) : Prop :=
  ∀ i < b.nSeg, s.lruNBytes i = cost b (s.segs i) ∧ s.lruNObjs i = (s.segs i).nObj

instance (b : Setup) (s : State) : Decidable (Accounted b s) :=
  inferInstanceAs (Decidable (∀ i < b.nSeg, _))

/-- A request whose object is stored with its size, and which cools no segment if there is
metadata. -/
def Countable (b : Setup) (s : State) (r : Request) : Prop :=
  match findObj b s r.objId with
  | none => slruCanInsert b r = true → r.objSize < 2 ^ 32
  | some obj => b.objMdSize = 0 ∨ obj.tag = b.nSeg - 1 ∨
      s.lruNBytes (obj.tag + 1) + (obj.bytes + b.objMdSize) ≤ b.lruMaxNBytes (obj.tag + 1)

instance (b : Setup) (s : State) (r : Request) : Decidable (Countable b s r) :=
  match found : findObj b s r.objId with
  | none => decidable_of_iff (slruCanInsert b r = true → r.objSize < 2 ^ 32) (by simp [Countable, found])
  | some obj => decidable_of_iff (b.objMdSize = 0 ∨ obj.tag = b.nSeg - 1 ∨
      s.lruNBytes (obj.tag + 1) + (obj.bytes + b.objMdSize) ≤ b.lruMaxNBytes (obj.tag + 1))
      (by simp [Countable, found])

abbrev Calls (b : Setup) (mayGet : State → Request → Prop) (mayRemove : State → Nat → Prop) :
    State → State → Prop :=
  Called (slru b) (slruRemove b) mayGet mayRemove

/-! ## The lists -/

section Lists

variable {b : Setup} {q : Fifo Nat} {id : Nat} {obj : CacheObj Nat}

theorem nObj_insert (q : Fifo Nat) (r : Request) (tag : Nat) : (q.insert r tag).nObj = q.nObj + 1 := rfl

theorem nObj_remove (found : q.find id = some obj) : (q.remove id).nObj = q.nObj - 1 := by
  have before := q.nObj_eq
  have after := (q.remove id).nObj_eq
  have fewer := List.length_eraseP_of_mem (Fifo.find_mem found) (List.find?_some found)
  have positive := List.length_pos_of_mem (Fifo.find_mem found)
  rw [Fifo.objs_remove] at after
  omega

theorem cost_insert (b : Setup) (q : Fifo Nat) (r : Request) (tag : Nat) :
    cost b (q.insert r tag) = cost b q + ((createCacheObj r tag).bytes + b.objMdSize) := by
  rw [cost, cost, nObj_insert, Fifo.occupied_insert]
  ring

theorem cost_remove (b : Setup) (found : q.find id = some obj) :
    cost b (q.remove id) = cost b q - (obj.bytes + b.objMdSize) := by
  have bytes := Fifo.total_remove_found CacheObj.bytes found
  rw [← Fifo.occupied_eq, ← Fifo.occupied_eq] at bytes
  rw [cost, cost, nObj_remove found, bytes]
  ring

theorem cost_nonneg (b : Setup) (q : Fifo Nat) : 0 ≤ cost b q := by
  have bytes := q.occupied_nonneg
  have count := q.nObj_eq
  have metadata : 0 ≤ (b.objMdSize : Int) * q.nObj :=
    Int.mul_nonneg (Int.natCast_nonneg _) (by omega)
  rw [cost]
  omega

theorem cost_pos (b : Setup) (some_ : obj ∈ q.objs) (positive : 1 ≤ obj.bytes) : 0 < cost b q := by
  have bytes := le_total_of_mem CacheObj.bytes_nonneg some_
  have count := q.nObj_eq
  have metadata : 0 ≤ (b.objMdSize : Int) * q.nObj :=
    Int.mul_nonneg (Int.natCast_nonneg _) (by omega)
  rw [← q.occupied_eq] at bytes
  rw [cost]
  omega

end Lists

/-! ## The segments together -/

/-- What holds of the lists apart from the counters: an object knows its segment, is not
empty, fits into the first segment, and is in one segment once. -/
structure Linked (b : Setup) (segs : Nat → Fifo Nat) : Prop where
  tags : ∀ i, ∀ obj ∈ (segs i).objs, obj.tag = i
  positive : ∀ i, ∀ obj ∈ (segs i).objs, 1 ≤ obj.bytes
  small : ∀ i, ∀ obj ∈ (segs i).objs, obj.bytes + b.objMdSize ≤ b.lruMaxNBytes 0
  single : ∀ id, total (fun i => (segs i).held id) (List.range b.nSeg) ≤ 1

theorem total_segs (w : Nat → Fifo Nat → Int) (segs : Nat → Fifo Nat) {n i : Nat} (inside : i < n)
    (q : Fifo Nat) : total (fun j => w j (update segs i q j)) (List.range n) =
      total (fun j => w j (segs j)) (List.range n) - w i (segs i) + w i q := by
  have changed : (fun j => w j (update segs i q j)) =
      update (fun j => w j (segs j)) i (w i q) := by
    funext j
    by_cases same : j = i
    · rw [same, update_self, update_self]
    · rw [update_of_ne same, update_of_ne same]
  rw [changed]
  exact total_update (fun x => x) _ i (w i q) List.nodup_range (List.mem_range.mpr inside)

namespace Linked

variable {b : Setup} {segs : Nat → Fifo Nat} {i id : Nat} {obj : CacheObj Nat}

theorem forall_update {P : Nat → CacheObj Nat → Prop} (all : ∀ i, ∀ obj ∈ (segs i).objs, P i obj)
    {q : Fifo Nat} (changed : ∀ obj ∈ q.objs, P i obj) :
    ∀ j, ∀ obj ∈ (update segs i q j).objs, P j obj := by
  intro j obj member
  by_cases same : j = i
  · subst same
    rw [update_self] at member
    exact changed obj member
  · rw [update_of_ne same] at member
    exact all j obj member

theorem mem_of_remove {q : Fifo Nat} (member : obj ∈ (q.remove id).objs) : obj ∈ q.objs := by
  rw [Fifo.objs_remove] at member
  exact List.mem_of_mem_eraseP member

theorem remove (linked : Linked b segs) (inside : i < b.nSeg) (id : Nat) :
    Linked b (update segs i ((segs i).remove id)) where
  tags := forall_update linked.tags fun obj member => linked.tags i obj (mem_of_remove member)
  positive := forall_update linked.positive fun obj member => linked.positive i obj (mem_of_remove member)
  small := forall_update linked.small fun obj member => linked.small i obj (mem_of_remove member)
  single x := by
    have before := linked.single x
    have after := total_segs (fun _ q => q.held x) segs inside ((segs i).remove id)
    have left := (segs i).held_remove id x
    rw [after, left]
    split <;> omega

theorem insert (linked : Linked b segs) (inside : i < b.nSeg) {r : Request}
    (new : total (fun j => (segs j).held r.objId) (List.range b.nSeg) = 0)
    (positive : 1 ≤ (createCacheObj r i).bytes)
    (small : (createCacheObj r i).bytes + b.objMdSize ≤ b.lruMaxNBytes 0) :
    Linked b (update segs i ((segs i).insert r i)) := by
  have last : ∀ {P : CacheObj Nat → Prop}, (∀ obj ∈ (segs i).objs, P obj) → P (createCacheObj r i) →
      ∀ obj ∈ ((segs i).insert r i).objs, P obj := by
    intro P all own obj member
    rw [Fifo.objs_insert] at member
    rcases List.mem_append.mp member with old | last
    · exact all obj old
    · rw [List.mem_singleton.mp last]
      exact own
  constructor
  · exact forall_update linked.tags (last (linked.tags i) rfl)
  · exact forall_update linked.positive (last (linked.positive i) positive)
  · exact forall_update linked.small (last (linked.small i) small)
  · intro x
    have before := linked.single x
    have after := total_segs (fun _ q => q.held x) segs inside ((segs i).insert r i)
    rw [after, Fifo.held_insert]
    by_cases same : r.objId = x
    · subst same
      rw [if_pos rfl, new]
      omega
    · rw [if_neg same]
      omega

theorem unique (linked : Linked b segs) {j : Nat} (first : i < b.nSeg) (second : j < b.nSeg)
    (here : 0 < (segs i).held id) (there : 0 < (segs j).held id) : i = j := by
  by_contra apart
  have single := linked.single id
  have without := total_segs (fun _ q => q.held id) segs first .empty
  have rest : (segs j).held id ≤
      total (fun k => (update segs i .empty k).held id) (List.range b.nSeg) := by
    have bound := le_total_of_mem (w := fun k => (update segs i .empty k).held id)
      (fun k => Fifo.held_nonneg _ _) (List.mem_range.mpr second)
    rwa [update_of_ne (Ne.symm apart)] at bound
  rw [without, Fifo.held_empty] at rest
  omega

end Linked

theorem findObj_spec {b : Setup} {s : State} {id : Nat} {obj : CacheObj Nat} (linked : Linked b s.segs)
    (found : findObj b s id = some obj) : obj.tag < b.nSeg ∧ (s.segs obj.tag).find id = some obj := by
  obtain ⟨i, inside, here⟩ := List.exists_of_findSome?_eq_some found
  have tag := linked.tags i obj (Fifo.find_mem here)
  rw [tag]
  exact ⟨List.mem_range.mp inside, here⟩

theorem findObj_absent {b : Setup} {s : State} {id : Nat} (missed : findObj b s id = none) :
    total (fun j => (s.segs j).held id) (List.range b.nSeg) = 0 := by
  rw [total_eq_zero_iff fun j => Fifo.held_nonneg _ _]
  intro j inside
  exact (Fifo.find_none_iff_held _ _).mp (List.findSome?_eq_none_iff.mp missed j inside)

theorem findObj_of_held {b : Setup} {s : State} {id i : Nat} (linked : Linked b s.segs)
    (inside : i < b.nSeg) (held : 0 < (s.segs i).held id) :
    ∃ obj, findObj b s id = some obj ∧ obj.tag = i := by
  cases found : findObj b s id with
  | none =>
    have none := List.findSome?_eq_none_iff.mp found i (List.mem_range.mpr inside)
    have zero := (Fifo.find_none_iff_held _ _).mp none
    omega
  | some obj =>
    obtain ⟨tag, there⟩ := findObj_spec linked found
    have other : 0 < (s.segs obj.tag).held id := by
      rw [← Fifo.find_isSome_iff, there]
      rfl
    exact ⟨obj, rfl, linked.unique tag inside other held⟩

end Slru
