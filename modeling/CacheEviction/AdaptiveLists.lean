import CacheEviction.Binary64
import CacheEviction.CacheGet
import CacheEviction.WeightedLists
import Mathlib.Data.List.Count
import Mathlib.Logic.Function.Basic

/-!
# The four lists of ARC and CAR

`ARC.c` and `CAR.c` share a state and most of their code. A cached object is in
`L1_data` or `L2_data`, one that has left is remembered in `L1_ghost` or `L2_ghost`,
and all of them are in one hash table. An object names its list by `lru_id` and
`ghost`; the adaptive target `p` is a `double`. A lookup that finds a ghost tells the
eviction and the insertion by two flags and a time stamp.

The policies differ in the fields of `Variant`: what a hit does, how an object is
replaced, and how one is dropped from a full `L1_data` without ghosts. Lists stand
oldest first, so the tail of a C list is the head here. Two objects of one id, or an
object that the table has lost, are a fault of the model.
-/
namespace AdaptiveLists

open FuelLoops FifoCache CacheGet Binary64 WeightedLists

variable {M : Type}

inductive LruId where
  | one
  | two
  deriving DecidableEq

/-- The lists of the data and of the ghosts. -/
inductive Place where
  | l1Data
  | l2Data
  | l1Ghost
  | l2Ghost
  deriving DecidableEq

/-- An object of the hash table. `tag` is what only one of the policies stores. -/
structure Entry (M : Type) where
  objSize : UInt32
  lruId : LruId
  ghost : Bool
  tag : M

def Entry.bytes (e : Entry M) : Int := e.objSize.toNat

/-- The list that `lru_id` and `ghost` name. -/
def Entry.place (e : Entry M) : Place :=
  match e.lruId, e.ghost with
  | .one, false => .l1Data
  | .two, false => .l2Data
  | .one, true => .l1Ghost
  | .two, true => .l2Ghost

/-- `ARC_params_t` and `CAR_params_t`, with the fields of `cache_t` that they use. -/
structure State (M : Type) where
  table : Nat → Option (Entry M)
  lists : Place → List Nat
  sizes : Place → Int
  occupiedByte : Int
  nReq : Int
  p : ℚ
  currObjInL1Ghost : Bool
  currObjInL2Ghost : Bool
  vtimeLastReqInGhost : Int

/-- The state that `ARC_init` and `CAR_init` leave. -/
def State.init : State M where
  table _ := none
  lists _ := []
  sizes _ := 0
  occupiedByte := 0
  nReq := 0
  p := 0
  currObjInL1Ghost := false
  currObjInL2Ghost := false
  vtimeLastReqInGhost := -1

/-! ## List operations -/

/-- `remove_obj_from_list`, with the size field. -/
def State.unlink (s : State M) (place : Place) (id : Nat) (bytes : Int) : State M :=
  { s with
    lists := Function.update s.lists place ((s.lists place).erase id)
    sizes := Function.update s.sizes place (s.sizes place - bytes) }

/-- `prepend_obj_to_head`, with the size field. -/
def State.link (s : State M) (place : Place) (id : Nat) (bytes : Int) : State M :=
  { s with
    lists := Function.update s.lists place (s.lists place ++ [id])
    sizes := Function.update s.sizes place (s.sizes place + bytes) }

def State.store (s : State M) (id : Nat) (entry : Option (Entry M)) : State M :=
  { s with table := Function.update s.table id entry }

/-- An object goes from one list to the head of another, or of the same. -/
def State.relocate (s : State M) (src dst : Place) (id : Nat) (e e' : Entry M) : State M :=
  ((s.unlink src id e.bytes).link dst id e.bytes).store id (some e')

def State.discard (s : State M) (place : Place) (id : Nat) (e : Entry M) : State M :=
  (s.unlink place id e.bytes).store id none

def State.tail (s : State M) (place : Place) : Except (Stop Fault) (Nat × Entry M) :=
  match (s.lists place).head? with
  | none => .error (.fault .nullTail)
  | some id =>
    match s.table id with
    | none => .error (.fault .assertFailed)
    | some e => .ok (id, e)

/-! ## The shared functions -/

def State.ghosted (s : State M) : Bool :=
  s.vtimeLastReqInGhost == s.nReq && (s.currObjInL1Ghost || s.currObjInL2Ghost)

/-- The step of `p` on a hit in a ghost list of size `own`, the other one having
size `other`. The integers are converted before they are divided. -/
def delta (other own : Int) : ℚ := max (double (double other / double own)) 1

/-- The ghost that was requested leaves, and `p` moves in favour of its list. -/
def ghostHit (c : Nat) (s : State M) (id : Nat) (e : Entry M) : Except (Stop Fault) (State M) :=
  let s : State M := { s with vtimeLastReqInGhost := s.nReq }
  match e.lruId with
  | .one =>
    if 1 ≤ s.sizes .l1Ghost then
      let p := min (double (s.p + delta (s.sizes .l2Ghost) (s.sizes .l1Ghost))) (double c)
      .ok ({ s with currObjInL1Ghost := true, p := p }.discard .l1Ghost id e)
    else .error (.fault .assertFailed)
  | .two =>
    if 1 ≤ s.sizes .l2Ghost then
      let p := max (double (s.p - delta (s.sizes .l1Ghost) (s.sizes .l2Ghost))) 0
      .ok ({ s with currObjInL2Ghost := true, p := p }.discard .l2Ghost id e)
    else .error (.fault .assertFailed)

/-- What ARC and CAR do in their own ways. -/
structure Variant (M : Type) where
  /-- The metadata of a new object. -/
  fresh : M
  /-- A hit on an object that is cached. -/
  onHit : State M → Nat → Entry M → State M
  /-- `_ARC_replace` -/
  replace : Nat → State M → Except (Stop Fault) (State M)
  /-- `_ARC_evict_L1_data_no_ghost` -/
  dropL1 : Nat → State M → Except (Stop Fault) (State M)

/-- `ARC_find` with `update_cache` set. -/
def find (v : Variant M) (c : Nat) (s : State M) (r : Request) :
    Except (Stop Fault) (Bool × State M) :=
  match s.table r.objId with
  | none => .ok (false, s)
  | some e =>
    let s := { s with currObjInL1Ghost := false, currObjInL2Ghost := false }
    if e.ghost then (ghostHit c s r.objId e).map fun s => (false, s)
    else .ok (true, v.onHit s r.objId e)

/-- `ARC_insert`. A new object is no ghost; the size fields grow by the size of the
request. -/
def insert (v : Variant M) (s : State M) (r : Request) : Except (Stop Fault) (State M) :=
  if (s.table r.objId).isSome then .error (.fault .assertFailed)
  else
    let e : Entry M := ⟨UInt32.ofNat r.objSize, .one, false, v.fresh⟩
    let s := { s with occupiedByte := s.occupiedByte + e.bytes }
    if s.ghosted then
      .ok { (s.link .l2Data r.objId r.objSize).store r.objId (some { e with lruId := .two }) with
        currObjInL1Ghost := false
        currObjInL2Ghost := false
        vtimeLastReqInGhost := -1 }
    else .ok ((s.link .l1Data r.objId r.objSize).store r.objId (some e))

/-- The test of `_ARC_replace`: whether it takes from `L1_data`. -/
def prefersL1 (s : State M) : Bool :=
  (0 < s.sizes .l1Data && (s.p < double (s.sizes .l1Data) ||
    (double (s.sizes .l1Data) == s.p && s.currObjInL2Ghost))) || s.sizes .l2Data == 0

/-- `_ARC_evict_L1_data` and `_ARC_evict_L2_data`: the tail becomes a ghost. -/
def evictData (src dst : Place) (s : State M) : Except (Stop Fault) (State M) := do
  let (id, e) ← s.tail src
  return { s with occupiedByte := s.occupiedByte - e.bytes }.relocate src dst id e
    { e with ghost := true }

/-- `_ARC_evict_L1_ghost` and `_ARC_evict_L2_ghost` -/
def evictGhost (place : Place) (s : State M) : Except (Stop Fault) (State M) := do
  let (id, e) ← s.tail place
  return s.discard place id e

/-- The tail of `L1_data` leaves the cache and the table. -/
def evictNoGhost (s : State M) : Except (Stop Fault) (State M) := do
  let (id, e) ← s.tail .l1Data
  return { s with occupiedByte := s.occupiedByte - e.bytes }.discard .l1Data id e

/-- The objects and ghosts of `L1`, and those of all lists. -/
def State.recent (s : State M) : Int := s.sizes .l1Data + s.sizes .l1Ghost

def State.data (s : State M) : Int := s.sizes .l1Data + s.sizes .l2Data

def State.all (s : State M) : Int :=
  s.sizes .l1Data + s.sizes .l1Ghost + s.sizes .l2Data + s.sizes .l2Ghost

/-- `_ARC_evict_miss_on_all_queues` -/
def evictMiss (v : Variant M) (c fuel : Nat) (s : State M) (r : Request) :
    Except (Stop Fault) (State M) :=
  if (c : Int) < s.recent + r.objSize then
    if 0 < s.sizes .l1Ghost then evictGhost .l1Ghost s >>= v.replace fuel
    else v.dropL1 fuel s
  else if (c : Int) * 2 ≤ s.all ∧ 0 < s.sizes .l2Ghost then
    evictGhost .l2Ghost s >>= v.replace fuel
  else v.replace fuel s

/-- `ARC_evict` -/
def evict (v : Variant M) (c fuel : Nat) (s : State M) (r : Request) :
    Except (Stop Fault) (State M) :=
  if s.ghosted then v.replace fuel s else evictMiss v c fuel s r

def policy (v : Variant M) (c : Nat) : Policy (State M) Fault where
  cacheSize := c
  tick s := { s with nReq := s.nReq + 1 }
  find := find v c
  canInsert _ s r := .ok (r.objSize ≤ c, s)
  occupiedByte s := s.occupiedByte
  evict fuel := evict v c fuel
  insert := insert v

theorem serve_mono {v : Variant M} (replaces : ∀ s, FuelMono fun n => v.replace n s)
    (drops : ∀ s, FuelMono fun n => v.dropL1 n s) (c : Nat) (s : State M) (r : Request) :
    FuelMono fun n => cacheGetBase (policy v c) n s r := by
  refine cacheGetBase_mono (fun _ => .const _) ?_ s
  intro s
  have afterGhost : ∀ place, FuelMono fun n => evictGhost place s >>= v.replace n :=
    fun _ => FuelMono.bind (.const _) replaces
  refine FuelMono.ite _ (replaces s) (FuelMono.ite _ (FuelMono.ite _ ?_ ?_) (FuelMono.ite _ ?_ ?_))
  · exact afterGhost .l1Ghost
  · exact drops s
  · exact afterGhost .l2Ghost
  · exact replaces s

/-! ## The lists and the table -/

/-- Every object of the table is once in the list that it names, and in no other. -/
def Listed (s : State M) : Prop := ∀ place id, (s.lists place).count id =
  if (s.table id).map Entry.place = some place then 1 else 0

namespace Listed

variable {s : State M} {place : Place} {id : Nat} {e e' : Entry M}

theorem mem_iff (h : Listed s) : id ∈ s.lists place ↔ ∃ e, s.table id = some e ∧ e.place = place := by
  rw [← List.count_pos_iff, h]
  cases found : s.table id with
  | none => simp
  | some e => by_cases same : e.place = place <;> simp [same]

theorem not_mem_of_absent (h : Listed s) (absent : s.table id = none) : id ∉ s.lists place := by
  rw [h.mem_iff, absent]
  rintro ⟨e, impossible, _⟩
  cases impossible

theorem tail (h : Listed s) (nonempty : s.lists place ≠ []) :
    ∃ id rest e, s.lists place = id :: rest ∧ s.tail place = .ok (id, e) ∧
      s.table id = some e ∧ e.place = place := by
  obtain ⟨id, rest, shape⟩ := List.exists_cons_of_ne_nil nonempty
  have member : id ∈ s.lists place := by
    rw [shape]
    exact List.mem_cons_self
  obtain ⟨e, found, placed⟩ := h.mem_iff.mp member
  refine ⟨id, rest, e, shape, ?_, found, placed⟩
  rw [State.tail, shape]
  simp only [List.head?_cons, found]

theorem discard (h : Listed s) (found : s.table id = some e) : Listed (s.discard e.place id e) := by
  intro place i
  have before := h place i
  have own := h e.place id
  rw [found] at own
  by_cases same : i = id
  · subst same
    by_cases here : place = e.place
    · subst here
      simp [State.discard, State.unlink, State.store, List.count_erase_self, own]
    · rw [found] at before
      simpa [State.discard, State.unlink, State.store, here, Ne.symm here] using before
  · by_cases here : place = e.place
    · subst here
      simpa [State.discard, State.unlink, State.store, same, List.count_erase_of_ne same] using before
    · simpa [State.discard, State.unlink, State.store, same, here] using before

theorem file (h : Listed s) (absent : s.table id = none) (bytes : Int) :
    Listed ((s.link e.place id bytes).store id (some e)) := by
  intro place i
  have before := h place i
  by_cases same : i = id
  · subst same
    rw [absent] at before
    by_cases here : place = e.place
    · subst here
      simp [State.link, State.store, List.count_append, before]
    · simpa [State.link, State.store, here, Ne.symm here] using before
  · by_cases here : place = e.place
    · subst here
      simpa [State.link, State.store, same, List.count_append, Ne.symm same] using before
    · simpa [State.link, State.store, same, here] using before

theorem store (h : Listed s) (found : s.table id = some e) (stays : e'.place = e.place) :
    Listed (s.store id (some e')) := by
  intro place i
  have before := h place i
  by_cases same : i = id
  · subst same
    rw [found] at before
    simpa [State.store, stays] using before
  · simpa [State.store, same] using before

end Listed

def State.weight (s : State M) (id : Nat) : Int := (s.table id).elim 0 Entry.bytes

/-- The size fields are the bytes of the lists. No object is empty. -/
structure Weighed (s : State M) : Prop where
  listed : Listed s
  size : ∀ place, s.sizes place = total s.weight (s.lists place)
  positive : ∀ id e, s.table id = some e → 1 ≤ e.bytes

theorem Entry.bytes_nonneg (e : Entry M) : 0 ≤ e.bytes := Int.natCast_nonneg _

theorem State.weight_nonneg (s : State M) (id : Nat) : 0 ≤ s.weight id := by
  rw [State.weight]
  cases s.table id with
  | none => exact le_rfl
  | some e => exact e.bytes_nonneg

theorem State.weight_of_found {s : State M} {id : Nat} {e : Entry M} (found : s.table id = some e) :
    s.weight id = e.bytes := by
  rw [State.weight, found]
  rfl

theorem total_weight_store (s : State M) {id : Nat} (entry : Option (Entry M)) {l : List Nat}
    (absent : id ∉ l) : total (s.store id entry).weight l = total s.weight l :=
  total_update_of_not_mem (fun o : Option (Entry M) => o.elim 0 Entry.bytes) s.table entry absent

namespace Weighed

variable {s : State M} {place : Place} {id : Nat} {e e' : Entry M}

theorem init : Weighed (State.init : State M) where
  listed _ _ := rfl
  size _ := rfl
  positive _ _ h := by cases h

theorem congr {t : State M} (h : Weighed s) (table : t.table = s.table) (lists : t.lists = s.lists)
    (sizes : t.sizes = s.sizes) : Weighed t where
  listed := by
    rw [Listed, table, lists]
    exact h.listed
  size place := by
    have weight : t.weight = s.weight := by
      funext i
      rw [State.weight, table]
      rfl
    rw [sizes, lists, weight]
    exact h.size place
  positive := by
    rw [table]
    exact h.positive

theorem size_nonneg (h : Weighed s) (place : Place) : 0 ≤ s.sizes place := by
  rw [h.size]
  exact total_nonneg _ _ fun id _ => s.weight_nonneg id

theorem bytes_le (h : Weighed s) (found : s.table id = some e) : e.bytes ≤ s.sizes e.place := by
  have member : id ∈ s.lists e.place := h.listed.mem_iff.mpr ⟨e, found, rfl⟩
  rw [h.size, ← State.weight_of_found found]
  exact le_total_of_mem s.weight_nonneg member

theorem tail (h : Weighed s) (nonempty : 0 < s.sizes place) :
    ∃ id rest e, s.lists place = id :: rest ∧ s.tail place = .ok (id, e) ∧
      s.table id = some e ∧ e.place = place := by
  rw [h.size] at nonempty
  obtain ⟨id, rest, shape⟩ := exists_cons_of_total_pos nonempty
  refine h.listed.tail ?_
  rw [shape]
  exact List.cons_ne_nil id rest

theorem size_pos_iff (h : Weighed s) : 0 < s.sizes place ↔ s.lists place ≠ [] := by
  constructor
  · intro positive empty
    rw [h.size, empty] at positive
    cases positive
  · intro nonempty
    obtain ⟨id, rest, e, shape, _, found, placed⟩ := h.listed.tail nonempty
    have nonzero := h.positive id e found
    have bound := h.bytes_le found
    rw [placed] at bound
    omega

theorem discard (h : Weighed s) (found : s.table id = some e) : Weighed (s.discard e.place id e) where
  listed := h.listed.discard found
  size place := by
    have gone : id ∉ (s.discard e.place id e).lists place :=
      (h.listed.discard found).not_mem_of_absent (by simp [State.discard, State.store])
    have weight : total (s.discard e.place id e).weight ((s.discard e.place id e).lists place) =
        total s.weight ((s.discard e.place id e).lists place) := total_weight_store _ none gone
    rw [weight]
    by_cases here : place = e.place
    · subst here
      have member : id ∈ s.lists e.place := h.listed.mem_iff.mpr ⟨e, found, rfl⟩
      simp only [State.discard, State.unlink, State.store, Function.update_self]
      rw [total_erase s.weight member, State.weight_of_found found, h.size]
    · simpa [State.discard, State.unlink, State.store, here] using h.size place
  positive i f h' := by
    by_cases same : i = id
    · subst same
      simp [State.discard, State.unlink, State.store] at h'
    · exact h.positive i f (by simpa [State.discard, State.unlink, State.store, same] using h')

theorem file (h : Weighed s) (absent : s.table id = none) (nonzero : 1 ≤ e.bytes) :
    Weighed ((s.link e.place id e.bytes).store id (some e)) where
  listed := h.listed.file absent e.bytes
  size place := by
    have before := h.size place
    have weight : total ((s.link e.place id e.bytes).store id (some e)).weight (s.lists place) =
        total s.weight (s.lists place) :=
      total_weight_store _ (some e) (h.listed.not_mem_of_absent absent)
    by_cases here : place = e.place
    · subst here
      have own : ((s.link e.place id e.bytes).store id (some e)).weight id = e.bytes :=
        State.weight_of_found (by simp [State.store])
      simp only [State.link, State.store, Function.update_self, total_append, total_cons, total_nil] at *
      rw [weight, own, before]
      ring
    · simp only [State.link, State.store, Function.update_of_ne here] at *
      rw [weight, before]
  positive i f h' := by
    by_cases same : i = id
    · subst same
      simp only [State.link, State.store, Function.update_self, Option.some.injEq] at h'
      exact h' ▸ nonzero
    · exact h.positive i f (by simpa [State.link, State.store, same] using h')

theorem relocate_eq (s : State M) (src dst : Place) (id : Nat) (e e' : Entry M) :
    s.relocate src dst id e e' = ((s.discard src id e).link dst id e.bytes).store id (some e') := by
  simp [State.relocate, State.discard, State.unlink, State.link, State.store]

theorem relocate (h : Weighed s) (found : s.table id = some e) (size : e'.objSize = e.objSize) :
    Weighed (s.relocate e.place e'.place id e e') := by
  have bytes : e'.bytes = e.bytes := by rw [Entry.bytes, size, Entry.bytes]
  rw [relocate_eq, ← bytes]
  refine (h.discard found).file ?_ ?_
  · simp [State.discard, State.store]
  · rw [bytes]
    exact h.positive id e found

theorem store (h : Weighed s) (found : s.table id = some e) (stays : e'.place = e.place)
    (size : e'.objSize = e.objSize) : Weighed (s.store id (some e')) where
  listed := h.listed.store found stays
  size place := by
    have weight : (s.store id (some e')).weight = s.weight := by
      funext i
      by_cases same : i = id
      · subst same
        rw [State.weight_of_found found, State.weight_of_found (e := e') (by simp [State.store])]
        rw [Entry.bytes, size, Entry.bytes]
      · simp [State.weight, State.store, same]
    rw [weight]
    exact h.size place
  positive i f h' := by
    by_cases same : i = id
    · subst same
      simp only [State.store, Function.update_self, Option.some.injEq] at h'
      rw [← h', Entry.bytes, size]
      exact h.positive i e found
    · exact h.positive i f (by simpa [State.store, same] using h')

end Weighed

/-- Every object of the table is once in the list that it names, and in no other;
with objects of one byte the size fields are the lengths. -/
structure Filed (s : State M) : Prop where
  listed : ∀ place id, (s.lists place).count id =
    if (s.table id).map Entry.place = some place then 1 else 0
  size : ∀ place, s.sizes place = (s.lists place).length
  unit : ∀ id e, s.table id = some e → e.bytes = 1

theorem Listed.total_of_unit {s : State M} (h : Listed s)
    (unit : ∀ id e, s.table id = some e → e.bytes = 1) (place : Place) :
    total s.weight (s.lists place) = (s.lists place).length := by
  have ones : total s.weight (s.lists place) = total (fun _ => 1) (s.lists place) := by
    refine total_congr ?_
    intro id member
    obtain ⟨e, found, _⟩ := h.mem_iff.mp member
    rw [State.weight_of_found found, unit id e found]
  rw [ones]
  simp [total]

theorem filed_iff {s : State M} :
    Filed s ↔ Weighed s ∧ ∀ id e, s.table id = some e → e.bytes = 1 := by
  constructor
  · intro h
    refine ⟨⟨h.listed, fun place => ?_, fun id e found => (h.unit id e found).ge⟩, h.unit⟩
    rw [h.size, Listed.total_of_unit h.listed h.unit]
  · rintro ⟨h, unit⟩
    refine ⟨h.listed, fun place => ?_, unit⟩
    rw [h.size, h.listed.total_of_unit unit]

end AdaptiveLists
