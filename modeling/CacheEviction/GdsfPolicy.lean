import CacheEviction.GreedyDual
import CacheEviction.OrderedSets

/-!
# GDSF

`GDSF.cpp` over `abstractRank.hpp`. A `std::set` is ordered by priority and, at equal
priorities, by the time of the last request; a map leads from an object to its place there.
The set does not take an entry that it cannot tell from one it has, but the times of the
requests keep all entries apart.
-/
namespace Gdsf

open FifoCache FuelLoops CacheGet OrderedSets RecordedCalls StepTraces Function

/-! ## The code -/

/-- `pq_node_type`; the object is named by its id. -/
structure PqNode where
  obj : Nat
  priority : Priority
  lastRequestVtime : Nat
  deriving DecidableEq

def PqNode.lt (a b : PqNode) : Bool :=
  if a.priority = b.priority then a.lastRequestVtime < b.lastRequestVtime
  else a.priority < b.priority

/-- The cache: the objects of the hash table with their frequencies, in no order that counts,
the set `pq`, the map to its places, and the priority of the last victim. -/
structure State where
  table : Fifo Nat
  pq : List PqNode
  itrMap : Nat → Option PqNode
  priLastEvict : Priority
  nReq : Nat

def gdsfInit : State := ⟨.empty, [], fun _ => none, 0, 0⟩

/-- What must not happen: an iterator that leads nowhere is used, the first element of the
empty set is read, or an object that has been freed is used. -/
inductive Fault where
  | badIterator
  | emptySet
  | freedObject
  deriving DecidableEq

structure Setup where
  cacheSize : Nat
  considerObjMetadata : Bool

def Setup.objMdSize (b : Setup) : Nat := if b.considerObjMetadata then 8 else 0

/-- `pq.erase(itr_map[obj])` -/
def eraseNode (s : State) (id : Nat) : Except (Stop Fault) (List PqNode) :=
  match s.itrMap id with
  | none => .error (.fault .badIterator)
  | some itr => if itr ∈ s.pq then .ok (s.pq.erase itr) else .error (.fault .badIterator)

/-- `itr_map[obj] = pq.emplace(obj, pri, cache->n_req).first` -/
def emplaceNode (s : State) (id : Nat) (pri : Priority) (pq : List PqNode) : State :=
  let placed := emplace PqNode.lt ⟨id, pri, s.nReq⟩ pq
  { s with
    pq := placed.2
    itrMap := Function.update s.itrMap id (some placed.1) }

def gdsfFind (s : State) (r : Request) : Except (Stop Fault) (Bool × State) :=
  match s.table.find r.objId with
  | none => .ok (false, s)
  | some obj => do
    let freq := obj.tag + 1
    let pq ← eraseNode s r.objId
    let pri := s.priLastEvict.add (score freq obj.objSize)
    return (true, emplaceNode { s with table := s.table.retag r.objId fun _ => freq } r.objId pri pq)

def gdsfInsert (s : State) (r : Request) : Except (Stop Fault) State :=
  let obj := createCacheObj r 1
  let pri := s.priLastEvict.add (perByte 1000000 obj.objSize)
  .ok (emplaceNode { s with table := s.table.insert r 1 } r.objId pri s.pq)

def gdsfEvict (s : State) : Except (Stop Fault) State :=
  match s.pq with
  | [] => .error (.fault .emptySet)
  | p :: rest =>
    if (s.table.find p.obj).isSome then
      .ok { s with
        table := s.table.remove p.obj
        pq := rest
        itrMap := Function.update s.itrMap p.obj none
        priLastEvict := p.priority }
    else .error (.fault .freedObject)

def gdsfRemove (s : State) (objId : Nat) : Except (Stop Fault) (Bool × State) :=
  match s.table.find objId with
  | none => .ok (false, s)
  | some _ => do
    let pq ← eraseNode s objId
    return (true, { s with
      table := s.table.remove objId
      pq := pq
      itrMap := Function.update s.itrMap objId none })

/-- Each object counts with its metadata. -/
def occupiedByte (b : Setup) (s : State) : Int :=
  s.table.occupiedByte + b.objMdSize * s.table.nObj

/-- `GDSF_get` is `cache_get_base` with these functions. The metadata of the new object is
taken from the room that there is for it. -/
def gdsf (b : Setup) : Policy State Fault where
  cacheSize := b.cacheSize - b.objMdSize
  tick s := { s with nReq := s.nReq + 1 }
  find := gdsfFind
  canInsert _ s r := .ok (decide (r.objSize + b.objMdSize ≤ b.cacheSize), s)
  occupiedByte := occupiedByte b
  evict _ s _ := gdsfEvict s
  insert := gdsfInsert

def bookkeeper : Recorder State (Ledger Standing) where
  found s r hit l := if hit then touch l r.objId s.nReq else l
  evicted s t l := l.depart s.table t.table
  inserted s r l := request l r.objId 0 (UInt32.ofNat r.objSize) s.nReq
  removed _ id l := l.leave id

/-- Calls of `GDSF_get` and `GDSF_remove`, with the ledger. -/
abbrev Calls (b : Setup) : State × Ledger Standing → State × Ledger Standing → Prop :=
  Called (bookkeeper.policy (gdsf b)) (bookkeeper.remove gdsfRemove) (fun _ r => 1 ≤ r.objSize)
    fun _ _ => True

/-! ## The order of the set -/

theorem PqNode.lt_iff {a b : PqNode} : a.lt b = true ↔ a.priority < b.priority ∨
    a.priority = b.priority ∧ a.lastRequestVtime < b.lastRequestVtime := by
  unfold PqNode.lt
  by_cases same : a.priority = b.priority
  · simp [same]
  · simp [same]

theorem PqNode.lt_trans (a b c : PqNode) (first : a.lt b = true) (second : b.lt c = true) :
    a.lt c = true := by
  rw [PqNode.lt_iff] at *
  rcases first with less | ⟨same, older⟩
  · rcases second with less' | ⟨same', _⟩
    · exact .inl (less.trans less')
    · exact .inl (same' ▸ less)
  · rcases second with less' | ⟨same', older'⟩
    · exact .inl (same ▸ less')
    · exact .inr ⟨same.trans same', older.trans older'⟩

theorem PqNode.lt_irrefl (a : PqNode) : a.lt a = false := by
  simp [PqNode.lt]

/-- The entry of an object that stands like this. -/
def Standing.node (standing : Standing) (id : Nat) : PqNode :=
  ⟨id, standing.priority, standing.lastRequest⟩

/-- The set and the map hold what the ledger says, and all requests were before `now`. -/
structure Indexed (pq : List PqNode) (itrMap : Nat → Option PqNode)
    (standings : Nat → Option Standing) (now : Nat) : Prop where
  ordered : Ordered PqNode.lt pq
  entry : ∀ node, node ∈ pq ↔ (standings node.obj).map (·.node node.obj) = some node
  iterator : ∀ id, itrMap id = (standings id).map (·.node id)
  past : ∀ id standing, standings id = some standing → standing.lastRequest < now

namespace Indexed

variable {pq : List PqNode} {itrMap : Nat → Option PqNode} {standings : Nat → Option Standing}
  {now id : Nat} {standing : Standing}

theorem member (indexed : Indexed pq itrMap standings now) (found : standings id = some standing) :
    standing.node id ∈ pq :=
  (indexed.entry _).mpr (by simp [Standing.node, found])

theorem leave (indexed : Indexed pq itrMap standings now) (found : standings id = some standing) :
    Indexed (pq.erase (standing.node id)) (update itrMap id none)
      (update standings id none) now where
  ordered := indexed.ordered.erase _
  entry node := by
    have nodup := indexed.ordered.nodup PqNode.lt_irrefl
    rw [nodup.mem_erase_iff, indexed.entry]
    by_cases same : node.obj = id
    · rw [same, update_self, found]
      simp only [Option.map_some, Option.some.injEq, Option.map_none, reduceCtorEq, iff_false]
      exact fun both => both.1 both.2.symm
    · have other : node ≠ standing.node id := fun equal => same (by rw [equal]; rfl)
      rw [update_of_ne same]
      exact and_iff_right other
  iterator i := by
    by_cases same : i = id
    · rw [same, update_self, update_self]
      rfl
    · rw [update_of_ne same, update_of_ne same]
      exact indexed.iterator i
  past i other stays := indexed.past i other (of_leave stays)

theorem fresh (indexed : Indexed pq itrMap standings now) (late : now ≤ standing.lastRequest) :
    Fresh PqNode.lt (standing.node id) pq := by
  intro node member
  have kept := (indexed.entry node).mp member
  obtain ⟨other, found, same⟩ := Option.map_eq_some_iff.mp kept
  have older := indexed.past _ other found
  have time : node.lastRequestVtime = other.lastRequest := by rw [← same]; rfl
  rw [PqNode.lt_iff, PqNode.lt_iff]
  rcases lt_trichotomy node.priority standing.priority with less | equal | more
  · exact .inr (.inl less)
  · refine .inr (.inr ⟨equal, ?_⟩)
    rw [time]
    exact older.trans_le late
  · exact .inl (.inl more)

theorem enter (indexed : Indexed pq itrMap standings now) (standing : Standing)
    (absent : standings id = none) (late : now ≤ standing.lastRequest) :
    Indexed (emplace PqNode.lt (standing.node id) pq).2
      (update itrMap id (some (emplace PqNode.lt (standing.node id) pq).1))
      (update standings id (some standing)) (standing.lastRequest + 1) where
  ordered := ordered_emplace PqNode.lt_trans (indexed.fresh late) indexed.ordered
  entry node := by
    rw [mem_emplace_fresh (indexed.fresh late), indexed.entry]
    by_cases same : node.obj = id
    · rw [same, update_self, absent]
      simp [eq_comm]
    · have other : node ≠ standing.node id := fun equal => same (by rw [equal]; rfl)
      rw [update_of_ne same]
      exact or_iff_right other
  iterator i := by
    by_cases same : i = id
    · rw [same, update_self, update_self, (emplace_fresh (indexed.fresh late)).1]
      rfl
    · rw [update_of_ne same, update_of_ne same]
      exact indexed.iterator i
  past i other stays := by
    rcases of_enter stays with ⟨_, rfl⟩ | kept
    · exact Nat.lt_succ_self _
    · have earlier := indexed.past i other kept
      omega

theorem first {p : PqNode} {rest : List PqNode} (indexed : Indexed (p :: rest) itrMap standings now) :
    ∃ own, standings p.obj = some own ∧ own.node p.obj = p ∧
      ∀ i other, standings i = some other → own.le other := by
  obtain ⟨own, found, same⟩ := Option.map_eq_some_iff.mp ((indexed.entry p).mp List.mem_cons_self)
  refine ⟨own, found, same, ?_⟩
  intro i other stays
  rcases List.mem_cons.mp (indexed.member stays) with equal | later
  · rw [← same] at equal
    exact .inr ⟨(congrArg PqNode.priority equal).symm, (congrArg PqNode.lastRequestVtime equal).ge⟩
  · have before := PqNode.lt_iff.mp (indexed.ordered.first later)
    rw [← same] at before
    rcases before with less | ⟨equal, older⟩
    · exact .inl less
    · exact .inr ⟨equal, older.le⟩

end Indexed

/-! ## The invariant -/

structure Sound (s : State) (l : Ledger Standing) (now : Nat) : Prop where
  indexed : Indexed s.pq s.itrMap l.standings now
  distinct : s.table.Distinct
  stocked : Stocked (fun o : CacheObj Nat => (o.objSize, o.tag))
    (fun standing : Standing => (standing.objSize, standing.uses)) s.table l.standings
  floor : s.priLastEvict = inflation l
  rising : Rising l

variable {s : State} {l : Ledger Standing} {now : Nat}

theorem sound_init (now : Nat) : Sound gdsfInit .empty now where
  indexed := {
    ordered := List.Pairwise.nil
    entry := by simp [gdsfInit, Ledger.empty]
    iterator := fun _ => rfl
    past := fun _ _ found => by cases found }
  distinct := Fifo.distinct_empty
  stocked _ := rfl
  floor := rfl
  rising := rising_empty

theorem Sound.standing (sound : Sound s l now) {id : Nat} {obj : CacheObj Nat}
    (found : s.table.find id = some obj) :
    ∃ standing, l.standings id = some standing ∧ standing.objSize = obj.objSize ∧
      standing.uses = obj.tag := by
  obtain ⟨standing, known, equal⟩ := sound.stocked.known found
  exact ⟨standing, known, congrArg Prod.fst equal, congrArg Prod.snd equal⟩

theorem Sound.eraseNode_eq (sound : Sound s l now) {id : Nat} {standing : Standing}
    (known : l.standings id = some standing) : eraseNode s id = .ok (s.pq.erase (standing.node id)) := by
  have place : s.itrMap id = some (standing.node id) := by
    rw [sound.indexed.iterator, known]
    rfl
  simp only [eraseNode, place, if_pos (sound.indexed.member known)]

theorem gdsfFind_hit (sound : Sound s l s.nReq) {r : Request} {obj : CacheObj Nat}
    (found : s.table.find r.objId = some obj) :
    ∃ t, gdsfFind s r = .ok (true, t) ∧ t.nReq = s.nReq ∧
      Sound t (touch l r.objId s.nReq) (s.nReq + 1) := by
  obtain ⟨standing, known, size, uses⟩ := sound.standing found
  have erased := sound.eraseNode_eq known
  simp only [gdsfFind, found, erased]
  refine ⟨_, rfl, rfl, ?_⟩
  have absent : update l.standings r.objId none r.objId = none := update_self ..
  have entered := (sound.indexed.leave known).enter ⟨standing.uses + 1, standing.objSize,
    (inflation l).add (score (standing.uses + 1) standing.objSize), s.nReq⟩ absent le_rfl
  rw [update_idem, update_idem] at entered
  simp only [touch, known]
  constructor
  · rw [← size, ← uses, sound.floor]
    exact entered
  · exact sound.distinct.retag _ _
  · refine sound.stocked.update (Fifo.find_retag _ found) ?_
    simp only [Option.map_some, size, uses]
  · exact sound.floor
  · exact sound.rising.request ..

theorem gdsfInsert_new (sound : Sound s l s.nReq) {r : Request} (missed : s.table.find r.objId = none) :
    ∃ t, gdsfInsert s r = .ok t ∧ t.nReq = s.nReq ∧
      Sound t (request l r.objId 0 (UInt32.ofNat r.objSize) s.nReq) (s.nReq + 1) := by
  refine ⟨_, rfl, rfl, ?_⟩
  have entered := sound.indexed.enter ⟨0 + 1, UInt32.ofNat r.objSize,
    (inflation l).add (score (0 + 1) (UInt32.ofNat r.objSize)), s.nReq⟩
    (sound.stocked.absent missed) le_rfl
  constructor
  · rw [perByte_first, sound.floor]
    exact entered
  · exact sound.distinct.insert missed 1
  · exact sound.stocked.update (Fifo.find_insert_of_absent missed 1) rfl
  · exact sound.floor
  · exact sound.rising.request ..

theorem Sound.pq_ne_nil (sound : Sound s l now) {id : Nat} (cached : (s.table.find id).isSome = true) :
    ∃ p rest, s.pq = p :: rest := by
  rw [sound.stocked.isSome] at cached
  obtain ⟨standing, known⟩ := Option.isSome_iff_exists.mp cached
  exact List.exists_cons_of_ne_nil (List.ne_nil_of_mem (sound.indexed.member known))

theorem gdsfEvict_takes (sound : Sound s l now) {id : Nat} (cached : (s.table.find id).isSome = true) :
    ∃ victim t, gdsfEvict s = .ok t ∧ t.table = s.table.remove victim ∧
      (s.table.find victim).isSome = true ∧ Eviction.Least Standing.le ⟨victim, l.standings⟩ ∧
      t.nReq = s.nReq ∧ Sound t (l.evict victim) now := by
  obtain ⟨p, rest, shape⟩ := sound.pq_ne_nil cached
  have indexed := sound.indexed
  rw [shape] at indexed
  obtain ⟨own, known, node, least⟩ := indexed.first
  have present : (s.table.find p.obj).isSome = true := by
    rw [sound.stocked.isSome, known]
    rfl
  have run : gdsfEvict s = .ok { s with
      table := s.table.remove p.obj
      pq := rest
      itrMap := update s.itrMap p.obj none
      priLastEvict := p.priority } := by
    simp only [gdsfEvict, shape, if_pos present]
  refine ⟨p.obj, _, run, rfl, present, ⟨own, known, least⟩, rfl, ?_⟩
  have left := indexed.leave known
  rw [node, List.erase_cons_head] at left
  constructor
  · exact left
  · exact sound.distinct.remove _
  · exact sound.stocked.update (Fifo.find_remove sound.distinct _) rfl
  · have price : priorityAt ⟨p.obj, l.standings⟩ = own.priority := by
      simp only [priorityAt, known, Option.map_some, Option.getD_some]
    exact (congrArg PqNode.priority node).symm.trans price.symm
  · exact sound.rising.evict known least

theorem gdsfRemove_returns (sound : Sound s l now) (id : Nat) :
    ∃ found t, gdsfRemove s id = .ok (found, t) ∧ t.nReq = s.nReq ∧ Sound t (l.leave id) now := by
  cases held : s.table.find id with
  | none =>
    refine ⟨false, s, ?_, rfl, ?_⟩
    · simp only [gdsfRemove, held]
    · have same : l.leave id = l := by
        rw [Ledger.leave, ← sound.stocked.absent held, update_eq_self]
      rw [same]
      exact sound
  | some obj =>
    obtain ⟨standing, known, _, _⟩ := sound.standing held
    simp only [gdsfRemove, held, sound.eraseNode_eq known]
    refine ⟨true, _, rfl, rfl, ?_⟩
    constructor
    · exact sound.indexed.leave known
    · exact sound.distinct.remove _
    · exact sound.stocked.update (Fifo.find_remove sound.distinct _) rfl
    · exact sound.floor
    · exact sound.rising.leave id

/-! ## Runs -/

theorem gdsfGet_serves (b : Setup) (sound : Sound s l (s.nReq + 1)) (r : Request) :
    ∃ hit t, Serves (bookkeeper.policy (gdsf b)) (s, l) r hit t ∧ Sound t.1 t.2 (t.1.nReq + 1) := by
  let ticked : State := { s with nReq := s.nReq + 1 }
  have start : Sound ticked l ticked.nReq :=
    ⟨sound.indexed, sound.distinct, sound.stocked, sound.floor, sound.rising⟩
  refine serves_of (p := bookkeeper.policy (gdsf b)) (Q := fun _ t => Sound t.1 t.2 (t.1.nReq + 1))
    (fun a => Sound a.1 a.2 a.1.nReq ∧ a.1.table.find r.objId = none)
    (fun a => a.1.table.objs.length) (decide (r.objSize + b.objMdSize ≤ b.cacheSize))
    (fun _ _ _ => rfl) ?_ ?_ ?_ ?_
  · cases held : s.table.find r.objId with
    | none =>
      refine ⟨false, (ticked, l), ?_, start, held⟩
      simp only [Recorder.policy, gdsf, gdsfFind, held]
      rfl
    | some obj =>
      obtain ⟨t, run, clock, after⟩ := gdsfFind_hit start held
      refine ⟨true, (t, touch l r.objId t.nReq), ?_, ?_⟩
      · simp only [Recorder.policy, gdsf]
        rw [run]
        rfl
      · rw [if_pos rfl, clock]
        exact after
  · rintro ⟨t, k⟩ ⟨kept, _⟩ _
    exact ⟨⟨kept.indexed.ordered, kept.indexed.entry, kept.indexed.iterator,
      fun i other known => (kept.indexed.past i other known).trans (Nat.lt_succ_self _)⟩,
      kept.distinct, kept.stocked, kept.floor, kept.rising⟩
  · rintro ⟨u, k⟩ ⟨kept, missed⟩ admitted full
    obtain ⟨id, cached⟩ := exists_of_full (of_decide_eq_true admitted) full
    obtain ⟨victim, v, run, table, present, _, clock, after⟩ := gdsfEvict_takes kept cached
    obtain ⟨obj, found⟩ := Option.isSome_iff_exists.mp present
    have left := k.depart_remove kept.distinct present table
    refine ⟨(v, k.evict victim), ?_, ⟨?_, ?_⟩, ?_⟩
    · intro n
      simp only [Recorder.policy, gdsf, run, Except.map, bookkeeper, left]
    · simp only [clock]
      exact after
    · have gone := congrFun (Fifo.find_remove kept.distinct victim) r.objId
      simp only [table, gone, update_apply, missed, ite_self]
    · simp only [table]
      exact Fifo.length_remove_lt found
  · rintro ⟨u, k⟩ ⟨kept, missed⟩ _ _
    obtain ⟨t, run, clock, after⟩ := gdsfInsert_new kept missed
    refine ⟨(t, request k r.objId 0 (UInt32.ofNat r.objSize) t.nReq), ?_, ?_⟩
    · simp only [Recorder.policy, gdsf, run]
      rfl
    · simp only [clock]
      exact after

theorem calls_sound {b : Setup} {a : State × Ledger Standing}
    (history : Reachable (Calls b) (gdsfInit, .empty) a) : Sound a.1 a.2 (a.1.nReq + 1) := by
  refine history.invariant (fun a => Sound a.1 a.2 (a.1.nReq + 1)) (sound_init _) ?_
  rintro ⟨s, l⟩ t sound call
  cases call with
  | get r _ served =>
    obtain ⟨hit, u, run, after⟩ := gdsfGet_serves b sound r
    have same := served.unique run
    cases same
    exact after
  | remove id _ removed =>
    obtain ⟨found, u, run, clock, after⟩ := gdsfRemove_returns sound id
    simp only [Recorder.remove, run] at removed
    cases removed
    simp only [clock]
    exact after

structure GreedyDual (s : State) (l : Ledger Standing) : Prop where
  residents : ∀ id, (l.standings id).isSome = (s.table.find id).isSome
  entries : (s.pq.map PqNode.obj).Nodup
  entry : ∀ id, id ∈ s.pq.map PqNode.obj ↔ (s.table.find id).isSome = true
  iterator : ∀ id node, s.itrMap id = some node ↔ node ∈ s.pq ∧ node.obj = id
  current : ∀ node ∈ s.pq, (l.standings node.obj).map (·.node node.obj) = some node
  /-- An eviction now would take the least of the cached objects. -/
  evicts : ∀ id, (s.table.find id).isSome = true → ∃ victim t, gdsfEvict s = .ok t ∧
    t.table = s.table.remove victim ∧ Eviction.Least Standing.le ⟨victim, l.standings⟩
  /-- So did every eviction of the run. -/
  victims : ∀ e ∈ l.evictions, e.Least Standing.le
  last : s.priLastEvict = inflation l
  floor : ∀ node ∈ s.pq, s.priLastEvict ≤ node.priority
  rising : (l.evictions.map priorityAt).Pairwise fun later earlier => earlier ≤ later

theorem Sound.greedyDual (sound : Sound s l now) : GreedyDual s l := by
  have known : ∀ node ∈ s.pq, ∃ standing, l.standings node.obj = some standing ∧
      standing.node node.obj = node := by
    intro node member
    exact Option.map_eq_some_iff.mp ((sound.indexed.entry node).mp member)
  constructor
  · intro id
    exact (sound.stocked.isSome id).symm
  · have nodup := sound.indexed.ordered.nodup PqNode.lt_irrefl
    refine List.Nodup.map_on ?_ nodup
    intro a first b second same
    obtain ⟨x, knownA, nodeA⟩ := known a first
    obtain ⟨y, knownB, nodeB⟩ := known b second
    rw [same, knownB] at knownA
    cases knownA
    rw [← nodeA, ← nodeB, same]
  · intro id
    rw [sound.stocked.isSome]
    constructor
    · intro member
      obtain ⟨node, there, rfl⟩ := List.mem_map.mp member
      obtain ⟨standing, found, _⟩ := known node there
      rw [found]
      rfl
    · intro cached
      obtain ⟨standing, found⟩ := Option.isSome_iff_exists.mp cached
      exact List.mem_map_of_mem (sound.indexed.member found)
  · intro id node
    rw [sound.indexed.iterator, sound.indexed.entry]
    constructor
    · intro place
      obtain ⟨standing, found, rfl⟩ := Option.map_eq_some_iff.mp place
      exact ⟨by simp [Standing.node, found], rfl⟩
    · rintro ⟨place, rfl⟩
      exact place
  · intro node member
    exact (sound.indexed.entry node).mp member
  · intro id cached
    obtain ⟨victim, t, run, table, _, least, _⟩ := gdsfEvict_takes sound cached
    exact ⟨victim, t, run, table, least⟩
  · exact sound.rising.least
  · exact sound.floor
  · intro node member
    obtain ⟨standing, found, same⟩ := known node member
    rw [sound.floor, ← same]
    exact sound.rising.floor _ _ found
  · exact sound.rising.evictions

end Gdsf
