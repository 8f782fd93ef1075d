import CacheEviction.Binary64
import CacheEviction.LruRuns
import CacheEviction.Paging

/-!
# Belady's policy

`Belady.c`: the objects stand in a hash table, and a priority queue holds a node
for each of them with the time of its next request. A hit or an insertion sets the
priority from the request, an eviction takes a node of the highest priority.

The queue is given by what `pqueue_pop` returns (`PriorityQueue`). Priorities are doubles, and
`next_access_vtime` is converted to one. The copies of it in the object are written
and never read, and are left out.
-/
namespace Belady

open FuelLoops FifoCache CacheGet Binary64 Paging WeightedLists

/-- `request_t` with the field that tells the future. -/
structure TimedRequest extends Request where
  nextAccessVtime : Int

structure Node where
  objId : Nat
  pri : ℚ
  deriving DecidableEq

/-- A priority queue: `pop` returns a node that no other exceeds, and the rest. -/
structure Pqueue where
  pop : List Node → Option (Node × List Node)
  pop_nil : pop [] = none
  pop_cons : ∀ n q, ∃ top rest, pop (n :: q) = some (top, rest) ∧
    (n :: q).Perm (top :: rest) ∧ ∀ m ∈ n :: q, m.pri ≤ top.pri

/-- The hash table, and `Belady_params_t`. -/
structure State where
  table : Fifo Unit
  pq : List Node

def beladyInit : State := ⟨.empty, []⟩

/-- `pqueue_change_priority` on the node of an object. -/
def changePriority (q : List Node) (id : Nat) (pri : ℚ) : List Node :=
  q.map fun n => if n.objId = id then { n with pri := pri } else n

/-- `Belady_find` with `update_cache` set. -/
def beladyFind (next : Int) (s : State) (r : Request) : Bool × State :=
  match s.table.find r.objId with
  | none => (false, s)
  | some _ => (true, { s with pq := changePriority s.pq r.objId (double next) })

/-- `Belady_insert`; `ERROR` aborts. -/
def beladyInsert (next : Int) (s : State) (r : Request) : Except (Stop Fault) State :=
  if next = -1 then .error (.fault .assertFailed)
  else .ok { table := s.table.insert r (), pq := ⟨r.objId, double next⟩ :: s.pq }

/-- `Belady_evict` reads the node and the object without a test. -/
def beladyEvict (queue : Pqueue) (s : State) : Except (Stop Fault) State :=
  match queue.pop s.pq with
  | none => .error (.fault .nullTail)
  | some (node, rest) =>
    match s.table.find node.objId with
    | none => .error (.fault .nullTail)
    | some _ => .ok { table := s.table.remove node.objId, pq := rest }

/-- The functions that `cache_get_base` calls for a request with this future. -/
def policy (queue : Pqueue) (cacheSize : Nat) (next : Int) : Policy State Fault where
  cacheSize := cacheSize
  tick := id
  find s r := .ok (beladyFind next s r)
  canInsert _ s r := .ok (r.objSize ≤ cacheSize, s)
  occupiedByte s := s.table.occupiedByte
  evict _ s _ := beladyEvict queue s
  insert s r := beladyInsert next s r

def beladyGet (queue : Pqueue) (cacheSize fuel : Nat) (s : State) (r : TimedRequest) :
    Except (Stop Fault) (Bool × State) :=
  cacheGetBase (policy queue cacheSize r.nextAccessVtime) fuel s r.toRequest

/-- Serve a trace; the results of `Belady_get` in order. -/
def beladyServe (queue : Pqueue) (cacheSize fuel : Nat) (s : State) :
    List TimedRequest → Except (Stop Fault) (List Bool × State)
  | [] => .ok ([], s)
  | r :: rs => do
    let (hit, t) ← beladyGet queue cacheSize fuel s r
    let (hits, u) ← beladyServe queue cacheSize fuel t rs
    return (hit :: hits, u)

def ids (trace : List TimedRequest) : List Nat := trace.map fun r => r.objId

/-- Each request carries the index of the next request to its id, or a value above
every index of the trace. -/
def Annotated (trace : List TimedRequest) : Prop :=
  ∀ before r after, trace = before ++ r :: after →
    if r.objId ∈ ids after then
      r.nextAccessVtime = before.length + 1 + (ids after).idxOf r.objId
    else (trace.length : Int) ≤ r.nextAccessVtime

/-- `Annotated` from the index `j` on of a trace of `N` requests, as a test. -/
def annotatedFrom (N : Nat) : Nat → List TimedRequest → Bool
  | _, [] => true
  | j, r :: after =>
    decide (if r.objId ∈ ids after then r.nextAccessVtime = j + 1 + (ids after).idxOf r.objId
      else (N : Int) ≤ r.nextAccessVtime) && annotatedFrom N (j + 1) after

theorem annotatedFrom_cut {N : Nat} {before after : List TimedRequest} {r : TimedRequest} {j : Nat}
    (h : annotatedFrom N j (before ++ r :: after) = true) :
    if r.objId ∈ ids after then
      r.nextAccessVtime = (j + before.length : Nat) + 1 + (ids after).idxOf r.objId
    else (N : Int) ≤ r.nextAccessVtime := by
  induction before generalizing j with
  | nil => exact of_decide_eq_true (Bool.and_eq_true_iff.mp h).1
  | cons q before ih =>
    have rest := ih (Bool.and_eq_true_iff.mp h).2
    rw [List.length_cons, show j + (before.length + 1) = j + 1 + before.length by omega]
    exact rest

theorem annotated_of_test {trace : List TimedRequest}
    (h : annotatedFrom trace.length 0 trace = true) : Annotated trace := by
  intro before r after cut
  subst cut
  have here := annotatedFrom_cut h
  rwa [Nat.zero_add] at here

/-! ## The resident ids -/

variable {queue : Pqueue} {c N j : Nat} {σ : List Nat} {s t : State} {r : Request} {next : Int}

def State.residents (s : State) : Finset Nat := (s.table.objs.map CacheObj.objId).toFinset

theorem mem_residents {id : Nat} : id ∈ s.residents ↔ 0 < s.table.held id := by
  rw [State.residents, List.mem_toFinset, Fifo.held, copies_pos_iff]

/-- A priority that tells the future: the time of the next request to the id in
the rest of the trace, or one after its end. -/
def Timed (N j : Nat) (σ : List Nat) (n : Node) : Prop :=
  if n.objId ∈ σ then n.pri = j + σ.idxOf n.objId else (N : ℚ) ≤ n.pri

/-- The state when the requests from time `j` on are still to come. -/
structure Tracks (N j : Nat) (σ : List Nat) (s : State) : Prop where
  single : ∀ id, s.table.held id ≤ 1
  queued : ∀ id, total (copies Node.objId id) s.pq = s.table.held id
  units : ∀ o ∈ s.table.objs, o.bytes = 1
  timed : ∀ n ∈ s.pq, Timed N j σ n

theorem Tracks.occupied (tracks : Tracks N j σ s) :
    s.table.occupiedByte = s.residents.card := by
  have nodup : (s.table.objs.map CacheObj.objId).Nodup := (nodup_iff_copies _ _).mpr tracks.single
  have ones : total CacheObj.bytes s.table.objs = total (fun _ => 1) s.table.objs :=
    total_congr tracks.units
  rw [State.residents, List.toFinset_card_of_nodup nodup, s.table.occupied_eq, ones]
  simp [total]

theorem Tracks.node_mem (tracks : Tracks N j σ s) {n : Node} (member : n ∈ s.pq) :
    n.objId ∈ s.residents := by
  rw [mem_residents, ← tracks.queued, copies_pos_iff]
  exact List.mem_map_of_mem member

theorem Tracks.exists_node (tracks : Tracks N j σ s) {id : Nat} (member : id ∈ s.residents) :
    ∃ n ∈ s.pq, n.objId = id := by
  rw [mem_residents, ← tracks.queued, copies_pos_iff] at member
  exact List.mem_map.mp member

/-! ## The calls -/

theorem Timed.tail {p : Nat} {n : Node} (timed : Timed N j (p :: σ) n) (other : n.objId ≠ p) :
    Timed N (j + 1) σ n := by
  unfold Timed at timed ⊢
  rw [List.idxOf_cons_ne σ (Ne.symm other)] at timed
  simp only [List.mem_cons, other, false_or] at timed
  split_ifs at timed ⊢ with later
  · rw [timed]
    push_cast
    ring
  · exact timed

theorem Tracks.missed {p : Nat} (tracks : Tracks N j (p :: σ) s) (missing : p ∉ s.residents) :
    Tracks N (j + 1) σ s where
  single := tracks.single
  queued := tracks.queued
  units := tracks.units
  timed := by
    intro n member
    refine (tracks.timed n member).tail ?_
    rintro rfl
    exact missing (tracks.node_mem member)

theorem Tracks.hit {p : Nat} (tracks : Tracks N j (p :: σ) s) {pri : ℚ}
    (timed : Timed N (j + 1) σ ⟨p, pri⟩) :
    Tracks N (j + 1) σ { s with pq := changePriority s.pq p pri } where
  single := tracks.single
  queued := by
    intro id
    rw [← tracks.queued id, changePriority, total, List.map_map]
    apply congrArg List.sum
    apply List.map_congr_left
    intro n _
    simp only [Function.comp_apply, copies]
    split <;> rfl
  units := tracks.units
  timed := by
    intro n member
    obtain ⟨m, old, rfl⟩ := List.mem_map.mp member
    by_cases own : m.objId = p
    · subst own
      simpa using timed
    · rw [if_neg own]
      exact (tracks.timed m old).tail own

theorem Tracks.farthest (tracks : Tracks N j σ s) (horizon : j + σ.length = N) {top : Node}
    (member : top ∈ s.pq) (most : ∀ m ∈ s.pq, m.pri ≤ top.pri) :
    Farthest σ s.residents top.objId := by
  refine ⟨tracks.node_mem member, fun x resident => ?_⟩
  obtain ⟨m, queued, rfl⟩ := tracks.exists_node resident
  have later := tracks.timed top member
  have sooner := tracks.timed m queued
  have le := most m queued
  unfold Timed at later sooner
  by_cases comes : top.objId ∈ σ
  · rw [if_pos comes] at later
    have before := List.idxOf_lt_length_of_mem comes
    have early : (j : ℚ) + σ.idxOf top.objId < N := by
      rw [← horizon]
      push_cast
      have : (σ.idxOf top.objId : ℚ) < σ.length := by exact_mod_cast before
      linarith
    by_cases again : m.objId ∈ σ
    · rw [if_pos again] at sooner
      have : (σ.idxOf m.objId : ℚ) ≤ σ.idxOf top.objId := by linarith
      exact_mod_cast this
    · rw [if_neg again] at sooner
      linarith
  · rw [List.idxOf_eq_length comes]
    exact List.idxOf_le_length

theorem residents_remove {id : Nat} (single : ∀ i, s.table.held i ≤ 1) (q : List Node) :
    State.residents { table := s.table.remove id, pq := q } = s.residents.erase id := by
  ext x
  rw [mem_residents, Finset.mem_erase, mem_residents, Fifo.held_remove]
  have one := single x
  have nonneg := s.table.held_nonneg x
  by_cases own : id = x
  · subst own
    constructor
    · intro left_
      split at left_ <;> omega
    · rintro ⟨other, _⟩
      exact absurd rfl other
  · rw [if_neg (fun h => own h.1)]
    exact ⟨fun h => ⟨Ne.symm own, by omega⟩, fun h => by omega⟩

theorem Tracks.evicts (queue : Pqueue) (tracks : Tracks N j σ s) (horizon : j + σ.length = N)
    (held : s.residents.Nonempty) :
    ∃ t v, beladyEvict queue s = .ok t ∧ Tracks N j σ t ∧ Farthest σ s.residents v ∧
      t.residents = s.residents.erase v := by
  obtain ⟨id, resident⟩ := held
  obtain ⟨n, member, _⟩ := tracks.exists_node resident
  obtain ⟨n, q, shape⟩ := List.exists_cons_of_ne_nil (List.ne_nil_of_mem member)
  obtain ⟨top, rest, popped, perm, most⟩ := queue.pop_cons n q
  rw [← shape] at popped perm most
  have inQueue : top ∈ s.pq := perm.mem_iff.mpr List.mem_cons_self
  have farthest := tracks.farthest horizon inQueue most
  obtain ⟨o, found⟩ := Option.isSome_iff_exists.mp
    ((s.table.find_isSome_iff top.objId).mpr (mem_residents.mp farthest.1))
  refine ⟨{ table := s.table.remove top.objId, pq := rest }, top.objId, ?_, ?_, farthest,
    residents_remove tracks.single rest⟩
  · simp only [beladyEvict, popped, found]
  · constructor
    · intro i
      have := tracks.single i
      rw [Fifo.held_remove]
      split <;> omega
    · intro i
      have counted := tracks.queued i
      have parts : total (copies Node.objId i) s.pq =
          total (copies Node.objId i) (top :: rest) := (perm.map _).sum_eq
      have present := mem_residents.mp farthest.1
      rw [parts, total_cons] at counted
      rw [Fifo.held_remove]
      simp only [present, and_true]
      simp only [copies] at counted ⊢
      omega
    · intro o member
      rw [Fifo.objs_remove] at member
      exact tracks.units o (List.mem_of_mem_eraseP member)
    · intro m member
      exact tracks.timed m (perm.mem_iff.mpr (List.mem_cons_of_mem top member))

theorem Tracks.inserts (tracks : Tracks N j σ s) (missing : r.objId ∉ s.residents)
    (unit : r.objSize = 1) (future : next ≠ -1) (timed : Timed N j σ ⟨r.objId, double next⟩) :
    ∃ t, beladyInsert next s r = .ok t ∧ Tracks N j σ t ∧
      t.residents = insert r.objId s.residents := by
  have absent : s.table.held r.objId = 0 := by
    have nonneg := s.table.held_nonneg r.objId
    rw [mem_residents] at missing
    omega
  refine ⟨_, if_neg future, ?_, ?_⟩
  · constructor
    · intro id
      have := tracks.single id
      rw [Fifo.held_insert]
      split
      · rename_i same
        subst same
        omega
      · omega
    · intro id
      rw [total_cons, tracks.queued, Fifo.held_insert]
      simp only [copies]
      omega
    · intro o member
      rcases List.mem_append.mp member with old | new
      · exact tracks.units o old
      · rw [List.mem_singleton.mp new]
        simp [CacheObj.bytes, createCacheObj, unit]
    · intro n member
      rcases List.mem_cons.mp member with rfl | old
      · exact timed
      · exact tracks.timed n old
  · ext x
    have nonneg := s.table.held_nonneg x
    rw [mem_residents, Finset.mem_insert, mem_residents, Fifo.held_insert]
    by_cases own : r.objId = x
    · rw [if_pos own]
      exact ⟨fun _ => Or.inl own.symm, fun _ => by omega⟩
    · rw [if_neg own]
      exact ⟨fun h => Or.inr (by omega), fun h => by
        rcases h with same | held
        · exact absurd same.symm own
        · omega⟩

/-! ## One request -/

/-- What a request does to the set of resident ids. -/
inductive Served (c : Nat) (σ : List Nat) (p : Nat) (B : Finset Nat) : Bool → Finset Nat → Prop where
  | hit (present : p ∈ B) : Served c σ p B true B
  | fill (missing : p ∉ B) (room : B.card < c) : Served c σ p B false (insert p B)
  | replace {v : Nat} (missing : p ∉ B) (full : B.card = c) (victim : Farthest σ B v) :
      Served c σ p B false (insert p (B.erase v))

/-- While room is made for a missing id, nothing has happened yet or a farthest page has
left a full cache. -/
structure Making (c N j : Nat) (σ : List Nat) (p : Nat) (B : Finset Nat) (u : State) : Prop where
  tracks : Tracks N j σ u
  missing : p ∉ B
  steps : u.residents = B ∨
    B.card = c ∧ ∃ v, Farthest σ B v ∧ u.residents = B.erase v

variable {p : Nat} {B : Finset Nat}

theorem Making.evict (making : Making c N j σ p B s) (queue : Pqueue) (held : 1 ≤ c)
    (horizon : j + σ.length = N) (most : B.card ≤ c) (crowded : c < s.residents.card + 1) :
    ∃ t, beladyEvict queue s = .ok t ∧ Making c N j σ p B t ∧
      t.residents.card < s.residents.card := by
  rcases making.steps with same | ⟨full, v, victim, gone⟩
  · have full : B.card = c := by
      rw [same] at crowded
      omega
    have nonempty : s.residents.Nonempty := by
      rw [same, ← Finset.card_pos]
      omega
    obtain ⟨t, v, evicted, after, victim, gone⟩ := making.tracks.evicts queue horizon nonempty
    rw [same] at victim gone
    have fewer := Finset.card_erase_add_one victim.1
    refine ⟨t, evicted, ⟨after, making.missing, Or.inr ⟨full, v, victim, gone⟩⟩, ?_⟩
    rw [gone, same]
    omega
  · have fewer := Finset.card_erase_add_one victim.1
    rw [gone] at crowded
    omega

theorem Making.insert (making : Making c N j σ r.objId B s) (fits : s.residents.card + 1 ≤ c)
    (unit : r.objSize = 1) (future : next ≠ -1) (timed : Timed N j σ ⟨r.objId, double next⟩) :
    ∃ t, beladyInsert next s r = .ok t ∧ Tracks N j σ t ∧ t.residents.card ≤ c ∧
      Served c σ r.objId B false t.residents := by
  have absent : r.objId ∉ s.residents := by
    rcases making.steps with same | ⟨_, v, _, gone⟩
    · rw [same]
      exact making.missing
    · rw [gone]
      exact fun h => making.missing (Finset.mem_of_mem_erase h)
  obtain ⟨t, inserted, after, grown⟩ := making.tracks.inserts absent unit future timed
  refine ⟨t, inserted, after, ?_, ?_⟩
  · rw [grown, Finset.card_insert_of_notMem absent]
    exact fits
  · rw [grown]
    rcases making.steps with same | ⟨full, v, victim, gone⟩
    · rw [same] at fits ⊢
      exact .fill making.missing (by omega)
    · rw [gone]
      exact .replace making.missing full victim

theorem get_served (queue : Pqueue) {r : TimedRequest} (held : 1 ≤ c) (tracks : Tracks N j (r.objId :: σ) s)
    (horizon : j + 1 + σ.length = N) (most : s.residents.card ≤ c) (unit : r.objSize = 1)
    (future : r.nextAccessVtime ≠ -1)
    (timed : Timed N (j + 1) σ ⟨r.objId, double r.nextAccessVtime⟩) :
    Ends (fun n => beladyGet queue c n s r) fun a =>
      Tracks N (j + 1) σ a.2 ∧ a.2.residents.card ≤ c ∧
        Served c σ r.objId s.residents a.1 a.2.residents := by
  refine cacheGetBase_ends (Q := fun hit t => Tracks N (j + 1) σ t ∧ t.residents.card ≤ c ∧
    Served c σ r.objId s.residents hit t.residents) (fun t => t = s ∧ r.objId ∉ s.residents)
    (Making c N (j + 1) σ r.objId s.residents) (fun u => u.residents.card) ?_ ?_ ?_ ?_
  · cases found : s.table.find r.objId with
    | none =>
      refine ⟨false, s, ?_, rfl, ?_⟩
      · simp only [policy, beladyFind, id, found]
      · rw [mem_residents]
        rw [Fifo.find_none_iff_held] at found
        omega
    | some o =>
      have present : r.objId ∈ s.residents := by
        rw [mem_residents, ← Fifo.find_isSome_iff, found]
        rfl
      refine ⟨true, _, ?_, tracks.hit timed, most, .hit present⟩
      simp only [policy, beladyFind, id, found]
  · rintro t ⟨rfl, missing⟩
    have admitted : r.objSize ≤ c := by omega
    simp only [policy, admitted, decide_true]
    exact Ends.const ⟨tracks.missed missing, missing, Or.inl rfl⟩
  · intro u making crowded
    have size : (c : Int) < u.table.occupiedByte + r.objSize := crowded
    rw [making.tracks.occupied, unit] at size
    obtain ⟨t, evicted, after⟩ := making.evict queue held horizon most (by omega)
    simp only [policy, evicted]
    exact Ends.const after
  · intro u making fits
    have size : u.table.occupiedByte + r.objSize ≤ (c : Int) := fits
    rw [making.tracks.occupied, unit] at size
    exact making.insert (by omega) unit future timed

/-! ## Whole traces -/

theorem annotated_timed {trace before after : List TimedRequest} {r : TimedRequest}
    (annotated : Annotated trace) (representable : Representable (r.nextAccessVtime : ℚ))
    (cut : trace = before ++ r :: after) :
    Timed trace.length (before.length + 1) (ids after)
      ⟨r.objId, double (r.nextAccessVtime : ℚ)⟩ ∧ r.nextAccessVtime ≠ -1 := by
  have future := annotated before r after cut
  rw [double_of_representable representable]
  unfold Timed
  by_cases later : r.objId ∈ ids after
  · rw [if_pos later] at future ⊢
    refine ⟨?_, by omega⟩
    rw [future]
    push_cast
    ring
  · rw [if_neg later] at future ⊢
    refine ⟨?_, by omega⟩
    show ((trace.length : Nat) : ℚ) ≤ (r.nextAccessVtime : ℚ)
    exact_mod_cast future

theorem serve_minPages (queue : Pqueue) {trace : List TimedRequest} (held : 1 ≤ c)
    (units : ∀ r ∈ trace, r.objSize = 1) (annotated : Annotated trace)
    (exact_ : ∀ r ∈ trace, Representable (r.nextAccessVtime : ℚ)) (before after : List TimedRequest)
    (cut : trace = before ++ after) (tracks : Tracks trace.length before.length (ids after) s)
    (most : s.residents.card ≤ c) :
    Ends (fun n => beladyServe queue c n s after) fun a =>
      MinPages c s.residents (ids after) (a.1.count false) := by
  induction after generalizing before s with
  | nil => exact Ends.const (.nil _)
  | cons r after ih =>
    have member : r ∈ trace := by rw [cut]; simp
    have horizon : before.length + 1 + (ids after).length = trace.length := by
      rw [cut]
      simp [ids]
      omega
    obtain ⟨timed, future⟩ := annotated_timed annotated (exact_ r member) cut
    have served := get_served queue held tracks horizon most (units r member) future timed
    refine served.bind (g := fun n a => do
      let b ← beladyServe queue c n a.2 after
      return (a.1 :: b.1, b.2)) ?_
    rintro ⟨hit, t⟩ ⟨next, small, step⟩
    have longer : Tracks trace.length (before ++ [r]).length (ids after) t := by
      rw [List.length_append]
      exact next
    have rest := ih (before ++ [r]) (by simpa using cut) longer small
    refine rest.bind (g := fun _ b => return (hit :: b.1, b.2)) ?_
    rintro ⟨hits, u⟩ pages
    refine Ends.const ?_
    dsimp only at pages step ⊢
    generalize t.residents = B at pages step
    show MinPages c s.residents (r.objId :: ids after) _
    cases step with
    | hit present =>
      rw [List.count_cons_of_ne (by decide)]
      exact .hit present pages
    | fill missing room =>
      rw [List.count_cons_self]
      exact .fill missing room pages
    | replace missing full victim =>
      rw [List.count_cons_self]
      exact .replace missing full victim pages

theorem init_tracks (N : Nat) (σ : List Nat) : Tracks N 0 σ beladyInit where
  single := fun _ => by simp [beladyInit]
  queued := fun _ => rfl
  units := by
    intro o member
    simp [beladyInit] at member
  timed := by
    intro n member
    simp [beladyInit] at member

/-- Belady's policy serves every trace that tells the future, and no demand paging
schedule over as many pages makes fewer misses. -/
theorem belady_misses_le (queue : Pqueue) (held : 1 ≤ c) {trace : List TimedRequest}
    (units : ∀ r ∈ trace, r.objSize = 1) (annotated : Annotated trace)
    (exact_ : ∀ r ∈ trace, Representable (r.nextAccessVtime : ℚ)) :
    ∃ hits s, Yields (fun fuel => beladyServe queue c fuel beladyInit trace) (.ok (hits, s)) ∧
      ∀ m, Pages c ∅ (ids trace) m → hits.count false ≤ m := by
  have none : beladyInit.residents = ∅ := rfl
  have small : beladyInit.residents.card ≤ c := by rw [none]; simp
  obtain ⟨⟨hits, s⟩, served, pages⟩ := serve_minPages queue held units
    annotated exact_ [] trace rfl (init_tracks _ _) small
  exact ⟨hits, s, served, fun m other => MinPages.le_of_empty pages other⟩

def popMax : List Node → Option (Node × List Node)
  | [] => none
  | n :: q =>
    match popMax q with
    | none => some (n, q)
    | some (top, rest) => if top.pri ≤ n.pri then some (n, q) else some (top, n :: rest)

theorem popMax_cons (n : Node) (q : List Node) : ∃ top rest, popMax (n :: q) = some (top, rest) ∧
    (n :: q).Perm (top :: rest) ∧ ∀ m ∈ n :: q, m.pri ≤ top.pri := by
  induction q generalizing n with
  | nil => exact ⟨n, [], rfl, .refl _, by simp⟩
  | cons k q ih =>
    obtain ⟨top, rest, popped, perm, most⟩ := ih k
    rw [popMax, popped]
    by_cases first : top.pri ≤ n.pri
    · refine ⟨n, k :: q, if_pos first, .refl _, fun m member => ?_⟩
      rcases List.mem_cons.mp member with rfl | later
      · exact le_refl _
      · exact (most m later).trans first
    · refine ⟨top, n :: rest, if_neg first, (perm.cons n).trans (.swap top n rest), fun m member => ?_⟩
      rcases List.mem_cons.mp member with rfl | later
      · exact le_of_not_ge first
      · exact most m later

def scannedQueue : Pqueue := ⟨popMax, rfl, popMax_cons⟩

/-- Two pages for the requests 1, 2, 3, 1, 2. -/
theorem belady_misses_le_five :
    ∃ hits s, Yields (fun fuel => beladyServe scannedQueue 2 fuel beladyInit
        [⟨⟨1, 1⟩, 3⟩, ⟨⟨2, 1⟩, 4⟩, ⟨⟨3, 1⟩, 5⟩, ⟨⟨1, 1⟩, 5⟩, ⟨⟨2, 1⟩, 6⟩]) (.ok (hits, s)) ∧
      ∀ m, Pages 2 ∅ [1, 2, 3, 1, 2] m → hits.count false ≤ m := by
  refine belady_misses_le scannedQueue (by decide) ?_ (annotated_of_test (by decide)) ?_
  · simp
  · intro r member
    have all : ∀ q ∈ ([⟨⟨1, 1⟩, 3⟩, ⟨⟨2, 1⟩, 4⟩, ⟨⟨3, 1⟩, 5⟩, ⟨⟨1, 1⟩, 5⟩, ⟨⟨2, 1⟩, 6⟩] :
        List TimedRequest), 0 ≤ q.nextAccessVtime ∧ q.nextAccessVtime ≤ 6 := by decide
    obtain ⟨low, high⟩ := all r member
    have small : ∃ n : Nat, n ≤ 2 ^ 53 ∧ r.nextAccessVtime = n :=
      ⟨r.nextAccessVtime.toNat, by omega, by omega⟩
    obtain ⟨n, bound, same⟩ := small
    rw [same]
    exact_mod_cast representable_natCast bound

/-! ## Against LRU -/

open LruStack in
/-- An LRU cache is a schedule as well, which misses what it does not hit. -/
theorem stack_pages (held : 1 ≤ c) (σ : List Nat) {S : List Nat} (nodup : S.Nodup) :
    ∃ m, Pages c (S.rtake c).toFinset σ m ∧ m + hits c S σ = σ.length := by
  induction σ generalizing S with
  | nil => exact ⟨0, .nil _, rfl⟩
  | cons x σ ih =>
    obtain ⟨m, rest, sum⟩ := ih (touch_nodup (x := x) nodup)
    have once : (S.rtake c).Nodup := nodup.sublist (List.drop_sublist _ _)
    have pages := List.toFinset_card_of_nodup once
    rw [newest_touch nodup held, lruStep] at rest
    rw [hits, List.length_cons]
    by_cases found : x ∈ S.rtake c
    · rw [if_pos found, List.toFinset_eq_of_perm _ _ (touch_perm found)] at rest
      exact ⟨m, .hit (List.mem_toFinset.mpr found) rest, by rw [if_pos found]; omega⟩
    · have missing : x ∉ (S.rtake c).toFinset := mt List.mem_toFinset.mp found
      refine ⟨m + 1, ?_, by rw [if_neg found]; omega⟩
      rw [if_neg found] at rest
      split at rest
      next room =>
        refine .fill missing (by rwa [pages]) ?_
        rwa [List.toFinset_append, Finset.union_comm] at rest
      next full =>
        have most : (S.rtake c).length ≤ c := by rw [List.rtake, List.length_drop]; omega
        cases newest : S.rtake c with
        | nil => rw [newest, List.length_nil] at full; omega
        | cons oldest R =>
          rw [newest] at rest once missing pages full most
          refine .replace missing (by omega) {oldest} (by simp) ⟨oldest, by simp⟩ ?_
          have first : oldest ∉ R.toFinset := mt List.mem_toFinset.mp (List.nodup_cons.mp once).1
          rw [List.toFinset_cons, Finset.sdiff_singleton_eq_erase, Finset.erase_insert first]
          rwa [List.tail_cons, List.toFinset_append, Finset.union_comm] at rest

/-- On a trace that tells the future, Belady's policy makes no more misses than LRU: its misses
and the hits of LRU are not more than the requests. -/
theorem belady_misses_le_lru (queue : Pqueue) (held : 1 ≤ c) {trace : List TimedRequest}
    (units : ∀ r ∈ trace, r.objSize = 1) (annotated : Annotated trace)
    (exact_ : ∀ r ∈ trace, Representable (r.nextAccessVtime : ℚ)) :
    ∃ hits s lru, Yields (fun fuel => beladyServe queue c fuel beladyInit trace) (.ok (hits, s)) ∧
      Yields (fun fuel => LruRuns.lruHits c fuel .empty (ids trace)) (.ok lru) ∧
      hits.count false + lru ≤ trace.length := by
  obtain ⟨⟨hits, s⟩, served, best⟩ := serve_minPages queue held units
    annotated exact_ [] trace rfl (init_tracks _ _) (Nat.zero_le c)
  obtain ⟨lru, ran, rfl⟩ := LruRuns.lruHits_stack held .nil (LruRuns.empty_holds c) (ids trace)
  obtain ⟨m, pages, sum⟩ := stack_pages held (ids trace) (S := []) .nil
  have least : hits.count false ≤ m := best.le_of_empty (by simpa using pages)
  have requests : (ids trace).length = trace.length := List.length_map _
  exact ⟨hits, s, _, served, ran, by omega⟩

theorem belady_misses_le_lru_twice :
    ∃ hits s lru, Yields (fun fuel => beladyServe scannedQueue 1 fuel beladyInit
        [⟨⟨7, 1⟩, 1⟩, ⟨⟨7, 1⟩, 2⟩]) (.ok (hits, s)) ∧
      Yields (fun fuel => LruRuns.lruHits 1 fuel .empty [7, 7]) (.ok lru) ∧
      hits.count false + lru ≤ 2 := by
  refine belady_misses_le_lru scannedQueue (by decide) (by simp) (annotated_of_test (by decide)) ?_
  simpa using ⟨representable_natCast (n := 1) (by norm_num), representable_natCast (n := 2) (by norm_num)⟩

end Belady
