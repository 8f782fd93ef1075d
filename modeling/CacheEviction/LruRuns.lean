import CacheEviction.CacheGet
import CacheEviction.LruCache
import CacheEviction.LruStack

/-!
# Runs of the LRU cache

`LRU_get` of `LRU.c` is `cache_get_base` over the queue of `LruCache`. On objects of
size 1 the queue always holds the newest `cache_size` ids of the recency stack.
-/
namespace LruRuns

open FuelLoops FifoCache CacheGet LruStack WeightedLists

/-- `LRU_find` with `update_cache` set. -/
def lruFind (q : Fifo Unit) (id : Nat) : Bool × Fifo Unit := ((q.find id).isSome, q.promote id)

/-- `LRU_evict` reads the tail without a test. -/
def lruEvict (q : Fifo Unit) : Except (Stop Fault) (Fifo Unit) :=
  match q.toEvict with
  | none => .error (.fault .nullTail)
  | some obj => .ok (q.remove obj.objId)

def lruPolicy (cacheSize : Nat) : Policy (Fifo Unit) Fault where
  cacheSize := cacheSize
  tick := id
  find q r := .ok (lruFind q r.objId)
  canInsert _ q r := .ok (r.objSize ≤ cacheSize, q)
  occupiedByte q := q.occupiedByte
  evict _ q _ := lruEvict q
  insert q r := .ok (q.insert r ())

def lruGet (cacheSize fuel : Nat) (q : Fifo Unit) (r : Request) :
    Except (Stop Fault) (Bool × Fifo Unit) :=
  cacheGetBase (lruPolicy cacheSize) fuel q r

/-- The requests of a trace of unit sizes on which `LRU_get` returns true. -/
def lruHits (cacheSize fuel : Nat) : Fifo Unit → List Nat → Except (Stop Fault) Nat
  | _, [] => .ok 0
  | q, id :: trace => do
    let (hit, q) ← lruGet cacheSize fuel q ⟨id, 1⟩
    let later ← lruHits cacheSize fuel q trace
    return (if hit then 1 else 0) + later

def resident {M : Type} (q : Fifo M) : List Nat := q.objs.map CacheObj.objId

variable {c x : Nat} {q : Fifo Unit} {S : List Nat}

section Units

variable {M : Type} {q : Fifo M}

theorem occupied_of_units (units : ∀ o ∈ q.objs, o.bytes = 1) :
    q.occupiedByte = (resident q).length := by
  have ones : total CacheObj.bytes q.objs = total (fun _ => 1) q.objs := total_congr units
  rw [q.occupied_eq, ones, resident, List.length_map]
  simp [total]

@[simp] theorem resident_insert (q : Fifo M) (r : Request) (tag : M) :
    resident (q.insert r tag) = resident q ++ [r.objId] := by
  rw [resident, Fifo.objs_insert, List.map_append]
  rfl

@[simp] theorem resident_remove (q : Fifo M) (x : Nat) :
    resident (q.remove x) = (resident q).erase x := by
  rw [resident, Fifo.objs_remove, List.erase_eq_eraseP, resident, List.eraseP_map]
  congr 2
  funext o
  simp [hasId, BEq.comm]

theorem resident_promote (found : x ∈ resident q) : resident (q.promote x) = touch (resident q) x := by
  cases h : q.find x with
  | none => exact absurd found (Fifo.find_eq_none.mp h)
  | some o =>
    rw [Fifo.promote, h, touch, resident_insert, resident_remove]
    show _ ++ [o.objId] = _
    rw [Fifo.find_objId h]

theorem insert_units (units : ∀ o ∈ q.objs, o.bytes = 1) {r : Request} (unit : r.objSize = 1)
    (tag : M) : ∀ o ∈ (q.insert r tag).objs, o.bytes = 1 := by
  intro o member
  rcases List.mem_append.mp member with old | new
  · exact units o old
  · rw [List.mem_singleton.mp new, CacheObj.bytes, createCacheObj, unit]
    rfl

theorem remove_units (units : ∀ o ∈ q.objs, o.bytes = 1) (x : Nat) :
    ∀ o ∈ (q.remove x).objs, o.bytes = 1 := by
  intro o member
  rw [Fifo.objs_remove] at member
  exact units o (List.mem_of_mem_eraseP member)

theorem toRequest_unit {o : CacheObj M} (unit : o.bytes = 1) : o.toRequest.objSize = 1 := by
  rw [CacheObj.bytes] at unit
  exact_mod_cast unit

theorem promote_units (units : ∀ o ∈ q.objs, o.bytes = 1) (x : Nat) :
    ∀ o ∈ (q.promote x).objs, o.bytes = 1 := by
  rw [Fifo.promote]
  cases h : q.find x with
  | none => exact units
  | some o => exact insert_units (remove_units units x) (toRequest_unit (units o (Fifo.find_mem h))) _

end Units

/-- The queue is the newest `c` ids of the stack, one byte each. -/
structure Holds (c : Nat) (S : List Nat) (q : Fifo Unit) : Prop where
  ids : resident q = S.rtake c
  units : ∀ o ∈ q.objs, o.bytes = 1

theorem lruEvict_tail (held : 0 < (resident q).length) :
    ∃ t, lruEvict q = .ok t ∧ resident t = (resident q).tail ∧ ∀ o ∈ t.objs, o ∈ q.objs := by
  cases h : q.objs with
  | nil => simp [resident, h] at held
  | cons o rest =>
    have left := Fifo.objs_remove_oldest h
    refine ⟨q.remove o.objId, ?_, ?_, ?_⟩
    · rw [lruEvict, Fifo.toEvict_of_objs h]
    · rw [resident, left, resident, h]
      rfl
    · rw [left]
      exact fun p member => List.mem_cons_of_mem o member

theorem lruGet_step (room : 1 ≤ c) (units : ∀ o ∈ q.objs, o.bytes = 1)
    (small : (resident q).length ≤ c) (x : Nat) :
    Ends (fun n => lruGet c n q ⟨x, 1⟩) fun a => a.1 = decide (x ∈ resident q) ∧
      resident a.2 = lruStep c (resident q) x ∧ ∀ o ∈ a.2.objs, o.bytes = 1 := by
  -- While room is made, either nothing has happened or the tail of a full queue is gone.
  refine cacheGetBase_ends (Q := fun hit t => hit = decide (x ∈ resident q) ∧
      resident t = lruStep c (resident q) x ∧ ∀ o ∈ t.objs, o.bytes = 1)
    (fun t => t = q ∧ x ∉ resident q)
    (fun u => x ∉ resident q ∧ (∀ o ∈ u.objs, o.bytes = 1) ∧ (resident u = resident q ∨
      (resident q).length = c ∧ resident u = (resident q).tail))
    (fun u => (resident u).length) ?_ ?_ ?_ ?_
  · cases h : q.find x with
    | none =>
      refine ⟨false, q, ?_, rfl, Fifo.find_eq_none.mp h⟩
      simp only [lruPolicy, lruFind, id, h, Fifo.promote_of_absent h, Option.isSome_none]
    | some o =>
      have present : x ∈ resident q := by
        rw [← Fifo.find_objId h]
        exact List.mem_map_of_mem (Fifo.find_mem h)
      refine ⟨true, q.promote x, ?_, (decide_eq_true present).symm, ?_, promote_units units x⟩
      · simp only [lruPolicy, lruFind, id, h, Option.isSome_some]
      · rw [lruStep, if_pos present, resident_promote present]
  · rintro t ⟨rfl, missing⟩
    simp only [lruPolicy, room, decide_true]
    exact Ends.const ⟨missing, units, Or.inl rfl⟩
  · rintro u ⟨missing, ones, steps⟩ crowded
    have size : (c : Int) < u.occupiedByte + 1 := crowded
    rw [occupied_of_units ones] at size
    rcases steps with same | ⟨full, gone⟩
    · have full : (resident q).length = c := by
        rw [same] at size
        omega
      obtain ⟨t, evicted, tail, kept⟩ := lruEvict_tail (q := u) (by omega)
      simp only [lruPolicy, evicted]
      rw [same] at tail
      refine Ends.const ⟨⟨missing, fun o member => ones o (kept o member), Or.inr ⟨full, tail⟩⟩, ?_⟩
      rw [tail, same, List.length_tail]
      omega
    · rw [gone, List.length_tail] at size
      omega
  · rintro u ⟨missing, ones, steps⟩ fits
    have size : u.occupiedByte + 1 ≤ (c : Int) := fits
    rw [occupied_of_units ones] at size
    refine ⟨u.insert ⟨x, 1⟩ (), rfl, (decide_eq_false missing).symm, ?_, ?_⟩
    · rw [resident_insert, lruStep, if_neg missing]
      rcases steps with same | ⟨full, gone⟩
      · rw [same] at size ⊢
        rw [if_pos (by omega)]
      · rw [gone, if_neg (by omega)]
    · exact insert_units ones rfl ()

theorem lruGet_stack (room : 1 ≤ c) (nodup : S.Nodup) (holds : Holds c S q) (x : Nat) :
    Ends (fun n => lruGet c n q ⟨x, 1⟩) fun a =>
      a.1 = decide (x ∈ S.rtake c) ∧ Holds c (touch S x) a.2 := by
  have small : (resident q).length ≤ c := by
    rw [holds.ids, List.rtake, List.length_drop]
    omega
  refine (lruGet_step room holds.units small x).mono ?_
  rintro ⟨hit, t⟩ ⟨found, next, ones⟩
  rw [holds.ids] at found next
  exact ⟨found, next.trans (newest_touch nodup room x).symm, ones⟩

theorem lruHits_stack (room : 1 ≤ c) (nodup : S.Nodup) (holds : Holds c S q) (trace : List Nat) :
    Ends (fun n => lruHits c n q trace) (· = hits c S trace) := by
  induction trace generalizing q S with
  | nil => exact Ends.const rfl
  | cons x trace ih =>
    refine (lruGet_stack room nodup holds x).bind (g := fun n a => do
      let later ← lruHits c n a.2 trace
      return (if a.1 then 1 else 0) + later) ?_
    rintro ⟨hit, t⟩ ⟨found, next⟩
    refine (ih (touch_nodup nodup) next).bind (g := fun _ later =>
      return (if hit then 1 else 0) + later) ?_
    rintro later rfl
    dsimp only at found
    refine Ends.const ?_
    rw [hits, found]
    simp only [decide_eq_true_eq]

theorem empty_holds (c : Nat) : Holds c [] .empty where
  ids := by simp [resident]
  units := by
    intro o member
    cases member

/-! ## Two sizes -/

def recency (q : Fifo Unit) : List Nat := (resident q).reverse

def unitRequests (trace : List Nat) : List Request := trace.map fun x => ⟨x, 1⟩

theorem lruGet_zero (empty : q.objs = []) (x : Nat) :
    Ends (fun n => lruGet 0 n q ⟨x, 1⟩) fun a => a.1 = false ∧ a.2 = q := by
  have missing : q.find x = none := by
    rw [Fifo.find, empty]
    rfl
  refine ⟨(false, q), .of_eq fun n => ?_, rfl, rfl⟩
  simp [lruGet, cacheGetBase, lruPolicy, lruFind, missing, Fifo.promote_of_absent missing, bind, Except.bind,
    pure, Except.pure]

theorem lruGet_newest (nodup : S.Nodup) (holds : Holds c S q) (x : Nat) :
    Ends (fun n => lruGet c n q ⟨x, 1⟩) fun a =>
      a.1 = decide (x ∈ S.rtake c) ∧ Holds c (touch S x) a.2 := by
  rcases c.eq_zero_or_pos with rfl | room
  · have empty : resident q = [] := by simpa using holds.ids
    refine (lruGet_zero (List.map_eq_nil_iff.mp empty) x).mono ?_
    rintro ⟨hit, t⟩ ⟨miss, same⟩
    dsimp only at miss same
    subst miss same
    exact ⟨by simp, by simpa using empty, holds.units⟩
  · exact lruGet_stack room nodup holds x

theorem serveAll_stack (nodup : S.Nodup) (holds : Holds c S q) (trace : List Nat) :
    Ends (fun n => serveAll (lruPolicy c) n q (unitRequests trace)) (Holds c (touches S trace)) := by
  induction trace generalizing q S with
  | nil => exact Ends.const holds
  | cons x trace ih =>
    refine (lruGet_newest nodup holds x).bind (g := fun n a =>
      serveAll (lruPolicy c) n a.2 (unitRequests trace)) ?_
    rintro a ⟨_, next⟩
    exact ih (touch_nodup nodup) next

theorem Holds.recency_eq (holds : Holds c S q) : recency q = S.reverse.take c := by
  rw [recency, holds.ids, List.rtake_eq_reverse_take_reverse, List.reverse_reverse]

/-- A smaller LRU cache holds the newest ids of a larger one, whatever was requested, so what
it hits the larger one hits. -/
theorem lru_inclusion {c d : Nat} (le : c ≤ d) (trace : List Nat) : ∃ q p,
    Yields (fun n => serveAll (lruPolicy c) n .empty (unitRequests trace)) (.ok q) ∧
    Yields (fun n => serveAll (lruPolicy d) n .empty (unitRequests trace)) (.ok p) ∧
    recency q = (recency p).take (min c (recency p).length) ∧
    ∀ x, ∃ hit q' hit' p', Yields (fun n => lruGet c n q ⟨x, 1⟩) (.ok (hit, q')) ∧
      Yields (fun n => lruGet d n p ⟨x, 1⟩) (.ok (hit', p')) ∧ (hit = true → hit' = true) := by
  obtain ⟨q, run, small⟩ := serveAll_stack List.nodup_nil (empty_holds c) trace
  obtain ⟨p, run', large⟩ := serveAll_stack List.nodup_nil (empty_holds d) trace
  have nodup := touches_nodup (List.nodup_nil (α := Nat)) trace
  refine ⟨q, p, run, run', ?_, fun x => ?_⟩
  · rw [small.recency_eq, large.recency_eq, List.take_take, List.length_take]
    conv_lhs => rw [List.take_eq_take_min]
    congr 1
    omega
  · obtain ⟨⟨hit, q'⟩, served, found, -⟩ := lruGet_newest nodup small x
    obtain ⟨⟨hit', p'⟩, served', found', -⟩ := lruGet_newest nodup large x
    refine ⟨hit, q', hit', p', served, served', fun yes => ?_⟩
    dsimp only at found found'
    rw [yes, eq_comm, decide_eq_true_eq, List.rtake_eq_reverse_take_reverse, List.mem_reverse] at found
    rw [found', decide_eq_true_eq, List.rtake_eq_reverse_take_reverse, List.mem_reverse]
    exact List.take_subset_take_left _ le found

/-- The recency lists of sizes 2 and 3 after requests for 1, 2, 3, 1. -/
theorem lru_inclusion_two_three : ∃ q p,
    Yields (fun n => serveAll (lruPolicy 2) n .empty (unitRequests [1, 2, 3, 1])) (.ok q) ∧
    Yields (fun n => serveAll (lruPolicy 3) n .empty (unitRequests [1, 2, 3, 1])) (.ok p) ∧
    recency q = (recency p).take (min 2 (recency p).length) := by
  obtain ⟨q, p, run, run', same, -⟩ := lru_inclusion (c := 2) (d := 3) (by decide) [1, 2, 3, 1]
  exact ⟨q, p, run, run', same⟩

end LruRuns
