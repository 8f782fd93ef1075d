import CacheEviction.FifoCache

/-!
# The LRU cache of libCacheSim

`LRU.c` has the queue of `FIFO.c`: it inserts at the head, evicts at the tail and
removes by id. The one difference is `LRU_find`, which moves the object it has
found to the head if `update_cache` is set.
-/
namespace FifoCache.Fifo

open WeightedLists

variable {M : Type}

/-- `LRU_find` with `update_cache` set, for its effect on the queue. -/
def promote (q : Fifo M) (id : Nat) : Fifo M :=
  match q.find id with
  | none => q
  | some o => (q.remove id).insert o.toRequest o.tag

theorem promote_of_absent {q : Fifo M} {id : Nat} (h : q.find id = none) : q.promote id = q := by
  rw [promote, h]

theorem objs_promote {q : Fifo M} {id : Nat} {o : CacheObj M} (h : q.find id = some o) :
    (q.promote id).objs = q.objs.eraseP (hasId id) ++ [o] := by
  rw [promote, h]
  simp [objs_remove]

theorem total_insert (w : CacheObj M → Int) (q : Fifo M) (r : Request) (tag : M) :
    total w (q.insert r tag).objs = total w q.objs + w (createCacheObj r tag) := by
  rw [objs_insert, total_append, total_cons, total_nil, add_zero]

theorem total_promote (w : CacheObj M → Int) (q : Fifo M) (id : Nat) :
    total w (q.promote id).objs = total w q.objs := by
  cases h : q.find id with
  | none => rw [promote_of_absent h]
  | some o =>
    rw [objs_promote h, total_append, total_eraseP w _ h, total_cons, total_nil]
    ring

theorem held_promote (q : Fifo M) (i id : Nat) : (q.promote i).held id = q.held id :=
  total_promote _ q i

theorem find_promote {q : Fifo M} {id : Nat} (single : q.held id ≤ 1) :
    (q.promote id).find id = q.find id := by
  cases h : q.find id with
  | none => rw [promote_of_absent h, h]
  | some o =>
    have present := (q.find_isSome_iff id).mp (by rw [h]; rfl)
    have left := q.held_remove id id
    have gone : (q.remove id).find id = none := by
      rw [find_none_iff_held, left, if_pos ⟨rfl, present⟩]
      omega
    have others : (q.objs.eraseP (hasId id)).find? (hasId id) = none := by
      rw [← objs_remove]
      exact gone
    rw [find, objs_promote h, List.find?_append, others, Option.none_or]
    exact List.find?_cons_of_pos (hasId_iff.mpr (find_objId h))

end FifoCache.Fifo
