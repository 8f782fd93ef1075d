import CacheEviction.WeightedLists

/-!
# The FIFO cache of libCacheSim

`FIFO.c` over `cache.c` and `cacheObj.c`: an intrusive queue with a hash table
on the object id, and the counters `occupied_byte` and `n_obj` that
`cache_insert_base` and `cache_remove_obj_base` keep. Entries stand oldest first,
so `q_tail` is the head of the list. The per-object union is the type `M`.

The hash table holds the queue's own entries, so a lookup is a search of the queue.
`obj_md_size` is 0, and neither admission nor prefetch hooks are installed.
-/
namespace FifoCache

open WeightedLists Function

variable {M : Type}

/-- The two fields of `request_t` the policies read. `obj_size` is 64 bits wide. -/
structure Request where
  objId : Nat
  objSize : Nat
  deriving DecidableEq

/-- `cache_obj_t`: its `obj_size` is 32 bits wide. -/
structure CacheObj (M : Type) where
  objId : Nat
  objSize : UInt32
  tag : M
  deriving DecidableEq

def CacheObj.bytes (o : CacheObj M) : Int := o.objSize.toNat

theorem CacheObj.bytes_nonneg (o : CacheObj M) : 0 ≤ o.bytes := by
  simp [CacheObj.bytes]

/-- `copy_cache_obj_to_request` -/
def CacheObj.toRequest (o : CacheObj M) : Request := ⟨o.objId, o.objSize.toNat⟩

/-- `create_cache_obj_from_request`: storing the size drops its upper 32 bits. -/
def createCacheObj (r : Request) (tag : M) : CacheObj M :=
  ⟨r.objId, UInt32.ofNat r.objSize, tag⟩

@[simp] theorem createCacheObj_objId (r : Request) (tag : M) :
    (createCacheObj r tag).objId = r.objId := rfl

theorem createCacheObj_bytes_le (r : Request) (tag : M) :
    (createCacheObj r tag).bytes ≤ r.objSize := by
  have h : (UInt32.ofNat r.objSize).toNat ≤ r.objSize := by
    rw [UInt32.toNat_ofNat']
    exact Nat.mod_le _ _
  show ((UInt32.ofNat r.objSize).toNat : Int) ≤ r.objSize
  omega

@[simp] theorem createCacheObj_toRequest (o : CacheObj M) (tag : M) :
    createCacheObj o.toRequest tag = { o with tag := tag } := by
  simp [createCacheObj, CacheObj.toRequest]

def hasId (id : Nat) (o : CacheObj M) : Bool := o.objId == id

@[simp] theorem hasId_iff {id : Nat} {o : CacheObj M} : hasId id o = true ↔ o.objId = id := by
  simp [hasId]

/-- The queue with the counters it keeps beside it. -/
structure Fifo (M : Type) where
  objs : List (CacheObj M)
  occupiedByte : Int
  nObj : Int
  occupied_eq : occupiedByte = total CacheObj.bytes objs
  nObj_eq : nObj = objs.length

namespace Fifo

def empty : Fifo M := ⟨[], 0, 0, rfl, rfl⟩

/-- `FIFO_find`: the object the hash table holds under this id. -/
def find (q : Fifo M) (id : Nat) : Option (CacheObj M) := q.objs.find? (hasId id)

/-- `FIFO_insert`, together with the metadata its caller writes at once. -/
def insert (q : Fifo M) (r : Request) (tag : M) : Fifo M where
  objs := q.objs ++ [createCacheObj r tag]
  occupiedByte := q.occupiedByte + (createCacheObj r tag).bytes
  nObj := q.nObj + 1
  occupied_eq := by simp [q.occupied_eq]
  nObj_eq := by simp [q.nObj_eq]

/-- `FIFO_to_evict`: the object at `q_tail`, if any. -/
def toEvict (q : Fifo M) : Option (CacheObj M) := q.objs.head?

def remove (q : Fifo M) (id : Nat) : Fifo M :=
  match h : q.objs.find? (hasId id) with
  | none => q
  | some o =>
    { objs := q.objs.eraseP (hasId id)
      occupiedByte := q.occupiedByte - o.bytes
      nObj := q.nObj - 1
      occupied_eq := by rw [total_eraseP _ _ h, q.occupied_eq]
      nObj_eq := by
        have hm := List.mem_of_find?_eq_some h
        have hl := List.length_eraseP_of_mem hm (List.find?_some h)
        have hp := List.length_pos_of_mem hm
        rw [q.nObj_eq, hl]
        omega }

/-- A write through the pointer that `find` returned. -/
def retag (q : Fifo M) (id : Nat) (f : M → M) : Fifo M where
  objs := updateFirst (hasId id) (fun o => { o with tag := f o.tag }) q.objs
  occupiedByte := q.occupiedByte
  nObj := q.nObj
  occupied_eq := by
    have h := map_updateFirst CacheObj.bytes (hasId id)
      (fun o : CacheObj M => { o with tag := f o.tag }) (fun _ => rfl) q.objs
    rw [q.occupied_eq, total, total, h]
  nObj_eq := by simp [q.nObj_eq]

@[simp] theorem objs_empty : (empty : Fifo M).objs = [] := rfl

@[simp] theorem objs_insert (q : Fifo M) (r : Request) (tag : M) :
    (q.insert r tag).objs = q.objs ++ [createCacheObj r tag] := rfl

theorem objs_remove (q : Fifo M) (id : Nat) :
    (q.remove id).objs = q.objs.eraseP (hasId id) := by
  unfold remove
  split
  · rename_i h
    have absent : ∀ o ∈ q.objs, ¬ hasId id o = true := by
      intro o ho
      simpa using List.find?_eq_none.mp h o ho
    exact (List.eraseP_of_forall_not absent).symm
  · rfl

theorem find_objId {q : Fifo M} {id : Nat} {o : CacheObj M} (h : q.find id = some o) :
    o.objId = id := by
  simpa using List.find?_some h

theorem find_mem {q : Fifo M} {id : Nat} {o : CacheObj M} (h : q.find id = some o) :
    o ∈ q.objs := List.mem_of_find?_eq_some h

theorem find_eq_none {q : Fifo M} {id : Nat} :
    q.find id = none ↔ id ∉ q.objs.map CacheObj.objId := by
  simp [find, List.find?_eq_none, List.mem_map]

theorem objs_remove_oldest {q : Fifo M} {o : CacheObj M} {rest : List (CacheObj M)}
    (h : q.objs = o :: rest) : (q.remove o.objId).objs = rest := by
  rw [objs_remove, h]
  exact List.eraseP_cons_of_pos (by simp)

theorem toEvict_of_objs {q : Fifo M} {o : CacheObj M} {rest : List (CacheObj M)}
    (h : q.objs = o :: rest) : q.toEvict = some o := by
  rw [toEvict, h]
  rfl

theorem find_of_objs {q : Fifo M} {o : CacheObj M} {rest : List (CacheObj M)}
    (h : q.objs = o :: rest) : q.find o.objId = some o := by
  rw [find, h]
  exact List.find?_cons_of_pos (by simp)

theorem toEvict_eq_some {q : Fifo M} {o : CacheObj M} (h : q.toEvict = some o) :
    ∃ rest, q.objs = o :: rest := by
  cases hq : q.objs with
  | nil => simp [toEvict, hq] at h
  | cons a rest =>
    simp only [toEvict, hq, List.head?_cons, Option.some.injEq] at h
    exact ⟨rest, by rw [h]⟩

theorem toEvict_mem {q : Fifo M} {o : CacheObj M} (h : q.toEvict = some o) : o ∈ q.objs := by
  obtain ⟨rest, hq⟩ := toEvict_eq_some h
  rw [hq]
  exact List.mem_cons_self

theorem toEvict_of_occupied {q : Fifo M} (h : 0 < q.occupiedByte) :
    ∃ o, q.toEvict = some o := by
  rw [q.occupied_eq] at h
  obtain ⟨o, rest, hq⟩ := exists_cons_of_total_pos h
  exact ⟨o, by simp [toEvict, hq]⟩

theorem occupied_nonneg (q : Fifo M) : 0 ≤ q.occupiedByte := by
  rw [q.occupied_eq]
  exact total_nonneg _ _ (fun o _ => o.bytes_nonneg)

theorem total_remove_oldest {q : Fifo M} {o : CacheObj M} (w : CacheObj M → Int)
    (h : q.toEvict = some o) : total w (q.remove o.objId).objs = total w q.objs - w o := by
  obtain ⟨rest, hq⟩ := toEvict_eq_some h
  rw [objs_remove_oldest hq, hq, total_cons]
  ring

theorem total_remove_found {q : Fifo M} {id : Nat} {o : CacheObj M} (w : CacheObj M → Int)
    (h : q.find id = some o) : total w (q.remove id).objs = total w q.objs - w o := by
  rw [objs_remove]
  exact total_eraseP w _ h

theorem total_retag {q : Fifo M} {id : Nat} {o : CacheObj M} (w : CacheObj M → Int)
    (f : M → M) (h : q.find id = some o) :
    total w (q.retag id f).objs = total w q.objs - w o + w { o with tag := f o.tag } :=
  total_updateFirst w _ _ h

theorem remove_of_absent {q : Fifo M} {id : Nat} (h : q.find id = none) : q.remove id = q := by
  unfold remove
  split
  · rfl
  · rename_i o ho
    rw [find, ho] at h
    cases h

theorem map_retag {β : Type*} (g : CacheObj M → β) (q : Fifo M) (id : Nat) (f : M → M)
    (same : ∀ o tag, g ({ o with tag := tag } : CacheObj M) = g o) :
    (q.retag id f).objs.map g = q.objs.map g :=
  map_updateFirst g _ _ (fun o => same o _) _

theorem occupied_insert (q : Fifo M) (r : Request) (tag : M) :
    (q.insert r tag).occupiedByte = q.occupiedByte + (createCacheObj r tag).bytes := rfl

/-! ## How often an id is held -/

def held (q : Fifo M) (id : Nat) : Int := total (copies CacheObj.objId id) q.objs

theorem held_nonneg (q : Fifo M) (id : Nat) : 0 ≤ q.held id := total_copies_nonneg _ _ _

@[simp] theorem held_empty (id : Nat) : (empty : Fifo M).held id = 0 := rfl

@[simp] theorem held_insert (q : Fifo M) (r : Request) (tag : M) (id : Nat) :
    (q.insert r tag).held id = q.held id + if r.objId = id then 1 else 0 := by
  rw [held, objs_insert, total_append, total_cons, total_nil, add_zero]
  rfl

@[simp] theorem held_retag (q : Fifo M) (i : Nat) (f : M → M) (id : Nat) :
    (q.retag i f).held id = q.held id := by
  have same := map_retag (copies CacheObj.objId id) q i f fun _ _ => rfl
  rw [held, held, total, total, same]

theorem held_remove_oldest {q : Fifo M} {o : CacheObj M} (tail : q.toEvict = some o) (id : Nat) :
    (q.remove o.objId).held id = q.held id - if o.objId = id then 1 else 0 :=
  total_remove_oldest _ tail

theorem find_isSome_iff (q : Fifo M) (id : Nat) : (q.find id).isSome = true ↔ 0 < q.held id := by
  rw [held, copies_pos_iff, ← not_iff_not, ← find_eq_none]
  simp

theorem find_none_iff_held (q : Fifo M) (id : Nat) : q.find id = none ↔ q.held id = 0 := by
  have nonneg := q.held_nonneg id
  have found := q.find_isSome_iff id
  cases h : q.find id with
  | none =>
    rw [h] at found
    have absent : ¬ 0 < q.held id := fun positive => absurd (found.mpr positive) (by simp)
    simp only [true_iff]
    omega
  | some o =>
    rw [h] at found
    have present := found.mp rfl
    constructor
    · intro impossible
      cases impossible
    · intro zero
      omega

theorem held_remove (q : Fifo M) (i id : Nat) : (q.remove i).held id =
    q.held id - if i = id ∧ 0 < q.held i then 1 else 0 := by
  cases h : q.find i with
  | none =>
    have absent := (q.find_none_iff_held i).mp h
    rw [remove_of_absent h, if_neg (by omega)]
    ring
  | some o =>
    have present : 0 < q.held i := (q.find_isSome_iff i).mp (by rw [h]; rfl)
    have own := find_objId h
    have taken := total_remove_found (copies CacheObj.objId id) h
    rw [held, taken, copies, own]
    simp only [present, and_true]
    rfl

theorem length_remove_lt {q : Fifo M} {id : Nat} {o : CacheObj M} (found : q.find id = some o) :
    (q.remove id).objs.length < q.objs.length := by
  have fewer := List.length_eraseP_of_mem (find_mem found) (List.find?_some found)
  have positive := List.length_pos_of_mem (find_mem found)
  rw [objs_remove]
  omega

theorem length_le_of_found {q : Fifo M} {ids : List Nat} (nodup : ids.Nodup)
    (found : ∀ id ∈ ids, (q.find id).isSome = true) : ids.length ≤ q.objs.length := by
  have held : ids ⊆ q.objs.map CacheObj.objId := by
    intro id member
    by_contra missing
    have cached := found id member
    rw [find_eq_none.mpr missing] at cached
    cases cached
  have bound := (List.subperm_of_subset nodup held).length_le
  rwa [List.length_map] at bound

/-! ## Tables without duplicates -/

def Distinct (q : Fifo M) : Prop := ∀ id, q.held id ≤ 1

theorem distinct_empty : (empty : Fifo M).Distinct := by
  intro id
  rw [held_empty]
  omega

theorem Distinct.insert {q : Fifo M} (distinct : q.Distinct) {r : Request}
    (absent : q.find r.objId = none) (tag : M) : (q.insert r tag).Distinct := by
  intro id
  have none := (q.find_none_iff_held r.objId).mp absent
  have once := distinct id
  rw [held_insert]
  by_cases same : r.objId = id
  · rw [if_pos same, ← same, none]
    omega
  · rw [if_neg same]
    omega

theorem Distinct.remove {q : Fifo M} (distinct : q.Distinct) (i : Nat) : (q.remove i).Distinct := by
  intro id
  have once := distinct id
  rw [held_remove]
  split <;> omega

theorem Distinct.retag {q : Fifo M} (distinct : q.Distinct) (i : Nat) (f : M → M) :
    (q.retag i f).Distinct := by
  intro id
  rw [held_retag]
  exact distinct id

theorem find_of_mem {q : Fifo M} (distinct : q.Distinct) {o : CacheObj M} (member : o ∈ q.objs) :
    q.find o.objId = some o := by
  have nodup : (q.objs.map CacheObj.objId).Nodup := (nodup_iff_copies _ _).mpr distinct
  cases held : q.find o.objId with
  | none => exact absurd (List.mem_map_of_mem member) (find_eq_none.mp held)
  | some first =>
    have same := List.inj_on_of_nodup_map nodup (find_mem held) member (find_objId held)
    rw [same]

/-! ## Lookups after a change -/

theorem find_insert_of_absent {q : Fifo M} {r : Request} (absent : q.find r.objId = none) (tag : M) :
    (q.insert r tag).find = update q.find r.objId (some (createCacheObj r tag)) := by
  funext id
  by_cases same : id = r.objId
  · subst same
    rw [update_self, find, objs_insert, List.find?_append]
    have before : q.objs.find? (hasId r.objId) = none := absent
    rw [before, Option.none_or]
    exact List.find?_cons_of_pos (by simp)
  · have other : ¬ hasId id (createCacheObj r tag) = true := by
      rw [hasId_iff]
      exact fun own => same own.symm
    rw [update_of_ne same, find, objs_insert, List.find?_append,
      List.find?_cons_of_neg other, List.find?_nil, Option.or_none]
    rfl

theorem find_remove_of_ne {q : Fifo M} {i id : Nat} (other : id ≠ i) :
    (q.remove i).find id = q.find id := by
  have kept : ∀ l : List (CacheObj M), (l.eraseP (hasId i)).find? (hasId id) = l.find? (hasId id) := by
    intro l
    induction l with
    | nil => rfl
    | cons o l ih =>
      by_cases own : hasId i o = true
      · have skipped : ¬ hasId id o = true := by
          rw [hasId_iff] at own ⊢
          exact fun same => other (same.symm.trans own)
        rw [List.eraseP_cons_of_pos own, List.find?_cons_of_neg skipped]
      · rw [List.eraseP_cons_of_neg own, List.find?_cons, List.find?_cons, ih]
  rw [find, objs_remove, kept]
  rfl

theorem find_remove {q : Fifo M} (distinct : q.Distinct) (i : Nat) :
    (q.remove i).find = update q.find i none := by
  funext id
  by_cases same : id = i
  · subst same
    have left := q.held_remove id id
    have nonneg := q.held_nonneg id
    have once := distinct id
    rw [update_self, find_none_iff_held, left]
    by_cases present : 0 < q.held id
    · rw [if_pos ⟨rfl, present⟩]
      omega
    · rw [if_neg fun both => present both.2]
      omega
  · rw [update_of_ne same, find_remove_of_ne same]

theorem find_retag {q : Fifo M} {i : Nat} {o : CacheObj M} (f : M → M) (found : q.find i = some o) :
    (q.retag i f).find = update q.find i (some { o with tag := f o.tag }) := by
  have written : ∀ (l : List (CacheObj M)) id, l.find? (hasId i) = some o →
      (updateFirst (hasId i) (fun o => { o with tag := f o.tag }) l).find? (hasId id) =
        if id = i then some { o with tag := f o.tag } else l.find? (hasId id) := by
    intro l id first
    induction l with
    | nil => cases first
    | cons a l ih =>
      by_cases own : hasId i a = true
      · rw [List.find?_cons_of_pos own] at first
        cases first
        have name := hasId_iff.mp own
        rw [updateFirst, if_pos own]
        by_cases same : id = i
        · rw [if_pos same, List.find?_cons_of_pos (by simp [name, same])]
        · have other : ¬ o.objId = id := fun equal => same (equal.symm.trans name)
          rw [if_neg same, List.find?_cons_of_neg (by simpa using other),
            List.find?_cons_of_neg (by simpa using other)]
      · rw [List.find?_cons_of_neg own] at first
        rw [updateFirst, if_neg own, List.find?_cons, List.find?_cons, ih first]
        by_cases same : id = i
        · subst same
          simp [own]
        · simp [same]
  funext id
  rw [find, retag, written q.objs id found]
  by_cases same : id = i
  · rw [if_pos same, same, update_self]
  · rw [if_neg same, update_of_ne same]
    rfl

end Fifo
end FifoCache
