import CacheEviction.ForwardChains
import Mathlib.Data.Finmap

/-!
# The chained hash table of libCacheSim

`chainedHashTableV2.c`: an array of buckets, each the head of a chain that runs
through the objects' own `hash_next` fields. An insertion first doubles the array if
there are more objects than buckets, and relinks every object in place.

Objects are addresses, and the memory of their `obj_id` and `hash_next` is part of the
state. The bucket array is zeroed, the objects are not external, and the reports on long
chains are left out. A hash power of 64 would need more objects than there are addresses.
-/
namespace ChainedHashTable

open FuelLoops ForwardChains Function

/-- A `cache_obj_t *` that is not `NULL`. -/
abbrev Ptr := Nat

/-- A field of `NULL` is read or written. -/
inductive Fault where
  | nullObj
  deriving DecidableEq

structure Hashtable where
  ptrTable : Nat → Option Ptr
  hashNext : Ptr → Option Ptr
  objId : Ptr → Nat
  nObj : Nat
  hashpower : Nat

def hashsize (n : Nat) : Nat := 2 ^ n

def hashmask (n : Nat) : Nat := hashsize n - 1

/-- `CHAINED_HASHTABLE_EXPAND_THRESHOLD` -/
def expandThreshold : Nat := 1

/-- `create_chained_hashtable_v2`; what the memory holds does not matter. -/
def create (hashNext : Ptr → Option Ptr) (objId : Ptr → Nat) (hashpower : Nat) : Hashtable :=
  ⟨fun _ => none, hashNext, objId, 0, hashpower⟩

section Code

variable (hash : Nat → Nat)

/-- The masked hash value of an id. -/
def bucket (hashpower id : Nat) : Nat := hash id &&& hashmask hashpower

/-- `add_to_bucket` leaves `hash_next` alone if the bucket is empty. -/
def addToBucket (t : Hashtable) (obj : Ptr) : Hashtable :=
  let hv := bucket hash t.hashpower (t.objId obj)
  match t.ptrTable hv with
  | none => { t with ptrTable := Function.update t.ptrTable hv (some obj) }
  | some head => { t with
      hashNext := Function.update t.hashNext obj (some head)
      ptrTable := Function.update t.ptrTable hv (some obj) }

/-- `chained_hashtable_find_obj_id_v2` -/
def findObjId (fuel : Nat) (t : Hashtable) (id : Nat) : Except (Stop Fault) (Option Ptr) :=
  seek t.hashNext (fun obj => t.objId obj = id) fuel (t.ptrTable (bucket hash t.hashpower id))

def relinkRound : Hashtable × Option Ptr →
    Except (Stop Fault) (Round (Hashtable × Option Ptr) Hashtable)
  | (t, none) => .ok (.done t)
  | (t, some cur) => .ok (.again
      (addToBucket hash { t with hashNext := Function.update t.hashNext cur none } cur,
        t.hashNext cur))

/-- The `for` loop over the first buckets of the old array. -/
def relink (fuel : Nat) (oldTable : Nat → Option Ptr) : Nat → Hashtable → Except (Stop Fault) Hashtable
  | 0, t => .ok t
  | i + 1, t => do
    let t ← relink fuel oldTable i t
    loop (relinkRound hash) fuel (t, oldTable i)

/-- `_chained_hashtable_expand_v2` -/
def expand (fuel : Nat) (t : Hashtable) : Except (Stop Fault) Hashtable :=
  relink hash fuel t.ptrTable (hashsize t.hashpower)
    { t with ptrTable := fun _ => none, hashpower := t.hashpower + 1 }

def expandIfFull (fuel : Nat) (t : Hashtable) : Except (Stop Fault) Hashtable :=
  if hashsize t.hashpower * expandThreshold < t.nObj then expand hash fuel t else .ok t

/-- `create_cache_obj_from_request` at the address the allocator gives. -/
def createCacheObj (t : Hashtable) (obj : Ptr) (id : Nat) : Hashtable :=
  { t with hashNext := Function.update t.hashNext obj none, objId := Function.update t.objId obj id }

/-- `chained_hashtable_insert_v2` -/
def insert (fuel : Nat) (t : Hashtable) (obj : Ptr) (id : Nat) : Except (Stop Fault) Hashtable := do
  let t ← expandIfFull hash fuel t
  let t := addToBucket hash (createCacheObj t obj id) obj
  return { t with nObj := t.nObj + 1 }

/-- `ptr_table[hv] = cache_obj->hash_next` -/
def dropFirst (t : Hashtable) (hv : Nat) (obj : Ptr) : Hashtable :=
  { t with ptrTable := Function.update t.ptrTable hv (t.hashNext obj), nObj := t.nObj - 1 }

/-- `cur_obj->hash_next = cache_obj->hash_next` -/
def dropAfter (t : Hashtable) (prev obj : Ptr) : Hashtable :=
  { t with hashNext := Function.update t.hashNext prev (t.hashNext obj), nObj := t.nObj - 1 }

/-- The loop of both deletions by pointer: the object before `obj` in its bucket. -/
def objBefore (fuel : Nat) (t : Hashtable) (hv : Nat) (obj : Ptr) : Except (Stop Fault) (Option Ptr) :=
  seek t.hashNext (fun cur => t.hashNext cur = some obj) fuel (t.ptrTable hv)

/-- `chained_hashtable_delete_v2` -/
def delete (fuel : Nat) (t : Hashtable) (obj : Ptr) : Except (Stop Fault) Hashtable :=
  let hv := bucket hash t.hashpower (t.objId obj)
  if t.ptrTable hv = some obj then .ok (dropFirst t hv obj)
  else do
    match ← objBefore fuel t hv obj with
    | none => .error (.fault .nullObj)
    | some cur => .ok (dropAfter t cur obj)

/-- `chained_hashtable_try_delete_v2` -/
def tryDelete (fuel : Nat) (t : Hashtable) (obj : Ptr) : Except (Stop Fault) (Bool × Hashtable) :=
  let hv := bucket hash t.hashpower (t.objId obj)
  if t.ptrTable hv = some obj then .ok (true, dropFirst t hv obj)
  else do
    match ← objBefore fuel t hv obj with
    | none => .ok (false, t)
    | some cur => .ok (true, dropAfter t cur obj)

/-- `chained_hashtable_delete_obj_id_v2` -/
def deleteObjId (fuel : Nat) (t : Hashtable) (id : Nat) : Except (Stop Fault) (Bool × Hashtable) :=
  let hv := bucket hash t.hashpower id
  match t.ptrTable hv with
  | none => .ok (false, t)
  | some first =>
    if t.objId first = id then .ok (true, dropFirst t hv first)
    else do
      match ← seekAfter t.hashNext (fun obj => t.objId obj = id) fuel first with
      | (_, none) => .ok (false, t)
      | (prev, some cur) => .ok (true, dropAfter t prev cur)

end Code

/-- The calls that change a table. An insertion carries the address of its object. -/
inductive Op where
  | insert (obj : Ptr) (id : Nat)
  | delete (obj : Ptr)
  | tryDelete (obj : Ptr)
  | deleteObjId (id : Nat)

/-- A call, and what it returns if it returns a Boolean. -/
def exec (hash : Nat → Nat) (fuel : Nat) (t : Hashtable) :
    Op → Except (Stop Fault) (Option Bool × Hashtable)
  | .insert obj id => (insert hash fuel t obj id).map fun t => (none, t)
  | .delete obj => (delete hash fuel t obj).map fun t => (none, t)
  | .tryDelete obj => (tryDelete hash fuel t obj).map fun a => (some a.1, a.2)
  | .deleteObjId id => (deleteObjId hash fuel t id).map fun a => (some a.1, a.2)

/-! ## The finite map -/

abbrev Contents := Finmap fun _ : Nat => Ptr

/-- What each call does to the contents. The id of an insertion is absent and its
address is not in use; a deletion by pointer is of an object that is there. -/
inductive Step : Op → Contents → Option Bool → Contents → Prop where
  | insert {m : Contents} {obj : Ptr} {id : Nat} (absent : m.lookup id = none)
      (unused : ∀ i, m.lookup i ≠ some obj) :
      Step (.insert obj id) m none (m.insert id obj)
  | delete {m : Contents} {obj : Ptr} {id : Nat} (present : m.lookup id = some obj) :
      Step (.delete obj) m none (m.erase id)
  | tryDelete {m : Contents} {obj : Ptr} {id : Nat} (present : m.lookup id = some obj) :
      Step (.tryDelete obj) m (some true) (m.erase id)
  | tryDeleteAbsent {m : Contents} {obj : Ptr} (absent : ∀ i, m.lookup i ≠ some obj) :
      Step (.tryDelete obj) m (some false) m
  | deleteObjId {m : Contents} {obj : Ptr} {id : Nat} (present : m.lookup id = some obj) :
      Step (.deleteObjId id) m (some true) (m.erase id)
  | deleteObjIdAbsent {m : Contents} {id : Nat} (absent : m.lookup id = none) :
      Step (.deleteObjId id) m (some false) m

/-! ## Objects in their buckets -/

section Buckets

variable {hash : Nat → Nat} {t u : Hashtable} {P : Ptr → Prop} {obj prev : Ptr} {l p q : List Ptr}

theorem bucket_lt (hash : Nat → Nat) (hashpower id : Nat) :
    bucket hash hashpower id < hashsize hashpower := by
  rw [bucket, hashmask, hashsize, Nat.and_two_pow_sub_one_eq_mod]
  exact Nat.mod_lt _ (Nat.two_pow_pos hashpower)

/-- The chain of bucket `b` has the objects in `P` that hash to it. -/
def ChainOf (hash : Nat → Nat) (t : Hashtable) (P : Ptr → Prop) (b : Nat) (l : List Ptr) : Prop :=
  Walk t.hashNext (t.ptrTable b) l ∧ ∀ x, x ∈ l ↔ P x ∧ bucket hash t.hashpower (t.objId x) = b

/-- The table holds the objects in `P`, each in the bucket of its hash. -/
def Holds (hash : Nat → Nat) (t : Hashtable) (P : Ptr → Prop) : Prop :=
  ∀ b < hashsize t.hashpower, ∃ l, ChainOf hash t P b l

theorem Holds.chain (holds : Holds hash t P) (id : Nat) :
    ∃ l, ChainOf hash t P (bucket hash t.hashpower id) l :=
  holds _ (bucket_lt hash t.hashpower id)

theorem Holds.congr {Q : Ptr → Prop} (holds : Holds hash t P) (same : ∀ x, P x ↔ Q x) :
    Holds hash t Q := by
  intro b small
  obtain ⟨l, walk, members⟩ := holds b small
  refine ⟨l, walk, fun x => ?_⟩
  rw [members, same]

theorem addToBucket_eq (clear : t.hashNext obj = none) : addToBucket hash t obj =
    { t with
      hashNext := update t.hashNext obj
        (t.ptrTable (bucket hash t.hashpower (t.objId obj)))
      ptrTable := update t.ptrTable (bucket hash t.hashpower (t.objId obj)) (some obj) } := by
  rw [addToBucket]
  cases h : t.ptrTable (bucket hash t.hashpower (t.objId obj)) with
  | none =>
    have same : update t.hashNext obj none = t.hashNext := by
      rw [← clear, update_eq_self]
    simp only [same]
  | some head => rfl

theorem Holds.addToBucket (holds : Holds hash t P) (fresh : ¬ P obj) (clear : t.hashNext obj = none) :
    Holds hash (addToBucket hash t obj) fun x => P x ∨ x = obj := by
  rw [addToBucket_eq clear]
  intro b small
  obtain ⟨l, walk, members⟩ := holds b small
  have off : obj ∉ l := fun member => fresh ((members obj).mp member).1
  by_cases own : b = bucket hash t.hashpower (t.objId obj)
  · subst own
    refine ⟨obj :: l, ?_, fun x => ?_⟩
    · simp only [update_self]
      exact walk.push off
    · rw [List.mem_cons, members]
      constructor
      · rintro (rfl | ⟨hx, home⟩)
        · exact ⟨Or.inr rfl, rfl⟩
        · exact ⟨Or.inl hx, home⟩
      · rintro ⟨hx | rfl, home⟩
        · exact Or.inr ⟨hx, home⟩
        · exact Or.inl rfl
  · refine ⟨l, ?_, fun x => ?_⟩
    · simp only [update_of_ne own]
      exact walk.update off _
    · rw [members]
      constructor
      · exact fun h => ⟨Or.inl h.1, h.2⟩
      · rintro ⟨hx | rfl, home⟩
        · exact ⟨hx, home⟩
        · exact absurd home.symm own

theorem mem_without {b : Nat} (members : ∀ x, x ∈ l ↔ P x ∧ bucket hash t.hashpower (t.objId x) = b)
    (off : obj ∉ l) (x : Ptr) :
    x ∈ l ↔ (P x ∧ x ≠ obj) ∧ bucket hash t.hashpower (t.objId x) = b := by
  constructor
  · intro member
    refine ⟨⟨((members x).mp member).1, ?_⟩, ((members x).mp member).2⟩
    rintro rfl
    exact off member
  · rintro ⟨⟨hx, _⟩, home⟩
    exact (members x).mpr ⟨hx, home⟩

theorem ChainOf.mem_cut {b : Nat} (chain : ChainOf hash t P b (p ++ obj :: q)) (x : Ptr) :
    x ∈ p ++ q ↔ (P x ∧ x ≠ obj) ∧ bucket hash t.hashpower (t.objId x) = b := by
  rw [chain.1.mem_without, chain.2]
  tauto

theorem Holds.dropFirst {hv : Nat} (holds : Holds hash t P) (inside : hv < hashsize t.hashpower)
    (first : t.ptrTable hv = some obj) :
    Holds hash (dropFirst t hv obj) fun x => P x ∧ x ≠ obj := by
  obtain ⟨l, chain⟩ := holds hv inside
  obtain ⟨l, rfl⟩ : ∃ m, l = obj :: m := by
    have head := chain.1.start_eq
    rw [first] at head
    exact List.head?_eq_some_iff.mp head.symm
  have home := ((chain.2 obj).mp List.mem_cons_self).2
  intro b small
  by_cases own : b = hv
  · subst own
    refine ⟨l, ?_, ChainOf.mem_cut (t := t) (p := []) chain⟩
    simp only [ChainedHashTable.dropFirst, update_self]
    exact chain.1.2
  · obtain ⟨k, walk, members⟩ := holds b small
    refine ⟨k, ?_, mem_without members fun member => ?_⟩
    · simp only [ChainedHashTable.dropFirst, update_of_ne own]
      exact walk
    · exact own (((members obj).mp member).2.symm.trans home)

theorem Holds.dropAfter {hv : Nat} (holds : Holds hash t P)
    (chain : ChainOf hash t P hv (p ++ prev :: obj :: q)) :
    Holds hash (dropAfter t prev obj) fun x => P x ∧ x ≠ obj := by
  have cut : p ++ prev :: obj :: q = (p ++ [prev]) ++ obj :: q := List.append_cons ..
  have homePrev := ((chain.2 prev).mp (by simp)).2
  have homeObj := ((chain.2 obj).mp (by simp)).2
  intro b small
  by_cases own : b = hv
  · subst own
    refine ⟨p ++ prev :: q, chain.1.unlink, fun x => ?_⟩
    rw [cut] at chain
    rw [List.append_cons]
    exact chain.mem_cut x
  · obtain ⟨k, walk, members⟩ := holds b small
    have offPrev : prev ∉ k := fun member => own (((members prev).mp member).2.symm.trans homePrev)
    have offObj : obj ∉ k := fun member => own (((members obj).mp member).2.symm.trans homeObj)
    exact ⟨k, walk.update offPrev _, mem_without members offObj⟩

/-! ## Growing -/

structure Kept (t u : Hashtable) : Prop where
  objId : u.objId = t.objId
  nObj : u.nObj = t.nObj
  hashpower : u.hashpower = t.hashpower

theorem Kept.refl (t : Hashtable) : Kept t t := ⟨rfl, rfl, rfl⟩

theorem Kept.trans {v : Hashtable} (first : Kept t u) (second : Kept u v) : Kept t v :=
  ⟨second.objId.trans first.objId, second.nObj.trans first.nObj,
    second.hashpower.trans first.hashpower⟩

theorem Holds.writeNext (holds : Holds hash t P) (outside : ¬ P obj) (link : Option Ptr) :
    Holds hash { t with hashNext := update t.hashNext obj link } P := by
  intro b small
  obtain ⟨l, walk, members⟩ := holds b small
  exact ⟨l, walk.update (fun member => outside ((members obj).mp member).1) link, members⟩

theorem relinkRound_moves (holds : Holds hash t P) (outside : ¬ P obj) :
    ∃ u, relinkRound hash (t, some obj) = .ok (.again (u, t.hashNext obj)) ∧
      Holds hash u (fun x => P x ∨ x = obj) ∧ Kept t u ∧
      ∀ x, x ≠ obj → u.hashNext x = t.hashNext x := by
  have clear : update t.hashNext obj none obj = none := update_self ..
  refine ⟨_, rfl, (holds.writeNext outside none).addToBucket outside clear, ?_, ?_⟩
  · rw [addToBucket_eq clear]
    exact ⟨rfl, rfl, rfl⟩
  · intro x other
    rw [addToBucket_eq clear]
    simp only [update_of_ne other]

theorem relink_chain (holds : Holds hash t P) {cur : Option Ptr} (walk : Walk t.hashNext cur l)
    (outside : ∀ x ∈ l, ¬ P x) :
    Ends (fun fuel => loop (relinkRound hash) fuel (t, cur)) fun u =>
      Holds hash u (fun x => P x ∨ x ∈ l) ∧ Kept t u ∧
        ∀ x, x ∉ l → u.hashNext x = t.hashNext x := by
  induction l generalizing t P cur with
  | nil =>
    rw [show cur = none from walk]
    exact ⟨t, .done rfl, holds.congr fun x => by simp, .refl t, fun _ _ => rfl⟩
  | cons obj l ih =>
    have once := (List.nodup_cons.mp walk.nodup).1
    obtain ⟨u, round, held, kept, others⟩ :=
      relinkRound_moves holds (outside obj List.mem_cons_self)
    have onward : Walk u.hashNext (t.hashNext obj) l := walk.2.congr fun x member => by
      refine others x ?_
      rintro rfl
      exact once member
    obtain ⟨v, run, all, kept', others'⟩ := ih held onward fun x member => by
      rintro (hx | rfl)
      · exact outside x (List.mem_cons_of_mem obj member) hx
      · exact once member
    refine ⟨v, ?_, ?_, kept.trans kept', fun x off => ?_⟩
    · rw [walk.1]
      exact run.again round
    · exact all.congr fun x => by rw [List.mem_cons, or_assoc]
    · rw [List.mem_cons, not_or] at off
      rw [others' x off.2, others x off.1]

theorem relink_holds {oldTable : Nat → Option Ptr} {k n : Nat}
    (empty : ∀ b, t.ptrTable b = none)
    (old : ∀ b < n, ∃ l, Walk t.hashNext (oldTable b) l ∧
      ∀ x, x ∈ l ↔ P x ∧ bucket hash k (t.objId x) = b) :
    Ends (fun fuel => relink hash fuel oldTable n t) fun u =>
      Holds hash u (fun x => P x ∧ bucket hash k (t.objId x) < n) ∧ Kept t u ∧
        ∀ x, ¬ bucket hash k (t.objId x) < n → u.hashNext x = t.hashNext x := by
  induction n with
  | zero =>
    refine Ends.const ⟨fun b _ => ⟨[], empty b, fun x => by simp⟩, .refl t, fun _ _ => rfl⟩
  | succ n ih =>
    refine (ih fun b small => old b (by omega)).bind
      (g := fun fuel u => loop (relinkRound hash) fuel (u, oldTable n)) ?_
    rintro u ⟨held, kept, others⟩
    obtain ⟨l, walk, members⟩ := old n (Nat.lt_succ_self n)
    have rest : Walk u.hashNext (oldTable n) l := walk.congr fun x member =>
      others x (by rw [((members x).mp member).2]; omega)
    refine (relink_chain held rest fun x member moved => ?_).mono ?_
    · rw [((members x).mp member).2] at moved
      omega
    · rintro v ⟨all, kept', others'⟩
      refine ⟨all.congr fun x => ?_, kept.trans kept', fun x late => ?_⟩
      · rw [members, Nat.lt_succ_iff_lt_or_eq]
        tauto
      · rw [others' x fun member => late (by rw [((members x).mp member).2]; omega),
          others x (by omega)]

theorem expand_holds (holds : Holds hash t P) :
    Ends (fun fuel => expand hash fuel t) fun u =>
      Holds hash u P ∧ u.objId = t.objId ∧ u.nObj = t.nObj := by
  refine (relink_holds (t := { t with ptrTable := fun _ => none, hashpower := t.hashpower + 1 })
    (k := t.hashpower) (fun _ => rfl) holds).mono ?_
  rintro u ⟨held, kept, _⟩
  refine ⟨held.congr fun x => ?_, kept.objId, kept.nObj⟩
  have inside := bucket_lt hash t.hashpower (t.objId x)
  exact ⟨fun h => h.1, fun h => ⟨h, inside⟩⟩

theorem expandIfFull_holds (holds : Holds hash t P) :
    Ends (fun fuel => expandIfFull hash fuel t) fun u =>
      Holds hash u P ∧ u.objId = t.objId ∧ u.nObj = t.nObj := by
  unfold expandIfFull
  by_cases full : hashsize t.hashpower * expandThreshold < t.nObj
  · simp only [if_pos full]
    exact expand_holds holds
  · simp only [if_neg full]
    exact Ends.const ⟨holds, rfl, rfl⟩

end Buckets

/-! ## Refinement -/

section Refinement

variable {hash : Nat → Nat} {t u : Hashtable} {m m' : Contents} {obj : Ptr} {id : Nat}

def Stored (m : Contents) (obj : Ptr) : Prop := ∃ id, m.lookup id = some obj

structure Represents (hash : Nat → Nat) (t : Hashtable) (m : Contents) : Prop where
  holds : Holds hash t (Stored m)
  ids : ∀ id obj, m.lookup id = some obj → t.objId obj = id
  count : t.nObj = m.keys.card

theorem create_represents (hash : Nat → Nat) (next : Ptr → Option Ptr) (objId : Ptr → Nat)
    (hashpower : Nat) : Represents hash (create next objId hashpower) ∅ where
  holds := fun b _ => ⟨[], rfl, fun x => by simp [Stored]⟩
  ids := by simp
  count := rfl

theorem Represents.find (rep : Represents hash t m) (id : Nat) :
    Yields (fun fuel => findObjId hash fuel t id) (.ok (m.lookup id)) := by
  obtain ⟨l, walk, members⟩ := rep.holds.chain id
  have found : l.find? (fun obj => t.objId obj = id) = m.lookup id := by
    cases h : m.lookup id with
    | none =>
      refine List.find?_eq_none.mpr fun x member => ?_
      obtain ⟨i, stored⟩ := ((members x).mp member).1
      rw [rep.ids i x stored]
      rw [decide_eq_true_eq]
      rintro rfl
      rw [h] at stored
      cases stored
    | some obj =>
      have own := rep.ids id obj h
      have inside : obj ∈ l := (members obj).mpr ⟨⟨id, h⟩, by rw [own]⟩
      cases first : l.find? (fun obj => t.objId obj = id) with
      | none =>
        have passed := List.find?_eq_none.mp first obj inside
        simp [own] at passed
      | some x =>
        obtain ⟨i, stored⟩ := ((members x).mp (List.mem_of_find?_eq_some first)).1
        have same : t.objId x = id := by simpa using List.find?_some first
        rw [rep.ids i x stored] at same
        subst same
        exact (h.symm.trans stored).symm
  rw [← found]
  exact walk.seek _

theorem Represents.erased (rep : Represents hash t m) (present : m.lookup id = some obj)
    (holds : Holds hash u fun x => Stored m x ∧ x ≠ obj) (objId : u.objId = t.objId)
    (count : u.nObj = t.nObj - 1) : Represents hash u (m.erase id) where
  holds := holds.congr fun x => by
    constructor
    · rintro ⟨⟨i, stored⟩, other⟩
      refine ⟨i, ?_⟩
      rw [Finmap.lookup_erase_ne]
      · exact stored
      · rintro rfl
        exact other (Option.some.inj (stored.symm.trans present))
    · rintro ⟨i, stored⟩
      have different : i ≠ id := by
        rintro rfl
        rw [Finmap.lookup_erase] at stored
        cases stored
      rw [Finmap.lookup_erase_ne different] at stored
      refine ⟨⟨i, stored⟩, ?_⟩
      rintro rfl
      exact different ((rep.ids i x stored).symm.trans (rep.ids id x present))
  ids := by
    intro i x stored
    have different : i ≠ id := by
      rintro rfl
      rw [Finmap.lookup_erase] at stored
      cases stored
    rw [Finmap.lookup_erase_ne different] at stored
    rw [objId]
    exact rep.ids i x stored
  count := by
    have member : id ∈ m.keys := Finmap.mem_keys.mpr (Finmap.mem_of_lookup_eq_some present)
    rw [count, rep.count, Finmap.keys_erase, Finset.card_erase_of_mem member]

theorem Represents.inserted (rep : Represents hash t m) (absent : m.lookup id = none)
    (holds : Holds hash u fun x => Stored m x ∨ x = obj)
    (objId : u.objId = update t.objId obj id) (unused : ¬ Stored m obj)
    (count : u.nObj = t.nObj + 1) : Represents hash u (m.insert id obj) where
  holds := holds.congr fun x => by
    constructor
    · rintro (⟨i, stored⟩ | rfl)
      · refine ⟨i, ?_⟩
        rw [Finmap.lookup_insert_of_ne]
        · exact stored
        · rintro rfl
          rw [absent] at stored
          cases stored
      · exact ⟨id, Finmap.lookup_insert m⟩
    · rintro ⟨i, stored⟩
      by_cases same : i = id
      · subst same
        rw [Finmap.lookup_insert] at stored
        exact Or.inr (Option.some.inj stored).symm
      · rw [Finmap.lookup_insert_of_ne m same] at stored
        exact Or.inl ⟨i, stored⟩
  ids := by
    intro i x stored
    rw [objId]
    by_cases same : i = id
    · subst same
      rw [Finmap.lookup_insert] at stored
      cases stored
      exact update_self ..
    · rw [Finmap.lookup_insert_of_ne m same] at stored
      rw [update_of_ne]
      · exact rep.ids i x stored
      · rintro rfl
        exact unused ⟨i, stored⟩
  count := by
    have keys : (m.insert id obj).keys = Insert.insert id m.keys := by
      ext i
      rw [Finmap.mem_keys, Finmap.mem_insert, Finset.mem_insert, Finmap.mem_keys]
    have fresh : id ∉ m.keys := fun member => Finmap.lookup_eq_none.mp absent (Finmap.mem_keys.mp member)
    rw [count, rep.count, keys, Finset.card_insert_of_notMem fresh]

/-! ## The calls -/

theorem Holds.createCacheObj {P : Ptr → Prop} (holds : Holds hash t P) (unused : ¬ P obj) (id : Nat) :
    Holds hash (createCacheObj t obj id) P := by
  intro b small
  obtain ⟨l, walk, members⟩ := holds b small
  have off : obj ∉ l := fun member => unused ((members obj).mp member).1
  refine ⟨l, walk.update off none, fun x => ?_⟩
  by_cases same : x = obj
  · subst same
    exact ⟨fun member => absurd member off, fun h => absurd h.1 unused⟩
  · simp only [ChainedHashTable.createCacheObj, update_of_ne same]
    exact members x

theorem insert_represents (rep : Represents hash t m) (absent : m.lookup id = none)
    (unused : ∀ i, m.lookup i ≠ some obj) :
    Ends (fun fuel => insert hash fuel t obj id) fun u => Represents hash u (m.insert id obj) := by
  have outside : ¬ Stored m obj := fun ⟨i, stored⟩ => unused i stored
  refine (expandIfFull_holds rep.holds).bind (g := fun _ u =>
    .ok { addToBucket hash (createCacheObj u obj id) obj with
      nObj := (addToBucket hash (createCacheObj u obj id) obj).nObj + 1 }) ?_
  rintro u ⟨held, objId, nObj⟩
  have clear : (createCacheObj u obj id).hashNext obj = none := update_self ..
  have added := (held.createCacheObj outside id).addToBucket outside clear
  refine Ends.const ?_
  rw [addToBucket_eq clear] at added ⊢
  refine rep.inserted absent added ?_ outside ?_
  · rw [← objId]
    rfl
  · rw [← nObj]
    rfl

theorem Represents.before (rep : Represents hash t m)
    (later : t.ptrTable (bucket hash t.hashpower (t.objId obj)) ≠ some obj) :
    ∃ r, Yields (fun fuel => objBefore fuel t (bucket hash t.hashpower (t.objId obj)) obj) (.ok r) ∧
      (r = none → ¬ Stored m obj) ∧ ∀ prev ∈ r, Stored m obj ∧
        Holds hash (dropAfter t prev obj) fun x => Stored m x ∧ x ≠ obj := by
  obtain ⟨l, chain⟩ := rep.holds.chain (t.objId obj)
  obtain ⟨cut, missing⟩ := chain.1.find_before obj
  refine ⟨_, chain.1.seek _, fun none stored => ?_, fun prev found => ?_⟩
  · exact later (missing none ((chain.2 obj).mpr ⟨stored, rfl⟩))
  · obtain ⟨p, q, rfl⟩ := cut prev found
    exact ⟨((chain.2 obj).mp (by simp)).1, rep.holds.dropAfter chain⟩

theorem Represents.first (rep : Represents hash t m)
    (first : t.ptrTable (bucket hash t.hashpower id) = some obj) :
    Stored m obj ∧ Holds hash (dropFirst t (bucket hash t.hashpower id) obj)
      fun x => Stored m x ∧ x ≠ obj := by
  obtain ⟨l, chain⟩ := rep.holds.chain id
  have head := chain.1.start_eq
  rw [first] at head
  refine ⟨((chain.2 obj).mp (List.mem_of_mem_head? head.symm)).1, ?_⟩
  exact rep.holds.dropFirst (bucket_lt hash t.hashpower id) first

theorem delete_represents (rep : Represents hash t m) (present : m.lookup id = some obj) :
    Ends (fun fuel => delete hash fuel t obj) fun u => Represents hash u (m.erase id) := by
  unfold delete
  by_cases head : t.ptrTable (bucket hash t.hashpower (t.objId obj)) = some obj
  · simp only [if_pos head]
    exact Ends.const (rep.erased present (rep.first head).2 rfl rfl)
  · simp only [if_neg head]
    obtain ⟨r, sought, missing, found⟩ := rep.before head
    cases r with
    | none => exact absurd ⟨id, present⟩ (missing rfl)
    | some prev =>
      obtain ⟨-, held⟩ := found prev rfl
      exact ⟨_, sought.bind (.const _), rep.erased present held rfl rfl⟩

theorem tryDelete_represents (rep : Represents hash t m) (present : m.lookup id = some obj) :
    Ends (fun fuel => tryDelete hash fuel t obj) fun a =>
      a.1 = true ∧ Represents hash a.2 (m.erase id) := by
  unfold tryDelete
  by_cases head : t.ptrTable (bucket hash t.hashpower (t.objId obj)) = some obj
  · simp only [if_pos head]
    exact Ends.const ⟨rfl, rep.erased present (rep.first head).2 rfl rfl⟩
  · simp only [if_neg head]
    obtain ⟨r, sought, missing, found⟩ := rep.before head
    cases r with
    | none => exact absurd ⟨id, present⟩ (missing rfl)
    | some prev =>
      obtain ⟨-, held⟩ := found prev rfl
      exact ⟨_, sought.bind (.const _), rfl, rep.erased present held rfl rfl⟩

theorem tryDelete_absent (rep : Represents hash t m) (absent : ¬ Stored m obj) :
    Yields (fun fuel => tryDelete hash fuel t obj) (.ok (false, t)) := by
  unfold tryDelete
  have head : t.ptrTable (bucket hash t.hashpower (t.objId obj)) ≠ some obj :=
    fun first => absent (rep.first first).1
  simp only [if_neg head]
  obtain ⟨r, sought, -, found⟩ := rep.before head
  cases r with
  | none => exact sought.bind (.const _)
  | some prev => exact absurd (found prev rfl).1 absent

theorem Represents.lookup_objId (rep : Represents hash t m) (stored : Stored m obj) :
    m.lookup (t.objId obj) = some obj := by
  obtain ⟨i, found⟩ := stored
  rw [rep.ids i obj found]
  exact found

theorem Represents.lookup_none (rep : Represents hash t m) {l : List Ptr}
    (chain : ChainOf hash t (Stored m) (bucket hash t.hashpower id) l)
    (none : ∀ x ∈ l, t.objId x ≠ id) : m.lookup id = .none := by
  cases h : m.lookup id with
  | none => rfl
  | some obj =>
    have own := rep.ids id obj h
    have inside : obj ∈ l := (chain.2 obj).mpr ⟨⟨id, h⟩, by rw [own]⟩
    exact absurd own (none obj inside)

theorem deleteObjId_represents (rep : Represents hash t m) (id : Nat) :
    Ends (fun fuel => deleteObjId hash fuel t id) fun a =>
      (a.1 = true ∧ (∃ obj, m.lookup id = some obj) ∧ Represents hash a.2 (m.erase id)) ∨
        (a.1 = false ∧ m.lookup id = none ∧ a.2 = t) := by
  obtain ⟨l, chain⟩ := rep.holds.chain id
  have head := chain.1.start_eq
  unfold deleteObjId
  cases l with
  | nil =>
    rw [List.head?_nil] at head
    simp only [head]
    exact Ends.const (Or.inr ⟨rfl, rep.lookup_none chain nofun, rfl⟩)
  | cons first l =>
    rw [List.head?_cons] at head
    simp only [head]
    by_cases own : t.objId first = id
    · simp only [if_pos own]
      obtain ⟨stored, held⟩ := rep.first head
      have present := rep.lookup_objId stored
      rw [own] at present
      exact Ends.const (Or.inl ⟨rfl, ⟨first, present⟩, rep.erased present held rfl rfl⟩)
    · simp only [if_neg own]
      obtain ⟨⟨prev, cur⟩, sought, found, cut⟩ :=
        chain.1.2.seekAfter (ε := Fault) (fun obj => t.objId obj = id)
      dsimp only at found cut
      cases cur with
      | none =>
        refine ⟨_, sought.bind (.const _), Or.inr ⟨rfl, rep.lookup_none chain ?_, rfl⟩⟩
        intro x member
        rcases List.mem_cons.mp member with rfl | later
        · exact own
        · simpa using List.find?_eq_none.mp found.symm x later
      | some cur =>
        obtain ⟨p, q, split⟩ := cut cur rfl
        have same : t.objId cur = id := by simpa using List.find?_some found.symm
        rw [split] at chain
        have present := rep.lookup_objId ((chain.2 cur).mp (by simp)).1
        rw [same] at present
        exact ⟨_, sought.bind (.const _), Or.inl ⟨rfl, ⟨cur, present⟩,
          rep.erased present (rep.holds.dropAfter chain) rfl rfl⟩⟩

/-! ## Runs -/

theorem exec_step {op : Op} {answer : Option Bool} (rep : Represents hash t m)
    (step : Step op m answer m') :
    Ends (fun fuel => exec hash fuel t op) fun a => a.1 = answer ∧ Represents hash a.2 m' := by
  cases step with
  | insert absent unused =>
    exact (insert_represents rep absent unused).map _ fun u next => ⟨rfl, next⟩
  | delete present => exact (delete_represents rep present).map _ fun u next => ⟨rfl, next⟩
  | tryDelete present =>
    refine (tryDelete_represents rep present).map _ ?_
    rintro ⟨b, u⟩ ⟨rfl, next⟩
    exact ⟨rfl, next⟩
  | tryDeleteAbsent absent =>
    have run : Ends (fun fuel => tryDelete hash fuel t _) (· = (false, t)) :=
      ⟨_, tryDelete_absent rep fun ⟨i, stored⟩ => absent i stored, rfl⟩
    refine run.map _ ?_
    rintro a rfl
    exact ⟨rfl, rep⟩
  | deleteObjId present =>
    refine (deleteObjId_represents rep _).map _ ?_
    rintro ⟨b, u⟩ (⟨rfl, -, next⟩ | ⟨-, absent, -⟩)
    · exact ⟨rfl, next⟩
    · rw [absent] at present
      cases present
  | deleteObjIdAbsent absent =>
    refine (deleteObjId_represents rep _).map _ ?_
    rintro ⟨b, u⟩ (⟨-, ⟨obj, present⟩, -⟩ | ⟨rfl, -, rfl⟩)
    · rw [absent] at present
      cases present
    · exact ⟨rfl, rep⟩

def execAll (hash : Nat → Nat) (fuel : Nat) (t : Hashtable) :
    List Op → Except (Stop Fault) (List (Option Bool) × Hashtable)
  | [] => .ok ([], t)
  | op :: ops => do
    let (answer, t) ← exec hash fuel t op
    let (answers, t) ← execAll hash fuel t ops
    return (answer :: answers, t)

inductive Steps : List Op → Contents → List (Option Bool) → Contents → Prop where
  | nil (m : Contents) : Steps [] m [] m
  | cons {op : Op} {ops : List Op} {m m' m'' : Contents} {answer : Option Bool}
      {answers : List (Option Bool)} (first : Step op m answer m') (rest : Steps ops m' answers m'') :
      Steps (op :: ops) m (answer :: answers) m''

theorem execAll_steps {ops : List Op} {answers : List (Option Bool)} (rep : Represents hash t m)
    (steps : Steps ops m answers m') :
    Ends (fun fuel => execAll hash fuel t ops) fun a => a.1 = answers ∧ Represents hash a.2 m' := by
  induction steps generalizing t with
  | nil m => exact Ends.const ⟨rfl, rep⟩
  | cons first rest ih =>
    refine (exec_step rep first).bind (g := fun fuel a => do
      let b ← execAll hash fuel a.2 _
      return (a.1 :: b.1, b.2)) ?_
    rintro ⟨answer, u⟩ ⟨rfl, next⟩
    refine (ih next).bind (g := fun _ b => return (answer :: b.1, b.2)) ?_
    rintro ⟨answers, v⟩ ⟨rfl, last⟩
    exact Ends.const ⟨rfl, last⟩

/-- From an empty table on every sequence of calls returns what the finite map gives.
Afterwards a lookup returns the object that the map has, `n_obj` is their number, and
the buckets hold exactly the stored objects, each in the bucket of its hash. -/
theorem hashtable_refines_map (hash : Nat → Nat) (next : Ptr → Option Ptr) (objId : Ptr → Nat)
    (hashpower : Nat) {ops : List Op} {answers : List (Option Bool)} {m : Contents}
    (steps : Steps ops ∅ answers m) :
    ∃ t, Yields (fun fuel => execAll hash fuel (create next objId hashpower) ops) (.ok (answers, t)) ∧
      (∀ id, Yields (fun fuel => findObjId hash fuel t id) (.ok (m.lookup id))) ∧
      t.nObj = m.keys.card ∧
      ∀ b < hashsize t.hashpower, ∃ l, Walk t.hashNext (t.ptrTable b) l ∧
        ∀ obj, obj ∈ l ↔ m.lookup (t.objId obj) = some obj ∧
          bucket hash t.hashpower (t.objId obj) = b := by
  obtain ⟨⟨_, t⟩, run, rfl, rep⟩ :=
    execAll_steps (create_represents hash next objId hashpower) steps
  refine ⟨t, run, rep.find, rep.count, fun b small => ?_⟩
  obtain ⟨l, walk, members⟩ := rep.holds b small
  refine ⟨l, walk, fun obj => ?_⟩
  rw [members]
  exact ⟨fun h => ⟨rep.lookup_objId h.1, h.2⟩, fun h => ⟨⟨_, h.1⟩, h.2⟩⟩

theorem hashtable_refines_map_two :
    Steps [.insert 64 1, .tryDelete 64] ∅ [none, some true] ((Finmap.insert 1 64 ∅).erase 1) ∧
    ∃ t, Yields (fun fuel => execAll (· * 3) fuel (create (fun _ => none) (fun _ => 0) 1)
        [.insert 64 1, .tryDelete 64]) (.ok ([none, some true], t)) ∧
      (∀ id, Yields (fun fuel => findObjId (· * 3) fuel t id)
        (.ok (((Finmap.insert 1 64 ∅ : Contents).erase 1).lookup id))) ∧
      t.nObj = ((Finmap.insert 1 64 ∅ : Contents).erase 1).keys.card ∧
      ∀ b < hashsize t.hashpower, ∃ l, Walk t.hashNext (t.ptrTable b) l ∧
        ∀ obj, obj ∈ l ↔ ((Finmap.insert 1 64 ∅ : Contents).erase 1).lookup (t.objId obj) = some obj ∧
          bucket (· * 3) t.hashpower (t.objId obj) = b :=
  have steps : Steps [.insert 64 1, .tryDelete 64] ∅ [none, some true]
      ((Finmap.insert 1 64 ∅).erase 1) :=
    .cons (.insert rfl nofun) (.cons (.tryDelete (Finmap.lookup_insert _)) (.nil _))
  ⟨steps, hashtable_refines_map _ _ _ _ steps⟩

end Refinement

end ChainedHashTable
