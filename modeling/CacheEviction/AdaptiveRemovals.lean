import CacheEviction.ArcPolicy
import CacheEviction.CarPolicy

/-!
# Removals by the user

`ARC_remove`, `CAR_remove` and `ARCfix_remove` are the same function. It takes objects
and ghosts out of their lists, but calls `cache_remove_obj_base`, and with it
`hashtable_delete`, for an object only: a ghost that is removed stays in the table and
is in no list. The lookup that does not update the cache reads the `ghost` field of what
the table returns before it asks whether the table returned anything. And the size
fields grow by the 64-bit size of the request while an object keeps 32 bits of it.

Without the three the lists survive every sequence of calls.
-/
namespace AdaptiveLists

open FuelLoops FifoCache CacheGet StepTraces WeightedLists

variable {M : Type}
variable {v : Variant M} {p : Policy (State M) Fault} {c : Nat} {s : State M}

def State.isGhost (s : State M) (id : Nat) : Bool := (s.table id).any Entry.ghost

def State.cached (s : State M) (id : Nat) : Bool := (s.table id).any fun e => !e.ghost

/-- `ARC_remove`. The size field and the list are those that `lru_id` and `ghost`
name. -/
def remove (s : State M) (id : Nat) : Bool × State M :=
  match s.table id with
  | none => (false, s)
  | some e =>
    if e.ghost then (true, s.unlink e.place id e.bytes)
    else (true, { s with occupiedByte := s.occupiedByte - e.bytes }.discard e.place id e)

inductive LookupFault where
  | nullObject
  deriving DecidableEq

/-- `ARC_find` without `update_cache`: the object, or null. -/
def findOnly (s : State M) (id : Nat) : Except LookupFault (Option (Entry M)) :=
  match s.table id with
  | none => .error .nullObject
  | some e => .ok (if e.ghost then none else some e)

/-! ## What the calls promise -/

/-- Every object of the table is in the list that it names and in no other, the lists
have no other objects, and the size fields are the bytes of the lists. -/
structure Consistent (s : State M) : Prop where
  listed : ∀ id e, s.table id = some e → ∀ place,
    (s.lists place).count id = if place = e.place then 1 else 0
  stored : ∀ place, ∀ id ∈ s.lists place, ∃ e, s.table id = some e ∧ e.place = place
  size : ∀ place, s.sizes place = total s.weight (s.lists place)
  nonneg : ∀ place, 0 ≤ s.sizes place

/-- The lookup returns the object if it is in a data list, and null otherwise. -/
def FindsRight (find : State M → Nat → Except LookupFault (Option (Entry M))) (s : State M)
    (id : Nat) : Prop :=
  find s id = .ok (if id ∈ s.lists .l1Data ∨ id ∈ s.lists .l2Data then s.table id else none)

/-- The request stores no object of 2 ^ 32 bytes or more: it is smaller, or it does not
fit into the cache, or its object is cached already. -/
def Narrow (c : Nat) (s : State M) (r : Request) : Prop :=
  r.objSize < 2 ^ 32 ∨ c < r.objSize ∨ s.cached r.objId = true

/-- One call of the user: a request that stores no object too large for its size
field, or a removal that does not name a ghost. -/
inductive Called (p : Policy (State M) Fault) (remove : State M → Nat → Bool × State M) (c : Nat) :
    State M → State M → Prop where
  | get {s t : State M} {hit : Bool} (r : Request) (positive : 1 ≤ r.objSize)
      (narrow : Narrow c s r) (served : Serves p s r hit t) : Called p remove c s t
  | remove {s : State M} (id : Nat) (known : s.isGhost id = false) :
      Called p remove c s (remove s id).2

/-- In every state that such calls reach the lists and the table agree; a further
call leaves them in agreement if and only if it is such a call, and a lookup answers
if and only if the table has its id. -/
structure Survives (p : Policy (State M) Fault) (remove : State M → Nat → Bool × State M)
    (find : State M → Nat → Except LookupFault (Option (Entry M))) (c : Nat) (origin : State M) :
    Prop where
  agrees : ∀ {s}, Reachable (Called p remove c) origin s → Consistent s
  gets : ∀ {s}, Reachable (Called p remove c) origin s → ∀ r : Request, 1 ≤ r.objSize →
    ∃ hit t, Serves p s r hit t ∧ (Consistent t ↔ Narrow c s r)
  removes : ∀ {s}, Reachable (Called p remove c) origin s → ∀ id,
    (Consistent (remove s id).2 ↔ s.isGhost id = false)
  finds : ∀ {s}, Reachable (Called p remove c) origin s → ∀ id,
    (FindsRight find s id ↔ (s.table id).isSome = true)

/-! ## Single calls -/

section Calls

variable {c : Nat} {s : State M} {id : Nat} {e : Entry M} {r : Request}

theorem Sound.consistent (sound : Sound s) : Consistent s where
  listed id e found place := by
    rw [sound.weighed.listed, found]
    simp only [Option.map_some, Option.some.injEq]
    exact if_congr eq_comm rfl rfl
  stored place id member := sound.weighed.listed.mem_iff.mp member
  size := sound.weighed.size
  nonneg := sound.weighed.size_nonneg

theorem remove_ghost_inconsistent (sound : Sound s) (found : s.table id = some e)
    (ghost : e.ghost = true) : ¬ Consistent (remove s id).2 := by
  intro consistent
  have after : (remove s id).2 = s.unlink e.place id e.bytes := by
    rw [remove, found]
    simp only [ghost, if_true]
  rw [after] at consistent
  have count := consistent.listed id e found e.place
  have before := sound.consistent.listed id e found e.place
  rw [if_pos rfl] at count before
  simp only [State.unlink, Function.update_self, List.count_erase_self, before] at count
  cases count

theorem remove_sound (sound : Sound s) (known : s.isGhost id = false) : Sound (remove s id).2 := by
  rw [remove]
  cases found : s.table id with
  | none => exact sound
  | some e =>
    rw [State.isGhost, found] at known
    have data : e.ghost = false := known
    simp only [data, Bool.false_eq_true, if_false]
    exact sound.release found data

theorem remove_consistent_iff (sound : Sound s) (id : Nat) :
    Consistent (remove s id).2 ↔ s.isGhost id = false := by
  constructor
  · intro consistent
    rw [State.isGhost]
    cases found : s.table id with
    | none => rfl
    | some e =>
      cases ghost : e.ghost with
      | true => exact absurd consistent (remove_ghost_inconsistent sound found ghost)
      | false => exact ghost
  · intro known
    exact (remove_sound sound known).consistent

theorem findsRight_iff (sound : Sound s) (id : Nat) :
    FindsRight findOnly s id ↔ (s.table id).isSome = true := by
  simp only [FindsRight, findOnly, sound.weighed.listed.mem_iff]
  cases found : s.table id with
  | none => simp
  | some e => rcases e with ⟨size, _ | _, _ | _, tag⟩ <;> simp [Entry.place]

theorem Inserted.narrow {t : State M} (h : Inserted v s r t) (sound : Sound s)
    (absent : s.table r.objId = none) (consistent : Consistent t) : r.objSize < 2 ^ 32 := by
  have size := consistent.size (created v s r).place
  have own : t.weight r.objId = (created v s r).bytes :=
    State.weight_of_found (by rw [h.table, Function.update_self])
  have others : total t.weight (s.lists (created v s r).place) =
      total s.weight (s.lists (created v s r).place) := by
    have stored : t.weight = (s.store r.objId (some (created v s r))).weight := by
      funext i
      rw [State.weight, h.table]
      rfl
    rw [stored]
    exact total_weight_store s _ (sound.weighed.listed.not_mem_of_absent absent)
  rw [h.sizes, h.lists, Function.update_self, Function.update_self, total_append, total_cons,
    total_nil, own, others, sound.weighed.size] at size
  have low : (created v s r).bytes = ((r.objSize % 2 ^ 32 : Nat) : Int) := by
    show ((UInt32.ofNat r.objSize).toNat : Int) = _
    rw [UInt32.toNat_ofNat']
  have bound := Nat.mod_lt r.objSize (show 0 < 2 ^ 32 by decide)
  omega

end Calls

/-! ## Requests -/

/-- What the functions of a policy do to the lists, with objects of any size. -/
structure SoundCalls (p : Policy (State M) Fault) (v : Variant M) (c : Nat) : Prop where
  cacheSize : p.cacheSize = c
  occupiedByte : ∀ s, p.occupiedByte s = s.occupiedByte
  tick : ∀ {s}, Sound s → Sound (p.tick s)
  tick_table : ∀ s, (p.tick s).table = s.table
  find : ∀ {s}, Sound s → ∀ r, ∃ hit t, p.find s r = .ok (hit, t) ∧ Sound t ∧
    hit = s.cached r.objId ∧ (hit = false → t.table r.objId = none)
  canInsert : ∀ n s r, p.canInsert n s r = .ok (decide (r.objSize ≤ c), s)
  evict : ∀ {s r}, Sound s → r.objSize ≤ c → (c : Int) < s.occupiedByte + r.objSize →
    Ends (fun n => p.evict n s r) fun t => Sound t ∧
      (∀ id, s.table id = none → t.table id = none) ∧ roomSize t < roomSize s
  insert : ∀ s r, p.insert s r = insert v s r

/-- While a request for an object that is not cached makes room. -/
structure Making (c : Nat) (s : State M) (r : Request) (t : State M) : Prop where
  sound : Sound t
  absent : t.table r.objId = none
  missed : s.cached r.objId = false
  fits : r.objSize ≤ c

theorem SoundCalls.serve (calls : SoundCalls p v c) (sound : Sound s) {r : Request}
    (positive : 1 ≤ r.objSize) : Ends (fun n => cacheGetBase p n s r)
      fun a => (Narrow c s r → Sound a.2) ∧ (Consistent a.2 → Narrow c s r) := by
  refine cacheGetBase_ends (Q := fun _ t => (Narrow c s r → Sound t) ∧ (Consistent t → Narrow c s r))
    (fun t => Sound t ∧ t.table r.objId = none ∧ s.cached r.objId = false) (Making c s r) roomSize
    ?_ ?_ ?_ ?_
  · obtain ⟨hit, t, found, sound', answer, missed⟩ := calls.find (calls.tick sound) r
    rw [State.cached, calls.tick_table] at answer
    refine ⟨hit, t, found, ?_⟩
    cases hit with
    | true => exact ⟨fun _ => sound', fun _ => .inr (.inr answer.symm)⟩
    | false => exact ⟨sound', missed rfl, answer.symm⟩
  · rintro t ⟨sound', absent, missed⟩
    simp only [calls.canInsert]
    refine Ends.const ?_
    by_cases fits : r.objSize ≤ c
    · simp only [fits, decide_true, if_true]
      exact ⟨sound', absent, missed, fits⟩
    · simp only [fits, decide_false, Bool.false_eq_true, if_false]
      exact ⟨fun _ => sound', fun _ => .inr (.inl (Nat.lt_of_not_le fits))⟩
  · intro u making full
    rw [calls.cacheSize, calls.occupiedByte] at full
    refine (calls.evict making.sound making.fits full).mono ?_
    rintro t ⟨sound', absent, less⟩
    exact ⟨⟨sound', absent _ making.absent, making.missed, making.fits⟩, less⟩
  · intro u making _
    obtain ⟨t, run, inserted⟩ := insert_inserted (v := v) making.absent
    refine ⟨t, by rw [calls.insert, run], ?_, ?_⟩
    · rintro (narrow | wide | cached)
      · exact inserted.sound making.sound making.absent positive narrow
      · have fits := making.fits
        omega
      · rw [making.missed] at cached
        cases cached
    · intro consistent
      exact .inl (inserted.narrow making.sound making.absent consistent)

theorem SoundCalls.reachable (calls : SoundCalls p v c) {origin : State M}
    (initially : Sound origin) (history : Reachable (Called p remove c) origin s) : Sound s := by
  refine history.invariant Sound initially ?_
  intro s t sound called
  cases called with
  | get r positive narrow served => exact ((calls.serve sound positive).result served).1 narrow
  | remove id known => exact remove_sound sound known

theorem SoundCalls.survives (calls : SoundCalls p v c) {origin : State M} (initially : Sound origin) :
    Survives p remove findOnly c origin where
  agrees history := (calls.reachable initially history).consistent
  gets {s} history r positive := by
    obtain ⟨⟨hit, t⟩, served, after⟩ :=
      calls.serve (calls.reachable initially history) positive
    exact ⟨hit, t, served, after.2, fun narrow => (after.1 narrow).consistent⟩
  removes history id := remove_consistent_iff (calls.reachable initially history) id
  finds history id := findsRight_iff (calls.reachable initially history) id

/-! ## The three policies -/

theorem find_sound (careful : v.Careful) (sound : Sound s) (r : Request) :
    ∃ hit t, find v c s r = .ok (hit, t) ∧ Sound t ∧ hit = s.cached r.objId ∧
      (hit = false → t.table r.objId = none) := by
  cases found : s.table r.objId with
  | none =>
    refine ⟨false, s, ?_, sound, ?_, fun _ => found⟩
    · rw [find, found]
    · rw [State.cached, found]
      rfl
  | some e =>
    let u : State M := { s with currObjInL1Ghost := false, currObjInL2Ghost := false }
    have clear : Sound u := sound.congr rfl rfl rfl rfl
    have answer : s.cached r.objId = !e.ghost := by
      rw [State.cached, found]
      rfl
    cases ghost : e.ghost with
    | true =>
      obtain ⟨t, run, revived⟩ := ghostHit_revived (c := c) clear found ghost
      refine ⟨false, t, ?_, revived.sound, ?_, fun _ => revived.absent⟩
      · rw [find, found]
        simp only [ghost, if_true]
        exact map_eq_ok.mpr ⟨t, run, rfl⟩
      · rw [answer, ghost]
        rfl
    | false =>
      refine ⟨true, v.onHit u r.objId e, ?_, (careful.onHit clear found ghost).sound, ?_, ?_⟩
      · rw [find, found]
        simp only [ghost, Bool.false_eq_true, if_false]
        rfl
      · rw [answer, ghost]
        rfl
      · rintro ⟨⟩

theorem policy_calls (careful : v.Careful) (c : Nat) : SoundCalls (policy v c) v c where
  cacheSize := rfl
  occupiedByte _ := rfl
  tick sound := sound.congr rfl rfl rfl rfl
  tick_table _ := rfl
  find sound r := find_sound careful sound r
  canInsert _ _ _ := rfl
  evict sound fits full := (evict_sound careful sound fits full).mono
    fun _ ⟨sound', kept, less⟩ => ⟨sound', kept.same.absent, less⟩
  insert _ _ := rfl

end AdaptiveLists

namespace Arc

open AdaptiveLists

def arcRemove : State Unit → Nat → Bool × State Unit := remove

def arcFindOnly : State Unit → Nat → Except LookupFault (Option (Entry Unit)) := findOnly

end Arc

namespace Car

open AdaptiveLists

def carRemove : State Bool → Nat → Bool × State Bool := remove

def carFindOnly : State Bool → Nat → Except LookupFault (Option (Entry Bool)) := findOnly

end Car

namespace Arcfix

open AdaptiveLists FuelLoops FifoCache CacheGet

def arcfixRemove : State Unit → Nat → Bool × State Unit := remove

def arcfixFindOnly : State Unit → Nat → Except LookupFault (Option (Entry Unit)) := findOnly

theorem arcfix_calls (c : Nat) : SoundCalls (arcfix c) Arc.variant c where
  cacheSize := rfl
  occupiedByte _ := rfl
  tick sound := sound.congr rfl rfl rfl rfl
  tick_table _ := rfl
  find {s} sound r := by
    obtain ⟨hit, t, run, sound', answer, missed⟩ := find_sound (c := c) Arc.careful sound r
    refine ⟨hit, { t with p := s.p }, ?_, sound'.congr rfl rfl rfl rfl, answer, missed⟩
    show arcfixFind s r = _
    rw [arcfixFind_eq c, Arc.arcFind, run]
    rfl
  canInsert _ _ _ := rfl
  evict {s r} sound fits full := by
    rw [← scaleTarget_occupiedByte] at full
    refine (evict_sound Arc.careful (scaleTarget_sound sound) fits full).mono ?_
    rintro t ⟨sound', kept, less⟩
    refine ⟨sound', fun id missing => kept.same.absent id (by rw [scaleTarget_table]; exact missing), ?_⟩
    simpa [roomSize, State.data] using less
  insert _ _ := rfl

end Arcfix

namespace AdaptiveLists

open FuelLoops FifoCache CacheGet StepTraces

/-- ARC, CAR and ARCfix survive every sequence of calls in which no request stores an
object of 2 ^ 32 bytes or more and no removal names a ghost. The first call that does
breaks the agreement of lists and table. Their lookups answer for the ids of the table
only. -/
theorem removals_survived_iff (c : Nat) :
    Survives (Arc.arc c) Arc.arcRemove Arc.arcFindOnly c State.init ∧
    Survives (Car.car c) Car.carRemove Car.carFindOnly c State.init ∧
    ∀ p, Survives (Arcfix.arcfix c) Arcfix.arcfixRemove Arcfix.arcfixFindOnly c (Arcfix.arcfixInit p) := by
  refine ⟨(policy_calls Arc.careful c).survives .init, (policy_calls Car.careful c).survives .init, ?_⟩
  intro p
  have initially : Sound (Arcfix.arcfixInit p) := Sound.init.congr rfl rfl rfl rfl
  exact (Arcfix.arcfix_calls c).survives initially

/-- Object 2 is a ghost of `L1` when it is removed. It stays in the table, is in no
list, and the next request for it fails the assertion of a hit on a ghost. Object 9 has
never been requested, and a lookup of it reads a null object. -/
theorem removed_ghost_stays : ∃ s, Reachable (Called (Arc.arc 2) Arc.arcRemove 2) State.init s ∧
    2 ∈ s.lists .l1Ghost ∧ ((Arc.arcRemove s 2).2.table 2).isSome = true ∧
    (∀ place, 2 ∉ (Arc.arcRemove s 2).2.lists place) ∧ ¬ Consistent (Arc.arcRemove s 2).2 ∧
    (∀ fuel, cacheGetBase (Arc.arc 2) fuel (Arc.arcRemove s 2).2 ⟨2, 1⟩ =
      .error (.fault .assertFailed)) ∧
    Arc.arcFindOnly s 9 = .error .nullObject := by
  have returns : Returns (serveAll (Arc.arc 2) 5 State.init [⟨1, 1⟩, ⟨1, 1⟩, ⟨2, 1⟩, ⟨3, 1⟩])
      (fun s => decide (s.lists .l1Ghost = [2] ∧ s.lists .l1Data = [3] ∧ s.lists .l2Data = [1] ∧
        s.lists .l2Ghost = [] ∧ s.sizes .l1Ghost = 1 ∧ (s.table 9).isNone = true ∧
        (s.table 2).map (fun e => (e.objSize, e.lruId, e.ghost)) = some (1, .one, true))) = true := by
    decide +kernel
  obtain ⟨s, run, state⟩ := exists_of_returns returns
  obtain ⟨l1Ghost, l1Data, l2Data, l2Ghost, size, missing, entry⟩ := of_decide_eq_true state
  have requested : Reachable (Requested (Arc.arc 2) fun r => r.objSize = 1) State.init s :=
    serveAll_reachable (Arc.arcGet_mono 2) (by decide) .refl run
  have history : Reachable (Called (Arc.arc 2) Arc.arcRemove 2) State.init s := by
    refine requested.invariant (Reachable (Called (Arc.arc 2) Arc.arcRemove 2) State.init) .refl ?_
    rintro a b earlier ⟨r, one, served⟩
    exact earlier.next (.get r one.ge (.inl (by omega)) served)
  obtain ⟨⟨bytes, lru, ghost, tag⟩, found, fields⟩ := Option.map_eq_some_iff.mp entry
  cases fields
  have after : (Arc.arcRemove s 2).2 = s.unlink .l1Ghost 2 1 := by
    rw [Arc.arcRemove, remove, found]
    rfl
  refine ⟨s, history, ?_, ?_, ?_, ?_, ?_, ?_⟩
  · rw [l1Ghost]
    exact List.mem_cons_self
  · rw [after]
    show (s.table 2).isSome = true
    rw [found]
    rfl
  · intro place
    rw [after]
    cases place <;> simp [State.unlink, l1Ghost, l1Data, l2Data, l2Ghost]
  · have sound := (policy_calls Arc.careful 2).reachable .init history
    exact remove_ghost_inconsistent sound found rfl
  · intro fuel
    have lookup : Arc.arcFind 2 { s.unlink .l1Ghost 2 1 with nReq := s.nReq + 1 } ⟨2, 1⟩ =
        .error (.fault .assertFailed) := by
      simp only [Arc.arcFind, find, State.unlink, found, if_true, ghostHit, Function.update_self, size]
      rfl
    rw [after]
    simp only [cacheGetBase]
    show (Arc.arcFind 2 { s.unlink .l1Ghost 2 1 with nReq := s.nReq + 1 } ⟨2, 1⟩ >>= _) = _
    rw [lookup]
    rfl
  · rw [Arc.arcFindOnly, findOnly, Option.isNone_iff_eq_none.mp missing]

end AdaptiveLists
