import CacheEviction.ClockOrder
import CacheEviction.LruRuns

/-!
# Sieve

`Sieve.c`: a queue whose objects carry a frequency, and a hand that goes from the tail to
the head and around. `Sieve_evict` takes one off every frequency it passes and evicts the
first object that has none; `Sieve_to_evict` looks for it without a write, with a rising
bound on the frequency. The queue stands tail first, so that `queue.prev` of an object is
the next one in the list.
-/
namespace Sieve

open FuelLoops FifoCache CacheGet StepTraces ClockOrder WeightedLists
open LruRuns (resident resident_insert resident_remove)

/-- The tag is `sieve.freq`. -/
structure State where
  q : Fifo Nat
  pointer : Option Nat

def init : State := ⟨.empty, none⟩

def tail (q : Fifo Nat) : Option Nat := q.toEvict.map CacheObj.objId

def onward (q : Fifo Nat) (id : Nat) : List (CacheObj Nat) := q.objs.dropWhile fun o => !hasId id o

def prev (q : Fifo Nat) (id : Nat) : Option Nat := (onward q id).tail.head?.map CacheObj.objId

/-- `Sieve_find` with `update_cache` set. -/
def sieveFind (s : State) (r : Request) : Bool × State :=
  match s.q.find r.objId with
  | none => (false, s)
  | some obj => (true, { s with q := s.q.retag obj.objId fun _ => 1 })

def sieveInsert (s : State) (r : Request) : State := { s with q := s.q.insert r 0 }

def toEvictWithFreq (s : State) (freq : Nat) : Option (CacheObj Nat) :=
  let ahead := match s.pointer with
    | none => s.q.objs
    | some id => onward s.q id
  (ahead.find? fun o => decide (o.tag ≤ freq)).or (s.q.objs.find? fun o => decide (o.tag ≤ freq))

def sieveToEvict (fuel : Nat) (s : State) : Except (Stop Fault) (CacheObj Nat) :=
  loop (fun freq => match toEvictWithFreq s freq with
    | none => .ok (.again (freq + 1))
    | some obj => .ok (.done obj)) fuel 0

/-- A round of the loop of `Sieve_evict`, with the object it is at. -/
def pass (x : Fifo Nat × Option Nat) :
    Except (Stop Fault) (Round (Fifo Nat × Option Nat) (Fifo Nat × CacheObj Nat)) :=
  match x.2.bind x.1.find with
  | none => .error (.fault .nullTail)
  | some obj =>
    if 0 < obj.tag then
      let q := x.1.retag obj.objId (· - 1)
      .ok (.again (q, (prev q obj.objId).or (tail q)))
    else .ok (.done (x.1, obj))

def sieveEvict (fuel : Nat) (s : State) : Except (Stop Fault) State := do
  let (q, obj) ← loop pass fuel (s.q, s.pointer.or (tail s.q))
  return ⟨q.remove obj.objId, prev q obj.objId⟩

def sieveRemove (s : State) (id : Nat) : Bool × State :=
  match s.q.find id with
  | none => (false, s)
  | some obj => (true, ⟨s.q.remove obj.objId,
      if s.pointer = some obj.objId then prev s.q obj.objId else s.pointer⟩)

/-- The metadata of the incoming object is counted with that of the others. -/
def sievePolicy (cacheSize mdSize : Nat) : Policy State Fault where
  cacheSize := cacheSize
  tick := id
  find s r := .ok (sieveFind s r)
  canInsert _ s r := .ok (r.objSize + mdSize ≤ cacheSize, s)
  occupiedByte s := s.q.occupiedByte + mdSize * (s.q.nObj + 1)
  evict n s _ := sieveEvict n s
  insert s r := .ok (sieveInsert s r)

def sieveGet (cacheSize mdSize fuel : Nat) (s : State) (r : Request) : Except (Stop Fault) (Bool × State) :=
  cacheGetBase (sievePolicy cacheSize mdSize) fuel s r

inductive Step (cacheSize mdSize : Nat) : State → State → Prop where
  | get {s t : State} {hit : Bool} (r : Request)
      (served : Yields (fun fuel => sieveGet cacheSize mdSize fuel s r) (.ok (hit, t))) : Step cacheSize mdSize s t
  | remove (s : State) (id : Nat) : Step cacheSize mdSize s (sieveRemove s id).2

/-! ## An object in the queue -/

section Cut

variable {q : Fifo Nat} {before after : List (CacheObj Nat)} {a : CacheObj Nat}

theorem before_other (distinct : q.Distinct) (cut : q.objs = before ++ a :: after) :
    ∀ o ∈ before, ¬ hasId a.objId o = true := by
  intro o member
  have nodup : (q.objs.map CacheObj.objId).Nodup := (nodup_iff_copies _ _).mpr distinct
  rw [cut, List.map_append, List.nodup_append] at nodup
  rw [hasId_iff]
  exact nodup.2.2 _ (List.mem_map_of_mem member) _ (List.mem_map_of_mem List.mem_cons_self)

theorem onward_cut (distinct : q.Distinct) (cut : q.objs = before ++ a :: after) :
    onward q a.objId = a :: after := by
  have other := before_other distinct cut
  rw [onward, cut, List.dropWhile_append_of_pos (fun o member => by simp [Bool.eq_false_iff.mpr (other o member)])]
  exact List.dropWhile_cons_of_neg (by simp)

theorem prev_cut (distinct : q.Distinct) (cut : q.objs = before ++ a :: after) :
    prev q a.objId = after.head?.map CacheObj.objId := by
  rw [prev, onward_cut distinct cut]
  rfl

theorem retag_cut (distinct : q.Distinct) (cut : q.objs = before ++ a :: after) (f : Nat → Nat) :
    (q.retag a.objId f).objs = before ++ { a with tag := f a.tag } :: after := by
  have other := before_other distinct cut
  show updateFirst _ _ q.objs = _
  rw [cut]
  clear cut
  induction before with
  | nil => simp [updateFirst]
  | cons o before ih =>
    rw [List.cons_append, updateFirst, if_neg (other o List.mem_cons_self),
      ih fun x member => other x (List.mem_cons_of_mem o member)]
    rfl

theorem remove_cut (distinct : q.Distinct) (cut : q.objs = before ++ a :: after) :
    (q.remove a.objId).objs = before ++ after := by
  rw [Fifo.objs_remove, cut, List.eraseP_append_right _ (before_other distinct cut),
    List.eraseP_cons_of_pos (by simp)]

theorem exists_cut {id : Nat} (member : id ∈ resident q) :
    ∃ before a after, q.objs = before ++ a :: after ∧ a.objId = id := by
  obtain ⟨a, inside, own⟩ := List.mem_map.mp member
  obtain ⟨before, after, cut⟩ := List.append_of_mem inside
  exact ⟨before, a, after, cut, own⟩

theorem prev_left (distinct : q.Distinct) (cut : q.objs = before ++ a :: after) {id : Nat}
    (next : prev q a.objId = some id) : id ∈ resident (q.remove a.objId) := by
  rw [prev_cut distinct cut] at next
  obtain ⟨b, head, rfl⟩ := Option.map_eq_some_iff.mp next
  rw [resident, remove_cut distinct cut]
  exact List.mem_map_of_mem (List.mem_append_right _ (List.mem_of_head? head))

theorem resident_retag (q : Fifo Nat) (id : Nat) (f : Nat → Nat) : resident (q.retag id f) = resident q :=
  Fifo.map_retag CacheObj.objId q id f fun _ _ => rfl

end Cut

/-! ## The two scans -/

/-- Each id is held once, and the hand is nowhere or at an object of the queue. -/
structure Sound (s : State) : Prop where
  distinct : s.q.Distinct
  hand : ∀ id, s.pointer = some id → id ∈ resident s.q

section Scans

variable {s : State}

theorem Sound.start (sound : Sound s) (held : s.q.objs ≠ []) : ∃ before a after,
    s.q.objs = before ++ a :: after ∧ s.pointer.or (tail s.q) = some a.objId ∧
    ∀ freq, toEvictWithFreq s freq = (a :: after ++ before).find? fun o => decide (o.tag ≤ freq) := by
  cases hand : s.pointer with
  | none =>
    obtain ⟨a, after, shape⟩ := List.exists_cons_of_ne_nil held
    refine ⟨[], a, after, shape, ?_, fun freq => ?_⟩
    · rw [Option.none_or, tail, Fifo.toEvict_of_objs shape]
      rfl
    · simp only [toEvictWithFreq, hand, shape, List.append_nil, Option.or_self]
  | some id =>
    obtain ⟨before, a, after, cut, rfl⟩ := exists_cut (sound.hand id hand)
    refine ⟨before, a, after, cut, rfl, fun freq => ?_⟩
    simp only [toEvictWithFreq, hand, onward_cut sound.distinct cut]
    rw [cut]
    exact find_around _ before (a :: after)

theorem toEvict_least {c : List (CacheObj Nat)} {a : CacheObj Nat} (member : a ∈ c)
    (search : ∀ freq, toEvictWithFreq s freq = c.find? fun o => decide (o.tag ≤ freq)) :
    Ends (fun n => sieveToEvict n s) fun o => o ∈ c ∧ FirstLeast CacheObj.tag CacheObj.objId c o.objId := by
  refine Ends.loop (fun freq => ∀ x ∈ c, freq ≤ x.tag) (fun freq => a.tag - freq) ?_ (fun x _ => Nat.zero_le _)
  intro freq bound
  rw [search]
  cases found : c.find? fun o => decide (o.tag ≤ freq) with
  | some o => exact Ends.const ⟨List.mem_of_find?_eq_some found, freq, o, found, rfl, bound⟩
  | none =>
    have above : ∀ x ∈ c, freq < x.tag := by
      intro x inside
      simpa using List.find?_eq_none.mp found x inside
    have := above a member
    refine Ends.const ⟨above, ?_⟩
    show a.tag - (freq + 1) < a.tag - freq
    omega

theorem pass_least {q : Fifo Nat} {before after : List (CacheObj Nat)} {a : CacheObj Nat} {id : Nat}
    (distinct : q.Distinct) (cut : q.objs = before ++ a :: after)
    (first : FirstLeast CacheObj.tag CacheObj.objId (a :: after ++ before) id) :
    Ends (fun n => loop pass n (q, some a.objId)) fun x =>
      x.1.Distinct ∧ resident x.1 = resident q ∧ x.2.objId = id ∧ x.2 ∈ x.1.objs := by
  refine Ends.loop (fun x => x.1.Distinct ∧ resident x.1 = resident q ∧ ∃ before a after, x.1.objs = before ++ a :: after ∧
    x.2 = some a.objId ∧ FirstLeast CacheObj.tag CacheObj.objId (a :: after ++ before) id)
    (fun x => (x.1.objs.map CacheObj.tag).sum) ?_ ⟨distinct, rfl, before, a, after, cut, rfl, first⟩
  rintro ⟨q', -⟩ ⟨distinct, same, before, a, after, cut, rfl, first⟩
  have inside : a ∈ q'.objs := by
    rw [cut]
    simp
  simp only [pass, Option.bind_some, Fifo.find_of_mem distinct inside]
  by_cases counted : 0 < a.tag
  · rw [if_pos counted]
    have objs := retag_cut distinct cut (· - 1)
    have distinct' := distinct.retag a.objId (· - 1)
    obtain ⟨b, before', after', next, cut', turned⟩ := turn objs
    refine Ends.const ⟨⟨distinct', (resident_retag q' _ _).trans same, before', b, after', cut', ?_, ?_⟩, ?_⟩
    · have here := prev_cut distinct' objs
      show (prev _ a.objId).or (tail _) = _
      rw [here, tail, Fifo.toEvict, ← Option.map_or, next]
      rfl
    · rw [turned]
      exact first.turn rfl (Nat.sub_add_cancel counted)
    · show ((q'.retag a.objId _).objs.map CacheObj.tag).sum < (q'.objs.map CacheObj.tag).sum
      rw [objs, cut]
      simp only [List.map_append, List.map_cons, List.sum_append, List.sum_cons]
      omega
  · rw [if_neg counted]
    exact Ends.const ⟨distinct, same, first.head (Nat.eq_zero_of_not_pos counted), inside⟩

theorem Sound.evicts (sound : Sound s) (held : s.q.objs ≠ []) : ∃ obj ∈ s.q.objs,
    Yields (fun n => sieveToEvict n s) (.ok obj) ∧
    Ends (fun n => sieveEvict n s) fun t => Sound t ∧ resident t.q = (resident s.q).erase obj.objId := by
  obtain ⟨before, a, after, cut, hand, search⟩ := sound.start held
  obtain ⟨obj, announced, inside, first⟩ := toEvict_least List.mem_cons_self search
  refine ⟨obj, ?_, announced, ?_⟩
  · rw [cut]
    exact List.perm_append_comm.mem_iff.mp inside
  · simp only [sieveEvict, hand]
    refine (pass_least sound.distinct cut first).bind (g := fun _ x =>
      .ok (⟨x.1.remove x.2.objId, prev x.1 x.2.objId⟩ : State)) ?_
    rintro ⟨q, o⟩ ⟨distinct, same, own, member⟩
    obtain ⟨before, after, cut⟩ := List.append_of_mem member
    refine Ends.const ⟨⟨distinct.remove _, fun id next => prev_left distinct cut next⟩, ?_⟩
    rw [resident_remove, same, own]

end Scans

/-! ## Every call -/

variable {s t : State} {cacheSize mdSize : Nat}

theorem init_sound : Sound init := ⟨Fifo.distinct_empty, nofun⟩

theorem Sound.find (sound : Sound s) (r : Request) : Sound (sieveFind s r).2 := by
  rw [sieveFind]
  cases s.q.find r.objId with
  | none => exact sound
  | some obj =>
    refine ⟨sound.distinct.retag _ _, fun id hand => ?_⟩
    show id ∈ resident (s.q.retag _ _)
    rw [resident_retag]
    exact sound.hand id hand

theorem Sound.insert (sound : Sound s) {r : Request} (absent : s.q.find r.objId = none) :
    Sound (sieveInsert s r) := by
  refine ⟨sound.distinct.insert absent 0, fun id hand => ?_⟩
  show id ∈ resident (s.q.insert r 0)
  rw [resident_insert]
  exact List.mem_append_left _ (sound.hand id hand)

theorem Sound.remove (sound : Sound s) (id : Nat) : Sound (sieveRemove s id).2 := by
  rw [sieveRemove]
  cases found : s.q.find id with
  | none => exact sound
  | some obj =>
    refine ⟨sound.distinct.remove _, fun x hand => ?_⟩
    obtain ⟨before, after, cut⟩ := List.append_of_mem (Fifo.find_mem found)
    by_cases here : s.pointer = some obj.objId
    · simp only [if_pos here] at hand
      exact prev_left sound.distinct cut hand
    · simp only [if_neg here] at hand
      show x ∈ resident (s.q.remove obj.objId)
      rw [resident_remove]
      refine (List.mem_erase_of_ne ?_).mpr (sound.hand x hand)
      rintro rfl
      exact here hand

theorem Sound.get (sound : Sound s) (r : Request) :
    Ends (fun n => sieveGet cacheSize mdSize n s r) fun a => Sound a.2 := by
  refine cacheGetBase_ends (Q := fun _ => Sound) (fun t => Sound t ∧ t.q.find r.objId = none)
    (fun t => Sound t ∧ t.q.find r.objId = none ∧ r.objSize + mdSize ≤ cacheSize)
    (fun t => (resident t.q).length) ?_ ?_ ?_ ?_
  · have kept := sound.find r
    cases found : s.q.find r.objId with
    | none =>
      rw [sieveFind, found] at kept
      refine ⟨false, s, ?_, kept, found⟩
      simp only [sievePolicy, id, sieveFind, found]
    | some obj =>
      rw [sieveFind, found] at kept
      refine ⟨true, _, ?_, kept⟩
      simp only [sievePolicy, id, sieveFind, found]
  · rintro t ⟨sound, absent⟩
    refine Ends.const ?_
    by_cases fits : r.objSize + mdSize ≤ cacheSize
    · simpa [fits] using ⟨sound, absent⟩
    · simpa [fits] using sound
  · rintro t ⟨sound, absent, fits⟩ full
    have held : t.q.objs ≠ [] := by
      intro empty
      have none := t.q.occupied_eq
      have zero := t.q.nObj_eq
      simp only [sievePolicy, none, zero, empty, total_nil, List.length_nil] at full
      omega
    obtain ⟨obj, inside, -, ends⟩ := sound.evicts held
    have member : obj.objId ∈ resident t.q := List.mem_map_of_mem inside
    refine ends.mono ?_
    rintro u ⟨soundU, left⟩
    refine ⟨⟨soundU, ?_, fits⟩, ?_⟩
    · rw [Fifo.find_eq_none] at absent ⊢
      intro again
      apply absent
      have : r.objId ∈ resident u.q := again
      rw [left] at this
      exact List.mem_of_mem_erase this
    · rw [left, List.length_erase_of_mem member]
      have := List.length_pos_of_mem member
      omega
  · rintro t ⟨sound, absent, -⟩ -
    exact ⟨_, rfl, sound.insert absent⟩

end Sieve
