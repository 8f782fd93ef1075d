import CacheEviction.MmCar
import Mathlib.Data.List.Rotate
import Mathlib.Data.Finset.Card

/-!
# The ghost lists of CAR as bounded FIFO sets

A ghost list keeps the hashes in a set and their order in a ring buffer. `remove` takes
a hash out of the set only, so that its slot goes stale; when the hash comes back it gets
a second slot, and the ring then forgets it as soon as the stale slot is overwritten.

The calls are logged, newest first, an `insert` only if the hash was not known.
-/
namespace MmCar

open StepTraces

/-! ## What a bounded FIFO set knows -/

inductive GhostEvent where
  | inserted (hash : UInt32)
  | removed (hash : UInt32)
  deriving DecidableEq

def GhostEvent.inserted? : GhostEvent → Option UInt32
  | .inserted hash => some hash
  | .removed _ => none

def inserts (log : List GhostEvent) : List UInt32 := log.filterMap GhostEvent.inserted?

/-- The hash was inserted and not removed since, and fewer than `capacity` inserts
followed. -/
def Live (capacity : Nat) (log : List GhostEvent) (hash : UInt32) : Prop :=
  ∃ newer older, log = newer ++ .inserted hash :: older ∧
    .inserted hash ∉ newer ∧ .removed hash ∉ newer ∧ (inserts newer).length < capacity

section Log

variable {capacity : Nat} {log : List GhostEvent} {hash other : UInt32}

@[simp] theorem inserts_inserted : inserts (.inserted hash :: log) = hash :: inserts log := rfl

theorem inserts_split {newer older : List GhostEvent} :
    inserts (newer ++ .inserted hash :: older) = inserts newer ++ hash :: inserts older := by
  rw [inserts, List.filterMap_append]
  rfl

theorem mem_inserts : hash ∈ inserts log ↔ .inserted hash ∈ log := by
  rw [inserts, List.mem_filterMap]
  constructor
  · rintro ⟨event, member, eq⟩
    cases event with
    | inserted x =>
      cases eq
      exact member
    | removed x => cases eq
  · exact fun member => ⟨_, member, rfl⟩

theorem not_live_nil : ¬ Live capacity [] hash := by
  rintro ⟨newer, older, split, -⟩
  simp at split

theorem live_inserted_self : Live capacity (.inserted hash :: log) hash ↔ 0 < capacity := by
  constructor
  · rintro ⟨newer, older, -, -, -, few⟩
    omega
  · exact fun some_ => ⟨[], log, rfl, by simp, by simp, some_⟩

theorem live_inserted_ne (ne : other ≠ hash) :
    Live capacity (.inserted other :: log) hash ↔ Live (capacity - 1) log hash := by
  constructor
  · rintro ⟨newer, older, split, last, kept, few⟩
    cases newer with
    | nil =>
      obtain ⟨same, -⟩ := List.cons.inj split
      cases same
      exact absurd rfl ne
    | cons event newer =>
      obtain ⟨rfl, rest⟩ := List.cons.inj split
      rw [inserts_inserted, List.length_cons] at few
      exact ⟨newer, older, rest, fun h => last (List.mem_cons_of_mem _ h),
        fun h => kept (List.mem_cons_of_mem _ h), by omega⟩
  · rintro ⟨newer, older, rfl, last, kept, few⟩
    refine ⟨.inserted other :: newer, older, rfl, ?_, ?_, ?_⟩
    · simpa [ne.symm] using last
    · simpa using kept
    · rw [inserts_inserted, List.length_cons]
      omega

theorem not_live_removed_self : ¬ Live capacity (.removed hash :: log) hash := by
  rintro ⟨newer, older, split, -, kept, -⟩
  cases newer with
  | nil => cases split
  | cons event newer =>
    obtain ⟨rfl, -⟩ := List.cons.inj split
    exact kept List.mem_cons_self

theorem live_removed_ne (ne : other ≠ hash) :
    Live capacity (.removed other :: log) hash ↔ Live capacity log hash := by
  constructor
  · rintro ⟨newer, older, split, last, kept, few⟩
    cases newer with
    | nil => cases split
    | cons event newer =>
      obtain ⟨rfl, rest⟩ := List.cons.inj split
      exact ⟨newer, older, rest, fun h => last (List.mem_cons_of_mem _ h),
        fun h => kept (List.mem_cons_of_mem _ h), few⟩
  · rintro ⟨newer, older, rfl, last, kept, few⟩
    refine ⟨.removed other :: newer, older, rfl, ?_, ?_, few⟩
    · simpa using last
    · simpa [ne.symm] using kept

theorem Live.recent (live : Live capacity log hash) : hash ∈ (inserts log).take capacity := by
  obtain ⟨newer, older, rfl, -, -, few⟩ := live
  rw [inserts_split, List.take_append, List.mem_append]
  right
  rw [show capacity - (inserts newer).length = (capacity - (inserts newer).length - 1) + 1 by omega,
    List.take_succ_cons]
  exact List.mem_cons_self

theorem Live.of_pred (live : Live (capacity - 1) log hash) : Live capacity log hash := by
  obtain ⟨newer, older, split, last, kept, few⟩ := live
  exact ⟨newer, older, split, last, kept, by omega⟩

theorem Live.pred_or (live : Live capacity log hash) :
    Live (capacity - 1) log hash ∨
      (inserts log).take capacity = (inserts log).take (capacity - 1) ++ [hash] ∧
        hash ∉ (inserts log).take (capacity - 1) := by
  obtain ⟨newer, older, rfl, last, kept, few⟩ := live
  by_cases fewer : (inserts newer).length < capacity - 1
  · exact .inl ⟨newer, older, rfl, last, kept, fewer⟩
  · right
    have length : capacity = (inserts newer).length + 1 := by omega
    rw [inserts_split, length, Nat.add_sub_cancel, List.take_left]
    refine ⟨?_, fun member => last (mem_inserts.mp member)⟩
    rw [List.take_length_add_append]
    rfl

end Log

/-! ## The ring buffer -/

section Ring

variable {α : Type} {l : List α} {head : Nat} {old : α}

theorem slot_split (slot : l[head]? = some old) :
    ∃ before behind, l = before ++ old :: behind ∧ before.length = head := by
  obtain ⟨inside, rfl⟩ := List.getElem?_eq_some_iff.mp slot
  refine ⟨l.take head, l.drop (head + 1), ?_, ?_⟩
  · rw [← List.drop_eq_getElem_cons inside, List.take_append_drop]
  · rw [List.length_take]
    omega

theorem rotate_slot (slot : l[head]? = some old) :
    ∃ rest, l.rotate head = old :: rest ∧ (∀ x, x ∈ l.eraseIdx head ↔ x ∈ rest) := by
  obtain ⟨before, behind, rfl, rfl⟩ := slot_split slot
  refine ⟨behind ++ before, List.rotate_append_length_eq before (old :: behind), ?_⟩
  intro x
  rw [List.eraseIdx_append_of_length_le le_rfl, Nat.sub_self, List.eraseIdx_zero, List.tail_cons,
    List.mem_append, List.mem_append, or_comm]

theorem rotate_set {rest : List α} (slot : l[head]? = some old) (ring : l.rotate head = old :: rest)
    (new : α) : (l.set head new).rotate ((head + 1) % l.length) = rest ++ [new] := by
  obtain ⟨before, behind, rfl, rfl⟩ := slot_split slot
  have same : old :: (behind ++ before) = old :: rest := by
    rw [← ring, List.rotate_append_length_eq]
    rfl
  have written : (before ++ old :: behind).set before.length new = (before ++ [new]) ++ behind := by
    simp
  have length : (before ++ old :: behind).length = (before ++ [new] ++ behind).length := by simp
  have moved : before.length + 1 = (before ++ [new]).length := by simp
  rw [← (List.cons.inj same).2, written, length, List.rotate_mod, moved,
    List.rotate_append_length_eq, List.append_assoc]

end Ring

/-! ## The ghost list over a log of calls -/

structure LoggedGhosts where
  ghosts : GhostList
  log : List GhostEvent := []

inductive GhostOp where
  | insert (hash : UInt32) (time : Nat)
  | remove (hash : UInt32)

def emptyGhosts (capacity : Nat) : LoggedGhosts where
  ghosts := { capacity := capacity }

def GhostOp.exec (s : LoggedGhosts) : GhostOp → Except Fault LoggedGhosts
  | .insert hash time => do
    let ghosts ← s.ghosts.insert hash time
    return ⟨ghosts, if s.ghosts.contains hash then s.log else .inserted hash :: s.log⟩
  | .remove hash => .ok ⟨s.ghosts.remove hash, .removed hash :: s.log⟩

def Knows (capacity : Nat) (s : LoggedGhosts) : Prop :=
  ∀ hash, s.ghosts.contains hash = true ↔ Live capacity s.log hash

/-- An effective insert into a full ring does not overwrite one of two slots of a hash
that is known. -/
def Spares (s : LoggedGhosts) : GhostOp → Prop
  | .insert hash _ =>
    s.ghosts.contains hash = false → s.ghosts.capacity ≤ s.ghosts.buffer.length →
      ∀ old, s.ghosts.buffer[s.ghosts.head]? = some old → s.ghosts.contains old.hash = true →
        ∀ e ∈ s.ghosts.buffer.eraseIdx s.ghosts.head, e.hash ≠ old.hash
  | .remove _ => True

/-- The ring holds the last `size` inserts, oldest at the head, and the set none but
those. -/
structure Rings (size : Nat) (s : LoggedGhosts) : Prop where
  capacity : s.ghosts.capacity = size
  bound : s.ghosts.buffer.length ≤ size
  head : s.ghosts.head < size
  filling : s.ghosts.buffer.length < size → s.ghosts.head = 0
  slots : (s.ghosts.buffer.map GhostEntry.hash).rotate s.ghosts.head =
    ((inserts s.log).take size).reverse
  known : ∀ hash ∈ s.ghosts.hashSet, hash ∈ (inserts s.log).take size

theorem rings_empty {capacity : Nat} (some_ : 1 ≤ capacity) :
    Rings capacity (emptyGhosts capacity) where
  capacity := rfl
  bound := Nat.zero_le _
  head := some_
  filling := fun _ => rfl
  slots := by simp [emptyGhosts, inserts]
  known := by simp [emptyGhosts]

variable {capacity : Nat} {s t : LoggedGhosts} {hash : UInt32} {time : Nat} {old : GhostEntry}

theorem Rings.size_le (rings : Rings capacity s) : s.ghosts.size ≤ capacity := by
  have within : s.ghosts.hashSet ⊆ ((inserts s.log).take capacity).toFinset :=
    fun hash member => List.mem_toFinset.mpr (rings.known hash member)
  calc s.ghosts.size ≤ ((inserts s.log).take capacity).toFinset.card := Finset.card_le_card within
    _ ≤ ((inserts s.log).take capacity).length := List.toFinset_card_le _
    _ ≤ capacity := List.length_take_le _ _

def LoggedGhosts.pushed (s : LoggedGhosts) (hash : UInt32) (time : Nat) : LoggedGhosts where
  ghosts := { s.ghosts with
    buffer := s.ghosts.buffer ++ [⟨hash, time⟩]
    hashSet := insert hash s.ghosts.hashSet }
  log := .inserted hash :: s.log

def LoggedGhosts.overwritten (s : LoggedGhosts) (old : GhostEntry) (hash : UInt32) (time : Nat) :
    LoggedGhosts where
  ghosts := { s.ghosts with
    buffer := s.ghosts.buffer.set s.ghosts.head ⟨hash, time⟩
    hashSet := insert hash (s.ghosts.hashSet.erase old.hash)
    head := (s.ghosts.head + 1) % s.ghosts.buffer.length }
  log := .inserted hash :: s.log

def LoggedGhosts.removed (s : LoggedGhosts) (hash : UInt32) : LoggedGhosts where
  ghosts := s.ghosts.remove hash
  log := .removed hash :: s.log

theorem exec_insert (rings : Rings capacity s) (hash : UInt32) (time : Nat) :
    (hash ∈ s.ghosts.hashSet ∧ GhostOp.exec s (.insert hash time) = .ok s) ∨
    (hash ∉ s.ghosts.hashSet ∧ s.ghosts.buffer.length < capacity ∧
      GhostOp.exec s (.insert hash time) = .ok (s.pushed hash time)) ∨
    (hash ∉ s.ghosts.hashSet ∧ s.ghosts.buffer.length = capacity ∧
      ∃ old, s.ghosts.buffer[s.ghosts.head]? = some old ∧
        GhostOp.exec s (.insert hash time) = .ok (s.overwritten old hash time)) := by
  have size := rings.capacity
  have bound := rings.bound
  have head := rings.head
  by_cases here : hash ∈ s.ghosts.hashSet
  · left
    refine ⟨here, ?_⟩
    simp [GhostOp.exec, GhostList.insert, GhostList.contains, here, bind, Except.bind, pure,
      Except.pure]
  right
  by_cases room : s.ghosts.buffer.length < capacity
  · left
    refine ⟨here, room, ?_⟩
    have partly : ¬ s.ghosts.capacity ≤ s.ghosts.buffer.length := by omega
    simp [GhostOp.exec, GhostList.insert, GhostList.contains, here, bind, Except.bind, pure,
      Except.pure, partly, LoggedGhosts.pushed]
  · right
    have length : s.ghosts.buffer.length = capacity := by omega
    have inside : s.ghosts.head < s.ghosts.buffer.length := by omega
    have nonzero : capacity ≠ 0 := by omega
    refine ⟨here, length, s.ghosts.buffer[s.ghosts.head], List.getElem?_eq_getElem inside, ?_⟩
    rw [length] at inside
    simp [GhostOp.exec, GhostList.insert, GhostList.contains, here, bind, Except.bind, pure,
      Except.pure, size, length, inside, nonzero, LoggedGhosts.overwritten]

/-! ### The ring after a call -/

theorem Rings.inserts_length (rings : Rings capacity s) (room : s.ghosts.buffer.length < capacity) :
    (inserts s.log).length < capacity := by
  have lengths := congrArg List.length rings.slots
  simp only [List.length_rotate, List.length_map, List.length_reverse, List.length_take] at lengths
  omega

theorem Rings.pushed (rings : Rings capacity s) (room : s.ghosts.buffer.length < capacity) :
    Rings capacity (s.pushed hash time) := by
  have few := rings.inserts_length room
  have start := rings.filling room
  have before : (inserts s.log).take capacity = inserts s.log := List.take_of_length_le few.le
  have after : (inserts (s.pushed hash time).log).take capacity = hash :: inserts s.log :=
    List.take_of_length_le (Nat.succ_le_of_lt few)
  have slots := rings.slots
  rw [before, start, List.rotate_zero] at slots
  refine ⟨rings.capacity, ?_, rings.head, fun _ => start, ?_, ?_⟩
  · show (s.ghosts.buffer ++ [_]).length ≤ capacity
    rw [List.length_append, List.length_singleton]
    exact room
  · show ((s.ghosts.buffer ++ [_]).map GhostEntry.hash).rotate s.ghosts.head = _
    rw [after, start, List.rotate_zero, List.map_append, slots, List.reverse_cons]
    rfl
  · intro x member
    rw [after]
    rcases Finset.mem_insert.mp member with rfl | earlier
    · exact List.mem_cons_self
    · have recent := rings.known x earlier
      rw [before] at recent
      exact List.mem_cons_of_mem hash recent

theorem Rings.window (rings : Rings capacity s) (full : s.ghosts.buffer.length = capacity)
    (slot : s.ghosts.buffer[s.ghosts.head]? = some old) :
    (inserts s.log).take capacity = (inserts s.log).take (capacity - 1) ++ [old.hash] ∧
      ∀ x, x ∈ (inserts s.log).take (capacity - 1) ↔
        ∃ e ∈ s.ghosts.buffer.eraseIdx s.ghosts.head, e.hash = x := by
  obtain ⟨rest, ring, others⟩ := rotate_slot slot
  have length : capacity - 1 = (rest.map GhostEntry.hash).reverse.length := by
    have lengths := congrArg List.length ring
    rw [List.length_rotate, full, List.length_cons] at lengths
    rw [List.length_reverse, List.length_map]
    omega
  have window : (inserts s.log).take capacity = (rest.map GhostEntry.hash).reverse ++ [old.hash] := by
    rw [← List.reverse_reverse ((inserts s.log).take capacity), ← rings.slots, ← List.map_rotate,
      ring, List.map_cons, List.reverse_cons]
  have newer : (inserts s.log).take (capacity - 1) = (rest.map GhostEntry.hash).reverse := by
    have shorter := congrArg (List.take (capacity - 1)) window
    rw [List.take_take, Nat.min_eq_left (Nat.sub_le _ _)] at shorter
    rw [shorter, length, List.take_left]
  refine ⟨by rw [window, newer], fun x => ?_⟩
  rw [newer, List.mem_reverse, List.mem_map]
  exact exists_congr fun e => and_congr_left fun _ => (others e).symm

theorem Rings.overwritten (rings : Rings capacity s) (full : s.ghosts.buffer.length = capacity)
    (slot : s.ghosts.buffer[s.ghosts.head]? = some old) :
    Rings capacity (s.overwritten old hash time) := by
  have head := rings.head
  obtain ⟨window, -⟩ := rings.window full slot
  have after : (inserts (s.overwritten old hash time).log).take capacity =
      hash :: (inserts s.log).take (capacity - 1) := by
    show (hash :: inserts s.log).take capacity = _
    rw [← List.take_succ_cons, Nat.sub_add_cancel (by omega)]
  have length : (s.overwritten old hash time).ghosts.buffer.length = capacity := by
    rw [← full]
    exact List.length_set
  refine ⟨rings.capacity, length.le, ?_, ?_, ?_, ?_⟩
  · show (s.ghosts.head + 1) % s.ghosts.buffer.length < capacity
    rw [full]
    exact Nat.mod_lt _ (by omega)
  · intro room
    omega
  · have mapped : (s.ghosts.buffer.map GhostEntry.hash)[s.ghosts.head]? = some old.hash := by
      rw [List.getElem?_map, slot]
      rfl
    have ring := rings.slots
    rw [window, List.reverse_append] at ring
    have moved := rotate_set mapped ring hash
    rw [List.length_map] at moved
    have written : (s.overwritten old hash time).ghosts.buffer.map GhostEntry.hash =
        (s.ghosts.buffer.map GhostEntry.hash).set s.ghosts.head hash := List.map_set
    rw [written, after, List.reverse_cons]
    exact moved
  · intro x member
    rw [after]
    rcases Finset.mem_insert.mp member with rfl | kept
    · exact List.mem_cons_self
    · obtain ⟨ne, earlier⟩ := Finset.mem_erase.mp kept
      have recent := rings.known x earlier
      rw [window, List.mem_append, List.mem_singleton] at recent
      exact List.mem_cons_of_mem hash (recent.resolve_right ne)

theorem Rings.removed (rings : Rings capacity s) : Rings capacity (s.removed hash) :=
  ⟨rings.capacity, rings.bound, rings.head, rings.filling, rings.slots,
    fun x member => rings.known x (Finset.mem_of_mem_erase member)⟩

/-! ### What is known after a call -/

theorem contains_iff {g : GhostList} : g.contains hash = true ↔ hash ∈ g.hashSet := by
  rw [GhostList.contains, decide_eq_true_iff]

theorem Knows.pushed (knows : Knows capacity s) (rings : Rings capacity s)
    (room : s.ghosts.buffer.length < capacity) : Knows capacity (s.pushed hash time) := by
  intro x
  rw [contains_iff]
  show x ∈ insert hash s.ghosts.hashSet ↔ Live capacity (.inserted hash :: s.log) x
  rw [Finset.mem_insert]
  by_cases same : x = hash
  · subst same
    have positive : 0 < capacity := by omega
    simp [live_inserted_self, positive]
  · have few := rings.inserts_length room
    rw [live_inserted_ne (Ne.symm same), or_iff_right same, ← contains_iff, knows x]
    refine ⟨fun live => live.pred_or.resolve_right ?_, Live.of_pred⟩
    rintro ⟨window, -⟩
    have lengths := congrArg List.length window
    rw [List.length_append, List.length_take, List.length_take, List.length_singleton] at lengths
    omega

theorem Knows.overwritten_iff (knows : Knows capacity s) (rings : Rings capacity s)
    (full : s.ghosts.buffer.length = capacity)
    (slot : s.ghosts.buffer[s.ghosts.head]? = some old) (new : hash ∉ s.ghosts.hashSet) :
    Knows capacity (s.overwritten old hash time) ↔
      (old.hash ∈ s.ghosts.hashSet →
        ∀ e ∈ s.ghosts.buffer.eraseIdx s.ghosts.head, e.hash ≠ old.hash) := by
  obtain ⟨window, others⟩ := rings.window full slot
  have positive : 0 < capacity := by
    have := rings.head
    omega
  constructor
  · intro after kept e member same
    have ne : hash ≠ old.hash := fun eq => new (eq ▸ kept)
    have live : Live (capacity - 1) s.log old.hash := by
      refine ((knows old.hash).mp (contains_iff.mpr kept)).pred_or.resolve_right ?_
      exact fun alone => alone.2 ((others old.hash).mpr ⟨e, member, same⟩)
    have known := contains_iff.mp ((after old.hash).mpr ((live_inserted_ne ne).mpr live))
    rcases Finset.mem_insert.mp known with eq | kept
    · exact ne eq.symm
    · exact (Finset.mem_erase.mp kept).1 rfl
  · intro spared x
    rw [contains_iff]
    show x ∈ insert hash (s.ghosts.hashSet.erase old.hash) ↔
      Live capacity (.inserted hash :: s.log) x
    rw [Finset.mem_insert, Finset.mem_erase]
    by_cases same : x = hash
    · subst same
      simp [live_inserted_self, positive]
    · rw [live_inserted_ne (Ne.symm same), or_iff_right same]
      constructor
      · rintro ⟨ne, kept⟩
        refine ((knows x).mp (contains_iff.mpr kept)).pred_or.resolve_right ?_
        rintro ⟨last, -⟩
        rw [window] at last
        exact ne (List.singleton_inj.mp (List.append_cancel_left last)).symm
      · intro live
        have kept := contains_iff.mp ((knows x).mpr live.of_pred)
        refine ⟨?_, kept⟩
        rintro rfl
        obtain ⟨e, member, same⟩ := (others old.hash).mp live.recent
        exact spared kept e member same

theorem Knows.removed (knows : Knows capacity s) : Knows capacity (s.removed hash) := by
  intro x
  rw [contains_iff]
  show x ∈ s.ghosts.hashSet.erase hash ↔ Live capacity (.removed hash :: s.log) x
  rw [Finset.mem_erase]
  by_cases same : x = hash
  · subst same
    simp [not_live_removed_self]
  · rw [live_removed_ne (Ne.symm same), and_iff_right same, ← contains_iff, knows x]

theorem exec_spec (rings : Rings capacity s) (op : GhostOp) :
    ∃ t, op.exec s = .ok t ∧ Rings capacity t ∧
      (Knows capacity s → (Knows capacity t ↔ Spares s op)) := by
  cases op with
  | insert hash time =>
    rcases exec_insert rings hash time with ⟨here, run⟩ | ⟨new, room, run⟩ | ⟨new, full, old, slot, run⟩
    · refine ⟨s, run, rings, fun knows => iff_of_true knows ?_⟩
      intro absent
      rw [contains_iff.mpr here] at absent
      cases absent
    · refine ⟨_, run, rings.pushed room, fun knows => iff_of_true (knows.pushed rings room) ?_⟩
      intro _ full
      rw [rings.capacity] at full
      omega
    · refine ⟨_, run, rings.overwritten full slot, fun knows => ?_⟩
      rw [knows.overwritten_iff rings full slot new]
      have absent : s.ghosts.contains hash = false := by
        rw [← Bool.not_eq_true, contains_iff]
        exact new
      simp [Spares, absent, contains_iff, rings.capacity, full, slot]
  | remove hash =>
    exact ⟨_, rfl, rings.removed, fun knows => iff_of_true knows.removed trivial⟩

/-! ### Histories of calls -/

def GhostStep (s t : LoggedGhosts) : Prop := ∃ op : GhostOp, op.exec s = .ok t

def SparingStep (s t : LoggedGhosts) : Prop := ∃ op : GhostOp, Spares s op ∧ op.exec s = .ok t

theorem GhostStep.rings (step : GhostStep s t) (rings : Rings capacity s) : Rings capacity t := by
  obtain ⟨op, run⟩ := step
  obtain ⟨u, run', kept, -⟩ := exec_spec rings op
  cases run.symm.trans run'
  exact kept

theorem SparingStep.knows (step : SparingStep s t) (rings : Rings capacity s)
    (knows : Knows capacity s) : Knows capacity t := by
  obtain ⟨op, spares, run⟩ := step
  obtain ⟨u, run', -, law⟩ := exec_spec rings op
  cases run.symm.trans run'
  exact (law knows).mpr spares

theorem knows_empty : Knows capacity (emptyGhosts capacity) := by
  intro hash
  rw [contains_iff]
  simp [emptyGhosts, not_live_nil]

theorem reached_rings (some_ : 1 ≤ capacity) (history : Reachable GhostStep (emptyGhosts capacity) s) :
    Rings capacity s :=
  history.invariant (Rings capacity) (rings_empty some_) fun _ _ rings step => step.rings rings

theorem spared_knows (some_ : 1 ≤ capacity)
    (history : Reachable SparingStep (emptyGhosts capacity) s) : Rings capacity s ∧ Knows capacity s := by
  refine history.invariant (fun s => Rings capacity s ∧ Knows capacity s)
    ⟨rings_empty some_, knows_empty⟩ ?_
  rintro s t ⟨rings, knows⟩ step
  obtain ⟨op, -, run⟩ := id step
  exact ⟨GhostStep.rings ⟨op, run⟩ rings, step.knows rings knows⟩

/-- In every history of calls on a ghost list with a capacity, every call returns and the
list never has more hashes than its capacity. If every call spared the hashes that have two slots,
the list knows exactly the live hashes; and then the next call keeps it so if and only if
it spares them too. -/
theorem ghost_list_fifo_iff (some_ : 1 ≤ capacity)
    (history : Reachable GhostStep (emptyGhosts capacity) s) :
    s.ghosts.size ≤ capacity ∧ (∀ op : GhostOp, ∃ t, op.exec s = .ok t) ∧
      (Reachable SparingStep (emptyGhosts capacity) s → Knows capacity s ∧
        ∀ (op : GhostOp) (t : LoggedGhosts), op.exec s = .ok t →
          (Knows capacity t ↔ Spares s op)) := by
  have rings := reached_rings some_ history
  refine ⟨rings.size_le, ?_, ?_⟩
  · intro op
    obtain ⟨t, run, -⟩ := exec_spec rings op
    exact ⟨t, run⟩
  · intro spared
    obtain ⟨-, knows⟩ := spared_knows some_ spared
    refine ⟨knows, fun op t run => ?_⟩
    obtain ⟨u, run', -, law⟩ := exec_spec rings op
    cases run.symm.trans run'
    exact law knows

/-- A list of one slot forgets its first hash for the second. -/
theorem ghost_list_fifo_iff_one :
    ∃ s : LoggedGhosts, Reachable SparingStep (emptyGhosts 1) s ∧
      s.log = [.inserted 8, .inserted 7] ∧ s.ghosts.size ≤ 1 ∧ Knows 1 s := by
  have first : SparingStep (emptyGhosts 1) ((emptyGhosts 1).pushed 7 0) :=
    ⟨.insert 7 0, by simp [Spares, emptyGhosts], rfl⟩
  have second : SparingStep ((emptyGhosts 1).pushed 7 0)
      (((emptyGhosts 1).pushed 7 0).overwritten ⟨7, 0⟩ 8 0) :=
    ⟨.insert 8 0, by simp [Spares, emptyGhosts, LoggedGhosts.pushed], rfl⟩
  have history := (Reachable.refl.next first).next second
  have plain : Reachable GhostStep (emptyGhosts 1) _ :=
    (Reachable.refl.next ⟨_, first.choose_spec.2⟩).next ⟨_, second.choose_spec.2⟩
  have law := ghost_list_fifo_iff (by decide) plain
  exact ⟨_, history, rfl, law.1, (law.2.2 history).1⟩

/-- A hash that was removed and inserted again has two slots. The next insert overwrites
the stale one, and with it the hash is forgotten, although no other insert came between. -/
theorem stale_slot_forgets :
    ∃ s : LoggedGhosts, Reachable GhostStep (emptyGhosts 2) s ∧
      s.log = [.inserted 8, .inserted 7, .removed 7, .inserted 7] ∧ Live 2 s.log 7 ∧
      s.ghosts.contains 7 = false := by
  have first : GhostStep (emptyGhosts 2) ((emptyGhosts 2).pushed 7 0) := ⟨.insert 7 0, rfl⟩
  have gone := Reachable.refl.next first |>.next ⟨.remove 7, rfl⟩
  have again : GhostStep (((emptyGhosts 2).pushed 7 0).removed 7)
      ((((emptyGhosts 2).pushed 7 0).removed 7).pushed 7 1) := ⟨.insert 7 1, rfl⟩
  have other : GhostStep ((((emptyGhosts 2).pushed 7 0).removed 7).pushed 7 1)
      (((((emptyGhosts 2).pushed 7 0).removed 7).pushed 7 1).overwritten ⟨7, 0⟩ 8 2) :=
    ⟨.insert 8 2, rfl⟩
  refine ⟨_, (gone.next again).next other, rfl, ?_, by decide⟩
  exact ⟨[.inserted 8], [.removed 7, .inserted 7], rfl, by decide, by decide, by decide⟩

end MmCar
