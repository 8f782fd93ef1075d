import CacheEviction.AdaptiveRemovals
import CacheEviction.RecordedCalls

/-!
# The fixed target of ARCfix

`ARCfix.c` is given a ratio. An eviction that finds the target `p` below one multiplies it
by the occupied bytes, which is meant to happen once; but the product may be below one as
well. And `ARCfix_to_evict` chooses by the target as it stands, so that before the first
multiplication it compares bytes with a ratio.

A recorder writes down the occupied bytes and the target before each eviction. With object
metadata, the sizes here are those of the objects with their metadata.
-/
namespace Arcfix

open AdaptiveLists Binary64 CacheGet FifoCache FuelLoops RecordedCalls StepTraces WeightedLists

/-! ## The preview -/

/-- `_ARCfix_to_replace`: the object at the tail of a data list, or null. -/
def arcfixToReplace (s : State Unit) : Option Nat :=
  if prefersL1 s then (s.lists .l1Data).head? else (s.lists .l2Data).head?

/-- `_ARCfix_to_evict_miss_on_all_queues` -/
def arcfixToEvictMiss (c : Nat) (s : State Unit) (r : Request) : Option Nat :=
  if (c : Int) < s.recent + r.objSize then
    if 0 < s.sizes .l1Ghost then arcfixToReplace s else (s.lists .l1Data).head?
  else arcfixToReplace s

def arcfixToEvict (c : Nat) (s : State Unit) (r : Request) : Option Nat :=
  if s.ghosted then arcfixToReplace s else arcfixToEvictMiss c s r

/-- The object that is announced for a request is the one that an eviction for this request
takes out of the data lists. -/
def Announces (c : Nat) (s : State Unit) (r : Request) : Prop :=
  ∃ id t, arcfixToEvict c s r = some id ∧ (∀ fuel, arcfixEvict c fuel s r = .ok t) ∧
    (id ∈ s.lists .l1Data ∨ id ∈ s.lists .l2Data) ∧
    t.lists .l1Data = (s.lists .l1Data).erase id ∧ t.lists .l2Data = (s.lists .l2Data).erase id

/-- The request is not for a ghost, it does not fit beside the objects and ghosts of `L1`, and
there are no such ghosts: the victim is the tail of `L1_data`, whatever the target is. -/
def Bypasses (c : Nat) (s : State Unit) (r : Request) : Prop :=
  s.ghosted = false ∧ (c : Int) < s.recent + r.objSize ∧ s.sizes .l1Ghost = 0

/-- The target decides nothing, or it is one already, or the list that holds more than the
ratio also holds more than the ratio of the occupied bytes. -/
def Decided (s : State Unit) : Prop :=
  s.sizes .l1Data = 0 ∨ s.sizes .l2Data = 0 ∨ 1 ≤ s.p ∨
    double (s.p * double s.occupiedByte) < double (s.sizes .l1Data) ∨
    double (s.sizes .l1Data) = double (s.p * double s.occupiedByte) ∧ s.currObjInL2Ghost = true

def Foretold (c : Nat) (s : State Unit) (r : Request) : Prop :=
  (Bypasses c s r → 0 < s.sizes .l1Data) ∧ (¬ Bypasses c s r → Decided s)

/-! ## The target over a run -/

/-- The occupied bytes and the target before an eviction. -/
structure Eviction where
  occupied : Int
  target : ℚ
  deriving DecidableEq

def Eviction.rescaled (e : Eviction) : ℚ :=
  if e.target < 1 then double (e.target * double e.occupied) else e.target

/-- The target after the evictions of a log, the latest first. -/
def targetAfter (ratio : ℚ) : List Eviction → ℚ
  | [] => ratio
  | e :: _ => e.rescaled

/-- The log of a run: each eviction found the target that the one before it had left, and
some occupied bytes. -/
def Chained (ratio : ℚ) : List Eviction → Prop
  | [] => True
  | e :: log => e.target = targetAfter ratio log ∧ 1 ≤ e.occupied ∧ Chained ratio log

section Targets

variable {ratio : ℚ} {e first : Eviction} {later log : List Eviction}

theorem one_le_double {n : Int} (positive : 1 ≤ n) : 1 ≤ double (n : ℚ) := by
  have one : Representable ((1 : ℕ) : ℚ) := representable_natCast (by norm_num)
  refine le_double (by simpa using one) ?_
  exact_mod_cast positive

theorem rescaled_good (representable : Representable e.target) (positive : 0 < e.target)
    (some_ : 1 ≤ e.occupied) : Representable e.rescaled ∧ 0 < e.rescaled := by
  have factor := one_le_double some_
  have product : 0 < e.target * double e.occupied := by positivity
  rw [Eviction.rescaled]
  split
  · exact ⟨representable_double product.le, double_pos product⟩
  · exact ⟨representable, positive⟩

theorem target_le_rescaled (representable : Representable e.target) (positive : 0 < e.target)
    (some_ : 1 ≤ e.occupied) : e.target ≤ e.rescaled := by
  have factor := one_le_double some_
  rw [Eviction.rescaled]
  split
  · exact le_double representable (le_mul_of_one_le_right positive.le factor)
  · exact le_rfl

theorem rescaled_eq_iff (representable : Representable e.target) (positive : 0 < e.target)
    (some_ : 1 ≤ e.occupied) : e.rescaled = e.target ↔ 1 ≤ e.target ∨ e.occupied = 1 := by
  rw [Eviction.rescaled]
  by_cases low : e.target < 1
  · rw [if_pos low]
    constructor
    · intro same
      by_contra other
      obtain ⟨_, many⟩ := not_or.mp other
      have two : Representable ((2 : ℕ) : ℚ) := representable_natCast (by norm_num)
      have factor : 2 ≤ double (e.occupied : ℚ) := by
        refine le_double (by simpa using two) ?_
        exact_mod_cast (by omega : (2 : Int) ≤ e.occupied)
      have larger : 2 * e.target ≤ double (e.target * double e.occupied) :=
        le_double representable.twice (by nlinarith)
      linarith
    · rintro (high | single)
      · linarith
      · have one : Representable ((1 : ℕ) : ℚ) := representable_natCast (by norm_num)
        have unit : double (((1 : Int) : ℚ)) = 1 := by
          have exact := double_of_representable one
          simpa using exact
        rw [single, unit, mul_one, double_of_representable representable]
  · rw [if_neg low]
    simp [not_lt.mp low]

theorem Chained.good (chained : Chained ratio log) (representable : Representable ratio)
    (positive : 0 < ratio) : Representable (targetAfter ratio log) ∧ 0 < targetAfter ratio log := by
  induction log with
  | nil => exact ⟨representable, positive⟩
  | cons e log ih =>
    obtain ⟨own, some_, rest⟩ := chained
    obtain ⟨double, above⟩ := ih rest
    rw [← own] at double above
    exact rescaled_good double above some_

theorem Chained.le (chained : Chained ratio (later ++ [first])) (representable : Representable ratio)
    (positive : 0 < ratio) : first.rescaled ≤ targetAfter ratio (later ++ [first]) := by
  induction later with
  | nil => exact le_rfl
  | cons e later ih =>
    obtain ⟨own, some_, rest⟩ := chained
    obtain ⟨double, above⟩ := rest.good representable positive
    rw [← own] at double above
    have raised := target_le_rescaled double above some_
    rw [own] at raised
    exact (ih rest).trans raised

theorem Chained.fixed_iff (chained : Chained ratio (later ++ [first]))
    (representable : Representable ratio) (positive : 0 < ratio) :
    targetAfter ratio (later ++ [first]) = first.rescaled ↔
      ∀ e ∈ later, 1 ≤ e.target ∨ e.occupied = 1 := by
  induction later with
  | nil => simp [targetAfter]
  | cons e later ih =>
    obtain ⟨own, some_, rest⟩ :
      e.target = targetAfter ratio (later ++ [first]) ∧ 1 ≤ e.occupied ∧
        Chained ratio (later ++ [first]) := chained
    obtain ⟨double, above⟩ := rest.good representable positive
    have bound := rest.le representable positive
    rw [← own] at double above bound
    have raised := target_le_rescaled double above some_
    have step := rescaled_eq_iff double above some_
    have before := ih rest
    rw [← own] at before
    rw [List.forall_mem_cons, ← step, ← before]
    constructor
    · intro same
      have same : e.rescaled = first.rescaled := same
      have equal : e.target = first.rescaled := le_antisymm (by linarith) bound
      exact ⟨by rw [same, equal], equal⟩
    · rintro ⟨same, equal⟩
      exact same.trans equal

end Targets

/-! ## Runs with their log -/

def clerk : Recorder (State Unit) (List Eviction) where
  found _ _ _ log := log
  evicted s _ log := ⟨s.occupiedByte, s.p⟩ :: log
  inserted _ _ log := log
  removed _ _ log := log

/-- A request for an object of some bytes, which are fewer than 2 ^ 32 if it can be stored. -/
def Fair (c : Nat) (r : Request) : Prop := 1 ≤ r.objSize ∧ (r.objSize < 2 ^ 32 ∨ c < r.objSize)

instance (c : Nat) (r : Request) : Decidable (Fair c r) := inferInstanceAs (Decidable (_ ∧ _))

abbrev Gets (c : Nat) : State Unit × List Eviction → State Unit × List Eviction → Prop :=
  Requested (clerk.policy (arcfix c)) (Fair c)

variable {c : Nat} {s t : State Unit} {r : Request}
variable {place src : Place} {u : State Unit} {a : State Unit × List Eviction} {ratio : ℚ}

theorem evictData_p {dst : Place} (run : evictData src dst s = .ok t) : t.p = s.p := by
  obtain ⟨⟨id, e⟩, _, rfl⟩ := map_eq_ok.mp run
  rfl

theorem arcReplace_p (run : Arc.arcReplace s = .ok t) : t.p = s.p := by
  unfold Arc.arcReplace at run
  split at run
  · exact evictData_p run
  · exact evictData_p run

theorem evictGhost_p (run : evictGhost place s = .ok u) : u.p = s.p := by
  obtain ⟨⟨id, e⟩, _, rfl⟩ := map_eq_ok.mp run
  rfl

theorem evict_p {fuel : Nat} (run : evict Arc.variant c fuel s r = .ok t) : t.p = s.p := by
  have afterGhost : ∀ place, (evictGhost place s >>= Arc.arcReplace) = .ok t → t.p = s.p := by
    intro place both
    obtain ⟨u, first, second⟩ := bind_eq_ok.mp both
    exact (arcReplace_p second).trans (evictGhost_p first)
  unfold evict evictMiss at run
  split at run
  · exact arcReplace_p run
  · split at run
    · split at run
      · exact afterGhost .l1Ghost run
      · obtain ⟨⟨id, e⟩, _, rfl⟩ := map_eq_ok.mp run
        rfl
    · split at run
      · exact afterGhost .l2Ghost run
      · exact arcReplace_p run

def Tracked (ratio : ℚ) (a : State Unit × List Eviction) : Prop :=
  a.1.p = targetAfter ratio a.2 ∧ Chained ratio a.2

theorem arcfixFind_p {a : Bool × State Unit} (run : arcfixFind s r = .ok a) : a.2.p = s.p := by
  rw [arcfixFind_eq 0] at run
  obtain ⟨b, _, rfl⟩ := map_eq_ok.mp run
  rfl

theorem arcfixInsert_p (run : arcfixInsert s r = .ok t) : t.p = s.p := by
  simp only [arcfixInsert, AdaptiveLists.insert] at run
  split at run
  · cases run
  · split at run
    · cases run
      rfl
    · cases run
      rfl

theorem get_tracked {b : State Unit × List Eviction} {hit : Bool} (tracked : Tracked ratio a)
    (served : Serves (clerk.policy (arcfix c)) a r hit b) : Tracked ratio b := by
  obtain ⟨N, run⟩ := served
  refine cacheGetBase_keeps (p := clerk.policy (arcfix c)) (Q := fun _ => Tracked ratio) (Tracked ratio)
    (fun u => Tracked ratio u ∧ r.objSize ≤ c) ?_ ?_ ?_ ?_ (run N le_rfl)
  · intro hit t found
    obtain ⟨x, first, same⟩ := map_eq_ok.mp found
    cases same
    have kept : Tracked ratio (x.2, a.2) := ⟨(arcfixFind_p first).trans tracked.1, tracked.2⟩
    split
    · exact kept
    · exact kept
  · intro u x kept decided
    cases decided
    by_cases fits : r.objSize ≤ c
    · simp only [fits, decide_true, if_true]
      exact ⟨kept, trivial⟩
    · simp only [fits, decide_false, Bool.false_eq_true, if_false]
      exact kept
  · rintro ⟨u, log⟩ v ⟨⟨target, chained⟩, fits⟩ full evicted
    obtain ⟨w, first, same⟩ := map_eq_ok.mp evicted
    cases same
    have some_ : 1 ≤ u.occupiedByte := by
      simp only [Recorder.policy, arcfix] at full
      omega
    refine ⟨⟨?_, target, some_, chained⟩, fits⟩
    rw [evict_p first]
    simp only [scaleTarget, clerk, targetAfter, Eviction.rescaled]
    split
    · rfl
    · rfl
  · rintro ⟨u, log⟩ v ⟨⟨target, chained⟩, _⟩ _ inserted
    obtain ⟨w, first, same⟩ := map_eq_ok.mp inserted
    cases same
    exact ⟨(arcfixInsert_p first).trans target, chained⟩

theorem gets_tracked (history : Reachable (Gets c) (arcfixInit ratio, []) a) : Tracked ratio a := by
  have initially : Tracked ratio (arcfixInit ratio, []) := ⟨rfl, trivial⟩
  refine history.invariant (Tracked ratio) initially ?_
  rintro a b tracked ⟨r, _, served⟩
  exact get_tracked tracked served

theorem Fair.narrow (fair : Fair c r) (s : State Unit) : Narrow c s r := by
  rcases fair.2 with small | large
  · exact .inl small
  · exact .inr (.inl large)

theorem gets_sound (history : Reachable (Gets c) (arcfixInit ratio, []) a) : Sound a.1 := by
  have initially : Sound (arcfixInit ratio) := Sound.init.congr rfl rfl rfl rfl
  refine history.invariant (fun a => Sound a.1) initially ?_
  rintro a b sound ⟨r, fair, served⟩
  have plain := clerk.forget served
  exact ((((arcfix_calls c).serve sound fair.1).result plain).1 (fair.narrow a.1))

/-! ## The victim of an eviction -/

def chosen (s : State Unit) : Place := if prefersL1 s then .l1Data else .l2Data

theorem arcfixToReplace_eq (s : State Unit) : arcfixToReplace s = (s.lists (chosen s)).head? := by
  rw [arcfixToReplace, chosen]
  split
  · rfl
  · rfl

theorem chosen_data (s : State Unit) : chosen s = .l1Data ∨ chosen s = .l2Data := by
  rw [chosen]
  split
  · exact .inl rfl
  · exact .inr rfl

theorem chosen_nonempty (sound : Sound s) (some_ : 1 ≤ s.data) : 0 < s.sizes (chosen s) := by
  have nonempty := prefersL1_spec sound some_
  rw [chosen]
  split at nonempty
  · rename_i first
    rwa [if_pos first]
  · rename_i second
    rwa [if_neg second]

/-- What leaves the data lists: the first object of one of them. -/
structure Takes (src : Place) (id : Nat) (s t : State Unit) : Prop where
  first : (s.lists src).head? = some id
  taken : t.lists src = (s.lists src).erase id
  other : ∀ place, place = .l1Data ∨ place = .l2Data → place ≠ src → t.lists place = s.lists place

theorem evictData_takes {dst : Place} (sound : Sound s) (nonempty : 0 < s.sizes src)
    (data : src = .l1Data ∨ src = .l2Data) (ghost : dst = .l1Ghost ∨ dst = .l2Ghost) :
    ∃ id t, evictData src dst s = .ok t ∧ Takes src id s t := by
  obtain ⟨id, rest, e, shape, tail, _, _⟩ := sound.weighed.tail nonempty
  refine ⟨id, _, map_eq_ok.mpr ⟨(id, e), tail, rfl⟩, by rw [shape]; rfl, ?_, ?_⟩
  · rcases data with rfl | rfl <;> rcases ghost with rfl | rfl <;>
      simp [State.relocate, State.store, State.link, State.unlink]
  · intro place here apart
    have own : place ≠ dst := by
      rcases here with rfl | rfl <;> rcases ghost with rfl | rfl <;> decide
    simp [State.relocate, State.store, State.link, State.unlink, apart, own]

theorem arcReplace_takes (sound : Sound s) (some_ : 1 ≤ s.data) :
    ∃ id t, Arc.arcReplace s = .ok t ∧ Takes (chosen s) id s t := by
  have nonempty := chosen_nonempty sound some_
  unfold Arc.arcReplace
  unfold chosen at nonempty ⊢
  split at nonempty
  · rename_i first
    simp only [if_pos first]
    exact evictData_takes sound nonempty (.inl rfl) (.inl rfl)
  · rename_i second
    simp only [if_neg second]
    exact evictData_takes sound nonempty (.inr rfl) (.inr rfl)

theorem evictNoGhost_takes (sound : Sound s) (nonempty : 0 < s.sizes .l1Data) :
    ∃ id t, evictNoGhost s = .ok t ∧ Takes .l1Data id s t := by
  obtain ⟨id, rest, e, shape, tail, _, _⟩ := sound.weighed.tail nonempty
  refine ⟨id, _, map_eq_ok.mpr ⟨(id, e), tail, rfl⟩, by rw [shape]; rfl, ?_, ?_⟩
  · simp [State.discard, State.store, State.unlink]
  · intro place _ apart
    simp [State.discard, State.store, State.unlink, apart]

theorem Takes.announced_iff {id i : Nat} (takes : Takes src id s t) (sound : Sound s)
    (here : src = .l1Data ∨ src = .l2Data) (there : place = .l1Data ∨ place = .l2Data)
    (first : (s.lists place).head? = some i) :
    ((i ∈ s.lists .l1Data ∨ i ∈ s.lists .l2Data) ∧ t.lists .l1Data = (s.lists .l1Data).erase i ∧
      t.lists .l2Data = (s.lists .l2Data).erase i) ↔ place = src := by
  have member : i ∈ s.lists place := List.mem_of_head? first
  constructor
  · rintro ⟨_, l1, l2⟩
    by_contra apart
    -- the list of the announced object has not changed
    have same := takes.other place there apart
    have erased : t.lists place = (s.lists place).erase i := by
      rcases there with rfl | rfl
      · exact l1
      · exact l2
    have shorter := List.length_erase_of_mem member
    have positive := List.length_pos_of_mem member
    rw [← erased, same] at shorter
    omega
  · intro own
    subst own
    have one : i = id := Option.some.inj (first.symm.trans takes.first)
    subst one
    -- an object is in one list only
    have absent : ∀ other, other ≠ place → i ∉ s.lists other := by
      intro other apart inside
      obtain ⟨e, found, placed⟩ := sound.weighed.listed.mem_iff.mp member
      obtain ⟨e', found', placed'⟩ := sound.weighed.listed.mem_iff.mp inside
      rw [found] at found'
      cases found'
      exact apart (placed'.symm.trans placed)
    have erased : ∀ other, other = .l1Data ∨ other = .l2Data → t.lists other = (s.lists other).erase i := by
      intro other data
      by_cases same : other = place
      · rw [same]
        exact takes.taken
      · rw [takes.other other data same, List.erase_of_not_mem (absent other same)]
    refine ⟨?_, erased .l1Data (.inl rfl), erased .l2Data (.inr rfl)⟩
    rcases there with rfl | rfl
    · exact .inl member
    · exact .inr member

/-- A state in which the data, the target and the flags are those of another. -/
structure Alike (s u : State Unit) : Prop where
  lists : ∀ place, place = .l1Data ∨ place = .l2Data → u.lists place = s.lists place
  sizes : ∀ place, place = .l1Data ∨ place = .l2Data → u.sizes place = s.sizes place
  p : u.p = s.p
  inL2 : u.currObjInL2Ghost = s.currObjInL2Ghost

theorem Alike.refl (s : State Unit) : Alike s s := ⟨fun _ _ => rfl, fun _ _ => rfl, rfl, rfl⟩

theorem Alike.chosen (alike : Alike s u) : chosen u = chosen s := by
  rw [Arcfix.chosen, Arcfix.chosen, prefersL1, prefersL1, alike.sizes .l1Data (.inl rfl),
    alike.sizes .l2Data (.inr rfl), alike.p, alike.inL2]

theorem evictGhost_alike (sound : Sound s) (nonempty : 0 < s.sizes place)
    (ghost : place = .l1Ghost ∨ place = .l2Ghost) :
    ∃ u, evictGhost place s = .ok u ∧ Sound u ∧ Alike s u := by
  obtain ⟨u, run, forgot⟩ := evictGhost_forgot sound nonempty ghost
  refine ⟨u, run, forgot.sound, ?_⟩
  obtain ⟨⟨id, e⟩, _, rfl⟩ := map_eq_ok.mp run
  have apart : ∀ data, data = .l1Data ∨ data = .l2Data → data ≠ place := by
    rintro data (rfl | rfl) <;> rcases ghost with rfl | rfl <;> decide
  constructor
  · intro data here
    simp [State.discard, State.store, State.unlink, apart data here]
  · intro data here
    simp [State.discard, State.store, State.unlink, apart data here]
  · rfl
  · rfl

theorem evict_replaces (sound : Sound s) (uses : ¬ Bypasses c s r) :
    ∃ u, Sound u ∧ Alike s u ∧ ∀ fuel, evict Arc.variant c fuel s r = Arc.arcReplace u := by
  unfold evict
  cases ghosted : s.ghosted with
  | true => exact ⟨s, sound, .refl s, fun _ => rfl⟩
  | false =>
    simp only [Bool.false_eq_true, if_false, evictMiss]
    by_cases crowd : (c : Int) < s.recent + r.objSize
    · have haunted : 0 < s.sizes .l1Ghost := by
        have nonneg := sound.weighed.size_nonneg .l1Ghost
        by_contra none
        exact uses ⟨ghosted, crowd, by omega⟩
      obtain ⟨u, run, sound', alike⟩ := evictGhost_alike sound haunted (.inl rfl)
      refine ⟨u, sound', alike, fun _ => ?_⟩
      simp only [if_pos crowd, if_pos haunted, run]
      rfl
    · by_cases crammed : (c : Int) * 2 ≤ s.all ∧ 0 < s.sizes .l2Ghost
      · obtain ⟨u, run, sound', alike⟩ := evictGhost_alike sound crammed.2 (.inr rfl)
        refine ⟨u, sound', alike, fun _ => ?_⟩
        simp only [if_neg crowd, if_pos crammed, run]
        rfl
      · refine ⟨s, sound, .refl s, fun _ => ?_⟩
        simp only [if_neg crowd, if_neg crammed]
        rfl

theorem scaleTarget_lists (s : State Unit) : (scaleTarget s).lists = s.lists := by
  unfold scaleTarget
  split <;> rfl

theorem scaleTarget_ghosted (s : State Unit) : (scaleTarget s).ghosted = s.ghosted := by
  unfold scaleTarget
  split <;> rfl

theorem bypasses_scaleTarget (c : Nat) (s : State Unit) (r : Request) :
    Bypasses c (scaleTarget s) r ↔ Bypasses c s r := by
  rw [Bypasses, Bypasses, scaleTarget_ghosted, State.recent, State.recent, scaleTarget_sizes]

theorem arcfixToEvict_replaces (sound : Sound s) (uses : ¬ Bypasses c s r) :
    arcfixToEvict c s r = arcfixToReplace s := by
  rw [arcfixToEvict]
  split
  · rfl
  · rename_i missed
    rw [arcfixToEvictMiss]
    split
    · rename_i crowd
      have haunted : 0 < s.sizes .l1Ghost := by
        have nonneg := sound.weighed.size_nonneg .l1Ghost
        by_contra none
        exact uses ⟨by simpa using missed, crowd, by omega⟩
      rw [if_pos haunted]
    · rfl

theorem Takes.of_alike {id : Nat} (takes : Takes src id u t) (data : src = .l1Data ∨ src = .l2Data)
    (lists : ∀ place, place = .l1Data ∨ place = .l2Data → u.lists place = s.lists place) :
    Takes src id s t where
  first := by
    rw [← lists src data]
    exact takes.first
  taken := by
    rw [← lists src data]
    exact takes.taken
  other place here apart := by
    rw [← lists place here]
    exact takes.other place here apart

theorem announces_replacement (sound : Sound s) (some_ : 1 ≤ s.data) (uses : ¬ Bypasses c s r) :
    Announces c s r ↔ chosen s = chosen (scaleTarget s) := by
  obtain ⟨u, sound', alike, run⟩ :=
    evict_replaces (scaleTarget_sound sound) ((bypasses_scaleTarget c s r).not.mpr uses)
  have lists : ∀ place, place = .l1Data ∨ place = .l2Data → u.lists place = s.lists place := by
    intro place data
    rw [alike.lists place data, scaleTarget_lists]
  have data : u.data = s.data := by
    rw [State.data, State.data, alike.sizes .l1Data (.inl rfl), alike.sizes .l2Data (.inr rfl),
      scaleTarget_sizes]
  obtain ⟨id, t, replaced, taken⟩ := arcReplace_takes sound' (by omega)
  have takes := taken.of_alike (chosen_data u) lists
  obtain ⟨i, rest, e, shape, _, _, _⟩ := sound.weighed.tail (chosen_nonempty sound some_)
  have first : (s.lists (chosen s)).head? = some i := by rw [shape]; rfl
  have preview : arcfixToEvict c s r = some i := by
    rw [arcfixToEvict_replaces sound uses, arcfixToReplace_eq, first]
  have evicted : ∀ fuel, arcfixEvict c fuel s r = .ok t := fun fuel => (run fuel).trans replaced
  rw [← alike.chosen, ← takes.announced_iff sound (chosen_data u) (chosen_data s) first]
  constructor
  · rintro ⟨j, v, announced, evicted', result⟩
    rw [preview] at announced
    cases announced
    have same := (evicted 0).symm.trans (evicted' 0)
    cases same
    exact result
  · intro result
    exact ⟨i, t, preview, evicted, result⟩

theorem announces_bypassing (sound : Sound s) (bypasses : Bypasses c s r) :
    Announces c s r ↔ 0 < s.sizes .l1Data := by
  obtain ⟨ghosted, crowd, none⟩ := bypasses
  have preview : arcfixToEvict c s r = (s.lists .l1Data).head? := by
    rw [arcfixToEvict, arcfixToEvictMiss, ghosted, if_neg (by simp), if_pos crowd, if_neg (by omega)]
  have evicted : ∀ fuel, arcfixEvict c fuel s r = evictNoGhost (scaleTarget s) := by
    intro fuel
    have crowd' : (c : Int) < (scaleTarget s).recent + r.objSize := by
      rw [State.recent, scaleTarget_sizes]
      exact crowd
    rw [arcfixEvict, evict, scaleTarget_ghosted, ghosted, if_neg (by simp), evictMiss, if_pos crowd',
      scaleTarget_sizes, if_neg (by omega)]
    rfl
  constructor
  · rintro ⟨i, t, announced, _⟩
    rw [preview] at announced
    rw [sound.weighed.size_pos_iff]
    intro empty
    rw [empty] at announced
    cases announced
  · intro nonempty
    have sound' := scaleTarget_sound sound
    obtain ⟨id, t, run, taken⟩ := evictNoGhost_takes sound' (by rwa [scaleTarget_sizes])
    have takes : Takes .l1Data id s t := taken.of_alike (.inl rfl) (by simp [scaleTarget_lists])
    refine ⟨id, t, preview.trans takes.first, fun fuel => (evicted fuel).trans run, ?_⟩
    exact (takes.announced_iff sound (.inl rfl) (.inl rfl) takes.first).mpr rfl

theorem chosen_of_empty (some_ : 1 ≤ s.data) (empty : s.sizes .l1Data = 0) : chosen s = .l2Data := by
  have second : s.sizes .l2Data ≠ 0 := by
    rw [State.data] at some_
    omega
  simp [chosen, prefersL1, empty, second]

theorem chosen_of_single (single : s.sizes .l2Data = 0) : chosen s = .l1Data := by
  simp [chosen, prefersL1, single]

theorem chosen_eq_iff (first : 0 < s.sizes .l1Data) (second : s.sizes .l2Data ≠ 0) :
    chosen s = .l1Data ↔ s.p < double (s.sizes .l1Data) ∨
      double (s.sizes .l1Data) = s.p ∧ s.currObjInL2Ghost = true := by
  have shape : prefersL1 s = true ↔ s.p < double (s.sizes .l1Data) ∨
      double (s.sizes .l1Data) = s.p ∧ s.currObjInL2Ghost = true := by
    simp [prefersL1, first, second]
  rw [← shape, chosen]
  cases prefersL1 s with
  | true => simp
  | false => simp

theorem scaleTarget_inL2 (s : State Unit) : (scaleTarget s).currObjInL2Ghost = s.currObjInL2Ghost := by
  unfold scaleTarget
  split <;> rfl

theorem chosen_scaleTarget_iff (sound : Sound s) (some_ : 1 ≤ s.data) :
    chosen s = chosen (scaleTarget s) ↔ Decided s := by
  have data : (scaleTarget s).data = s.data := by rw [State.data, State.data, scaleTarget_sizes]
  have nonneg := sound.weighed.size_nonneg .l1Data
  by_cases first : s.sizes .l1Data = 0
  · have before := chosen_of_empty some_ first
    have after := chosen_of_empty (s := scaleTarget s) (by omega) (by rwa [scaleTarget_sizes])
    exact iff_of_true (before.trans after.symm) (.inl first)
  · by_cases second : s.sizes .l2Data = 0
    · have before := chosen_of_single second
      have after := chosen_of_single (s := scaleTarget s) (by rwa [scaleTarget_sizes])
      exact iff_of_true (before.trans after.symm) (.inr (.inl second))
    · by_cases scaled : 1 ≤ s.p
      · have same : scaleTarget s = s := if_neg (not_lt.mpr scaled)
        exact iff_of_true (by rw [same]) (.inr (.inr (.inl scaled)))
      · -- the ratio is below the bytes of any list
        have ratio := not_le.mp scaled
        have bytes := one_le_double (n := s.sizes .l1Data) (by omega)
        have before : chosen s = .l1Data :=
          (chosen_eq_iff (by omega) second).mpr (.inl (lt_of_lt_of_le ratio bytes))
        have after := chosen_eq_iff (s := scaleTarget s) (by rw [scaleTarget_sizes]; omega)
          (by rwa [scaleTarget_sizes])
        have target : (scaleTarget s).p = double (s.p * double s.occupiedByte) := by
          rw [scaleTarget, if_pos ratio]
        rw [target, scaleTarget_sizes, scaleTarget_inL2] at after
        rw [before, eq_comm, after, Decided]
        simp only [first, second, scaled, false_or]

theorem announces_iff (sound : Sound s) (some_ : 1 ≤ s.data) (r : Request) :
    Announces c s r ↔ Foretold c s r := by
  rw [Foretold]
  by_cases bypasses : Bypasses c s r
  · rw [announces_bypassing sound bypasses]
    simp [bypasses]
  · rw [announces_replacement sound some_ bypasses, chosen_scaleTarget_iff sound some_]
    simp [bypasses]

theorem data_pos_iff (sound : Sound s) :
    1 ≤ s.data ↔ s.lists .l1Data ≠ [] ∨ s.lists .l2Data ≠ [] := by
  have first := sound.weighed.size_nonneg .l1Data
  have second := sound.weighed.size_nonneg .l2Data
  rw [← sound.weighed.size_pos_iff, ← sound.weighed.size_pos_iff, State.data]
  omega

theorem arcfixGet_mono (c : Nat) (a : State Unit × List Eviction) (r : Request) :
    FuelMono fun n => cacheGetBase (clerk.policy (arcfix c)) n a r :=
  clerk.get_mono (fun _ => .const _) (fun s => .const (arcfixEvict c 0 s r)) a

/-- In every run of `ARCfix_get`, the target is the ratio until the first eviction; from then
on it is the ratio of the bytes that were occupied then, if and only if each later eviction
found it at one or more, or found a single byte. In a state that is not empty the preview is
right for a request if and only if it bypasses the target and `L1_data` has an object, or does
not bypass it and the target is settled or decides nothing. Each request is served. -/
theorem arcfix_partition_iff (c : Nat) {ratio : ℚ} (representable : Representable ratio)
    (positive : 0 < ratio) (below : ratio < 1) {s : State Unit} {log : List Eviction}
    (history : Reachable (Gets c) (arcfixInit ratio, []) (s, log)) :
    (log = [] → s.p = ratio) ∧
    (∀ later first, log = later ++ [first] →
      (s.p = double (ratio * double first.occupied) ↔
        ∀ e ∈ later, 1 ≤ e.target ∨ e.occupied = 1)) ∧
    ((s.lists .l1Data ≠ [] ∨ s.lists .l2Data ≠ []) → ∀ r, Announces c s r ↔ Foretold c s r) ∧
    ∀ r, Fair c r → ∃ hit a, Serves (clerk.policy (arcfix c)) (s, log) r hit a := by
  obtain ⟨target, chained⟩ := gets_tracked history
  have sound := gets_sound history
  refine ⟨?_, ?_, ?_, ?_⟩
  · rintro rfl
    exact target
  · rintro later first rfl
    have start : first.rescaled = double (ratio * double first.occupied) := by
      have initial : ∀ later, Chained ratio (later ++ [first]) → first.target = ratio := by
        intro later chained
        induction later with
        | nil => exact chained.1
        | cons e later ih => exact ih chained.2.2
      rw [Eviction.rescaled, initial later chained, if_pos below]
    have last : s.p = targetAfter ratio (later ++ [first]) := target
    rw [last, ← start, chained.fixed_iff representable positive]
  · intro some_ r
    exact announces_iff sound ((data_pos_iff sound).mpr some_) r
  · intro r fair
    obtain ⟨⟨hit, t⟩, served, _⟩ := (arcfix_calls c).serve sound fair.1
    obtain ⟨log', recorded⟩ := clerk.follow (fun a => arcfixGet_mono c a r) served log
    exact ⟨hit, (t, log'), recorded⟩

/-- Four bytes and a half of them for `L1`: the target is set to two bytes and stays there, and
the preview for object 7 is right. -/
theorem arcfix_partition_iff_half : ∃ s log,
    Reachable (Gets 4) (arcfixInit (1 / 2), []) (s, log) ∧ log.length = 2 ∧
      s.p = double (1 / 2 * double (4 : Int)) ∧ Announces 4 s ⟨7, 1⟩ := by
  have half : Representable (1 / 2) := ⟨1, -1, by norm_num, by norm_num⟩
  have run : Returns (serveAll (clerk.policy (arcfix 4)) 5 (arcfixInit (1 / 2), [])
      [⟨1, 1⟩, ⟨1, 1⟩, ⟨2, 1⟩, ⟨3, 1⟩, ⟨4, 1⟩, ⟨5, 1⟩, ⟨6, 1⟩])
      (fun a => a.2 = [⟨4, 2⟩] ++ [⟨4, 1 / 2⟩] ∧ a.1.lists .l1Data = [4, 5, 6] ∧
        a.1.sizes .l1Ghost = 1 ∧ 1 ≤ a.1.p) = true := by
    decide +kernel
  obtain ⟨⟨s, log⟩, served, facts⟩ := exists_of_returns run
  simp only [decide_eq_true_eq] at facts
  obtain ⟨evictions, l1, ghosts, settled⟩ := facts
  have history : Reachable (Gets 4) (arcfixInit (1 / 2), []) (s, log) :=
    serveAll_reachable (arcfixGet_mono 4) (by decide) .refl served
  obtain ⟨_, fixed, announces, _⟩ := arcfix_partition_iff 4 half (by norm_num) (by norm_num) history
  have nonempty : s.lists .l1Data ≠ [] := by
    rw [l1]
    exact List.cons_ne_nil _ _
  refine ⟨s, log, history, by rw [evictions]; rfl, ?_, ?_⟩
  · exact (fixed _ _ evictions).mpr (by simp)
  · refine (announces (.inl nonempty) ⟨7, 1⟩).mpr ⟨?_, fun _ => .inr (.inr (.inl settled))⟩
    rintro ⟨_, _, none⟩
    omega

/-- The target may be set more than once: with two bytes and a ratio of a quarter the first
eviction makes it a half, and the second makes it one. And the preview may be wrong: of four
objects, 4 is in `L1_data` and 1, 2 and 3 are in `L2_data`; 4 is announced, but an eviction
takes 1. -/
theorem arcfix_rescales :
    (∃ s log, Reachable (Gets 2) (arcfixInit (1 / 4), []) (s, log) ∧
      log.map Eviction.occupied = [2, 2] ∧ s.p = 1 ∧ double (1 / 4 * double (2 : Int)) = 1 / 2) ∧
    ∃ s, Reachable (Gets 4) (arcfixInit (1 / 2), []) (s, []) ∧
      s.lists .l1Data = [4] ∧ s.lists .l2Data = [1, 2, 3] ∧ ¬ Announces 4 s ⟨5, 1⟩ := by
  constructor
  · have run : Returns (serveAll (clerk.policy (arcfix 2)) 5 (arcfixInit (1 / 4), [])
        [⟨1, 1⟩, ⟨2, 1⟩, ⟨3, 1⟩, ⟨4, 1⟩])
        (fun a => a.2.map Eviction.occupied = [2, 2] ∧ a.1.p = 1) = true := by
      decide +kernel
    obtain ⟨⟨s, log⟩, served, facts⟩ := exists_of_returns run
    obtain ⟨evictions, target⟩ := of_decide_eq_true facts
    have history : Reachable (Gets 2) (arcfixInit (1 / 4), []) (s, log) :=
      serveAll_reachable (arcfixGet_mono 2) (by decide) .refl served
    exact ⟨s, log, history, evictions, target, by decide +kernel⟩
  · have run : Returns (serveAll (clerk.policy (arcfix 4)) 5 (arcfixInit (1 / 2), [])
        [⟨1, 1⟩, ⟨1, 1⟩, ⟨2, 1⟩, ⟨2, 1⟩, ⟨3, 1⟩, ⟨3, 1⟩, ⟨4, 1⟩])
        (fun a => a.2 = [] ∧ a.1.lists .l1Data = [4] ∧ a.1.lists .l2Data = [1, 2, 3] ∧
          arcfixToEvict 4 a.1 ⟨5, 1⟩ = some 4 ∧
          Returns (arcfixEvict 4 0 a.1 ⟨5, 1⟩) (fun t => t.lists .l1Data = [4]) = true) = true := by
      decide +kernel
    obtain ⟨⟨s, log⟩, served, facts⟩ := exists_of_returns run
    obtain ⟨evictions, l1, l2, preview, evicted⟩ := of_decide_eq_true facts
    cases evictions
    obtain ⟨t, taken, kept⟩ := exists_of_returns evicted
    refine ⟨s, serveAll_reachable (arcfixGet_mono 4) (by decide) .refl served, l1, l2, ?_⟩
    rintro ⟨id, u, announced, removed, _, erased, _⟩
    cases preview.symm.trans announced
    cases taken.symm.trans (removed 0)
    rw [of_decide_eq_true kept, l1] at erased
    cases erased

end Arcfix
