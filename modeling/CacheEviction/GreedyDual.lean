import CacheEviction.Binary64
import CacheEviction.RecordedCalls
import Mathlib.Order.WithBot

/-!
# Greedy-dual caching by size and frequency

Every cached object has a priority, the priority of the last victim plus its frequency over
its size, and the object of the lowest priority is evicted. The priorities are doubles, so
what is added to the priority of the last victim may be lost in rounding, but no more.
-/
namespace Gdsf

open Binary64 RecordedCalls

/-! ## Priorities -/

/-- A `double` that is not negative. A quotient by size 0 is infinite. -/
abbrev Priority := WithTop ℚ

def Priority.add : Priority → Priority → Priority := WithTop.map₂ fun x y => double (x + y)

/-- `x / obj_size` -/
def perByte (x : ℚ) (objSize : UInt32) : Priority :=
  if objSize = 0 then ⊤ else ↑(double (x / objSize.toNat))

/-- `(double)(freq) * 1.0e6 / obj_size` -/
def score (freq : Nat) (objSize : UInt32) : Priority :=
  perByte (double (double freq * 1000000)) objSize

/-- What a variable of type `double` can hold. -/
def Priority.Valid (a : Priority) : Prop := ∀ x : ℚ, a = x → 0 ≤ x ∧ Representable x

theorem valid_coe {x : ℚ} (nonneg : 0 ≤ x) (representable : Representable x) :
    Priority.Valid (x : Priority) := by
  intro y same
  cases WithTop.coe_injective same
  exact ⟨nonneg, representable⟩

theorem valid_top : Priority.Valid ⊤ := by
  intro x impossible
  cases impossible

theorem valid_zero : Priority.Valid 0 :=
  valid_coe le_rfl ⟨0, 0, by norm_num, by norm_num⟩

theorem perByte_valid {x : ℚ} (nonneg : 0 ≤ x) (objSize : UInt32) : (perByte x objSize).Valid := by
  have quotient : 0 ≤ x / objSize.toNat := by positivity
  unfold perByte
  split
  · exact valid_top
  · exact valid_coe (double_nonneg quotient) (representable_double quotient)

theorem score_valid (freq : Nat) (objSize : UInt32) : (score freq objSize).Valid := by
  have count : 0 ≤ double freq := double_nonneg (by positivity)
  exact perByte_valid (double_nonneg (by positivity)) objSize

theorem Priority.Valid.add {a b : Priority} (left : a.Valid) (right : b.Valid) : (a.add b).Valid := by
  induction a using WithTop.recTopCoe with
  | top => exact valid_top
  | coe x =>
    induction b using WithTop.recTopCoe with
    | top => exact valid_top
    | coe y =>
      have sum : 0 ≤ x + y := add_nonneg (left x rfl).1 (right y rfl).1
      exact valid_coe (double_nonneg sum) (representable_double sum)

theorem Priority.Valid.le_add {a b : Priority} (left : a.Valid) (right : b.Valid) : a ≤ a.add b := by
  induction a using WithTop.recTopCoe with
  | top => exact le_rfl
  | coe x =>
    induction b using WithTop.recTopCoe with
    | top => exact le_top
    | coe y =>
      have more : x ≤ x + y := le_add_of_nonneg_right (right y rfl).1
      exact WithTop.coe_le_coe.mpr (le_double (left x rfl).2 more)

theorem perByte_first (objSize : UInt32) : perByte 1000000 objSize = score 1 objSize := by
  have one : double ((1 : Nat) : ℚ) = 1 := by
    rw [double_of_representable (representable_natCast (by norm_num))]
    norm_num
  have million : double 1000000 = 1000000 := by
    have exact := double_of_representable (representable_natCast (n := 1000000) (by norm_num))
    exact_mod_cast exact
  rw [score, one, one_mul, million]

/-! ## The algorithm -/

/-- What decides about an object: its requests since it was inserted, its size, its priority
and the time of its last request. -/
structure Standing where
  uses : Nat
  objSize : UInt32
  priority : Priority
  lastRequest : Nat

/-- Lower priority first; at equal priorities the older last request. -/
def Standing.le (a b : Standing) : Prop :=
  a.priority < b.priority ∨ a.priority = b.priority ∧ a.lastRequest ≤ b.lastRequest

/-- The priority at which the victim was evicted. -/
def priorityAt (e : Eviction Standing) : Priority :=
  ((e.standings e.victim).map Standing.priority).getD 0

def inflation (l : Ledger Standing) : Priority := (l.evictions.head?.map priorityAt).getD 0

/-- A request for an object that has been requested `uses` times before. -/
def request (l : Ledger Standing) (id uses : Nat) (objSize : UInt32) (now : Nat) : Ledger Standing :=
  l.enter id ⟨uses + 1, objSize, (inflation l).add (score (uses + 1) objSize), now⟩

def touch (l : Ledger Standing) (id now : Nat) : Ledger Standing :=
  match l.standings id with
  | none => l
  | some standing => request l id standing.uses standing.objSize now

/-- The priority of the last victim is a floor for the cached objects, which rises, and each
victim was the least. -/
structure Rising (l : Ledger Standing) : Prop where
  valid : (inflation l).Valid
  floor : ∀ id standing, l.standings id = some standing → inflation l ≤ standing.priority
  doubles : ∀ id standing, l.standings id = some standing → standing.priority.Valid
  evictions : (l.evictions.map priorityAt).Pairwise fun later earlier => earlier ≤ later
  least : ∀ e ∈ l.evictions, e.Least Standing.le

theorem rising_empty : Rising .empty where
  valid := valid_zero
  floor _ _ found := by cases found
  doubles _ _ found := by cases found
  evictions := List.Pairwise.nil
  least _ member := by cases member

theorem Rising.enter {l : Ledger Standing} (rising : Rising l) {id : Nat} {standing : Standing}
    (above : inflation l ≤ standing.priority) (valid : standing.priority.Valid) :
    Rising (l.enter id standing) where
  valid := rising.valid
  floor i other found := by
    rcases of_enter found with ⟨_, rfl⟩ | stays
    · exact above
    · exact rising.floor i other stays
  doubles i other found := by
    rcases of_enter found with ⟨_, rfl⟩ | stays
    · exact valid
    · exact rising.doubles i other stays
  evictions := rising.evictions
  least := rising.least

theorem Rising.request {l : Ledger Standing} (rising : Rising l) (id uses : Nat) (objSize : UInt32)
    (now : Nat) : Rising (request l id uses objSize now) :=
  rising.enter (rising.valid.le_add (score_valid _ _)) (rising.valid.add (score_valid _ _))

theorem Rising.leave {l : Ledger Standing} (rising : Rising l) (id : Nat) : Rising (l.leave id) where
  valid := rising.valid
  floor i other found := rising.floor i other (of_leave found)
  doubles i other found := rising.doubles i other (of_leave found)
  evictions := rising.evictions
  least := rising.least

theorem Rising.evict {l : Ledger Standing} (rising : Rising l) {id : Nat} {own : Standing}
    (found : l.standings id = some own)
    (least : ∀ i other, l.standings i = some other → own.le other) : Rising (l.evict id) := by
  have price : priorityAt ⟨id, l.standings⟩ = own.priority := by
    simp only [priorityAt, found, Option.map_some, Option.getD_some]
  have floor : inflation (l.evict id) = own.priority := price
  constructor
  · rw [floor]
    exact rising.doubles id own found
  · intro i other stays
    rw [floor]
    rcases least i other (of_leave stays) with less | ⟨equal, _⟩
    · exact less.le
    · exact equal.le
  · intro i other stays
    exact rising.doubles i other (of_leave stays)
  · rw [Ledger.evict, List.map_cons, List.pairwise_cons, price]
    refine ⟨?_, rising.evictions⟩
    -- every earlier priority is at most that of the last victim, which is the floor
    intro earlier member
    have last : earlier ≤ inflation l := by
      have sorted := rising.evictions
      unfold inflation
      cases past : l.evictions with
      | nil =>
        rw [past] at member
        cases member
      | cons e rest =>
        rw [past, List.map_cons] at member sorted
        rcases List.mem_cons.mp member with rfl | older
        · exact le_rfl
        · exact (List.pairwise_cons.mp sorted).1 earlier older
    exact last.trans (rising.floor id own found)
  · intro e member
    rcases List.mem_cons.mp member with rfl | older
    · exact ⟨own, found, least⟩
    · exact rising.least e older

end Gdsf
