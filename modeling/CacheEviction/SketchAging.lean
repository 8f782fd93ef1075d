import CacheEviction.MerlinGhost
import Mathlib.Algebra.Order.Group.Nat

/-!
# How the counters of MerlinSketch age

Every thirty-second call of `estimate` halves one slot of the table, and the slots take
turns. The turn is read off a clock that starts again after `MAX_VALUE + 2` calls, in
which `2 ^ 23` halvings fit. So the slots from `2 ^ 23` on are never halved, and a table
whose size does not divide `2 ^ 23` loses its place when the clock starts again: the slots
at its end then wait for up to two rounds.
-/
namespace MerlinSketch

open MerlinGhost

/-! ## Counters that are halved now and then -/

/-- A counter that grows by at most one at a step, and is halved at least once in any `g`
steps, stays below `2 * g - 1`. It need only halve as long as it is below. -/
theorem halved_le {c : Nat → Nat} {halved : Nat → Prop} {g : Nat} (start : c 0 = 0)
    (grows : ∀ t, ¬ halved t → c (t + 1) ≤ c t + 1)
    (halves : ∀ t, halved t → c t ≤ 2 * g - 2 → c (t + 1) ≤ (c t + 1) / 2)
    (often : ∀ t, ∃ j, t ≤ j ∧ j < t + g ∧ halved j) (t : Nat) : c t ≤ 2 * g - 2 := by
  -- Up to the next halving the counter has room to grow at every step.
  have room : ∀ t j, t ≤ j → (∀ i, t ≤ i → i < j → ¬ halved i) → c t + (j - t) ≤ 2 * g - 2 := by
    intro t
    induction t with
    | zero =>
      intro j _ quiet
      obtain ⟨i, _, soon, here⟩ := often 0
      have late : ¬ i < j := fun before => quiet i (Nat.zero_le i) before here
      omega
    | succ t ih =>
      intro j later quiet
      by_cases here : halved t
      · have before := ih t (le_refl t) (fun i low high => by omega)
        obtain ⟨i, after, soon, next⟩ := often (t + 1)
        have late : ¬ i < j := fun early => quiet i after early next
        have half := halves t here (by omega)
        omega
      · have before := ih j (by omega) fun i low high => by
          rcases Nat.eq_or_lt_of_le low with rfl | low
          · exact here
          · exact quiet i low high
        have step := grows t here
        omega
  have now := room t t (le_refl t) (fun i low high => by omega)
  omega

/-! ## One call -/

def cleans (s : Sketch) : Option Nat :=
  if s.numInserts % 32 = 31 then some (s.numInserts / 32 % s.numElem) else none

/-- A slot and what the call adds to it, before it is halved. -/
def touched (s : Sketch) (key : Key) (slot : Nat) : BitVec 32 :=
  s.hashTable slot + if key.toNat % s.numElem = slot then 1 else 0

theorem estimate_slot (s : Sketch) (key : Key) (slot : Nat) :
    (estimate s key).hashTable slot =
      if cleans s = some slot then (touched s key slot).sdiv 2 else touched s key slot := by
  have raised : ∀ i, Function.update s.hashTable (key.toNat % s.numElem)
      (s.hashTable (key.toNat % s.numElem) + 1) i = touched s key i := by
    intro i
    by_cases own : key.toNat % s.numElem = i
    · subst own
      simp [touched]
    · simp [touched, own, Ne.symm own]
  simp only [estimate, cleans, raised]
  by_cases due : s.numInserts % 32 = 31
  · by_cases here : s.numInserts / 32 % s.numElem = slot
    · subst here
      simp [due]
    · simp only [due, if_true, Option.some.injEq, here, if_false,
        Function.update_of_ne (Ne.symm here)]
      exact raised slot
  · simp only [due, if_false, reduceCtorEq]
    exact raised slot

theorem toNat_sdiv_two {v : BitVec 32} (small : v.toNat < 2 ^ 31) : (v.sdiv 2).toNat = v.toNat / 2 := by
  have positive : v.msb = false := by
    rw [BitVec.msb_eq_false_iff_two_mul_lt]
    omega
  have two : (2 : BitVec 32).msb = false := by decide
  rw [BitVec.sdiv_eq, positive, two]
  exact BitVec.toNat_udiv

theorem touched_le (s : Sketch) (key : Key) (slot : Nat) :
    (touched s key slot).toNat ≤ (s.hashTable slot).toNat + 1 := by
  rw [touched, BitVec.toNat_add]
  refine (Nat.mod_le _ _).trans (Nat.add_le_add_left ?_ _)
  split <;> decide

theorem estimate_halves {s : Sketch} {slot : Nat} (key : Key) (due : cleans s = some slot)
    (small : (s.hashTable slot).toNat + 1 < 2 ^ 31) :
    ((estimate s key).hashTable slot).toNat = (touched s key slot).toNat / 2 := by
  have le := touched_le s key slot
  rw [estimate_slot, if_pos due, toNat_sdiv_two (by omega)]

/-! ## Runs -/

def after (s : Sketch) (keys : Nat → Key) : Nat → Sketch
  | 0 => s
  | t + 1 => estimate (after s keys t) (keys t)

def counter (s : Sketch) (keys : Nat → Key) (slot t : Nat) : Nat :=
  ((after s keys t).hashTable slot).toNat

/-- The clock starts again after the call that finds it at `MAX_VALUE + 1`. -/
def period : Nat := maxValue + 2

def halvings : Nat := 2 ^ 23

variable {s : Sketch} {keys : Nat → Key} {t k slot : Nat}

theorem period_eq : period = 32 * halvings + 1 := rfl

theorem after_numElem (s : Sketch) (keys : Nat → Key) (t : Nat) : (after s keys t).numElem = s.numElem := by
  induction t with
  | zero => rfl
  | succ t ih => exact ih

theorem after_clock (fresh : s.numInserts = 0) (keys : Nat → Key) (t : Nat) :
    (after s keys t).numInserts = t % period := by
  induction t with
  | zero => exact fresh
  | succ t ih =>
    simp only [after, estimate, ih, period, maxValue]
    split <;> omega

theorem clock_add {a d : Nat} (clock : t % period = a) (within : a + d < period) :
    (t + d) % period = a + d := by
  simp only [period, maxValue] at clock within ⊢
  omega

theorem cleans_at (fresh : s.numInserts = 0) (clock : t % period = 32 * k + 31) :
    cleans (after s keys t) = some (k % s.numElem) := by
  have due : (32 * k + 31) % 32 = 31 := by omega
  have turn : (32 * k + 31) / 32 = k := by omega
  rw [cleans, after_clock fresh, after_numElem, clock, if_pos due, turn]

theorem of_cleans (fresh : s.numInserts = 0) (due : cleans (after s keys t) = some slot) :
    ∃ k < halvings, t % period = 32 * k + 31 ∧ slot = k % s.numElem := by
  rw [cleans, after_clock fresh, after_numElem] at due
  split at due
  case isTrue last =>
    cases due
    refine ⟨t % period / 32, ?_, by omega, rfl⟩
    simp only [period, maxValue, halvings] at last ⊢
    omega
  case isFalse => cases due

theorem exists_turn {n : Nat} (inside : slot < n) (first : Nat) :
    ∃ k, first ≤ k ∧ k < first + n ∧ k % n = slot := by
  induction first with
  | zero => exact ⟨slot, Nat.zero_le _, by omega, Nat.mod_eq_of_lt inside⟩
  | succ first ih =>
    obtain ⟨k, low, high, turn⟩ := ih
    rcases Nat.eq_or_lt_of_le low with rfl | low
    · exact ⟨first + n, by omega, by omega, by rw [Nat.add_mod_right, turn]⟩
    · exact ⟨k, low, by omega, turn⟩

theorem cleans_soon (fresh : s.numInserts = 0) (ahead : t % period / 32 ≤ k) (within : k < halvings) :
    cleans (after s keys (t + (32 * k + 31 - t % period))) = some (k % s.numElem) := by
  refine cleans_at fresh ?_
  simp only [period, maxValue, halvings] at ahead within ⊢
  omega

theorem cleans_later (fresh : s.numInserts = 0) (within : k < halvings) :
    cleans (after s keys (t + (period - t % period) + (32 * k + 31))) = some (k % s.numElem) := by
  refine cleans_at fresh ?_
  simp only [period, maxValue, halvings] at within ⊢
  omega

theorem swept_twice (fresh : s.numInserts = 0) (small : s.numElem ≤ halvings) (inside : slot < s.numElem)
    (keys : Nat → Key) (t : Nat) :
    ∃ j, t ≤ j ∧ j < t + 64 * s.numElem ∧ cleans (after s keys j) = some slot := by
  by_cases early : t % period + 32 * s.numElem < period
  · obtain ⟨k, low, high, rfl⟩ := exists_turn inside (t % period / 32)
    have within : k < halvings := by
      simp only [period, maxValue, halvings] at early low high ⊢
      omega
    exact ⟨_, Nat.le_add_right _ _, by omega, cleans_soon fresh low within⟩
  · have turn : cleans (after s keys (t + (period - t % period) + (32 * slot + 31))) =
        some (slot % s.numElem) := cleans_later fresh (lt_of_lt_of_le inside small)
    rw [Nat.mod_eq_of_lt inside] at turn
    exact ⟨_, by omega, by omega, turn⟩

/-- If the number of slots divides `2 ^ 23`, the new turn of the clock goes on where the old
one stopped, and a slot waits for one round and the call that resets the clock. -/
theorem swept_once (fresh : s.numInserts = 0) (divides : s.numElem ∣ halvings) (inside : slot < s.numElem)
    (keys : Nat → Key) (t : Nat) :
    ∃ j, t ≤ j ∧ j < t + (32 * s.numElem + 1) ∧ cleans (after s keys j) = some slot := by
  obtain ⟨k, low, high, rfl⟩ := exists_turn inside (t % period / 32)
  by_cases within : k < halvings
  · exact ⟨_, Nat.le_add_right _ _, by omega, cleans_soon fresh low within⟩
  · have small : s.numElem ≤ halvings := Nat.le_of_dvd (by decide) divides
    obtain ⟨e, rfl⟩ := Nat.exists_eq_add_of_le (Nat.le_of_not_lt within)
    have same : (halvings + e) % s.numElem = e % s.numElem := by
      rw [Nat.add_mod, Nat.mod_eq_zero_of_dvd divides, Nat.zero_add, Nat.mod_mod]
    rw [same]
    have reset : t % period / 32 ≤ halvings := by
      simp only [period, maxValue, halvings]
      omega
    refine ⟨_, ?_, ?_, cleans_later (t := t) fresh (by omega)⟩
    · omega
    · have below : t % period < period := Nat.mod_lt _ (by decide)
      have length := period_eq
      omega

/-! ## The counters from above -/

theorem counter_succ_le (grown : cleans (after s keys t) ≠ some slot) :
    counter s keys slot (t + 1) ≤ counter s keys slot t + 1 := by
  rw [counter, after, estimate_slot, if_neg grown]
  exact touched_le _ _ _

theorem counter_le {g : Nat} (empty : s.hashTable slot = 0) (short : 2 * g ≤ 2 ^ 31)
    (often : ∀ t, ∃ j, t ≤ j ∧ j < t + g ∧ cleans (after s keys j) = some slot) (t : Nat) :
    counter s keys slot t ≤ 2 * g - 2 := by
  have grows : ∀ t, ¬ cleans (after s keys t) = some slot →
      counter s keys slot (t + 1) ≤ counter s keys slot t + 1 := fun t grown => counter_succ_le grown
  refine halved_le ?_ grows ?_ often t
  · rw [counter, after, empty]
    rfl
  · intro t due small
    have positive : 0 < g := by
      obtain ⟨j, low, high, -⟩ := often t
      omega
    have le := touched_le (after s keys t) (keys t) slot
    rw [counter] at small ⊢
    rw [after, estimate_halves (keys t) due (by omega), counter]
    omega

/-! ## The last slot from below -/

/-- All calls are for the last slot of the table. -/
def lastSlot (s : Sketch) (_ : Nat) : Key := BitVec.ofNat 32 (s.numElem - 1)

section Last

variable (fresh : s.numInserts = 0) (empty : s.hashTable (s.numElem - 1) = 0)
  (some_slot : 0 < s.numElem) (small : s.numElem ≤ halvings)

include fresh empty some_slot small

theorem last_le (t : Nat) : counter s (lastSlot s) (s.numElem - 1) t < 2 ^ 30 := by
  have last : s.numElem - 1 < s.numElem := by omega
  have often := swept_twice fresh small last (lastSlot s)
  rw [halvings] at small
  have le := counter_le empty (by omega) often t
  omega

theorem last_touched (t : Nat) :
    (touched (after s (lastSlot s) t) (lastSlot s t) (s.numElem - 1)).toNat =
      counter s (lastSlot s) (s.numElem - 1) t + 1 := by
  have le := last_le fresh empty some_slot small t
  rw [halvings] at small
  have own : (lastSlot s t).toNat % (after s (lastSlot s) t).numElem = s.numElem - 1 := by
    rw [after_numElem, lastSlot, BitVec.toNat_ofNat, Nat.mod_eq_of_lt (by omega),
      Nat.mod_eq_of_lt (by omega)]
  have one : (1 : BitVec 32).toNat = 1 := rfl
  rw [touched, if_pos own, BitVec.toNat_add, one, counter]
  rw [counter] at le
  omega

theorem last_grows {t : Nat} (quiet : cleans (after s (lastSlot s) t) ≠ some (s.numElem - 1)) :
    counter s (lastSlot s) (s.numElem - 1) (t + 1) = counter s (lastSlot s) (s.numElem - 1) t + 1 := by
  rw [← last_touched fresh empty some_slot small t]
  rw [counter, after, estimate_slot, if_neg quiet]

theorem last_halves {t : Nat} (due : cleans (after s (lastSlot s) t) = some (s.numElem - 1)) :
    counter s (lastSlot s) (s.numElem - 1) (t + 1) =
      (counter s (lastSlot s) (s.numElem - 1) t + 1) / 2 := by
  have le := last_le fresh empty some_slot small t
  rw [counter] at le
  rw [← last_touched fresh empty some_slot small t]
  rw [counter, after, estimate_halves _ due (by omega)]

theorem last_quiet {a t d : Nat} (round : s.numElem ∣ a) (clock : t % period = 32 * a)
    (short : d < 32 * s.numElem) (within : 32 * a + d ≤ period) :
    counter s (lastSlot s) (s.numElem - 1) (t + d) = counter s (lastSlot s) (s.numElem - 1) t + d := by
  induction d with
  | zero => rfl
  | succ d ih =>
    have before := ih (by omega) (by omega)
    have quiet : cleans (after s (lastSlot s) (t + d)) ≠ some (s.numElem - 1) := by
      intro due
      obtain ⟨k, _, now, turn⟩ := of_cleans fresh due
      have later := clock_add clock (show 32 * a + d < period by omega)
      obtain ⟨e, rfl⟩ : ∃ e, k = a + e := ⟨k - a, by omega⟩
      rw [Nat.add_mod, Nat.mod_eq_zero_of_dvd round, Nat.zero_add, Nat.mod_mod,
        Nat.mod_eq_of_lt (by omega)] at turn
      omega
    rw [← Nat.add_assoc, last_grows fresh empty some_slot small quiet, before]
    omega

theorem last_round {a t : Nat} (round : s.numElem ∣ a) (clock : t % period = 32 * a)
    (within : a + s.numElem ≤ halvings) :
    counter s (lastSlot s) (s.numElem - 1) (t + 32 * s.numElem) =
      (counter s (lastSlot s) (s.numElem - 1) t + 32 * s.numElem) / 2 := by
  have length := period_eq
  have grown := last_quiet fresh empty some_slot small (d := 32 * s.numElem - 1) round clock
    (by omega) (by omega)
  have due : cleans (after s (lastSlot s) (t + (32 * s.numElem - 1))) = some (s.numElem - 1) := by
    have now : (t + (32 * s.numElem - 1)) % period = 32 * (a + (s.numElem - 1)) + 31 := by
      rw [clock_add clock (by omega)]
      omega
    have turn : cleans (after s (lastSlot s) (t + (32 * s.numElem - 1))) =
        some ((a + (s.numElem - 1)) % s.numElem) := cleans_at fresh now
    rwa [Nat.add_mod, Nat.mod_eq_zero_of_dvd round, Nat.zero_add, Nat.mod_mod,
      Nat.mod_eq_of_lt (by omega)] at turn
  have halved := last_halves fresh empty some_slot small due
  have steps : t + (32 * s.numElem - 1) + 1 = t + 32 * s.numElem := by omega
  rw [steps, grown] at halved
  rw [halved]
  congr 1
  omega

theorem last_rounds {t : Nat} (clock : t % period = 0) (i : Nat)
    (within : (i + 1) * s.numElem ≤ halvings) :
    32 * s.numElem - counter s (lastSlot s) (s.numElem - 1) (t + 32 * ((i + 1) * s.numElem)) ≤
      (32 * s.numElem - counter s (lastSlot s) (s.numElem - 1) t + 1) / 2 := by
  have length := period_eq
  induction i with
  | zero =>
    have round := last_round fresh empty some_slot small (a := 0) (Nat.dvd_zero _) clock (by omega)
    rw [Nat.zero_add, Nat.one_mul, round]
    omega
  | succ i ih =>
    have expand : (i + 1 + 1) * s.numElem = (i + 1) * s.numElem + s.numElem := Nat.succ_mul _ _
    have before := ih (by omega)
    have now : (t + 32 * ((i + 1) * s.numElem)) % period = 32 * ((i + 1) * s.numElem) := by
      rw [clock_add clock (by omega), Nat.zero_add]
    have round := last_round fresh empty some_slot small (Nat.dvd_mul_left _ _) now (by omega)
    have steps : t + 32 * ((i + 1 + 1) * s.numElem) =
        t + 32 * ((i + 1) * s.numElem) + 32 * s.numElem := by omega
    rw [steps, round]
    omega

theorem last_turn {t : Nat} (clock : t % period = 0) :
    ∃ x, 32 * s.numElem - x ≤ (32 * s.numElem - counter s (lastSlot s) (s.numElem - 1) t + 1) / 2 ∧
      counter s (lastSlot s) (s.numElem - 1) (t + period) = x + (32 * (halvings % s.numElem) + 1) := by
  have length := period_eq
  have split := Nat.div_add_mod' halvings s.numElem
  have rest := Nat.mod_lt halvings some_slot
  obtain ⟨i, quotient⟩ : ∃ i, halvings / s.numElem = i + 1 :=
    Nat.exists_eq_succ_of_ne_zero (Nat.div_pos small some_slot).ne'
  rw [quotient] at split
  have rounds := last_rounds fresh empty some_slot small clock i (by omega)
  refine ⟨_, rounds, ?_⟩
  have now : (t + 32 * ((i + 1) * s.numElem)) % period = 32 * ((i + 1) * s.numElem) := by
    rw [clock_add clock (by omega), Nat.zero_add]
  have wait := last_quiet fresh empty some_slot small (d := 32 * (halvings % s.numElem) + 1)
    (Nat.dvd_mul_left _ _) now (by omega) (by omega)
  rw [← wait]
  congr 1
  omega

theorem last_turns (n : Nat) :
    32 * s.numElem - counter s (lastSlot s) (s.numElem - 1) (n * period) ≤ max 1 (32 * s.numElem - n) := by
  induction n with
  | zero => omega
  | succ n ih =>
    obtain ⟨x, closer, wait⟩ := last_turn fresh empty some_slot small (Nat.mul_mod_left n period)
    rw [Nat.succ_mul n, wait]
    omega

theorem last_exceeds (loses : ¬ s.numElem ∣ halvings) :
    ∃ t, 64 * s.numElem + 1 < counter s (lastSlot s) (s.numElem - 1) t := by
  have rest : halvings % s.numElem ≠ 0 := fun none => loses (Nat.dvd_of_mod_eq_zero none)
  have near := last_turns fresh empty some_slot small (32 * s.numElem)
  obtain ⟨x, close, wait⟩ :=
    last_turn fresh empty some_slot small (Nat.mul_mod_left (32 * s.numElem) period)
  have clock : (32 * s.numElem * period + period) % period = 0 := by
    rw [Nat.add_mod_right, Nat.mul_mod_left]
  have length := period_eq
  have round := last_quiet fresh empty some_slot small (a := 0) (d := 32 * s.numElem - 1)
    (Nat.dvd_zero _) clock (by omega) (by omega)
  exact ⟨_, by rw [round]; omega⟩

end Last

/-! ## The table as it is set up -/

/-- `setFIFOSize`, then `initHashtable`. -/
def sized (fifoSize : UInt32) : Sketch := initHashtable (setFIFOSize {} fifoSize.toNat)

/-- The table has a slot, every slot is halved in any `64 * numElem_` calls in a row, and
no counter is ever above `64 * numElem_ + 1`. -/
structure Ages (fifoSize : UInt32) : Prop where
  nonempty : 0 < (sized fifoSize).numElem
  swept : ∀ keys t, ∀ slot < (sized fifoSize).numElem, ∃ j, t ≤ j ∧
    j < t + 64 * (sized fifoSize).numElem ∧ cleans (after (sized fifoSize) keys j) = some slot
  bounded : ∀ keys t, ∀ slot < (sized fifoSize).numElem,
    ((after (sized fifoSize) keys t).hashTable slot).toNat ≤ 64 * (sized fifoSize).numElem + 1

theorem sized_numElem (fifoSize : UInt32) :
    (sized fifoSize).numElem = (fifoSize.toNat / 8 + 1) * 8 % 2 ^ 32 * 2 := by
  have width := fifoSize.toNat_lt
  simp only [sized, initHashtable, setFIFOSize]
  rw [Nat.mod_eq_of_lt width]

theorem Ages.numElem_le {fifoSize : UInt32} (ages : Ages fifoSize) :
    (sized fifoSize).numElem ≤ halvings := by
  by_contra large
  obtain ⟨j, _, _, due⟩ := ages.swept (fun _ => 0) 0 halvings (by omega)
  obtain ⟨k, below, _, turn⟩ := of_cleans (s := sized fifoSize) rfl due
  have le := Nat.mod_le k (sized fifoSize).numElem
  omega

theorem ages_of_dvd {fifoSize : UInt32} (divides : (sized fifoSize).numElem ∣ halvings) :
    Ages fifoSize where
  nonempty := Nat.pos_of_dvd_of_pos divides (by decide)
  swept keys t slot inside :=
    swept_twice (s := sized fifoSize) rfl (Nat.le_of_dvd (by decide) divides) inside keys t
  bounded keys t slot inside := by
    have small : (sized fifoSize).numElem ≤ 2 ^ 23 := Nat.le_of_dvd (by decide) divides
    have often := swept_once (s := sized fifoSize) rfl divides inside keys
    have le := counter_le rfl (by omega) often t
    rw [counter] at le
    omega

/-- The sketch ages as it should exactly if `fifoSize / 8 + 1`, a sixteenth of the number of
slots, divides `2 ^ 19`. -/
theorem ages_iff (fifoSize : UInt32) : Ages fifoSize ↔ fifoSize.toNat / 8 + 1 ∣ 2 ^ 19 := by
  have size := sized_numElem fifoSize
  have sixteenth : (sized fifoSize).numElem = 16 * (fifoSize.toNat / 8 + 1) →
      ((sized fifoSize).numElem ∣ halvings ↔ fifoSize.toNat / 8 + 1 ∣ 2 ^ 19) := by
    intro multiple
    have turn : halvings = 16 * 2 ^ 19 := rfl
    rw [multiple, turn]
    exact Nat.mul_dvd_mul_iff_left (Nat.succ_pos 15)
  constructor
  · intro ages
    have small := ages.numElem_le
    have some_slot := ages.nonempty
    have width := fifoSize.toNat_lt
    refine (sixteenth (by omega)).mp ?_
    by_contra loses
    obtain ⟨t, exceeds⟩ := last_exceeds (s := sized fifoSize) rfl rfl some_slot small loses
    exact absurd exceeds (Nat.not_lt.mpr (ages.bounded _ t _ (by omega)))
  · intro divides
    have small := Nat.le_of_dvd (by decide) divides
    exact ages_of_dvd ((sixteenth (by omega)).mpr divides)

/-- A table of `2 ^ 23 + 16` slots has slots that are never halved; in one of 48 slots a
counter can grow beyond two rounds. -/
theorem slots_lose_their_turn : ¬ Ages 4194304 ∧ ¬ Ages 16 := by
  constructor
  · intro ages
    have le := ages.numElem_le
    rw [sized_numElem] at le
    revert le
    decide
  · intro ages
    obtain ⟨t, exceeds⟩ := last_exceeds (s := sized 16) rfl rfl (by decide) (by decide) (by decide)
    exact absurd exceeds (Nat.not_lt.mpr (ages.bounded _ t _ (by decide)))

end MerlinSketch
