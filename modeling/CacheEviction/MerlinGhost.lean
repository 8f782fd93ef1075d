import CacheEviction.ItemRef
import CacheEviction.WeightedLists

/-!
# MerlinGhost and MerlinSketch: what a shard remembers of evicted items

The ghost is a table of 64-bit slots in buckets of eight. A slot packs the hash
of an item, the time of its eviction and a small frequency; a zero slot is empty
and an expired one is reclaimed when a probe meets it. Two counters follow how many
slots have frequency at least one and at least two. The sketch is a table of counters,
one of which is halved at every thirty-second update.

Compare-and-exchange is taken to succeed. A size within eight of `2 ^ 32` wraps to a
table without slots, on which the source divides by zero; here the index is then the
hash itself.
-/
namespace MerlinGhost

open ItemRef (maxFreq)
open WeightedLists

abbrev Slot := BitVec 64
abbrev Key := BitVec 32

def maxValue : Nat := 0x0FFFFFFF

structure Ghost where
  numElem : Nat := 0
  fifoSize : Nat := 0
  numInserts : Nat := 0
  hashTable : Nat → Slot := fun _ => 0
  freqDistribution : Nat → Int := fun _ => 0
  initialized : Bool := false

/-- The pair of updates the source makes at each of its counters when an entry
with this frequency comes or goes. -/
def countFreq (d : Nat → Int) (freq : Nat) (by_ : Int) : Nat → Int :=
  let d := if 2 ≤ freq then Function.update d 2 (d 2 + by_) else d
  if 1 ≤ freq then Function.update d 1 (d 1 + by_) else d

/-- The same for an entry whose frequency moves by one, where only a counter that
is crossed changes. -/
def countStep (d : Nat → Int) (freq : Nat) (by_ : Int) : Nat → Int :=
  let d := if freq = 2 then Function.update d 2 (d 2 + by_) else d
  if freq = 1 then Function.update d 1 (d 1 + by_) else d

/-- And for an entry whose frequency rises by any amount. -/
def countRise (d : Nat → Int) (oriFreq newFreq : Nat) : Nat → Int :=
  let d := if oriFreq < 2 ∧ 2 ≤ newFreq then Function.update d 2 (d 2 + 1) else d
  if oriFreq < 1 ∧ 1 ≤ newFreq then Function.update d 1 (d 1 + 1) else d

/-- The mask of the source clears the low three bits. -/
def getBucketIdx (g : Ghost) (key : Key) : Nat := key.toNat % g.numElem / 8 * 8

def matchKey (v : Slot) (key : Key) : Bool := v &&& 0x00000000FFFFFFFF#64 = key.setWidth 64

def getInsertionTime (v : Slot) : Nat := ((v &&& 0x0FFFFFFF00000000#64) >>> 32).toNat

def getFreq (v : Slot) : Nat := ((v &&& 0xF000000000000000#64) >>> 60).toNat

def genHashtableVal (key : Key) (time freq : Nat) : Slot :=
  key.setWidth 64 ||| BitVec.ofNat 64 time <<< 32 ||| BitVec.ofNat 64 freq <<< 60

def setFIFOSize (g : Ghost) (fifoSize : Nat) : Ghost :=
  let size := (fifoSize % 2 ^ 32 / 8 + 1) * 8 % 2 ^ 32
  { g with fifoSize := size, numElem := size * 2 }

def initHashtable (g : Ghost) : Ghost :=
  { g with hashTable := fun _ => 0, initialized := true }

/-- The age is a signed number compared with an unsigned one, so a slot from the
future, left from before the clock was reset, counts as too old. -/
def expired (g : Ghost) (currTime : Nat) (v : Slot) : Bool :=
  currTime < getInsertionTime v || g.fifoSize < currTime - getInsertionTime v

/-- Write a slot together with the new values of the counters. -/
def Ghost.write (g : Ghost) (i : Nat) (v : Slot) (d : Nat → Int) : Ghost :=
  { g with hashTable := Function.update g.hashTable i v, freqDistribution := d }

def reclaim (g : Ghost) (i : Nat) : Ghost :=
  g.write i 0 (countFreq g.freqDistribution (getFreq (g.hashTable i)) (-1))

/-- The loop both `contains` and `insert` run over a bucket: skip empty slots,
reclaim expired ones, stop at a slot of this key. It returns that slot, if there
is one, and the last empty slot it passed. -/
def probe (key : Key) (currTime : Nat) : List Nat → Ghost → Option Nat →
    Ghost × Option Nat × Option Nat
  | [], g, empty => (g, none, empty)
  | i :: slots, g, empty =>
    let v := g.hashTable i
    if v = 0 then probe key currTime slots g (some i)
    else if expired g currTime v then probe key currTime slots (reclaim g i) (some i)
    else if matchKey v key then (g, some i, empty)
    else probe key currTime slots g empty

def bucket (g : Ghost) (key : Key) : List Nat :=
  (List.range 8).map (getBucketIdx g key + ·)

def contains (g : Ghost) (key : Key) : Nat × Ghost :=
  match probe key g.numInserts (bucket g key) g none with
  | (g, none, _) => (0, g)
  | (g, some i, _) =>
    let v := g.hashTable i
    let oriFreq := getFreq v
    if oriFreq = maxFreq then (maxFreq, g)
    else
      let newFreq := min (oriFreq + 1) maxFreq
      (oriFreq + 1, g.write i (genHashtableVal key (getInsertionTime v) newFreq)
        (countStep g.freqDistribution newFreq 1))

def insert (g : Ghost) (key : Key) (freq : Nat) : Ghost :=
  let g := if maxValue < g.numInserts then { g with numInserts := 0 } else g
  match probe key g.numInserts (bucket g key) g none with
  | (g, some i, _) =>
    let v := g.hashTable i
    let oriFreq := getFreq v
    if oriFreq = maxFreq then g
    else
      let newFreq := min (oriFreq + (freq + 1)) maxFreq
      g.write i (genHashtableVal key (getInsertionTime v) newFreq)
        (countRise g.freqDistribution oriFreq newFreq)
  | (g, none, empty) =>
    let v := genHashtableVal key g.numInserts freq
    let g := { g with numInserts := g.numInserts + 1 }
    match empty with
    | none =>
      let evictIdx := key.toNat % g.numElem
      let d := countFreq g.freqDistribution (getFreq (g.hashTable evictIdx)) (-1)
      g.write evictIdx v (countFreq d freq 1)
    | some i => g.write i v (countFreq g.freqDistribution freq 1)

/-! ## The counters are exact -/

/-- One if the frequency reaches the level, else zero. -/
def reaches (level freq : Nat) : Int := if level ≤ freq then 1 else 0

theorem reaches_zero {level : Nat} (h : level = 1 ∨ level = 2) : reaches level 0 = 0 := by
  rw [reaches, if_neg (by omega)]

theorem countFreq_apply (d : Nat → Int) (freq : Nat) (n : Int) {level : Nat}
    (h : level = 1 ∨ level = 2) : countFreq d freq n level = d level + n * reaches level freq := by
  rcases h with rfl | rfl <;> simp only [countFreq, reaches] <;> split <;> split <;> simp_all

theorem countStep_apply (d : Nat → Int) (freq : Nat) (n : Int) {level : Nat}
    (h : level = 1 ∨ level = 2) :
    countStep d (freq + 1) n level = d level + n * (reaches level (freq + 1) - reaches level freq) := by
  rcases h with rfl | rfl <;> simp only [countStep, reaches] <;>
    split <;> split <;> split <;> split <;> simp_all
  omega

theorem countRise_apply (d : Nat → Int) {oriFreq newFreq level : Nat} (rise : oriFreq ≤ newFreq)
    (h : level = 1 ∨ level = 2) : countRise d oriFreq newFreq level =
      d level + (reaches level newFreq - reaches level oriFreq) := by
  rcases h with rfl | rfl <;> simp only [countRise, reaches] <;>
    split <;> split <;> split <;> split <;> simp_all <;> omega

theorem getInsertionTime_lt (v : Slot) : getInsertionTime v < 2 ^ 28 := by
  have bound : (v &&& 0x0FFFFFFF00000000#64).toNat ≤ 0x0FFFFFFF00000000 := by
    rw [BitVec.toNat_and]
    exact Nat.and_le_right
  rw [getInsertionTime, BitVec.toNat_ushiftRight, Nat.shiftRight_eq_div_pow]
  omega

theorem getFreq_eq_shift (v : Slot) : getFreq v = (v >>> 60).toNat := by
  have table : ∀ i : Fin 4, (0xF000000000000000#64).getLsbD (60 + i) = true := by decide
  have same : (v &&& 0xF000000000000000#64) >>> 60 = v >>> 60 := by
    apply BitVec.eq_of_getLsbD_eq
    intro i _
    rw [BitVec.getLsbD_ushiftRight, BitVec.getLsbD_ushiftRight, BitVec.getLsbD_and]
    by_cases inside : i < 4
    · rw [table ⟨i, inside⟩, Bool.and_true]
    · rw [BitVec.getLsbD_of_ge v _ (by omega), Bool.false_and]
  rw [getFreq, same]

theorem getFreq_zero : getFreq 0 = 0 := by decide

theorem getFreq_gen (key : Key) {time freq : Nat} (ht : time < 2 ^ 28) (hf : freq < 16) :
    getFreq (genHashtableVal key time freq) = freq := by
  have noKey : (key.setWidth 64) >>> 60 = 0#64 := by
    apply BitVec.eq_of_toNat_eq
    have small := key.isLt
    rw [BitVec.toNat_ushiftRight, Nat.shiftRight_eq_div_pow, BitVec.toNat_setWidth]
    simp only [BitVec.toNat_ofNat]
    omega
  have noTime : (BitVec.ofNat 64 time <<< 32) >>> 60 = 0#64 := by
    apply BitVec.eq_of_toNat_eq
    rw [BitVec.toNat_ushiftRight, Nat.shiftRight_eq_div_pow, BitVec.toNat_shiftLeft,
      Nat.shiftLeft_eq]
    simp only [BitVec.toNat_ofNat]
    omega
  have exact_ : ((BitVec.ofNat 64 freq <<< 60) >>> 60).toNat = freq := by
    rw [BitVec.toNat_ushiftRight, Nat.shiftRight_eq_div_pow, BitVec.toNat_shiftLeft,
      Nat.shiftLeft_eq]
    simp only [BitVec.toNat_ofNat]
    omega
  rw [getFreq_eq_shift, genHashtableVal, BitVec.ushiftRight_or_distrib,
    BitVec.ushiftRight_or_distrib, noKey, noTime, BitVec.or_self, BitVec.zero_or, exact_]

/-- Each counter is the number of slots at its level, over a range of addresses
that is wide enough for every probe. -/
structure Counted (range : Nat) (g : Ghost) : Prop where
  exact_ : ∀ {level}, level = 1 ∨ level = 2 → g.freqDistribution level =
    total (fun i => reaches level (getFreq (g.hashTable i))) (List.range range)
  small : ∀ i, getFreq (g.hashTable i) ≤ maxFreq

variable {range : Nat} {g : Ghost}

theorem Counted.nonneg (h : Counted range g) {level : Nat} (hl : level = 1 ∨ level = 2) :
    0 ≤ g.freqDistribution level := by
  rw [h.exact_ hl]
  apply total_nonneg
  intro i _
  simp only [reaches]
  split <;> omega

theorem counted_blank (table : ∀ i, g.hashTable i = 0)
    (counters : ∀ level, g.freqDistribution level = 0) : Counted range g := by
  constructor
  · intro level hl
    have blank : total (fun i => reaches level (getFreq (g.hashTable i))) (List.range range) =
        total (fun _ => 0) (List.range range) := by
      apply total_congr
      intro i _
      rw [table, getFreq_zero, reaches_zero hl]
    rw [counters, blank]
    simp [total]
  · intro i
    rw [table, getFreq_zero]
    exact Nat.zero_le _

theorem Counted.write {i : Nat} {v : Slot} {d : Nat → Int} (h : Counted range g)
    (inside : i < range) (small : getFreq v ≤ maxFreq)
    (change : ∀ {level}, level = 1 ∨ level = 2 → d level = g.freqDistribution level +
      (reaches level (getFreq v) - reaches level (getFreq (g.hashTable i)))) :
    Counted range (g.write i v d) := by
  constructor
  · intro level hl
    have moved := total_update (fun v => reaches level (getFreq v)) g.hashTable i v
      List.nodup_range (List.mem_range.mpr inside)
    have counted := h.exact_ hl
    have changed := change hl
    simp only [Ghost.write]
    rw [moved]
    omega
  · intro j
    by_cases here : j = i
    · subst here
      simpa [Ghost.write] using small
    · simpa [Ghost.write, here] using h.small j

theorem reclaim_counted {i : Nat} (h : Counted range g) (inside : i < range) :
    Counted range (reclaim g i) := by
  apply h.write inside
  · rw [getFreq_zero]
    exact Nat.zero_le _
  · intro level hl
    rw [countFreq_apply _ _ _ hl, getFreq_zero, reaches_zero hl]
    ring

theorem probe_counted (key : Key) (currTime : Nat) {slots : List Nat} {g' : Ghost}
    {empty hit last : Option Nat} (result : probe key currTime slots g empty = (g', hit, last))
    (h : Counted range g) (inside : ∀ i ∈ slots, i < range)
    (start : ∀ e, empty = some e → e < range ∧ g.hashTable e = 0) :
    Counted range g' ∧ (∀ i, hit = some i → i < range) ∧
      (∀ e, last = some e → e < range ∧ g'.hashTable e = 0) ∧ g'.numInserts = g.numInserts := by
  induction slots generalizing g empty with
  | nil =>
    cases result
    exact ⟨h, by simp, start, rfl⟩
  | cons i slots ih =>
    have first := inside i List.mem_cons_self
    have others : ∀ j ∈ slots, j < range := fun j hj => inside j (List.mem_cons_of_mem i hj)
    simp only [probe] at result
    split at result
    case isTrue zero =>
      refine ih result h others ?_
      rintro e ⟨⟩
      exact ⟨first, zero⟩
    case isFalse =>
      split at result
      case isTrue =>
        refine ih (g := reclaim g i) result (reclaim_counted h first) others ?_
        rintro e ⟨⟩
        exact ⟨first, by simp [reclaim, Ghost.write]⟩
      case isFalse =>
        split at result
        case isTrue =>
          cases result
          refine ⟨h, ?_, start, rfl⟩
          rintro j ⟨⟩
          exact first
        case isFalse => exact ih result h others start

/-- Every address a probe for a 32-bit hash can reach. -/
def addresses : Nat := 2 ^ 32 + 8

theorem bucket_inside (g : Ghost) (key : Key) : ∀ i ∈ bucket g key, i < addresses := by
  intro i hi
  obtain ⟨j, hj, rfl⟩ := List.mem_map.mp hi
  have offset := List.mem_range.mp hj
  have hash := key.isLt
  have index : key.toNat % g.numElem ≤ key.toNat := Nat.mod_le _ _
  simp only [getBucketIdx, addresses]
  omega

theorem contains_counted (h : Counted addresses g) (key : Key) :
    Counted addresses (contains g key).2 ∧ (contains g key).1 ≤ maxFreq := by
  rcases result : probe key g.numInserts (bucket g key) g none with ⟨g', hit, last⟩
  obtain ⟨counted, inside, _, _⟩ := probe_counted key g.numInserts result h
    (bucket_inside g key) (by simp)
  simp only [contains, result]
  cases hit with
  | none => exact ⟨counted, Nat.zero_le _⟩
  | some i =>
    have bound := counted.small i
    dsimp only
    split
    case isTrue => exact ⟨counted, le_refl _⟩
    case isFalse below =>
      have step : min (getFreq (g'.hashTable i) + 1) maxFreq = getFreq (g'.hashTable i) + 1 := by
        omega
      have written := getFreq_gen key (getInsertionTime_lt (g'.hashTable i))
        (show getFreq (g'.hashTable i) + 1 < 16 by rw [maxFreq] at bound; omega)
      rw [step]
      refine ⟨counted.write (inside i rfl) ?_ ?_, ?_⟩
      · rw [written]
        omega
      · intro level hl
        rw [written, countStep_apply _ _ _ hl, one_mul]
      · omega

theorem insert_counted (h : Counted addresses g) (key : Key) {freq : Nat} (hf : freq ≤ maxFreq) :
    Counted addresses (insert g key freq) := by
  -- the clock is reset before the probe, so the time written fits its 28 bits
  have reset : ∃ g₀, (if maxValue < g.numInserts then { g with numInserts := 0 } else g) = g₀ ∧
      Counted addresses g₀ ∧ g₀.numInserts ≤ maxValue := by
    refine ⟨_, rfl, ?_, ?_⟩
    · split
      · exact ⟨h.exact_, h.small⟩
      · exact h
    · split <;> simp_all
  obtain ⟨g₀, start, counted₀, clock⟩ := reset
  rcases result : probe key g₀.numInserts (bucket g₀ key) g₀ none with ⟨g', hit, last⟩
  obtain ⟨counted, inside, vacant, time⟩ := probe_counted key g₀.numInserts result counted₀
    (bucket_inside g₀ key) (by simp)
  simp only [insert, start, result]
  cases hit with
  | some i =>
    have bound := counted.small i
    dsimp only
    split
    case isTrue => exact counted
    case isFalse below =>
      have written := getFreq_gen key (getInsertionTime_lt (g'.hashTable i))
        (show min (getFreq (g'.hashTable i) + (freq + 1)) maxFreq < 16 by rw [maxFreq]; omega)
      apply counted.write (inside i rfl)
      · rw [written]
        exact Nat.min_le_right _ _
      · intro level hl
        rw [written]
        exact countRise_apply _ (by omega) hl
  | none =>
    have fits : g'.numInserts < 2 ^ 28 := by
      rw [maxValue] at clock
      omega
    have written := getFreq_gen key fits (show freq < 16 by rw [maxFreq] at hf; omega)
    have moved : Counted addresses { g' with numInserts := g'.numInserts + 1 } :=
      ⟨counted.exact_, counted.small⟩
    cases last with
    | none =>
      apply moved.write
      · have index : key.toNat % g'.numElem ≤ key.toNat := Nat.mod_le _ _
        have hash := key.isLt
        rw [addresses]
        omega
      · rw [written]
        exact hf
      · intro level hl
        rw [written, countFreq_apply _ _ _ hl, countFreq_apply _ _ _ hl]
        ring
    | some e =>
      obtain ⟨low, zero⟩ := vacant e rfl
      apply moved.write low
      · rw [written]
        exact hf
      · intro level hl
        rw [written, countFreq_apply _ _ _ hl]
        dsimp only
        rw [zero, getFreq_zero, reaches_zero hl]
        ring

end MerlinGhost

namespace MerlinSketch

open MerlinGhost

structure Sketch where
  numElem : Nat := 0
  numInserts : Nat := 0
  hashTable : Nat → BitVec 32 := fun _ => 0

def setFIFOSize (s : Sketch) (fifoSize : Nat) : Sketch :=
  { s with numElem := (fifoSize % 2 ^ 32 / 8 + 1) * 8 % 2 ^ 32 * 2 }

def initHashtable (s : Sketch) : Sketch := { s with hashTable := fun _ => 0 }

/-- Read into a signed 32-bit variable by its caller. -/
def getEstimate (s : Sketch) (key : Key) : Int := (s.hashTable (key.toNat % s.numElem)).toInt

def estimate (s : Sketch) (key : Key) : Sketch :=
  let bucketIdx := key.toNat % s.numElem
  let table := Function.update s.hashTable bucketIdx (s.hashTable bucketIdx + 1)
  let id := s.numInserts
  let cleanid := id / 32 % s.numElem
  { s with
    hashTable := if id % 32 = 31 then Function.update table cleanid ((table cleanid).sdiv 2)
      else table
    numInserts := if maxValue < id then 0 else id + 1 }

end MerlinSketch
