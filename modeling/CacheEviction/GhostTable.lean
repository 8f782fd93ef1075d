import CacheEviction.MerlinGhost
import CacheEviction.StepTraces

/-!
# The table of a ghost

A slot that is not empty lies in the bucket of its key, no key has two slots, the three
fields packed into a slot are read back as they were written, and the two counters are
recounts of the table. What a probe does is said once, in `Probed`; both operations then
write at most one slot.
-/
namespace MerlinGhost

open ItemRef (maxFreq)
open StepTraces WeightedLists

/-! ## Packed slots -/

def slotKey (v : Slot) : Key := v.setWidth 32

theorem matchKey_iff (v : Slot) (key : Key) : matchKey v key = true ↔ slotKey v = key := by
  have table : ∀ i : Fin 64, (0x00000000FFFFFFFF#64).getLsbD i = decide (i.val < 32) := by decide
  rw [matchKey, decide_eq_true_iff, slotKey]
  constructor
  · intro same
    apply BitVec.eq_of_getLsbD_eq
    intro i hi
    have bit := congrArg (fun w => w.getLsbD i) same
    simp only [BitVec.getLsbD_and, BitVec.getLsbD_setWidth, table ⟨i, by omega⟩] at bit ⊢
    simpa [hi, show i < 64 by omega] using bit
  · rintro rfl
    apply BitVec.eq_of_getLsbD_eq
    intro i hi
    simp only [BitVec.getLsbD_and, BitVec.getLsbD_setWidth, table ⟨i, hi⟩]
    by_cases low : i < 32
    · simp [low, hi]
    · simp [low]

theorem slotKey_gen (key : Key) (time freq : Nat) :
    slotKey (genHashtableVal key time freq) = key := by
  apply BitVec.eq_of_getLsbD_eq
  intro i hi
  simp only [slotKey, genHashtableVal, BitVec.getLsbD_setWidth, BitVec.getLsbD_or,
    BitVec.getLsbD_shiftLeft]
  simp [hi, show i < 64 by omega, show i < 60 by omega]

theorem getInsertionTime_gen (key : Key) {time : Nat} (ht : time < 2 ^ 28) (freq : Nat) :
    getInsertionTime (genHashtableVal key time freq) = time := by
  have table : ∀ i : Fin 32, (0x0FFFFFFF00000000#64).getLsbD (32 + i) = decide (i.val < 28) := by
    decide
  have same : (genHashtableVal key time freq &&& 0x0FFFFFFF00000000#64) >>> 32 =
      BitVec.ofNat 64 time := by
    apply BitVec.eq_of_getLsbD_eq
    intro i hi
    rw [BitVec.getLsbD_ushiftRight, BitVec.getLsbD_and]
    by_cases low : i < 28
    · rw [table ⟨i, by omega⟩]
      simp only [genHashtableVal, BitVec.getLsbD_or, BitVec.getLsbD_setWidth,
        BitVec.getLsbD_shiftLeft, BitVec.getLsbD_ofNat]
      simp [low, show 32 + i < 64 by omega, show 32 + i < 60 by omega, hi]
    · have high : time.testBit i = false :=
        Nat.testBit_lt_two_pow (lt_of_lt_of_le ht (Nat.pow_le_pow_right (by decide) (by omega)))
      have cleared : (BitVec.ofNat 64 time).getLsbD i = false := by
        simp [BitVec.getLsbD_ofNat, high]
      rw [cleared]
      by_cases inside : i < 32
      · rw [table ⟨i, inside⟩]
        simp [low]
      · rw [BitVec.getLsbD_of_ge _ _ (by omega)]
        simp
  rw [getInsertionTime, same, BitVec.toNat_ofNat]
  omega

/-- The three fields of a slot are read back as they were written. -/
def Packed (v : Slot) : Prop :=
  ∃ key time freq, time ≤ maxValue ∧ freq ≤ maxFreq ∧ v = genHashtableVal key time freq ∧
    slotKey v = key ∧ getInsertionTime v = time ∧ getFreq v = freq

theorem packed_gen (key : Key) {time freq : Nat} (ht : time ≤ maxValue) (hf : freq ≤ maxFreq) :
    Packed (genHashtableVal key time freq) := by
  have short : time < 2 ^ 28 := by
    rw [maxValue] at ht
    omega
  have small : freq < 16 := by
    rw [maxFreq] at hf
    omega
  exact ⟨key, time, freq, ht, hf, rfl, slotKey_gen _ _ _, getInsertionTime_gen _ short _,
    getFreq_gen _ short small⟩

theorem packed_zero : Packed 0 := packed_gen 0 (Nat.zero_le _) (Nat.zero_le _)

theorem getInsertionTime_le (v : Slot) : getInsertionTime v ≤ maxValue := by
  have bound := getInsertionTime_lt v
  rw [maxValue]
  omega

/-! ## What a probe does -/

/-- A probe for `key` at time `now` over `slots`: slots are reclaimed if they are
expired and otherwise kept; a hit is a slot of the key that is not. -/
structure Probed (key : Key) (now : Nat) (slots : List Nat) (g g' : Ghost) (hit : Option Nat) :
    Prop where
  numElem : g'.numElem = g.numElem
  fifoSize : g'.fifoSize = g.fifoSize
  numInserts : g'.numInserts = g.numInserts
  kept : ∀ i, g'.hashTable i = g.hashTable i ∨
    i ∈ slots ∧ expired g now (g.hashTable i) = true ∧ g'.hashTable i = 0
  found : ∀ i, hit = some i → i ∈ slots ∧ g'.hashTable i = g.hashTable i ∧ g.hashTable i ≠ 0 ∧
    expired g now (g.hashTable i) = false ∧ slotKey (g.hashTable i) = key
  missed : hit = none → ∀ i ∈ slots, g'.hashTable i ≠ 0 → slotKey (g'.hashTable i) ≠ key

variable {g g' : Ghost} {key : Key} {now : Nat}

@[simp] theorem write_hashTable (g : Ghost) (i : Nat) (v : Slot) (d : Nat → Int) :
    (g.write i v d).hashTable = Function.update g.hashTable i v := rfl

theorem Probed.cons {i : Nat} {slots : List Nat} {mid : Ghost} {hit : Option Nat}
    (probed : Probed key now slots mid g' hit) (numElem : mid.numElem = g.numElem)
    (fifoSize : mid.fifoSize = g.fifoSize) (numInserts : mid.numInserts = g.numInserts)
    (others : ∀ j, j ≠ i → mid.hashTable j = g.hashTable j)
    (here : mid.hashTable i = g.hashTable i ∨
      expired g now (g.hashTable i) = true ∧ mid.hashTable i = 0)
    (other : mid.hashTable i ≠ 0 → slotKey (mid.hashTable i) ≠ key) :
    Probed key now (i :: slots) g g' hit := by
  have age : ∀ v, expired mid now v = expired g now v := by
    intro v
    rw [expired, expired, fifoSize]
  constructor
  · exact probed.numElem.trans numElem
  · exact probed.fifoSize.trans fifoSize
  · exact probed.numInserts.trans numInserts
  · intro j
    by_cases same : j = i
    · subst same
      rcases probed.kept j with kept | ⟨_, old, zero⟩
      · rw [kept]
        exact here.imp id fun h => ⟨List.mem_cons_self, h⟩
      · rw [age] at old
        refine .inr ⟨List.mem_cons_self, ?_, zero⟩
        rcases here with same | ⟨old', _⟩
        · rwa [← same]
        · exact old'
    · rw [← others j same]
      rcases probed.kept j with kept | ⟨member, old, zero⟩
      · exact .inl kept
      · rw [age] at old
        exact .inr ⟨List.mem_cons_of_mem i member, old, zero⟩
  · intro j hj
    obtain ⟨member, same, full, young, match_⟩ := probed.found j hj
    rw [age] at young
    refine ⟨List.mem_cons_of_mem i member, ?_⟩
    by_cases first : j = i
    · subst first
      exact absurd match_ (other full)
    · rw [others j first] at same full young match_
      exact ⟨same, full, young, match_⟩
  · intro none_ j hj full
    rcases List.mem_cons.mp hj with rfl | hj
    · rcases probed.kept j with kept | ⟨_, _, zero⟩
      · rw [kept] at full ⊢
        exact other full
      · exact absurd zero full
    · exact probed.missed none_ j hj full

theorem probe_probed (key : Key) (now : Nat) {slots : List Nat} {empty hit last : Option Nat}
    (result : probe key now slots g empty = (g', hit, last)) : Probed key now slots g g' hit := by
  induction slots generalizing g empty with
  | nil =>
    cases result
    exact ⟨rfl, rfl, rfl, fun _ => .inl rfl, by simp, by simp⟩
  | cons i slots ih =>
    simp only [probe] at result
    split at result
    case isTrue zero =>
      exact (ih result).cons rfl rfl rfl (fun _ _ => rfl) (.inl rfl) (absurd zero)
    case isFalse full =>
      split at result
      case isTrue old =>
        have cleared : (reclaim g i).hashTable i = 0 := by simp [reclaim]
        refine (ih result).cons rfl rfl rfl ?_ (.inr ⟨old, cleared⟩) (absurd cleared)
        intro j hj
        simp [reclaim, hj]
      case isFalse young =>
        simp only [Bool.not_eq_true] at young
        split at result
        case isTrue match_ =>
          cases result
          refine ⟨rfl, rfl, rfl, fun _ => .inl rfl, ?_, by simp⟩
          rintro j ⟨⟩
          exact ⟨List.mem_cons_self, rfl, full, young, (matchKey_iff _ _).mp match_⟩
        case isFalse other =>
          refine (ih result).cons rfl rfl rfl (fun _ _ => rfl) (.inl rfl) ?_
          intro _ same
          exact other ((matchKey_iff _ _).mpr same)

theorem probe_vacant (key : Key) (now : Nat) {slots : List Nat} {empty hit last : Option Nat}
    (result : probe key now slots g empty = (g', hit, last))
    (start : ∀ e, empty = some e → g.hashTable e = 0) {e : Nat} (offered : last = some e) :
    (e ∈ slots ∨ empty = some e) ∧ g'.hashTable e = 0 := by
  induction slots generalizing g empty with
  | nil =>
    cases result
    exact ⟨.inr offered, start e offered⟩
  | cons i slots ih =>
    have later : ∀ {g₁ : Ghost} {empty₁ : Option Nat},
        probe key now slots g₁ empty₁ = (g', hit, last) →
        (∀ e, empty₁ = some e → g₁.hashTable e = 0) → (empty₁ = some i ∨ empty₁ = empty) →
        (e ∈ i :: slots ∨ empty = some e) ∧ g'.hashTable e = 0 := by
      intro g₁ empty₁ result start which
      obtain ⟨place, zero⟩ := ih result start
      refine ⟨?_, zero⟩
      rcases place with member | chosen
      · exact .inl (List.mem_cons_of_mem i member)
      · rcases which with here | before
        · rw [here] at chosen
          cases chosen
          exact .inl List.mem_cons_self
        · exact .inr (before ▸ chosen)
    simp only [probe] at result
    split at result
    case isTrue zero =>
      refine later result ?_ (.inl rfl)
      rintro e ⟨⟩
      exact zero
    case isFalse =>
      split at result
      case isTrue =>
        refine later result ?_ (.inl rfl)
        rintro e ⟨⟩
        simp [reclaim]
      case isFalse =>
        split at result
        case isTrue =>
          cases result
          exact ⟨.inr offered, start e offered⟩
        case isFalse => exact later result start (.inr rfl)

/-! ## What the operations do -/

/-- The clock starts again before an insertion whose time would not fit its field. -/
def resetClock (g : Ghost) : Ghost :=
  if maxValue < g.numInserts then { g with numInserts := 0 } else g

/-- The slot that an insertion takes for its key, if it does not find the key. -/
def allocation (g : Ghost) (key : Key) : Option Nat :=
  let g := resetClock g
  match probe key g.numInserts (bucket g key) g none with
  | (_, some _, _) => none
  | (_, none, none) => some (key.toNat % g.numElem)
  | (_, none, some i) => some i

theorem resetClock_cases (g : Ghost) : resetClock g = g ∧ g.numInserts ≤ maxValue ∨
    resetClock g = { g with numInserts := 0 } ∧ maxValue < g.numInserts := by
  rw [resetClock]
  split
  case isTrue late => exact .inr ⟨rfl, late⟩
  case isFalse early => exact .inl ⟨rfl, Nat.le_of_not_lt early⟩

theorem resetClock_le (g : Ghost) : (resetClock g).numInserts ≤ maxValue := by
  rcases resetClock_cases g with ⟨same, early⟩ | ⟨same, _⟩
  · rwa [same]
  · rw [same]
    exact Nat.zero_le _

theorem resetClock_same (g : Ghost) : (resetClock g).hashTable = g.hashTable ∧
    (resetClock g).numElem = g.numElem ∧ (resetClock g).fifoSize = g.fifoSize := by
  rw [resetClock]
  split <;> exact ⟨rfl, rfl, rfl⟩

theorem bucket_congr (same : g'.numElem = g.numElem) (key : Key) : bucket g' key = bucket g key := by
  rw [bucket, bucket, getBucketIdx, getBucketIdx, same]

/-- The slot of a key is rewritten, if at all, with the same key and time. -/
structure Touched (key : Key) (i : Nat) (g g' : Ghost) : Prop where
  numElem : g'.numElem = g.numElem
  fifoSize : g'.fifoSize = g.fifoSize
  numInserts : g'.numInserts = g.numInserts
  others : ∀ j, j ≠ i → g'.hashTable j = g.hashTable j
  slot : g'.hashTable i = g.hashTable i ∨
    ∃ freq ≤ maxFreq, g'.hashTable i = genHashtableVal key (getInsertionTime (g.hashTable i)) freq

/-- A slot is written for a key at the time of the clock, which moves on. -/
structure Allocated (key : Key) (freq i : Nat) (g g' : Ghost) : Prop where
  numElem : g'.numElem = g.numElem
  fifoSize : g'.fifoSize = g.fifoSize
  numInserts : g'.numInserts = g.numInserts + 1
  others : ∀ j, j ≠ i → g'.hashTable j = g.hashTable j
  slot : g'.hashTable i = genHashtableVal key g.numInserts freq

theorem touched_write (g : Ghost) (key : Key) (i freq : Nat) (small : freq ≤ maxFreq)
    (d : Nat → Int) : Touched key i g
      (g.write i (genHashtableVal key (getInsertionTime (g.hashTable i)) freq) d) := by
  refine ⟨rfl, rfl, rfl, ?_, .inr ⟨freq, small, ?_⟩⟩
  · intro j hj
    simp [hj]
  · simp

theorem touched_refl (g : Ghost) (key : Key) (i : Nat) : Touched key i g g :=
  ⟨rfl, rfl, rfl, fun _ _ => rfl, .inl rfl⟩

theorem contains_cases (g : Ghost) (key : Key) :
    ∃ g' hit, Probed key g.numInserts (bucket g key) g g' hit ∧
      (hit = none ∧ contains g key = (0, g') ∨
        ∃ i, hit = some i ∧ (contains g key).1 ≠ 0 ∧ Touched key i g' (contains g key).2) := by
  rcases result : probe key g.numInserts (bucket g key) g none with ⟨g', hit, last⟩
  refine ⟨g', hit, probe_probed key _ result, ?_⟩
  simp only [contains, result]
  cases hit with
  | none => exact .inl ⟨rfl, rfl⟩
  | some i =>
    refine .inr ⟨i, rfl, ?_⟩
    dsimp only
    split
    case isTrue => exact ⟨(by decide : maxFreq ≠ 0), touched_refl g' key i⟩
    case isFalse =>
      exact ⟨Nat.succ_ne_zero _, touched_write g' key i _ (Nat.min_le_right _ _) _⟩

theorem insert_cases (g : Ghost) (key : Key) (freq : Nat) :
    ∃ g' hit, Probed key (resetClock g).numInserts (bucket g key) (resetClock g) g' hit ∧
      ((∃ i, hit = some i ∧ allocation g key = none ∧ Touched key i g' (insert g key freq)) ∨
        hit = none ∧ ∃ i ∈ bucket g key, allocation g key = some i ∧
          Allocated key freq i g' (insert g key freq)) := by
  have same : bucket (resetClock g) key = bucket g key := bucket_congr (resetClock_same g).2.1 key
  have unfolded : insert g key freq = insert (resetClock g) key freq := by
    have early := resetClock_le g
    rw [insert, insert, if_neg (Nat.not_lt.mpr early)]
    rfl
  rw [unfolded, ← same]
  set g₀ := resetClock g with h₀
  rcases result : probe key g₀.numInserts (bucket g₀ key) g₀ none with ⟨g', hit, last⟩
  have probed := probe_probed key _ result
  refine ⟨g', hit, probed, ?_⟩
  have early : ¬ maxValue < g₀.numInserts := Nat.not_lt.mpr (resetClock_le g)
  simp only [insert, if_neg early, allocation, ← h₀, result]
  cases hit with
  | some i =>
    refine .inl ⟨i, rfl, rfl, ?_⟩
    dsimp only
    split
    · exact touched_refl g' key i
    · exact touched_write g' key i _ (Nat.min_le_right _ _) _
  | none =>
    refine .inr ⟨rfl, ?_⟩
    have written : ∀ (i : Nat) (d : Nat → Int), Allocated key freq i g'
        (({ g' with numInserts := g'.numInserts + 1 } : Ghost).write i
          (genHashtableVal key g'.numInserts freq) d) := by
      intro i d
      refine ⟨rfl, rfl, rfl, ?_, ?_⟩
      · intro j hj
        simp [hj]
      · simp
    cases last with
    | none =>
      refine ⟨key.toNat % g₀.numElem, ?_, rfl, ?_⟩
      · -- the victim's index is the key's own, before its low bits are cleared
        refine List.mem_map.mpr ⟨key.toNat % g₀.numElem % 8, ?_, ?_⟩
        · exact List.mem_range.mpr (Nat.mod_lt _ (by decide))
        · rw [getBucketIdx]
          omega
      · rw [← probed.numElem]
        exact written _ _
    | some i =>
      obtain ⟨place, _⟩ := probe_vacant key _ result (by simp) rfl
      exact ⟨i, place.resolve_right (by simp), rfl, written i _⟩

/-! ## The representation -/

structure Shaped (g : Ghost) : Prop where
  home : ∀ i, g.hashTable i ≠ 0 → i ∈ bucket g (slotKey (g.hashTable i))
  unique : ∀ i j, g.hashTable i ≠ 0 → g.hashTable j ≠ 0 →
    slotKey (g.hashTable i) = slotKey (g.hashTable j) → i = j
  packed : ∀ i, Packed (g.hashTable i)

variable {slots : List Nat} {hit : Option Nat} {freq i : Nat}

theorem Shaped.probed (shaped : Shaped g) (probed : Probed key now slots g g' hit) : Shaped g' := by
  have kept : ∀ i, g'.hashTable i ≠ 0 → g'.hashTable i = g.hashTable i := fun i full =>
    (probed.kept i).resolve_right fun cleared => full cleared.2.2
  constructor
  · intro i full
    have same := kept i full
    rw [bucket_congr probed.numElem, same]
    exact shaped.home i (same ▸ full)
  · intro i j fullI fullJ keys
    have sameI := kept i fullI
    have sameJ := kept j fullJ
    rw [sameI] at fullI
    rw [sameJ] at fullJ
    rw [sameI, sameJ] at keys
    exact shaped.unique i j fullI fullJ keys
  · intro i
    rcases probed.kept i with same | ⟨_, _, zero⟩
    · exact same ▸ shaped.packed i
    · exact zero ▸ packed_zero

theorem Shaped.write (shaped : Shaped g) (numElem : g'.numElem = g.numElem)
    (others : ∀ j, j ≠ i → g'.hashTable j = g.hashTable j) (place : i ∈ bucket g key)
    (packed : Packed (g'.hashTable i)) (own : slotKey (g'.hashTable i) = key)
    (alone : ∀ j, j ≠ i → g.hashTable j ≠ 0 → slotKey (g.hashTable j) ≠ key) : Shaped g' := by
  constructor
  · intro j full
    rw [bucket_congr numElem]
    by_cases here : j = i
    · rw [here, own]
      exact place
    · rw [others j here] at full ⊢
      exact shaped.home j full
  · intro j k fullJ fullK keys
    by_cases hereJ : j = i
    · by_cases hereK : k = i
      · rw [hereJ, hereK]
      · rw [others k hereK] at fullK keys
        rw [hereJ, own] at keys
        exact absurd keys.symm (alone k hereK fullK)
    · rw [others j hereJ] at fullJ keys
      by_cases hereK : k = i
      · rw [hereK, own] at keys
        exact absurd keys (alone j hereJ fullJ)
      · rw [others k hereK] at fullK keys
        exact shaped.unique j k fullJ fullK keys
  · intro j
    by_cases here : j = i
    · exact here ▸ packed
    · rw [others j here]
      exact shaped.packed j

theorem Shaped.touched (shaped : Shaped g) (full : g.hashTable i ≠ 0)
    (own : slotKey (g.hashTable i) = key) (touched : Touched key i g g') : Shaped g' := by
  have place : i ∈ bucket g key := own ▸ shaped.home i full
  refine shaped.write touched.numElem touched.others place ?_ ?_ ?_
  · rcases touched.slot with same | ⟨freq, small, written⟩
    · exact same ▸ shaped.packed i
    · exact written ▸ packed_gen key (getInsertionTime_le _) small
  · rcases touched.slot with same | ⟨freq, small, written⟩
    · rw [same, own]
    · rw [written, slotKey_gen]
  · intro j other full' keys
    exact other (shaped.unique j i full' full (keys.trans own.symm))

theorem Shaped.allocated (shaped : Shaped g) (place : i ∈ bucket g key)
    (absent : ∀ j ∈ bucket g key, g.hashTable j ≠ 0 → slotKey (g.hashTable j) ≠ key)
    (clock : g.numInserts ≤ maxValue) (small : freq ≤ maxFreq)
    (allocated : Allocated key freq i g g') : Shaped g' := by
  refine shaped.write allocated.numElem allocated.others place ?_ ?_ ?_
  · exact allocated.slot ▸ packed_gen key clock small
  · rw [allocated.slot, slotKey_gen]
  · intro j _ full keys
    exact absent j (keys ▸ shaped.home j full) full keys

theorem contains_shaped (shaped : Shaped g) (key : Key) : Shaped (contains g key).2 := by
  obtain ⟨g', hit, probed, ⟨_, same⟩ | ⟨i, found, _, touched⟩⟩ := contains_cases g key
  · rw [same]
    exact shaped.probed probed
  · obtain ⟨_, same, full, _, own⟩ := probed.found i found
    rw [← same] at full own
    exact (shaped.probed probed).touched full own touched

theorem insert_shaped (shaped : Shaped g) (key : Key) (small : freq ≤ maxFreq) :
    Shaped (insert g key freq) := by
  obtain ⟨table, numElem, _⟩ := resetClock_same g
  have started : Shaped (resetClock g) := by
    refine ⟨?_, table ▸ shaped.unique, table ▸ shaped.packed⟩
    intro i full
    rw [bucket_congr numElem, table]
    exact shaped.home i (table ▸ full)
  obtain ⟨g', hit, probed, ⟨i, found, _, touched⟩ | ⟨missed, i, place, _, allocated⟩⟩ :=
    insert_cases g key freq
  · obtain ⟨_, same, full, _, own⟩ := probed.found i found
    rw [← same] at full own
    exact (started.probed probed).touched full own touched
  · have buckets : bucket g' key = bucket g key := bucket_congr (probed.numElem.trans numElem) key
    refine (started.probed probed).allocated (buckets ▸ place) ?_ ?_ small allocated
    · rw [buckets]
      exact probed.missed missed
    · rw [probed.numInserts]
      exact resetClock_le g

/-! ## Runs -/

/-- Both operations divide by the number of slots. -/
inductive Operation : Ghost → Ghost → Prop where
  | insert {g : Ghost} (key : Key) {freq : Nat} (small : freq ≤ maxFreq) (defined : 0 < g.numElem) :
      Operation g (insert g key freq)
  | contains {g : Ghost} (key : Key) (defined : 0 < g.numElem) : Operation g (contains g key).2

/-- A table that was sized and cleared, with its counters at zero. -/
def fresh (fifoSize : Nat) : Ghost := initHashtable (setFIFOSize {} fifoSize)

structure Representation (g : Ghost) : Prop extends Shaped g where
  inside : ∀ i, g.hashTable i ≠ 0 → i < g.numElem
  counters : ∀ level, level = 1 ∨ level = 2 → g.freqDistribution level =
    ((List.range g.numElem).countP fun i =>
      decide (g.hashTable i ≠ 0 ∧ level ≤ getFreq (g.hashTable i)) : Nat)

theorem operation_numElem (operation : Operation g g') :
    0 < g.numElem ∧ g'.numElem = g.numElem ∧ g'.fifoSize = g.fifoSize := by
  cases operation with
  | @insert key freq small defined =>
    obtain ⟨_, numElem, fifoSize⟩ := resetClock_same g
    refine ⟨defined, ?_⟩
    obtain ⟨g', hit, probed, ⟨i, _, _, touched⟩ | ⟨_, i, _, _, allocated⟩⟩ := insert_cases g key freq
    · exact ⟨touched.numElem.trans (probed.numElem.trans numElem),
        touched.fifoSize.trans (probed.fifoSize.trans fifoSize)⟩
    · exact ⟨allocated.numElem.trans (probed.numElem.trans numElem),
        allocated.fifoSize.trans (probed.fifoSize.trans fifoSize)⟩
  | contains key defined =>
    refine ⟨defined, ?_⟩
    obtain ⟨g', hit, probed, ⟨_, same⟩ | ⟨i, _, _, touched⟩⟩ := contains_cases g key
    · rw [same]
      exact ⟨probed.numElem, probed.fifoSize⟩
    · exact ⟨touched.numElem.trans probed.numElem, touched.fifoSize.trans probed.fifoSize⟩

theorem fresh_numElem (fifoSize : Nat) : 8 ∣ (fresh fifoSize).numElem := by
  simp only [fresh, initHashtable, setFIFOSize]
  omega

theorem bucket_lt (whole : 8 ∣ g.numElem) (positive : 0 < g.numElem) (place : i ∈ bucket g key) :
    i < g.numElem := by
  obtain ⟨j, hj, rfl⟩ := List.mem_map.mp place
  have offset := List.mem_range.mp hj
  have index := Nat.mod_lt key.toNat positive
  rw [getBucketIdx]
  omega

theorem counters_recount (shaped : Shaped g) (counted : Counted addresses g)
    (inside : ∀ i, g.hashTable i ≠ 0 → i < g.numElem) {level : Nat} (hl : level = 1 ∨ level = 2) :
    g.freqDistribution level = ((List.range g.numElem).countP fun i =>
      decide (g.hashTable i ≠ 0 ∧ level ≤ getFreq (g.hashTable i)) : Nat) := by
  set weight : Nat → Int := fun i => reaches level (getFreq (g.hashTable i)) with hw
  have weightless : ∀ i, g.hashTable i = 0 → weight i = 0 := by
    intro i zero
    rw [hw]
    dsimp only
    rw [zero, getFreq_zero, reaches_zero hl]
  have reach : ∀ i, g.hashTable i ≠ 0 → i < addresses := fun i full =>
    bucket_inside g _ i (shaped.home i full)
  -- both ranges hold every slot that is not empty
  have ranges : total weight (List.range addresses) = total weight (List.range g.numElem) := by
    rcases Nat.le_total addresses g.numElem with le | le
    · refine (total_range_of_zero le ?_).symm
      intro i high _
      exact weightless i (not_not.mp fun full => absurd (reach i full) (by omega))
    · refine total_range_of_zero le ?_
      intro i high _
      exact weightless i (not_not.mp fun full => absurd (inside i full) (by omega))
  rw [counted.exact_ hl, ← total_eq_countP]
  refine ranges.trans (total_congr ?_)
  intro i _
  simp only [decide_eq_true_iff]
  by_cases zero : g.hashTable i = 0
  · rw [weightless i zero, if_neg fun both => both.1 zero]
  · exact if_congr ⟨fun high => ⟨zero, high⟩, And.right⟩ rfl rfl

theorem history_shaped {fifoSize : Nat} (history : Reachable Operation (fresh fifoSize) g) :
    Shaped g ∧ Counted addresses g ∧ 8 ∣ g.numElem ∧ ∀ i, g.hashTable i ≠ 0 → 0 < g.numElem := by
  refine history.invariant (fun g => Shaped g ∧ Counted addresses g ∧ 8 ∣ g.numElem ∧
    ∀ i, g.hashTable i ≠ 0 → 0 < g.numElem) ?_ ?_
  · refine ⟨⟨?_, ?_, fun _ => packed_zero⟩, counted_blank (fun _ => rfl) (fun _ => rfl),
      fresh_numElem fifoSize, ?_⟩
    · exact fun i full => absurd rfl full
    · exact fun i j full => absurd rfl full
    · exact fun i full => absurd rfl full
  · rintro g g' ⟨shaped, counted, whole, _⟩ operation
    obtain ⟨positive, numElem, _⟩ := operation_numElem operation
    rw [numElem]
    refine ⟨?_, ?_, whole, fun _ _ => positive⟩
    · cases operation with
      | insert key small defined => exact insert_shaped shaped key small
      | contains key defined => exact contains_shaped shaped key
    · cases operation with
      | insert key small defined => exact insert_counted counted key small
      | contains key defined => exact (contains_counted counted key).1

/-- Every table that lookups and insertions can reach is a representation. -/
theorem ghost_representation {fifoSize : Nat} (history : Reachable Operation (fresh fifoSize) g) :
    Representation g := by
  obtain ⟨shaped, counted, whole, positive⟩ := history_shaped history
  have inside : ∀ i, g.hashTable i ≠ 0 → i < g.numElem := fun i full =>
    bucket_lt whole (positive i full) (shaped.home i full)
  exact ⟨shaped, inside, fun level hl => counters_recount shaped counted inside hl⟩

/-- A table of sixteen slots after an insertion and a lookup of the same key. -/
theorem ghost_representation_one_key :
    Representation (contains (insert (fresh 0) 1 2) 1).2 ∧
      (contains (insert (fresh 0) 1 2) 1).2.freqDistribution 2 = 1 := by
  have inserted : Operation (fresh 0) (insert (fresh 0) 1 2) := .insert 1 (by decide) (by decide)
  have looked : Operation (insert (fresh 0) 1 2) (contains (insert (fresh 0) 1 2) 1).2 :=
    .contains 1 (by rw [(operation_numElem inserted).2.1]; decide)
  exact ⟨ghost_representation ((Reachable.refl.next inserted).next looked), by decide +kernel⟩

end MerlinGhost
