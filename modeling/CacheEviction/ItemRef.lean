import Mathlib.Data.Nat.Bitwise
import Mathlib.Logic.Function.Basic

/-!
# The reference word of a CacheLib item

One 32-bit word has an item's reference count, its administrative bits and the bits
of its eviction container. Merlin uses four one-bit marks of it (linked, filter, core,
cuckoo) and packs a frequency of three bits between them (`kMMFlag2` to `kMMFlag4`).

Every update is read through `marks`, the record of what Merlin can see of a word, so
that no later proof looks at bits.
-/
namespace ItemRef

abbrev Word := BitVec 32

inductive Flag where
  | kLinked
  | kMMFlag0
  | kMMFlag1
  | kMMFlag5
  deriving DecidableEq

def Flag.bit : Flag → Nat
  | .kLinked => 16
  | .kMMFlag0 => 19
  | .kMMFlag1 => 20
  | .kMMFlag5 => 24

/-- `kMMFlag2`, the lowest of the three frequency bits. -/
def kMMFlag2 : Nat := 21

def maxFreq : Nat := 7

def kFreqMask : Word := 7#32 <<< kMMFlag2

def setFlag (w : Word) (f : Flag) : Word := w ||| 1#32 <<< f.bit

/-- The source masks with the largest value minus the bit, its complement. -/
def unSetFlag (w : Word) (f : Flag) : Word := w &&& ~~~(1#32 <<< f.bit)

def isFlagSet (w : Word) (f : Flag) : Bool := w &&& 1#32 <<< f.bit != 0

def getFreq (w : Word) : Nat := (w >>> kMMFlag2 &&& 7#32).toNat

/-- The word update of `incFreq`: its predicate refuses a full frequency. -/
def raiseFreq (w : Word) : Word :=
  if w &&& kFreqMask = kFreqMask then w else w + 1#32 <<< kMMFlag2

/-- The word update of `decFreq`: its predicate refuses frequency zero. -/
def lowerFreq (w : Word) : Word :=
  if w &&& kFreqMask = 0 then w else w - 1#32 <<< kMMFlag2

def wipeFreq (w : Word) : Word := w &&& ~~~kFreqMask

/-- The word update of `clearFreq`: its predicate refuses frequency zero. -/
def dropFreq (w : Word) : Word := if w &&& kFreqMask = 0 then w else wipeFreq w

def writeFreq (w : Word) (freq : Nat) : Word :=
  wipeFreq w ||| (BitVec.ofNat 32 freq &&& 7#32) <<< kMMFlag2

theorem toNat_injective {a b : Bool} (h : a.toNat = b.toNat) : a = b := by
  cases a <;> cases b <;> simp_all

def bitAt (w : Word) (i : Nat) : Bool := w.getLsbD i

theorem isFlagSet_eq_bitAt (w : Word) (f : Flag) : isFlagSet w f = bitAt w f.bit := by
  have mask : (1#32 <<< f.bit) = BitVec.twoPow 32 f.bit := (BitVec.twoPow_eq 32 f.bit).symm
  have nonzero : BitVec.twoPow 32 f.bit ≠ 0#32 := by cases f <;> decide
  rw [isFlagSet, bitAt, mask, BitVec.and_twoPow]
  cases w.getLsbD f.bit <;> simp [nonzero]

theorem bitAt_toNat (w : Word) (i : Nat) : (bitAt w i).toNat = w.toNat / 2 ^ i % 2 := by
  rw [bitAt, ← BitVec.testBit_toNat, Nat.toNat_testBit]

theorem getFreq_eq_div (w : Word) : getFreq w = w.toNat / 2 ^ 21 % 8 := by
  have low : (7#32).toNat = 2 ^ 3 - 1 := by decide
  simp only [getFreq, kMMFlag2, BitVec.toNat_and, BitVec.toNat_ushiftRight,
    Nat.shiftRight_eq_div_pow, low, Nat.and_two_pow_sub_one_eq_mod]

theorem getFreq_eq_bits (w : Word) :
    getFreq w = (bitAt w 21).toNat + 2 * (bitAt w 22).toNat + 4 * (bitAt w 23).toNat := by
  rw [getFreq_eq_div, bitAt_toNat, bitAt_toNat, bitAt_toNat]
  omega

theorem getFreq_le (w : Word) : getFreq w ≤ maxFreq := by
  rw [getFreq_eq_div, maxFreq]
  omega

theorem kFreqMask_bitAt (i : Nat) : bitAt kFreqMask i = decide (21 ≤ i ∧ i ≤ 23) := by
  by_cases inside : i < 32
  · have table : ∀ j : Fin 32, bitAt kFreqMask j = decide (21 ≤ j.val ∧ j.val ≤ 23) := by decide
    exact table ⟨i, inside⟩
  · have above : ¬(21 ≤ i ∧ i ≤ 23) := by omega
    rw [bitAt, BitVec.getLsbD_of_ge _ _ (by omega), decide_eq_false above]

theorem masked_eq_iff (v w : Word) : v &&& kFreqMask = w &&& kFreqMask ↔ getFreq v = getFreq w := by
  constructor
  · intro same
    have bits : ∀ i, 21 ≤ i ∧ i ≤ 23 → bitAt v i = bitAt w i := by
      intro i hi
      have here : bitAt (v &&& kFreqMask) i = bitAt (w &&& kFreqMask) i := by rw [same]
      have mask := kFreqMask_bitAt i
      simp only [bitAt, BitVec.getLsbD_and] at here mask ⊢
      simpa only [mask, hi, and_self, decide_true, Bool.and_true] using here
    rw [getFreq_eq_bits, getFreq_eq_bits, bits 21 (by omega), bits 22 (by omega),
      bits 23 (by omega)]
  · intro same
    rw [getFreq_eq_bits, getFreq_eq_bits] at same
    have small : ∀ (u : Word) i, (bitAt u i).toNat ≤ 1 := fun u i => Bool.toNat_le _
    have v21 := small v 21
    have v22 := small v 22
    have v23 := small v 23
    have w21 := small w 21
    have w22 := small w 22
    have w23 := small w 23
    have bits : ∀ i, 21 ≤ i ∧ i ≤ 23 → bitAt v i = bitAt w i := by
      intro i hi
      apply toNat_injective
      obtain rfl | rfl | rfl : i = 21 ∨ i = 22 ∨ i = 23 := by omega
      all_goals omega
    apply BitVec.eq_of_getLsbD_eq
    intro i _
    have mask := kFreqMask_bitAt i
    simp only [bitAt] at bits mask
    rw [BitVec.getLsbD_and, BitVec.getLsbD_and, mask]
    by_cases inside : 21 ≤ i ∧ i ≤ 23
    · rw [bits i inside]
    · rw [decide_eq_false inside, Bool.and_false, Bool.and_false]

/-- What Merlin can see of a word. -/
@[ext] structure Marks where
  linked : Bool
  filter : Bool
  core : Bool
  cuckoo : Bool
  freq : Nat
  deriving DecidableEq

def marks (w : Word) : Marks where
  linked := isFlagSet w .kLinked
  filter := isFlagSet w .kMMFlag0
  core := isFlagSet w .kMMFlag1
  cuckoo := isFlagSet w .kMMFlag5
  freq := getFreq w

def Marks.put (m : Marks) (value : Bool) : Flag → Marks
  | .kLinked => { m with linked := value }
  | .kMMFlag0 => { m with filter := value }
  | .kMMFlag1 => { m with core := value }
  | .kMMFlag5 => { m with cuckoo := value }

theorem marks_of_bits {v w : Word} {f : Nat} (freq : getFreq v = f)
    (bits : ∀ i ∈ [16, 19, 20, 24], bitAt v i = bitAt w i) :
    marks v = { marks w with freq := f } := by
  simp only [List.forall_mem_cons] at bits
  obtain ⟨h16, h19, h20, h24, _⟩ := bits
  simp only [marks, isFlagSet_eq_bitAt, Flag.bit, freq, h16, h19, h20, h24]

@[simp] theorem marks_setFlag (w : Word) (f : Flag) :
    marks (setFlag w f) = (marks w).put true f := by
  have bits : ∀ i, bitAt (setFlag w f) i = (bitAt w i || decide (f.bit = i)) := by
    intro i
    have inside : f.bit < 32 := by cases f <;> decide
    rw [bitAt, setFlag, ← BitVec.twoPow_eq, BitVec.getLsbD_or, BitVec.getLsbD_twoPow]
    simp [inside, bitAt]
  cases f <;> simp [marks, Marks.put, isFlagSet_eq_bitAt, getFreq_eq_bits, bits, Flag.bit]

@[simp] theorem marks_unSetFlag (w : Word) (f : Flag) :
    marks (unSetFlag w f) = (marks w).put false f := by
  have bits : ∀ i, i < 32 → bitAt (unSetFlag w f) i = (bitAt w i && !decide (f.bit = i)) := by
    intro i hi
    have inside : f.bit < 32 := by cases f <;> decide
    rw [bitAt, unSetFlag, ← BitVec.twoPow_eq, BitVec.getLsbD_and, BitVec.getLsbD_not,
      BitVec.getLsbD_twoPow]
    simp [inside, hi, bitAt]
  cases f <;> simp [marks, Marks.put, isFlagSet_eq_bitAt, getFreq_eq_bits, bits, Flag.bit]

theorem bitAt_wipeFreq (w : Word) {i : Nat} (inside : i < 32) :
    bitAt (wipeFreq w) i = (bitAt w i && !decide (21 ≤ i ∧ i ≤ 23)) := by
  rw [← kFreqMask_bitAt]
  simp only [bitAt, wipeFreq, BitVec.getLsbD_and, BitVec.getLsbD_not, inside, decide_true,
    Bool.true_and]

@[simp] theorem marks_wipeFreq (w : Word) : marks (wipeFreq w) = { marks w with freq := 0 } := by
  apply marks_of_bits
  · simp [getFreq_eq_bits, bitAt_wipeFreq]
  · simp [bitAt_wipeFreq]

@[simp] theorem marks_dropFreq (w : Word) : marks (dropFreq w) = { marks w with freq := 0 } := by
  by_cases empty : w &&& kFreqMask = 0
  · have none : getFreq w = 0 := (masked_eq_iff w 0).mp empty
    rw [dropFreq, if_pos empty]
    simp [marks, none]
  · rw [dropFreq, if_neg empty, marks_wipeFreq]

@[simp] theorem marks_writeFreq (w : Word) {freq : Nat} (small : freq ≤ maxFreq) :
    marks (writeFreq w freq) = { marks w with freq := freq } := by
  have table : ∀ f : Fin 8, ∀ i : Fin 32,
      bitAt ((BitVec.ofNat 32 f &&& 7#32) <<< kMMFlag2) i =
        (decide (21 ≤ i.val ∧ i.val ≤ 23) && f.val.testBit (i.val - 21)) := by decide
  have bits : ∀ i, i < 32 → bitAt (writeFreq w freq) i =
      (bitAt (wipeFreq w) i || (decide (21 ≤ i ∧ i ≤ 23) && freq.testBit (i - 21))) := by
    intro i hi
    have here := table ⟨freq, Nat.lt_succ_of_le small⟩ ⟨i, hi⟩
    simp only [bitAt] at here
    simp only [bitAt, writeFreq, BitVec.getLsbD_or, here]
  apply marks_of_bits
  · have digits : ∀ f : Fin 8, (f.val.testBit 0).toNat + 2 * (f.val.testBit 1).toNat +
        4 * (f.val.testBit 2).toNat = f.val := by decide
    have here := digits ⟨freq, Nat.lt_succ_of_le small⟩
    rw [getFreq_eq_bits, bits 21 (by omega), bits 22 (by omega), bits 23 (by omega)]
    simpa [bitAt_wipeFreq] using here
  · simp [bits, bitAt_wipeFreq]

theorem same_bits {v w : Word} {places : List Nat}
    (digits : ∀ i ∈ places, v.toNat / 2 ^ i % 2 = w.toNat / 2 ^ i % 2) :
    ∀ i ∈ places, bitAt v i = bitAt w i := by
  intro i hi
  apply toNat_injective
  rw [bitAt_toNat, bitAt_toNat]
  exact digits i hi

@[simp] theorem marks_raiseFreq (w : Word) :
    marks (raiseFreq w) = { marks w with freq := min (getFreq w + 1) maxFreq } := by
  have full : w &&& kFreqMask = kFreqMask ↔ getFreq w = maxFreq := by
    have := masked_eq_iff w kFreqMask
    rwa [BitVec.and_self] at this
  have bound := getFreq_le w
  by_cases saturated : getFreq w = maxFreq
  · rw [raiseFreq, if_pos (full.mpr saturated)]
    simp [marks, saturated]
  · rw [raiseFreq, if_neg (fun h => saturated (full.mp h))]
    rw [getFreq_eq_div, maxFreq] at saturated
    have value : (w + 1#32 <<< kMMFlag2).toNat = w.toNat + 2 ^ 21 := by
      have one : (1#32 <<< kMMFlag2).toNat = 2 ^ 21 := by decide
      have small := w.isLt
      rw [BitVec.toNat_add, one]
      omega
    apply marks_of_bits
    · rw [getFreq_eq_div, getFreq_eq_div, value, maxFreq]
      omega
    · exact same_bits (fun i hi => by
        simp only [List.mem_cons, List.not_mem_nil, or_false] at hi
        rcases hi with rfl | rfl | rfl | rfl <;> rw [value] <;> omega)

@[simp] theorem marks_lowerFreq (w : Word) :
    marks (lowerFreq w) = { marks w with freq := getFreq w - 1 } := by
  have none : w &&& kFreqMask = 0 ↔ getFreq w = 0 := masked_eq_iff w 0
  by_cases empty : getFreq w = 0
  · rw [lowerFreq, if_pos (none.mpr empty)]
    simp [marks, empty]
  · rw [lowerFreq, if_neg (fun h => empty (none.mp h))]
    rw [getFreq_eq_div] at empty
    have value : (w - 1#32 <<< kMMFlag2).toNat = w.toNat - 2 ^ 21 := by
      have one : (1#32 <<< kMMFlag2).toNat = 2 ^ 21 := by decide
      have small := w.isLt
      rw [BitVec.toNat_sub, one]
      omega
    apply marks_of_bits
    · rw [getFreq_eq_div, getFreq_eq_div, value]
      omega
    · exact same_bits (fun i hi => by
        simp only [List.mem_cons, List.not_mem_nil, or_false] at hi
        rcases hi with rfl | rfl | rfl | rfl <;> rw [value] <;> omega)

end ItemRef
