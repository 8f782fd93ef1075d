import CacheEviction.ItemRef

/-!
# The reference word under CacheLib's S3-FIFO

`S3FIFOList.h` keeps a frequency of two bits at `kMMFlag3` and names the queue of an item
by `kMMFlag0` (probationary) and `kMMFlag1` (main). Every update is read through `marks`,
what the policy can see of a word.
-/
namespace S3FifoRef

open ItemRef

/-- `kMMFlag3`, the lower of the two frequency bits. -/
def kMMFlag3 : Nat := 22

def s3kFreqMask : Word := 3#32 <<< kMMFlag3

def getFreq (w : Word) : Nat := (w >>> kMMFlag3 &&& 3#32).toNat

/-- The word update of `incFreq`: its predicate refuses a full frequency. -/
def incFreq (w : Word) : Word :=
  if w &&& s3kFreqMask = s3kFreqMask then w else w + 1#32 <<< kMMFlag3

/-- The word update of `decFreq`: its predicate refuses frequency zero. -/
def decFreq (w : Word) : Word :=
  if w &&& s3kFreqMask = 0 then w else w - 1#32 <<< kMMFlag3

/-- The word update of `clearFreq`: its predicate refuses frequency zero. -/
def clearFreq (w : Word) : Word :=
  if w &&& s3kFreqMask = 0 then w else w &&& ~~~s3kFreqMask

inductive Queue where
  | probationary
  | main
  deriving DecidableEq

def Queue.other : Queue → Queue
  | .probationary => .main
  | .main => .probationary

/-- The flag by which `isProbationary` and `isMain` know an item. -/
def Queue.flag : Queue → Flag
  | .probationary => .kMMFlag0
  | .main => .kMMFlag1

structure Marks where
  named : Queue → Bool
  freq : Nat

def marks (w : Word) : Marks where
  named := fun q => isFlagSet w q.flag
  freq := getFreq w

theorem Queue.eq_or_other (a b : Queue) : a = b ∨ a = b.other := by
  cases a <;> cases b <;> decide

theorem Queue.other_ne (a : Queue) : a.other ≠ a := by
  cases a <;> decide

/-! ## Bits -/

theorem getFreq_eq_div (w : Word) : getFreq w = w.toNat / 2 ^ 22 % 4 := by
  have low : (3#32).toNat = 2 ^ 2 - 1 := by decide
  simp only [getFreq, kMMFlag3, BitVec.toNat_and, BitVec.toNat_ushiftRight,
    Nat.shiftRight_eq_div_pow, low, Nat.and_two_pow_sub_one_eq_mod]

theorem getFreq_eq_bits (w : Word) :
    getFreq w = (bitAt w 22).toNat + 2 * (bitAt w 23).toNat := by
  rw [getFreq_eq_div, bitAt_toNat, bitAt_toNat]
  omega

theorem masked_eq (w : Word) : w &&& s3kFreqMask =
    (if bitAt w 22 then BitVec.twoPow 32 22 else 0) ||| if bitAt w 23 then BitVec.twoPow 32 23 else 0 := by
  have mask : s3kFreqMask = BitVec.twoPow 32 22 ||| BitVec.twoPow 32 23 := by decide
  rw [mask, BitVec.and_or_distrib_left, BitVec.and_twoPow, BitVec.and_twoPow]
  rfl

theorem masked_eq_zero (w : Word) : w &&& s3kFreqMask = 0 ↔ getFreq w = 0 := by
  rw [masked_eq, getFreq_eq_bits]
  cases bitAt w 22 <;> cases bitAt w 23 <;> decide

theorem masked_eq_mask (w : Word) : w &&& s3kFreqMask = s3kFreqMask ↔ getFreq w = 3 := by
  rw [masked_eq, getFreq_eq_bits]
  cases bitAt w 22 <;> cases bitAt w 23 <;> decide

theorem marks_of_bits {v w : Word} {f : Nat} (freq : getFreq v = f)
    (bits : ∀ i ∈ [19, 20], bitAt v i = bitAt w i) : marks v = { marks w with freq := f } := by
  simp only [List.forall_mem_cons] at bits
  obtain ⟨h19, h20, -⟩ := bits
  have named : ∀ q : Queue, isFlagSet v q.flag = isFlagSet w q.flag := by
    intro q
    cases q <;> simp only [isFlagSet_eq_bitAt, Queue.flag, Flag.bit, h19, h20]
  simp only [marks, freq, named]

theorem marks_of_low {v w : Word} {f : Nat} (freq : getFreq v = f)
    (low : v.toNat % 2 ^ 22 = w.toNat % 2 ^ 22) : marks v = { marks w with freq := f } := by
  apply marks_of_bits freq
  apply same_bits
  intro i hi
  simp only [List.mem_cons, List.not_mem_nil, or_false] at hi
  rcases hi with rfl | rfl <;> omega

/-! ## The updates -/

@[simp] theorem marks_incFreq (w : Word) :
    marks (incFreq w) = { marks w with freq := min (getFreq w + 1) 3 } := by
  by_cases full : getFreq w = 3
  · rw [incFreq, if_pos ((masked_eq_mask w).mpr full)]
    simp [marks, full]
  · rw [incFreq, if_neg (fun h => full ((masked_eq_mask w).mp h))]
    rw [getFreq_eq_div] at full
    have value : (w + 1#32 <<< kMMFlag3).toNat = w.toNat + 2 ^ 22 := by
      have one : (1#32 <<< kMMFlag3).toNat = 2 ^ 22 := by decide
      have small := w.isLt
      rw [BitVec.toNat_add, one]
      omega
    apply marks_of_low
    · rw [getFreq_eq_div, getFreq_eq_div, value]
      omega
    · rw [value]
      omega

@[simp] theorem marks_decFreq (w : Word) :
    marks (decFreq w) = { marks w with freq := getFreq w - 1 } := by
  by_cases empty : getFreq w = 0
  · rw [decFreq, if_pos ((masked_eq_zero w).mpr empty)]
    simp [marks, empty]
  · rw [decFreq, if_neg (fun h => empty ((masked_eq_zero w).mp h))]
    rw [getFreq_eq_div] at empty
    have value : (w - 1#32 <<< kMMFlag3).toNat = w.toNat - 2 ^ 22 := by
      have one : (1#32 <<< kMMFlag3).toNat = 2 ^ 22 := by decide
      have small := w.isLt
      rw [BitVec.toNat_sub, one]
      omega
    apply marks_of_low
    · rw [getFreq_eq_div, getFreq_eq_div, value]
      omega
    · rw [value]
      omega

@[simp] theorem marks_clearFreq (w : Word) : marks (clearFreq w) = { marks w with freq := 0 } := by
  by_cases empty : getFreq w = 0
  · rw [clearFreq, if_pos ((masked_eq_zero w).mpr empty)]
    simp [marks, empty]
  · rw [clearFreq, if_neg (fun h => empty ((masked_eq_zero w).mp h))]
    have mask : ∀ i : Fin 32, bitAt s3kFreqMask i = decide (22 ≤ i.val ∧ i.val ≤ 23) := by decide
    have bits : ∀ i, i < 32 → bitAt (w &&& ~~~s3kFreqMask) i =
        (bitAt w i && !decide (22 ≤ i ∧ i ≤ 23)) := by
      intro i inside
      rw [← mask ⟨i, inside⟩]
      simp only [bitAt, BitVec.getLsbD_and, BitVec.getLsbD_not, inside, decide_true, Bool.true_and]
    apply marks_of_bits
    · simp [getFreq_eq_bits, bits]
    · simp [bits]

/-- What Merlin can see of a word determines what S3-FIFO can see. -/
def ofMerlin (m : ItemRef.Marks) : Marks where
  named
    | .probationary => m.filter
    | .main => m.core
  freq := m.freq / 2

theorem marks_eq (w : Word) : marks w = ofMerlin (ItemRef.marks w) := by
  have named : (fun q : Queue => isFlagSet w q.flag) = (ofMerlin (ItemRef.marks w)).named := by
    funext q
    cases q <;> rfl
  have freq : getFreq w = ItemRef.getFreq w / 2 := by
    rw [getFreq_eq_div, ItemRef.getFreq_eq_div]
    omega
  rw [marks, named, freq]
  rfl

theorem ofMerlin_put (m : ItemRef.Marks) (q : Queue) (value : Bool) :
    ofMerlin (m.put value q.flag) =
      { ofMerlin m with named := Function.update (ofMerlin m).named q value } := by
  cases q <;>
  · simp only [ofMerlin, ItemRef.Marks.put, Queue.flag, Marks.mk.injEq, and_true]
    funext q
    cases q <;> rfl

@[simp] theorem marks_setFlag (w : Word) (q : Queue) :
    marks (setFlag w q.flag) = { marks w with named := Function.update (marks w).named q true } := by
  rw [marks_eq, marks_eq, ItemRef.marks_setFlag, ofMerlin_put]

@[simp] theorem marks_unSetFlag (w : Word) (q : Queue) :
    marks (unSetFlag w q.flag) = { marks w with named := Function.update (marks w).named q false } := by
  rw [marks_eq, marks_eq, ItemRef.marks_unSetFlag, ofMerlin_put]

end S3FifoRef
