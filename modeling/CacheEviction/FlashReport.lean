import CacheEviction.S3FifoRuns
import CacheEviction.StructLayout
import Mathlib.Data.BitVec

/-!
# What the flash benchmark reports for S3-FIFO

`calWriteAmp` reads two byte counters out of the parameters of the policy, through
a copy of the struct that has two more fields. Both are read eight bytes too far: the
first read meets the second counter, the second one the promotion threshold.
-/
namespace S3Fifo

open StructLayout CacheGet FuelLoops FifoCache StepTraces WeightedLists

/-- The fields of the two structs named `S3FIFO_params_t`. -/
inductive Member where
  | fifo
  | fifoGhost
  | mainCache
  | hitOnGhost
  | nObjAdmitToFifo
  | nObjAdmitToMain
  | nObjMoveToMain
  | nObjReinsertToMain
  | nByteAdmitToFifo
  | nByteAdmitToMain
  | nByteMoveToMain
  | nByteReinsertToMain
  | moveToMainThreshold
  | fifoSizeRatio
  | ghostSizeRatio
  | mainCacheType
  | reqLocal
  deriving DecidableEq

def policyParams : Decl Member :=
  [(.fifo, .pointer), (.fifoGhost, .pointer), (.mainCache, .pointer), (.hitOnGhost, .bool),
    (.nObjAdmitToFifo, .int64), (.nObjAdmitToMain, .int64), (.nObjMoveToMain, .int64),
    (.nByteAdmitToFifo, .int64), (.nByteAdmitToMain, .int64), (.nByteMoveToMain, .int64),
    (.moveToMainThreshold, .int), (.fifoSizeRatio, .double), (.ghostSizeRatio, .double),
    (.mainCacheType, .chars 32), (.reqLocal, .pointer)]

def flashParams : Decl Member :=
  [(.fifo, .pointer), (.fifoGhost, .pointer), (.mainCache, .pointer), (.hitOnGhost, .bool),
    (.nObjAdmitToFifo, .int64), (.nObjAdmitToMain, .int64), (.nObjMoveToMain, .int64),
    (.nObjReinsertToMain, .int64), (.nByteAdmitToFifo, .int64), (.nByteAdmitToMain, .int64),
    (.nByteMoveToMain, .int64), (.nByteReinsertToMain, .int64), (.moveToMainThreshold, .int),
    (.fifoSizeRatio, .double), (.ghostSizeRatio, .double), (.mainCacheType, .chars 32),
    (.reqLocal, .pointer)]

/-- What the policy has stored. Pointers, ratios and names are `other`. -/
def memberValue (b : Params) (s : State) (other : Member → Nat) : Member → Nat
  | .hitOnGhost => s.hitOnGhost.toNat
  | .nObjAdmitToFifo => (BitVec.ofInt 64 s.nObjAdmitToFifo).toNat
  | .nObjAdmitToMain => (BitVec.ofInt 64 s.nObjAdmitToMain).toNat
  | .nObjMoveToMain => (BitVec.ofInt 64 s.nObjMoveToMain).toNat
  | .nByteAdmitToFifo => (BitVec.ofInt 64 s.nByteAdmitToFifo).toNat
  | .nByteAdmitToMain => (BitVec.ofInt 64 s.nByteAdmitToMain).toNat
  | .nByteMoveToMain => (BitVec.ofInt 64 s.nByteMoveToMain).toNat
  | .moveToMainThreshold => (BitVec.ofInt 32 b.moveToMainThreshold).toNat
  | member => other member

/-- The sum that `calWriteAmp` stores in its 64-bit `n_byte_write`. -/
def calWriteAmp (b : Params) (s : State) (other : Member → Nat) : Option (BitVec 64) := do
  let admitted ← readField flashParams policyParams (memberValue b s other) .nByteAdmitToMain
  let moved ← readField flashParams policyParams (memberValue b s other) .nByteMoveToMain
  return BitVec.ofNat 64 admitted + BitVec.ofNat 64 moved

variable {b : Params} {s : State} {other : Member → Nat}

theorem read_admitted : readField flashParams policyParams (memberValue b s other) .nByteAdmitToMain =
    some (BitVec.ofInt 64 s.nByteMoveToMain).toNat := by
  have inside : ∀ i < 8, fieldAt policyParams (72 + i) = some (.nByteMoveToMain, i) := by decide
  have value : load (byteAt policyParams (memberValue b s other)) 72 8 =
      (BitVec.ofInt 64 s.nByteMoveToMain).toNat := by
    rw [load_field inside]
    exact Nat.mod_eq_of_lt (BitVec.isLt _)
  rw [← value]
  rfl

theorem read_moved : readField flashParams policyParams (memberValue b s other) .nByteMoveToMain =
    some (BitVec.ofInt 32 b.moveToMainThreshold).toNat := by
  have low : ∀ i < 4, fieldAt policyParams (80 + i) = some (.moveToMainThreshold, i) := by decide
  have high : ∀ i < 4, fieldAt policyParams (84 + i) = none := by decide
  have value : load (byteAt policyParams (memberValue b s other)) 80 (4 + 4) =
      (BitVec.ofInt 32 b.moveToMainThreshold).toNat := by
    rw [load_add, load_field low, load_padding high, Nat.mul_zero, Nat.add_zero]
    exact Nat.mod_eq_of_lt (BitVec.isLt _)
  rw [← value]
  rfl

theorem calWriteAmp_eq : calWriteAmp b s other = some
    (BitVec.ofInt 64 s.nByteMoveToMain + (BitVec.ofInt 32 b.moveToMainThreshold).setWidth 64) := by
  have sum : BitVec.ofNat 64 (BitVec.ofInt 64 s.nByteMoveToMain).toNat +
      BitVec.ofNat 64 (BitVec.ofInt 32 b.moveToMainThreshold).toNat =
      BitVec.ofInt 64 s.nByteMoveToMain + (BitVec.ofInt 32 b.moveToMainThreshold).setWidth 64 := by
    rw [BitVec.ofNat_toNat, BitVec.ofNat_toNat, BitVec.setWidth_eq]
  simp only [calWriteAmp, read_admitted, read_moved]
  exact congrArg some sum

/-- The bytes that entered `main_cache` during the run. -/
def flashWrites (s : State) : Int :=
  total Entry.admittedBytes s.entries + total Entry.movedBytes s.entries

/-- The report is right if and only if the bytes admitted on ghost hits happen to
equal the promotion threshold. -/
theorem flash_report_iff (history : Reachable (Requests b) (s3fifoInit b) s)
    (other : Member → Nat) :
    calWriteAmp b s other = some (BitVec.ofInt 64 (flashWrites s)) ↔
      BitVec.ofInt 64 (total Entry.admittedBytes s.entries) =
        (BitVec.ofInt 32 b.moveToMainThreshold).setWidth 64 := by
  have ledger := (requests_valid history).ledger
  rw [calWriteAmp_eq, flashWrites, BitVec.ofInt_add, ledger.moved, Option.some_inj,
    BitVec.add_comm, BitVec.add_left_inj]
  exact eq_comm

/-- One object comes back from the ghost: one byte is written and two are reported. -/
theorem flash_report_counts_threshold : ∃ s,
    Reachable (Requests threeBytes) (s3fifoInit threeBytes) s ∧ flashWrites s = 1 ∧
      calWriteAmp threeBytes s (fun _ => 0) = some 2 := by
  have returns : Returns (serveAll (s3fifo threeBytes) 5 (s3fifoInit threeBytes)
      (fourObjects ++ [⟨1, 1⟩])) (fun s => decide (flashWrites s = 1) &&
        decide (s.nByteMoveToMain = 0)) = true := by decide +kernel
  obtain ⟨s, run, found⟩ := exists_of_returns returns
  simp only [Bool.and_eq_true, decide_eq_true_iff] at found
  refine ⟨s, serveAll_reachable (s3fifoGet_mono threeBytes) (by decide) .refl run, found.1, ?_⟩
  rw [calWriteAmp_eq, found.2]
  decide

/-- With two bytes back from the ghost the report agrees. -/
theorem flash_report_iff_agrees : ∃ s,
    Reachable (Requests threeBytes) (s3fifoInit threeBytes) s ∧
      calWriteAmp threeBytes s (fun _ => 0) = some (BitVec.ofInt 64 (flashWrites s)) := by
  have returns : Returns (serveAll (s3fifo threeBytes) 5 (s3fifoInit threeBytes)
      (fourObjects ++ [⟨1, 1⟩, ⟨2, 1⟩])) (fun s =>
        decide (total Entry.admittedBytes s.entries = 2)) = true := by decide +kernel
  obtain ⟨s, run, found⟩ := exists_of_returns returns
  have history : Reachable (Requests threeBytes) (s3fifoInit threeBytes) s :=
    serveAll_reachable (s3fifoGet_mono threeBytes) (by decide) .refl run
  refine ⟨s, history, (flash_report_iff history _).mpr ?_⟩
  rw [of_decide_eq_true found]
  decide

end S3Fifo
