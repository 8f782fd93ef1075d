import CacheEviction.SrLruFrame
import CacheEviction.StructLayout
import Mathlib.Data.BitVec

/-!
# What the flash benchmark reports for Cacheus

`calWriteAmp` reads `n_byte_write_in_R` out of the parameters of `SR_LRU`. No
function of the policy writes this field. The benchmark would not see it either:
its copy of the struct has a field `p` in front of it, so the read begins where the
object of the policy ends.
-/
namespace Cacheus

open StructLayout CacheGet FuelLoops FifoCache StepTraces WeightedLists

/-! ## The counter -/

section Counter

variable {b : Params} {s t : State}

theorem cacheusEvict_counter (run : cacheusEvict b s = .ok t) :
    t.nByteWriteInR = s.nByteWriteInR := by
  obtain ⟨obj, _, run⟩ := bind_eq_ok.mp run
  simp only at run
  split at run
  · exact congrArg Prod.fst (srLruEvict_frame run)
  · exact congrArg Prod.fst (srLruRemove_frame run)

theorem keeps_counter (b : Params) (left : BitVec 64) :
    Keeps (cacheus b) fun s => s.nByteWriteInR = left where
  tick h := h
  find h run := (congrArg Prod.fst (srLruFind_frame run)).trans h
  canInsert h run := by
    cases run
    exact h
  evict h run := (cacheusEvict_counter run).trans h
  insert h run := (congrArg Prod.fst (cacheusInsert_frame run)).trans h

end Counter

/-! ## The report -/

inductive Member where
  | srList
  | rList
  | hList
  | cDemoted
  | cNew
  | otherCache
  | reqLocal
  | p
  | nByteWriteInR
  deriving DecidableEq

def policyParams : Decl Member :=
  [(.srList, .pointer), (.rList, .pointer), (.hList, .pointer), (.cDemoted, .uint64),
    (.cNew, .uint64), (.otherCache, .pointer), (.reqLocal, .pointer), (.nByteWriteInR, .int64)]

def flashParams : Decl Member :=
  [(.srList, .pointer), (.rList, .pointer), (.hList, .pointer), (.cDemoted, .uint64),
    (.cNew, .uint64), (.otherCache, .pointer), (.reqLocal, .pointer), (.p, .double),
    (.nByteWriteInR, .int64)]

/-- What the policy has stored. Pointers are `other`. -/
def memberValue (s : State) (other : Member → Nat) : Member → Nat
  | .cDemoted => s.cDemoted.toNat
  | .cNew => s.cNew.toNat
  | .nByteWriteInR => s.nByteWriteInR.toNat
  | member => other member

/-- What `calWriteAmp` stores in its 64-bit `n_byte_write`. The pointer `LRU` to the
cache whose parameters it reads is the first field in both of the structs named
`Cacheus_params_t`. -/
def calWriteAmp (s : State) (other : Member → Nat) : Option (BitVec 64) :=
  (readField flashParams policyParams (memberValue s other) .nByteWriteInR).map (BitVec.ofNat 64)

theorem calWriteAmp_outside (s : State) (other : Member → Nat) : calWriteAmp s other = none := rfl

/-- The bytes that entered `R_list` during the run. -/
def flashWrites (s : State) : Int := total CacheObj.bytes s.entries

/-- The report is never right: in no run does it read a field of the policy, and the
counter it is meant to read still has what the allocator left in it. -/
theorem flash_report_never {b : Params} {left : BitVec 64} {s : State}
    (history : Reachable (Requests b) (srLruInit b left) s) (other : Member → Nat) :
    calWriteAmp s other ≠ some (BitVec.ofInt 64 (flashWrites s)) ∧ s.nByteWriteInR = left := by
  constructor
  · rw [calWriteAmp_outside]
    exact Option.some_ne_none _ |>.symm
  · exact (keeps_counter b left).requested rfl history

/-! ## A run -/

def fourBytes : Params := ⟨4, false, fun _ => none⟩

theorem secondRequest_enters : ∃ s, Reachable (Requests fourBytes) (srLruInit fourBytes 0) s ∧
    flashWrites s = 1 := by
  have returns : Returns (serveAll (cacheus fourBytes) 5 (srLruInit fourBytes 0)
      [⟨1, 1⟩, ⟨1, 1⟩]) (fun s => decide (flashWrites s = 1)) = true := by decide +kernel
  obtain ⟨s, run, found⟩ := exists_of_returns returns
  exact ⟨s, serveAll_reachable (cacheusGet_mono fourBytes) (fun _ _ => trivial) .refl run,
    of_decide_eq_true found⟩

/-- One byte is written, the counter says zero and the benchmark does not read it. -/
theorem flash_report_reads_outside : ∃ s,
    Reachable (Requests fourBytes) (srLruInit fourBytes 0) s ∧ flashWrites s = 1 ∧
      s.nByteWriteInR = 0 ∧ calWriteAmp s (fun _ => 0) = none := by
  obtain ⟨s, history, written⟩ := secondRequest_enters
  exact ⟨s, history, written, (keeps_counter fourBytes 0).requested rfl history,
    calWriteAmp_outside s _⟩

theorem flash_report_never_one_byte : ∃ s,
    Reachable (Requests fourBytes) (srLruInit fourBytes 0) s ∧ flashWrites s = 1 ∧
      calWriteAmp s (fun _ => 0) ≠ some 1 := by
  obtain ⟨s, history, written⟩ := secondRequest_enters
  have wrong := (flash_report_never history fun _ => 0).1
  rw [written] at wrong
  exact ⟨s, history, written, wrong⟩

end Cacheus
