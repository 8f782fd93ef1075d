import Mathlib.Algebra.Ring.Int.Defs
import Mathlib.Algebra.Ring.Nat
import Mathlib.Data.List.Basic
import Mathlib.Logic.Function.Iterate
import Mathlib.Order.Lattice

/-!
# Reading a trace

`reader.c` on a binary file of `oracleGeneralBin.h`, without a sampler and not compressed: a
position in the mapped file and a counter of the requests read. `reset_reader` sets back
the position only, and `get_num_of_req` counts the records of the file.

A trace has 24 bytes for each request, and an empty file cannot be mapped.
-/
namespace TraceReader

def itemSize : Nat := 24

structure TraceFile where
  bytes : List UInt8
  whole : itemSize ∣ bytes.length
  held : bytes ≠ []

structure Request where
  clockTime : Nat
  objId : Nat
  objSize : Nat
  nextAccessVtime : Int
  deriving DecidableEq

namespace TraceFile

def size (f : TraceFile) : Nat := f.bytes.length

/-- An unsigned number of `width` bytes, the lowest first. -/
def field (f : TraceFile) (offset width : Nat) : Nat :=
  ((f.bytes.drop offset).take width).foldr (fun b n => b.toNat + 256 * n) 0

/-- The record at an offset; both marks for the last access are `MAX_REUSE_DISTANCE`. -/
def record (f : TraceFile) (offset : Nat) : Request :=
  let vtime : Int := (f.field (offset + 16) 8 : Int).bmod (2 ^ 64)
  { clockTime := f.field offset 4
    objId := f.field (offset + 4) 8
    objSize := f.field (offset + 12) 4
    nextAccessVtime := if vtime = -1 ∨ vtime = 2 ^ 63 - 1 then 2 ^ 63 - 1 else vtime }

end TraceFile

/-- The fields of `reader_init_param_t` that are read here. -/
structure Params where
  ignoreSizeZeroReq : Bool
  ignoreObjSize : Bool
  capAtNReq : Int

structure Reader where
  file : TraceFile
  params : Params
  mmapOffset : Nat
  nReadReq : Nat
  nTotalReq : Nat

def setupReader (f : TraceFile) (p : Params) : Reader := ⟨f, p, 0, 0, f.size / itemSize⟩

/-- `oracleGeneralBin_read_one_req` calls itself on a record of size 0 that is ignored. -/
def oracleGeneralBinReadOneReq (r : Reader) : Option Request × Reader :=
  if r.file.size ≤ r.mmapOffset then (none, r)
  else
    let req := r.file.record r.mmapOffset
    let next := { r with mmapOffset := r.mmapOffset + itemSize }
    if req.objSize = 0 ∧ r.params.ignoreSizeZeroReq = true then oracleGeneralBinReadOneReq next
    else (some req, next)
termination_by r.file.size - r.mmapOffset
decreasing_by
  simp only [itemSize]
  omega

/-- The size that is reported. -/
def adjust (p : Params) (req : Request) : Request :=
  if p.ignoreObjSize then { req with objSize := 1 } else req

/-- `read_one_req`, with no request at the end of the trace. -/
def readOneReq (r : Reader) : Option Request × Reader :=
  if r.file.size ≤ r.mmapOffset then (none, r)
  else if 1 < r.params.capAtNReq ∧ r.params.capAtNReq ≤ r.nReadReq then (none, r)
  else
    let (req, r) := oracleGeneralBinReadOneReq { r with nReadReq := r.nReadReq + 1 }
    (req.map (adjust r.params), r)

def readMany (k : Nat) (r : Reader) : Reader := (fun r => (readOneReq r).2)^[k] r

def resetReader (r : Reader) : Reader := { r with mmapOffset := 0 }

/-- `get_num_of_req`, which aborts if it would have to count. -/
def getNumOfReq (r : Reader) : Option Nat := if 0 < r.nTotalReq then some r.nTotalReq else none

/-- The requests that `read_one_req` returns until the end of the trace. -/
inductive Returns : Reader → List Request → Prop where
  | done {r : Reader} (last : (readOneReq r).1 = none) : Returns r []
  | next {r : Reader} {req : Request} {l : List Request} (read : (readOneReq r).1 = some req)
      (rest : Returns (readOneReq r).2 l) : Returns r (req :: l)

theorem Returns.unique {r : Reader} {l m : List Request} (first : Returns r l) (second : Returns r m) : l = m := by
  induction first generalizing m with
  | done last =>
    cases second with
    | done _ => rfl
    | next read _ => cases last.symm.trans read
  | next read _ ih =>
    cases second with
    | done last => cases last.symm.trans read
    | next read' rest =>
      cases read.symm.trans read'
      rw [ih rest]

/-! ## Records -/

variable {f : TraceFile} {p : Params} {r : Reader} {i k : Nat}

def TraceFile.count (f : TraceFile) : Nat := f.size / itemSize

def TraceFile.records (f : TraceFile) : List Request :=
  (List.range f.count).map fun i => f.record (itemSize * i)

theorem size_eq (f : TraceFile) : f.size = itemSize * f.count := (Nat.mul_div_cancel' f.whole).symm

theorem count_pos (f : TraceFile) : 0 < f.count := by
  have held : 0 < f.size := List.length_pos_iff.mpr f.held
  rw [size_eq] at held
  exact Nat.pos_of_mul_pos_left held

@[simp] theorem length_records (f : TraceFile) : f.records.length = f.count := by simp [TraceFile.records]

theorem drop_records (inside : i < f.count) :
    f.records.drop i = f.record (itemSize * i) :: f.records.drop (i + 1) := by
  rw [List.drop_eq_getElem_cons (by simpa using inside)]
  simp [TraceFile.records]

/-- A record that is not passed over. -/
def kept (p : Params) (req : Request) : Bool := !(decide (req.objSize = 0) && p.ignoreSizeZeroReq)

structure At (f : TraceFile) (p : Params) (i : Nat) (r : Reader) : Prop where
  file : r.file = f
  params : r.params = p
  inside : i ≤ f.count
  offset : r.mmapOffset = itemSize * i
  total : r.nTotalReq = f.count

theorem At.ended_iff (pos : At f p i r) : r.file.size ≤ r.mmapOffset ↔ i = f.count := by
  have := pos.inside
  rw [pos.file, pos.offset, size_eq]
  simp only [itemSize]
  omega

theorem oracleGeneralBin_reads (pos : At f p i r) : ∃ j, At f p j (oracleGeneralBinReadOneReq r).2 ∧
    (oracleGeneralBinReadOneReq r).2.nReadReq = r.nReadReq ∧
    match (oracleGeneralBinReadOneReq r).1 with
    | none => (f.records.drop i).filter (kept p) = []
    | some req => i < j ∧ (f.records.drop i).filter (kept p) = req :: (f.records.drop j).filter (kept p) := by
  induction left : f.count - i generalizing i r with
  | zero =>
    have last : i = f.count := by
      have := pos.inside
      omega
    rw [oracleGeneralBinReadOneReq, if_pos (pos.ended_iff.mpr last)]
    refine ⟨i, pos, rfl, ?_⟩
    rw [last, List.drop_of_length_le (by simp)]
    rfl
  | succ n ih =>
    have inside : i < f.count := by omega
    have onward : At f p (i + 1) { r with mmapOffset := r.mmapOffset + itemSize } :=
      ⟨pos.file, pos.params, inside, by rw [pos.offset]; rfl, pos.total⟩
    have here : r.file.record r.mmapOffset = f.record (itemSize * i) := by rw [pos.file, pos.offset]
    rw [oracleGeneralBinReadOneReq, if_neg (mt pos.ended_iff.mp (by omega)), drop_records inside]
    by_cases skipped : (r.file.record r.mmapOffset).objSize = 0 ∧ r.params.ignoreSizeZeroReq = true
    · have passed : ¬ kept p (f.record (itemSize * i)) = true := by
        rw [here, pos.params] at skipped
        simp [kept, skipped]
      simp only [if_pos skipped, List.filter_cons_of_neg passed]
      obtain ⟨j, next, counted, result⟩ := ih onward (by omega)
      refine ⟨j, next, counted, ?_⟩
      split at result
      · exact result
      · exact ⟨by omega, result.2⟩
    · have taken : kept p (f.record (itemSize * i)) = true := by
        rw [here, pos.params] at skipped
        simpa [kept, imp_iff_not_or] using skipped
      rw [List.filter_cons_of_pos taken]
      rw [here] at skipped ⊢
      simp only [if_neg skipped]
      exact ⟨i + 1, onward, trivial, Nat.lt_succ_self i, rfl⟩

/-! ## What is returned -/

/-- The first records of a list, as many as may still be read. -/
def capped (p : Params) (nReadReq : Nat) (l : List Request) : List Request :=
  if 1 < p.capAtNReq then l.take (p.capAtNReq - nReadReq).toNat else l

/-- The records that are kept, from record `i` on. -/
def left (f : TraceFile) (p : Params) (i : Nat) : List Request :=
  ((f.records.drop i).filter (kept p)).map (adjust p)

@[simp] theorem capped_nil (p : Params) (n : Nat) : capped p n [] = [] := by simp [capped]

theorem capped_cons {n : Nat} (room : ¬ (1 < p.capAtNReq ∧ p.capAtNReq ≤ n)) (req : Request) (l : List Request) :
    capped p n (req :: l) = req :: capped p (n + 1) l := by
  rw [capped, capped]
  split
  · obtain ⟨m, more⟩ : ∃ m, (p.capAtNReq - n).toNat = m + 1 := ⟨(p.capAtNReq - n).toNat - 1, by omega⟩
    have less : (p.capAtNReq - (n + 1 : Nat)).toNat = m := by omega
    rw [more, less, List.take_succ_cons]
  · rfl

theorem returns_capped (pos : At f p i r) : Returns r (capped p r.nReadReq (left f p i)) := by
  induction remaining : f.count - i using Nat.strongRecOn generalizing i r with
  | ind n ih =>
    by_cases ended : r.file.size ≤ r.mmapOffset
    · have nothing : left f p i = [] := by
        rw [left, pos.ended_iff.mp ended, List.drop_of_length_le (by simp)]
        rfl
      rw [nothing, capped_nil]
      exact .done (by rw [readOneReq, if_pos ended])
    · by_cases full : 1 < r.params.capAtNReq ∧ r.params.capAtNReq ≤ r.nReadReq
      · have spent : capped p r.nReadReq (left f p i) = [] := by
          rw [pos.params] at full
          rw [capped, if_pos full.1, Int.toNat_of_nonpos (by omega), List.take_zero]
        rw [spent]
        exact .done (by rw [readOneReq, if_neg ended, if_pos full])
      · have counting : At f p i { r with nReadReq := r.nReadReq + 1 } :=
          ⟨pos.file, pos.params, pos.inside, pos.offset, pos.total⟩
        obtain ⟨j, next, counted, result⟩ := oracleGeneralBin_reads counting
        have read : readOneReq r =
            ((oracleGeneralBinReadOneReq { r with nReadReq := r.nReadReq + 1 }).1.map (adjust p),
              (oracleGeneralBinReadOneReq { r with nReadReq := r.nReadReq + 1 }).2) := by
          rw [readOneReq, if_neg ended, if_neg full]
          simp only [next.params]
        rw [pos.params] at full
        split at result
        · rename_i none_left
          rw [left, result, List.map_nil, capped_nil]
          exact .done (by rw [read, none_left]; rfl)
        · rename_i req found
          rw [left, result.2, List.map_cons, capped_cons full]
          have onward := ih (f.count - j) (by have := next.inside; omega) next rfl
          rw [counted] at onward
          exact .next (by rw [read, found]; rfl) (by rw [read]; exact onward)

/-! ## After a reset -/

theorem setupReader_at (f : TraceFile) (p : Params) : At f p 0 (setupReader f p) :=
  ⟨rfl, rfl, Nat.zero_le _, rfl, rfl⟩

theorem resetReader_at (pos : At f p i r) : At f p 0 (resetReader r) :=
  ⟨pos.file, pos.params, Nat.zero_le _, rfl, pos.total⟩

theorem readMany_succ (k : Nat) (r : Reader) : readMany (k + 1) r = (readOneReq (readMany k r)).2 :=
  Function.iterate_succ_apply' ..

theorem readMany_at (pos : At f p i r) (k : Nat) : ∃ j, At f p j (readMany k r) := by
  induction k with
  | zero => exact ⟨i, pos⟩
  | succ k ih =>
    obtain ⟨j, pos⟩ := ih
    rw [readMany_succ, readOneReq]
    split_ifs
    · exact ⟨j, pos⟩
    · exact ⟨j, pos⟩
    · obtain ⟨m, next, -⟩ := oracleGeneralBin_reads (r := { readMany k r with nReadReq := (readMany k r).nReadReq + 1 })
        ⟨pos.file, pos.params, pos.inside, pos.offset, pos.total⟩
      exact ⟨m, next⟩

theorem readMany_whole (whole : ∀ req ∈ f.records, kept p req = true)
    (room : p.capAtNReq ≤ 1 ∨ (f.count : Int) ≤ p.capAtNReq) (k : Nat) :
    At f p (min k f.count) (readMany k (setupReader f p)) ∧
      (readMany k (setupReader f p)).nReadReq = min k f.count := by
  induction k with
  | zero =>
    rw [Nat.zero_min]
    exact ⟨setupReader_at f p, rfl⟩
  | succ k ih =>
    obtain ⟨pos, counted⟩ := ih
    rw [readMany_succ, readOneReq]
    by_cases ended : (readMany k (setupReader f p)).file.size ≤ (readMany k (setupReader f p)).mmapOffset
    · have last := pos.ended_iff.mp ended
      have same : min (k + 1) f.count = min k f.count := by omega
      rw [if_pos ended, same]
      exact ⟨pos, counted⟩
    · have inside : min k f.count < f.count := by
        have := mt pos.ended_iff.mpr ended
        omega
      have free : ¬ (1 < (readMany k (setupReader f p)).params.capAtNReq ∧
          (readMany k (setupReader f p)).params.capAtNReq ≤ (readMany k (setupReader f p)).nReadReq) := by
        rw [pos.params, counted]
        omega
      rw [if_neg ended, if_neg free]
      have counting : At f p (min k f.count) { readMany k (setupReader f p) with
          nReadReq := (readMany k (setupReader f p)).nReadReq + 1 } :=
        ⟨pos.file, pos.params, pos.inside, pos.offset, pos.total⟩
      obtain ⟨j, next, same, result⟩ := oracleGeneralBin_reads counting
      have all : ∀ i, (f.records.drop i).filter (kept p) = f.records.drop i := fun i =>
        List.filter_eq_self.mpr fun req member => whole req (List.mem_of_mem_drop member)
      have one : j = min (k + 1) f.count := by
        simp only [all] at result
        have within := next.inside
        split at result
        · have := congrArg List.length result
          simp only [List.length_drop, length_records, List.length_nil] at this
          omega
        · have := congrArg List.length result.2
          simp only [List.length_drop, length_records, List.length_cons] at this
          omega
      rw [← one]
      refine ⟨next, same.trans ?_⟩
      show (readMany k (setupReader f p)).nReadReq + 1 = j
      omega

theorem kept_all (p : Params) (l : List Request) : (∀ req ∈ l, kept p req = true) ↔
    (p.ignoreSizeZeroReq = true → ∀ req ∈ l, req.objSize ≠ 0) := by
  constructor
  · intro all ignored req member zero
    have := all req member
    simp [kept, ignored, zero] at this
  · intro nonzero req member
    by_cases ignored : p.ignoreSizeZeroReq = true
    · simp [kept, nonzero ignored req member]
    · simp [kept, ignored]

theorem capped_whole {n : Nat} {l : List Request} (room : p.capAtNReq ≤ 1 ∨ (l.length + n : Int) ≤ p.capAtNReq) :
    capped p n l = l := by
  rw [capped]
  split
  · exact List.take_of_length_le (by omega)
  · rfl

theorem room_of_capped {n : Nat} {l : List Request} (held : 0 < l.length) (whole : (capped p n l).length = l.length) :
    p.capAtNReq ≤ 1 ∨ (l.length + n : Int) ≤ p.capAtNReq := by
  rw [capped] at whole
  split at whole
  · rw [List.length_take] at whole
    omega
  · omega

/-- After `k` reads and a reset the reader returns what a new one returns, and
`get_num_of_req` is the number of these requests, if and only if no record is passed over
and the cap, if there is one, leaves room for the records that were read and all records. -/
theorem reader_replays_iff (f : TraceFile) (p : Params) (k : Nat) :
    (∃ l, Returns (setupReader f p) l ∧ Returns (resetReader (readMany k (setupReader f p))) l ∧
      getNumOfReq (readMany k (setupReader f p)) = some l.length) ↔
    (p.ignoreSizeZeroReq = true → ∀ req ∈ f.records, req.objSize ≠ 0) ∧
      (p.capAtNReq ≤ 1 ∨ (f.count + min k f.count : Int) ≤ p.capAtNReq) := by
  obtain ⟨j, pos⟩ := readMany_at (setupReader_at f p) k
  have fresh := returns_capped (setupReader_at f p)
  have again := returns_capped (resetReader_at pos)
  have number : getNumOfReq (readMany k (setupReader f p)) = some f.count := by
    rw [getNumOfReq, pos.total, if_pos (count_pos f)]
  have records := count_pos f
  rw [← kept_all, number]
  have length_left : (left f p 0).length ≤ f.count := by
    have := List.length_filter_le (kept p) f.records
    simpa [left] using this
  have complete : (left f p 0).length = f.count ↔ ∀ req ∈ f.records, kept p req = true := by
    rw [← List.length_filter_eq_length_iff, length_records, left, List.length_map, List.drop_zero]
  constructor
  · rintro ⟨l, first, second, length⟩
    have once := first.unique fresh
    have twice := second.unique again
    have number := Option.some.inj length
    have shorter : l.length ≤ (left f p 0).length := by
      rw [once, capped]
      split
      · exact List.length_take_le' ..
      · exact le_rfl
    have whole := complete.mp (by omega)
    have held : 0 < (left f p 0).length := by omega
    have before := room_of_capped held (by rw [← once]; omega)
    have after := room_of_capped held (by rw [← twice]; omega)
    simp only [setupReader, resetReader, Int.natCast_zero, Int.add_zero, complete.mpr whole] at before after
    obtain ⟨-, counted⟩ := readMany_whole whole before k
    refine ⟨whole, ?_⟩
    rw [setupReader] at counted
    omega
  · rintro ⟨whole, room⟩
    obtain ⟨-, counted⟩ := readMany_whole whole (by omega) k
    have all := complete.mpr whole
    refine ⟨left f p 0, ?_, ?_, by rw [all]⟩
    · rwa [capped_whole (by rw [all]; simp [setupReader]; omega)] at fresh
    · rwa [capped_whole (by rw [all, resetReader, counted]; omega)] at again

def twoRecords : TraceFile := ⟨List.replicate 48 1, by decide, by decide⟩

/-- With a cap of 2 a trace of two requests is read once; after one request and a reset, only
one more is returned. -/
theorem reader_replay_capped : ∃ req, Returns (setupReader twoRecords ⟨true, false, 2⟩) [req, req] ∧
    Returns (resetReader (readMany 1 (setupReader twoRecords ⟨true, false, 2⟩))) [req] := by
  have whole : ∀ req ∈ twoRecords.records, kept ⟨true, false, 2⟩ req = true := by decide
  obtain ⟨pos, counted⟩ := readMany_whole whole (Or.inr (by decide)) 1
  have fresh := returns_capped (setupReader_at twoRecords ⟨true, false, 2⟩)
  have again := returns_capped (resetReader_at pos)
  have one : (resetReader (readMany 1 (setupReader twoRecords ⟨true, false, 2⟩))).nReadReq = 1 := counted
  rw [one] at again
  exact ⟨twoRecords.record 0, fresh, again⟩

end TraceReader
