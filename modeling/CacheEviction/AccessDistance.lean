import CacheEviction.LruProfiler

/-!
# Access distances

`get_access_dist` of `dist.c` keeps a table of timestamps as pointers and takes a null
pointer for an id that has not been requested. The timestamp 0 is a null pointer too, so the
first request of the trace is forgotten. For distances since the first access the table is
never written.
-/
namespace AccessDistance

open LruProfiler

/-- The two types that `get_access_dist_add_req` supports. -/
inductive DistType where
  | sinceLastAccess
  | sinceFirstAccess
  deriving DecidableEq

def getAccessDistAddReq (type : DistType) (table : Nat → Option Int) (objId : Nat) (currTs : Int) :
    Int × (Nat → Option Int) :=
  let gp := lookup table objId
  (if gp = 0 then -1 else currTs - gp,
    match type with
    | .sinceLastAccess => store table objId currTs
    | .sinceFirstAccess => table)

/-- The loop of `get_access_dist` over the requests that the reader returns. It aborts on a
distance above `UINT32_MAX`; the array has 32 bits per entry, signed. -/
def readRequests (type : DistType) : Int → (Nat → Option Int) → List Nat → Option (List Int)
  | _, _, [] => some []
  | ts, table, objId :: ids =>
    let (dist, table) := getAccessDistAddReq type table objId ts
    if 2 ^ 32 - 1 < dist then none
    else (readRequests type (ts + 1) table ids).map (dist.bmod (2 ^ 32) :: ·)

def getAccessDist (type : DistType) (ids : List Nat) : Option (List Int) :=
  readRequests type 0 (fun _ => none) ids

/-! ## What the distances are -/

/-- The requests to an id before index `i`, the earliest first. -/
def requests (ids : List Nat) (i x : Nat) : List Nat := (List.range i).filter fun j => ids[j]? = some x

/-- The earlier request that the distance is counted from. -/
def reference (type : DistType) (ids : List Nat) (i : Nat) : Option Nat :=
  ids[i]?.bind fun x => match type with
    | .sinceLastAccess => (requests ids i x).getLast?
    | .sinceFirstAccess => (requests ids i x).head?

/-- The distance, or -1 for the first request to an id. -/
def exactDist (type : DistType) (ids : List Nat) (i : Nat) : Int :=
  match reference type ids i with
  | none => -1
  | some j => i - j

/-- The table has lost the earlier request: it is the first of the trace, or distances are
counted from the first access. -/
def Forgets (type : DistType) (ids : List Nat) (i : Nat) : Prop :=
  ∃ j ∈ reference type ids i, type = .sinceLastAccess → j = 0

variable {type : DistType} {ids rest : List Nat} {table : Nat → Option Int} {i x : Nat}

theorem requests_succ (ids : List Nat) (i x : Nat) :
    requests ids (i + 1) x = requests ids i x ++ if ids[i]? = some x then [i] else [] := by
  rw [requests, List.range_succ, List.filter_append, requests]
  congr 1
  by_cases here : ids[i]? = some x <;> simp [here]

theorem mem_requests {j : Nat} : j ∈ requests ids i x ↔ j < i ∧ ids[j]? = some x := by
  simp [requests]

def Tracks (type : DistType) (ids : List Nat) (i : Nat) (table : Nat → Option Int) : Prop :=
  ∀ x, lookup table x = match type with
    | .sinceLastAccess => ((requests ids i x).getLast?.getD 0 : Nat)
    | .sinceFirstAccess => 0

theorem tracks_next (tracks : Tracks type ids i table) (here : ids[i]? = some x) :
    Tracks type ids (i + 1) (getAccessDistAddReq type table x i).2 := by
  intro y
  cases type with
  | sinceFirstAccess => exact tracks y
  | sinceLastAccess =>
    show lookup (store table x i) y = _
    rw [lookup_store]
    by_cases same : y = x
    · rw [if_pos same, requests_succ, same, if_pos here, List.getLast?_concat]
      rfl
    · rw [if_neg same, requests_succ, if_neg, List.append_nil]
      · exact tracks y
      · rw [here, Option.some_inj]
        exact fun equal => same equal.symm

theorem getAccessDistAddReq_dist (tracks : Tracks type ids i table) (here : ids[i]? = some x) :
    ((getAccessDistAddReq type table x i).1 = exactDist type ids i ↔ ¬ Forgets type ids i) ∧
      -1 ≤ (getAccessDistAddReq type table x i).1 ∧ (getAccessDistAddReq type table x i).1 ≤ i := by
  have found := tracks x
  cases type with
  | sinceFirstAccess =>
    have code : (getAccessDistAddReq .sinceFirstAccess table x i).1 = -1 := if_pos found
    have point : reference .sinceFirstAccess ids i = (requests ids i x).head? := by
      rw [reference, here]
      rfl
    rw [code, exactDist, Forgets, point]
    cases first : (requests ids i x).head? with
    | none => simp
    | some j =>
      have earlier := (mem_requests.mp (List.mem_of_head? first)).1
      refine ⟨iff_of_false ?_ (not_not_intro ⟨j, rfl, nofun⟩), le_rfl, by omega⟩
      show ¬ (-1 : Int) = i - j
      omega
  | sinceLastAccess =>
    have point : reference .sinceLastAccess ids i = (requests ids i x).getLast? := by
      rw [reference, here]
      rfl
    dsimp only at found
    rw [getAccessDistAddReq, found, exactDist, Forgets, point]
    cases last : (requests ids i x).getLast? with
    | none => simp
    | some j =>
      have earlier := (mem_requests.mp (List.mem_of_getLast? last)).1
      simp only [Option.getD_some, Nat.cast_eq_zero]
      by_cases zero : j = 0
      · rw [if_pos zero]
        refine ⟨iff_of_false ?_ (not_not_intro ⟨j, rfl, fun _ => zero⟩), le_rfl, by omega⟩
        omega
      · rw [if_neg zero]
        refine ⟨iff_of_true rfl ?_, by omega, by omega⟩
        rintro ⟨k, same, lost⟩
        cases same
        exact zero (lost trivial)

theorem readRequests_spec (short : ids.length < 2 ^ 31) (tracks : Tracks type ids i table)
    (left : ids.drop i = rest) : ∃ a, readRequests type i table rest = some a ∧ a.length = rest.length ∧
      ∀ k < rest.length, (a[k]? = some (exactDist type ids (i + k)) ↔ ¬ Forgets type ids (i + k)) := by
  induction rest generalizing i table with
  | nil => exact ⟨[], rfl, rfl, nofun⟩
  | cons x rest ih =>
    have here : ids[i]? = some x := by
      rw [← List.head?_drop, left]
      rfl
    have inside : i < ids.length := (List.getElem?_eq_some_iff.mp here).1
    obtain ⟨exact_, lower, upper⟩ := getAccessDistAddReq_dist tracks here
    obtain ⟨a, read, length, entries⟩ := ih (tracks_next tracks here) (by rw [← List.tail_drop, left]; rfl)
    refine ⟨(getAccessDistAddReq type table x i).1 :: a, ?_, by rw [List.length_cons, length]; rfl, ?_⟩
    · have fits : (getAccessDistAddReq type table x i).1.bmod (2 ^ 32) = (getAccessDistAddReq type table x i).1 := by
        generalize (getAccessDistAddReq type table x i).1 = dist at lower upper
        rw [Int.bmod_def]
        omega
      rw [Nat.cast_succ] at read
      simp only [readRequests, read, fits, Option.map_some]
      exact if_neg (by omega)
    · intro k bound
      cases k with
      | zero =>
        rw [List.getElem?_cons_zero, Option.some_inj]
        exact exact_
      | succ k =>
        rw [List.getElem?_cons_succ, ← Nat.add_assoc, Nat.add_right_comm]
        exact entries k (Nat.lt_of_succ_lt_succ bound)

/-- Every entry is the exact distance if and only if the earlier request is not lost. -/
theorem accessDist_exact_iff (type : DistType) {ids : List Nat} (short : ids.length < 2 ^ 31) :
    ∃ a, getAccessDist type ids = some a ∧ a.length = ids.length ∧
      ∀ i < ids.length, (a[i]? = some (exactDist type ids i) ↔ ¬ Forgets type ids i) := by
  have start : Tracks type ids 0 (fun _ => none) := by
    intro x
    cases type <;> rfl
  simpa [getAccessDist] using readRequests_spec short start (List.drop_zero (l := ids))

/-- The trace 7, 8, 8. -/
theorem accessDist_exact_iff_three : ∃ a, getAccessDist .sinceLastAccess [7, 8, 8] = some a ∧
    a[2]? = some 1 := by
  obtain ⟨a, read, -, entries⟩ := @accessDist_exact_iff .sinceLastAccess [7, 8, 8] (by decide)
  exact ⟨a, read, (entries 2 (by decide)).mpr (by rintro ⟨j, same, lost⟩; cases same; cases lost rfl)⟩

/-- The same id twice: the distance is 1, and both arrays have -1. -/
theorem accessDist_forgets : getAccessDist .sinceLastAccess [7, 7] = some [-1, -1] ∧
    getAccessDist .sinceFirstAccess [7, 7] = some [-1, -1] ∧
    exactDist .sinceLastAccess [7, 7] 1 = 1 ∧ exactDist .sinceFirstAccess [7, 7] 1 = 1 := by
  decide

end AccessDistance
