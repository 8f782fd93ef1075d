import CacheEviction.CountingFilter
import Mathlib.Algebra.Order.Group.Nat
import Mathlib.Data.List.Count
import Mathlib.Data.List.Nodup

/-!
# What an `add` does to the counting Bloom filter

A filter with minimal increment raises only those counters of a key that stand at the
minimum. `minimalIncrementCBF_check_add` tests for this, but only around a debug line:
every hash raises its counter, and a counter that is hashed to twice is raised twice.
The estimates may be too large for that, never too small.
-/
namespace CountingFilter

/-- `minimalIncrementCBF_check_add`; its result is an `int`. -/
def checkAdd (cbf : Cbf) (a b : UInt32) (adds : Bool) : Int × Cbf :=
  let m := minCount cbf a b
  if adds = true ∧ m < uintMax then ((m + 1).toInt32.toInt, increment cbf a b)
  else (m.toInt32.toInt, cbf)

variable {cbf : Cbf} {a b : UInt32}

/-- The counters of a key, one for each hash. -/
def positions (cbf : Cbf) (a b : UInt32) : List Nat := (List.range cbf.hashes).map (index cbf a b)

/-! ## The two loops -/

theorem le_uintMax (v : UInt32) : v ≤ uintMax := by
  rw [UInt32.le_iff_toNat_le]
  exact Nat.le_of_lt_succ v.toNat_lt

theorem le_foldl_min_iff {A : Type} (f : A → UInt32) (v m : UInt32) (l : List A) :
    v ≤ l.foldl (fun m i => if f i < m then f i else m) m ↔ v ≤ m ∧ ∀ i ∈ l, v ≤ f i := by
  induction l generalizing m with
  | nil => simp
  | cons i l ih =>
    rw [List.foldl_cons, ih, List.forall_mem_cons, ← and_assoc]
    refine and_congr_left fun _ => ?_
    simp only [UInt32.lt_iff_toNat_lt, UInt32.le_iff_toNat_le]
    split <;> omega

theorem le_minCount_iff {v : UInt32} :
    v ≤ minCount cbf a b ↔ ∀ x ∈ positions cbf a b, v ≤ cbf.bf x := by
  rw [minCount, le_foldl_min_iff (fun i => cbf.bf (index cbf a b i)), positions, List.forall_mem_map]
  exact and_iff_right (le_uintMax v)

theorem minCount_le {x : Nat} (member : x ∈ positions cbf a b) : minCount cbf a b ≤ cbf.bf x :=
  le_minCount_iff.mp (UInt32.le_refl _) x member

theorem minCount_eq_uintMax_iff :
    minCount cbf a b = uintMax ↔ ∀ x ∈ positions cbf a b, cbf.bf x = uintMax := by
  constructor
  · intro full x member
    have least := minCount_le member
    rw [full] at least
    exact UInt32.le_antisymm (le_uintMax _) least
  · intro full
    refine UInt32.le_antisymm (le_uintMax _) (le_minCount_iff.mpr fun x member => ?_)
    rw [full x member]
    exact UInt32.le_refl _

theorem minCount_eq_of_level {m : UInt32} (level : ∀ x ∈ positions cbf a b, cbf.bf x = m)
    (some_hash : positions cbf a b ≠ []) : minCount cbf a b = m := by
  obtain ⟨x, rest, shape⟩ := List.exists_cons_of_ne_nil some_hash
  have member : x ∈ positions cbf a b := by
    rw [shape]
    exact List.mem_cons_self
  refine UInt32.le_antisymm ?_ (le_minCount_iff.mpr fun y other => ?_)
  · rw [← level x member]
    exact minCount_le member
  · rw [level y other]
    exact UInt32.le_refl _

theorem foldl_raise (bf : Nat → UInt32) (l : List Nat) (x : Nat) :
    l.foldl (fun bf i => Function.update bf i (bf i + 1)) bf x = bf x + UInt32.ofNat (l.count x) := by
  induction l generalizing bf with
  | nil => simp
  | cons i l ih =>
    rw [List.foldl_cons, ih]
    by_cases same : i = x
    · subst same
      rw [Function.update_self, List.count_cons_self, UInt32.ofNat_add, UInt32.add_assoc,
        UInt32.add_comm 1]
      rfl
    · rw [Function.update_of_ne (Ne.symm same), List.count_cons_of_ne same]

theorem increment_bf (cbf : Cbf) (a b : UInt32) (x : Nat) :
    (increment cbf a b).bf x = cbf.bf x + UInt32.ofNat ((positions cbf a b).count x) := by
  rw [← foldl_raise, positions, List.foldl_map]
  rfl

theorem add_eq_increment (room : minCount cbf a b < uintMax) : add cbf a b = increment cbf a b := if_pos room

theorem add_eq_self (full : minCount cbf a b = uintMax) : add cbf a b = cbf := by
  refine if_neg ?_
  rw [full]
  exact UInt32.lt_irrefl _

/-! ## The rule -/

/-- Only the counters of the key that stand at its minimum change, each by one, and
the result is what the filter estimates from then on. -/
structure MinimalIncrement (cbf : Cbf) (a b : UInt32) : Prop where
  counters : ∀ x, (add cbf a b).bf x =
    if x ∈ positions cbf a b ∧ cbf.bf x = minCount cbf a b ∧ minCount cbf a b < uintMax then
      cbf.bf x + 1
    else cbf.bf x
  result : (checkAdd cbf a b true).1 = estimate (checkAdd cbf a b true).2 a b

/-- All counters of the key are full, or they are level and no two hashes share one. -/
def Level (cbf : Cbf) (a b : UInt32) : Prop :=
  (∀ x ∈ positions cbf a b, cbf.bf x = uintMax) ∨
    (positions cbf a b).Nodup ∧
      ∀ x ∈ positions cbf a b, ∀ y ∈ positions cbf a b, cbf.bf x = cbf.bf y

theorem minimalIncrement_full (full : minCount cbf a b = uintMax) : MinimalIncrement cbf a b where
  counters x := by
    rw [add_eq_self full, full, if_neg]
    exact fun room => UInt32.lt_irrefl _ room.2.2
  result := by
    have closed : ¬ minCount cbf a b < uintMax := by
      rw [full]
      exact UInt32.lt_irrefl _
    simp [checkAdd, closed, estimate]

theorem minimalIncrement_level {m : UInt32} (room : m < uintMax) (some_hash : positions cbf a b ≠ [])
    (nodup : (positions cbf a b).Nodup) (level : ∀ x ∈ positions cbf a b, cbf.bf x = m) :
    MinimalIncrement cbf a b := by
  have least := minCount_eq_of_level level some_hash
  have once : ∀ x ∈ positions cbf a b, (increment cbf a b).bf x = m + 1 := by
    intro x member
    rw [increment_bf, List.count_eq_one_of_mem nodup member, level x member]
    rfl
  constructor
  · intro x
    rw [add_eq_increment (least.symm ▸ room), least]
    by_cases member : x ∈ positions cbf a b
    · rw [once x member, if_pos ⟨member, level x member, room⟩, level x member]
    · rw [increment_bf, List.count_eq_zero_of_not_mem member, if_neg fun here => member here.1]
      exact UInt32.add_zero _
  · have raised : minCount (increment cbf a b) a b = m + 1 := minCount_eq_of_level once some_hash
    simp [checkAdd, least, room, estimate, raised]

theorem raised_once {x : Nat} (narrow : cbf.hashes < 2 ^ 31) (member : x ∈ positions cbf a b)
    (room : minCount cbf a b < uintMax) (rule : MinimalIncrement cbf a b) :
    cbf.bf x = minCount cbf a b ∧ (positions cbf a b).count x = 1 := by
  have positive : 0 < (positions cbf a b).count x := List.count_pos_iff.mpr member
  have fewer : (positions cbf a b).count x < 2 ^ 31 := by
    refine lt_of_le_of_lt List.count_le_length ?_
    rwa [positions, List.length_map, List.length_range]
  have change := rule.counters x
  rw [add_eq_increment room, increment_bf] at change
  by_cases least : cbf.bf x = minCount cbf a b
  · rw [if_pos ⟨member, least, room⟩, UInt32.add_right_inj, ← UInt32.toNat_inj] at change
    refine ⟨least, ?_⟩
    rw [UInt32.toNat_ofNat'] at change
    have one : (1 : UInt32).toNat = 1 := rfl
    omega
  · rw [if_neg fun here => least here.2.1, ← UInt32.toNat_inj, UInt32.toNat_add,
      UInt32.toNat_ofNat'] at change
    have small := (cbf.bf x).toNat_lt
    omega

/-- An `add` follows the rule exactly if the counters of the key are level and distinct, or
full. (`hashes` is an `int`.) -/
theorem minimal_increment_iff (narrow : cbf.hashes < 2 ^ 31) (a b : UInt32) :
    MinimalIncrement cbf a b ↔ Level cbf a b := by
  constructor
  · intro rule
    by_cases full : minCount cbf a b = uintMax
    · exact .inl (minCount_eq_uintMax_iff.mp full)
    · have room : minCount cbf a b < uintMax := UInt32.lt_of_le_of_ne (le_uintMax _) full
      have once := fun x member => raised_once (x := x) narrow member room rule
      refine .inr ⟨List.nodup_iff_count_le_one.mpr fun x => ?_, fun x here y there => ?_⟩
      · by_cases member : x ∈ positions cbf a b
        · exact (once x member).2.le
        · exact (List.count_eq_zero_of_not_mem member).trans_le (Nat.zero_le 1)
      · rw [(once x here).1, (once y there).1]
  · rintro (full | ⟨nodup, level⟩)
    · exact minimalIncrement_full (minCount_eq_uintMax_iff.mpr full)
    · by_cases some_hash : positions cbf a b = []
      · refine minimalIncrement_full (minCount_eq_uintMax_iff.mpr ?_)
        simp [some_hash]
      · obtain ⟨x, rest, shape⟩ := List.exists_cons_of_ne_nil some_hash
        have first : x ∈ positions cbf a b := by
          rw [shape]
          exact List.mem_cons_self
        have equal : ∀ y ∈ positions cbf a b, cbf.bf y = cbf.bf x := fun y member =>
          level y member x first
        by_cases full : cbf.bf x = uintMax
        · refine minimalIncrement_full (minCount_eq_uintMax_iff.mpr fun y member => ?_)
          rw [equal y member, full]
        · exact minimalIncrement_level (UInt32.lt_of_le_of_ne (le_uintMax _) full) some_hash nodup
            equal

/-- In a filter of two counters the key with hashes 0 and 1 follows the rule. -/
theorem minimal_increment_iff_empty : MinimalIncrement (init 2 2) 0 1 :=
  (minimal_increment_iff (by decide) 0 1).mpr (.inr (by decide))

/-- The second counter of the key stands above the first and is raised all the same. -/
theorem larger_counter_raised :
    ¬ MinimalIncrement ⟨2, 2, fun i => if i = 1 then 1 else 0⟩ 0 1 := by
  intro rule
  have second := rule.counters 1
  revert second
  decide

/-! ## Histories -/

inductive Op (K : Type) where
  | add (key : K)
  | decay

section Histories

variable {K : Type} (hash : K → UInt32 × UInt32)

def exec (cbf : Cbf) : Op K → Cbf
  | .add key => add cbf (hash key).1 (hash key).2
  | .decay => decay cbf

def run (cbf : Cbf) (ops : List (Op K)) : Cbf := ops.foldl (exec hash) cbf

omit hash

def Op.isAdd : Op K → Bool
  | .add _ => true
  | .decay => false

variable [DecidableEq K]

/-- What one call does to the exact count of a key, halved when the filter is. -/
def tallyStep (x : K) (v : Nat) : Op K → Nat
  | .add key => if key = x then v + 1 else v
  | .decay => v / 2

def tally (x : K) (ops : List (Op K)) : Nat := ops.foldl (tallyStep x) 0

/-- After `n` adds no counter exceeds their hashes, and those of the key with hashes `a` and
`b` have at least its count `v`. -/
structure Covers (n : Nat) (a b : UInt32) (v : Nat) (cbf : Cbf) : Prop where
  upper : ∀ i, (cbf.bf i).toNat ≤ n * cbf.hashes
  lower : ∀ i ∈ positions cbf a b, v ≤ (cbf.bf i).toNat

variable {n v : Nat} {hash : K → UInt32 × UInt32} {x : K}

theorem count_positions_le (cbf : Cbf) (a b : UInt32) (i : Nat) :
    (positions cbf a b).count i ≤ cbf.hashes := by
  refine List.count_le_length.trans ?_
  rw [positions, List.length_map, List.length_range]

theorem Covers.increments (covers : Covers n a b v cbf) (some_hash : 0 < cbf.hashes)
    (few : (n + 1) * cbf.hashes < 2 ^ 31) (c d : UInt32) :
    add cbf c d = increment cbf c d ∧ ∀ i, ((increment cbf c d).bf i).toNat =
      (cbf.bf i).toNat + (positions cbf c d).count i := by
  rw [Nat.succ_mul] at few
  constructor
  · have first : index cbf c d 0 ∈ positions cbf c d :=
      List.mem_map_of_mem (List.mem_range.mpr some_hash)
    refine add_eq_increment (UInt32.lt_iff_toNat_lt.mpr ?_)
    have least := UInt32.le_iff_toNat_le.mp (minCount_le first)
    have upper := covers.upper (index cbf c d 0)
    have top : uintMax.toNat = 2 ^ 32 - 1 := rfl
    omega
  · intro i
    have upper := covers.upper i
    have count := count_positions_le cbf c d i
    rw [increment_bf, UInt32.toNat_add, UInt32.toNat_ofNat']
    omega

theorem decay_bf (cbf : Cbf) (i : Nat) :
    (cbf.bf i).toNat / 2 ≤ ((decay cbf).bf i).toNat ∧ ((decay cbf).bf i).toNat ≤ (cbf.bf i).toNat := by
  simp only [decay]
  split
  · rw [UInt32.toNat_shiftRight]
    have halved : (cbf.bf i).toNat >>> ((1 : UInt32).toNat % 32) = (cbf.bf i).toNat / 2 :=
      Nat.shiftRight_one _
    omega
  · omega

theorem Covers.add (covers : Covers n (hash x).1 (hash x).2 v cbf) (some_hash : 0 < cbf.hashes)
    (few : (n + 1) * cbf.hashes < 2 ^ 31) (key : K) :
    Covers (n + 1) (hash x).1 (hash x).2 (tallyStep x v (.add key)) (exec hash cbf (.add key)) := by
  obtain ⟨raises, counters⟩ := covers.increments some_hash few (hash key).1 (hash key).2
  have ran : exec hash cbf (.add key) = increment cbf (hash key).1 (hash key).2 := raises
  rw [ran]
  constructor
  · intro i
    have upper := covers.upper i
    have count := count_positions_le cbf (hash key).1 (hash key).2 i
    have same : (increment cbf (hash key).1 (hash key).2).hashes = cbf.hashes := rfl
    rw [counters i, same, Nat.succ_mul]
    omega
  · intro i member
    have lower := covers.lower i member
    rw [counters i, tallyStep]
    split
    case isTrue same =>
      subst same
      have own : 0 < (positions cbf (hash key).1 (hash key).2).count i := List.count_pos_iff.mpr member
      omega
    case isFalse => omega

theorem Covers.decay (covers : Covers n a b v cbf) :
    Covers n a b (tallyStep x v .decay) (exec hash cbf .decay) where
  upper i := (decay_bf cbf i).2.trans (covers.upper i)
  lower i member := by
    have lower := covers.lower i member
    have halved := (decay_bf cbf i).1
    simp only [tallyStep, exec]
    omega

omit [DecidableEq K] in
theorem exec_hashes (cbf : Cbf) (op : Op K) : (exec hash cbf op).hashes = cbf.hashes := by
  cases op with
  | add key =>
    simp only [exec, CountingFilter.add]
    split <;> rfl
  | decay => rfl

theorem Covers.run {ops : List (Op K)} (covers : Covers n (hash x).1 (hash x).2 v cbf)
    (some_hash : 0 < cbf.hashes) (few : (n + ops.countP Op.isAdd) * cbf.hashes < 2 ^ 31) :
    Covers (n + ops.countP Op.isAdd) (hash x).1 (hash x).2 (ops.foldl (tallyStep x) v)
      (run hash cbf ops) := by
  induction ops generalizing n v cbf with
  | nil => exact covers
  | cons op ops ih =>
    have hashes : (exec hash cbf op).hashes = cbf.hashes := exec_hashes cbf op
    have rest : (op :: ops).countP Op.isAdd = ops.countP Op.isAdd + if op.isAdd then 1 else 0 :=
      List.countP_cons
    cases op with
    | add key =>
      have counted : n + ((Op.add key :: ops).countP Op.isAdd) = n + 1 + ops.countP Op.isAdd := by
        rw [rest, Op.isAdd, if_pos rfl]
        omega
      rw [counted] at few ⊢
      have now : (n + 1) * cbf.hashes < 2 ^ 31 :=
        lt_of_le_of_lt (Nat.mul_le_mul_right _ (Nat.le_add_right _ _)) few
      exact ih (covers.add some_hash now key) (hashes ▸ some_hash) (hashes ▸ few)
    | decay => exact ih covers.decay some_hash few

omit [DecidableEq K] in
theorem run_hashes (cbf : Cbf) (ops : List (Op K)) : (run hash cbf ops).hashes = cbf.hashes := by
  induction ops generalizing cbf with
  | nil => rfl
  | cons op ops ih => exact (ih (exec hash cbf op)).trans (exec_hashes cbf op)

theorem Covers.le_estimate (covers : Covers n a b v cbf) (some_hash : 0 < cbf.hashes)
    (few : n * cbf.hashes < 2 ^ 31) : (v : Int) ≤ estimate cbf a b := by
  have first : index cbf a b 0 ∈ positions cbf a b :=
    List.mem_map_of_mem (List.mem_range.mpr some_hash)
  have upper := covers.upper (index cbf a b 0)
  have least := UInt32.le_iff_toNat_le.mp (minCount_le first)
  have counted := covers.lower _ first
  have below : UInt32.ofNat v ≤ minCount cbf a b := by
    refine le_minCount_iff.mpr fun i member => UInt32.le_iff_toNat_le.mpr ?_
    rw [UInt32.toNat_ofNat']
    exact (Nat.mod_le _ _).trans (covers.lower i member)
  rw [UInt32.le_iff_toNat_le, UInt32.toNat_ofNat'] at below
  have read : estimate cbf a b = (minCount cbf a b).toNat := by
    have small : 2 * (minCount cbf a b).toBitVec.toNat < 2 ^ 32 := by
      rw [UInt32.toNat_toBitVec]
      omega
    exact BitVec.toInt_eq_toNat_of_lt small
  rw [read]
  omega

/-- With fewer than `2 ^ 31 / hashes` adds, the estimate of a key is never below the number
of its adds, halved at each decay. -/
theorem estimate_never_under (hash : K → UInt32 × UInt32) {hashes : Nat} (counterNum : Nat)
    (some_hash : 0 < hashes) (ops : List (Op K)) (few : ops.countP Op.isAdd * hashes < 2 ^ 31)
    (x : K) :
    (tally x ops : Int) ≤
      estimate (run hash (init hashes counterNum) ops) (hash x).1 (hash x).2 := by
  have start : Covers 0 (hash x).1 (hash x).2 0 (init hashes counterNum) :=
    ⟨fun _ => Nat.zero_le _, fun _ _ => Nat.zero_le _⟩
  have total : (0 + ops.countP Op.isAdd) * hashes < 2 ^ 31 := by rwa [Nat.zero_add]
  have covers := start.run some_hash total
  rw [Nat.zero_add] at covers
  have kept : (run hash (init hashes counterNum) ops).hashes = (init hashes counterNum).hashes :=
    run_hashes _ ops
  exact covers.le_estimate (kept ▸ some_hash) (kept ▸ few)

/-- Two adds of a key, a decay and one more add, over a single counter. -/
theorem estimate_never_under_one :
    (2 : Int) ≤ estimate (run (fun _ : Unit => (7, 0)) (init 3 1) [.add (), .add (), .decay, .add ()]) 7 0 :=
  estimate_never_under (fun _ => (7, 0)) 1 (by decide) [.add (), .add (), .decay, .add ()] (by decide) ()

end Histories

end CountingFilter
