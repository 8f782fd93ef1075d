import CacheEviction.ChainedHashTable
import CacheEviction.StepTraces

/-!
# The report on long chains

`chained_hashtable_delete_v2` counts the objects it passes. If they are more than ever
before (a static variable, kept beside the table), it counts the objects of every bucket,
and `count_n_obj_in_bucket` puts their ids into an array of 64, or past its end. What is
printed is left out.
-/
namespace HashTableReport

open FuelLoops ForwardChains StepTraces ChainedHashTable

inductive Fault where
  | nullObj
  | outOfBounds
  | duplicated
  deriving DecidableEq

/-- One round of `count_n_obj_in_bucket`, with the part of `obj_id_arr` that is in use. -/
def countRound (t : Hashtable) : Option Ptr × List Nat → Except (Stop Fault) (Round (Option Ptr × List Nat) Nat)
  | (none, seen) => .ok (.done seen.length)
  | (some cur, seen) =>
    if 64 ≤ seen.length then .error (.fault .outOfBounds)
    else if t.objId cur ∈ seen then .error (.fault .duplicated)
    else .ok (.again (t.hashNext cur, seen ++ [t.objId cur]))

def countNObjInBucket (fuel : Nat) (t : Hashtable) (cur : Option Ptr) : Except (Stop Fault) Nat :=
  loop (countRound t) fuel (cur, [])

/-- `print_hashbucket_item_distribution` over the first buckets: the number of objects. -/
def printDistribution (fuel : Nat) (t : Hashtable) : Nat → Except (Stop Fault) Nat
  | 0 => .ok 0
  | i + 1 => do
    let nObj ← printDistribution fuel t i
    let chainLen ← countNObjInBucket fuel t (t.ptrTable i)
    return nObj + chainLen

/-- The loop of `chained_hashtable_delete_v2`, with `chain_len`. -/
def passRound (t : Hashtable) (obj : Ptr) :
    Option Ptr × Nat → Except (Stop Fault) (Round (Option Ptr × Nat) (Option Ptr × Nat))
  | (none, chainLen) => .ok (.done (none, chainLen))
  | (some cur, chainLen) =>
    if t.hashNext cur = some obj then .ok (.done (some cur, chainLen))
    else .ok (.again (t.hashNext cur, chainLen + 1))

/-- `chained_hashtable_delete_v2` -/
def delete (hash : Nat → Nat) (fuel : Nat) (t : Hashtable) (maxChainLen : Nat) (obj : Ptr) :
    Except (Stop Fault) (Hashtable × Nat) :=
  let hv := bucket hash t.hashpower (t.objId obj)
  if t.ptrTable hv = some obj then .ok (dropFirst t hv obj, maxChainLen)
  else do
    let (cur, chainLen) ← loop (passRound t obj) fuel (t.ptrTable hv, 1)
    let maxChainLen ← if maxChainLen < chainLen then
        (printDistribution fuel t (hashsize t.hashpower)).map fun _ => chainLen
      else .ok maxChainLen
    match cur with
    | none => .error (.fault .nullObj)
    | some cur => .ok (dropAfter t cur obj, maxChainLen)

/-- The table, `max_chain_len`, and what the table holds. -/
structure State where
  table : Hashtable
  maxChainLen : Nat
  contents : Contents

/-- An insertion of an absent id at an unused address, or a deletion of a present object. -/
inductive Step (hash : Nat → Nat) : State → State → Prop where
  | insert {s : State} {t : Hashtable} {obj : Ptr} {id : Nat} (absent : s.contents.lookup id = none)
      (unused : ∀ i, s.contents.lookup i ≠ some obj)
      (run : Yields (fun fuel => ChainedHashTable.insert hash fuel s.table obj id) (.ok t)) :
      Step hash s ⟨t, s.maxChainLen, s.contents.insert id obj⟩
  | delete {s : State} {t : Hashtable} {len : Nat} {obj : Ptr} {id : Nat}
      (present : s.contents.lookup id = some obj)
      (run : Yields (fun fuel => delete hash fuel s.table s.maxChainLen obj) (.ok (t, len))) :
      Step hash s ⟨t, len, s.contents.erase id⟩

/-- The object is not further behind the first one of its bucket than any before it, or no
bucket has more than 64 objects. -/
def Safe (hash : Nat → Nat) (t : Hashtable) (maxChainLen : Nat) (obj : Ptr) : Prop :=
  (∃ p q, Walk t.hashNext (t.ptrTable (bucket hash t.hashpower (t.objId obj))) (p ++ obj :: q) ∧
    p.length ≤ maxChainLen) ∨
  ∀ b < hashsize t.hashpower, ∀ l, Walk t.hashNext (t.ptrTable b) l → l.length ≤ 64

variable {hash : Nat → Nat} {t : Hashtable} {m : Contents} {obj : Ptr} {id len : Nat} {l : List Ptr}

/-! ## Counting -/

theorem countRound_yields {cur : Option Ptr} {seen : List Nat} (walk : Walk t.hashNext cur l)
    (distinct : (seen ++ l.map t.objId).Nodup) (within : seen.length ≤ 64) :
    Yields (fun fuel => loop (countRound t) fuel (cur, seen))
      (if seen.length + l.length ≤ 64 then .ok (seen.length + l.length) else .error (.fault .outOfBounds)) := by
  induction l generalizing cur seen with
  | nil =>
    rw [show cur = none from walk, List.length_nil, Nat.add_zero, if_pos within]
    exact .done rfl
  | cons x l ih =>
    obtain ⟨rfl, rest⟩ := walk
    rw [List.length_cons]
    by_cases full : 64 ≤ seen.length
    · rw [if_neg (by omega)]
      exact .fault (by rw [countRound, if_pos full])
    · have new : t.objId x ∉ seen := fun old =>
        (List.nodup_append.mp distinct).2.2 _ old _ (List.mem_map_of_mem List.mem_cons_self) rfl
      have run := @ih (t.hashNext x) (seen ++ [t.objId x]) rest (by simpa using distinct) (by simp; omega)
      rw [List.length_append, List.length_singleton, Nat.add_assoc, Nat.add_comm 1] at run
      exact run.again (by rw [countRound, if_neg full, if_neg new])

theorem ids_nodup (rep : Represents hash t m) {b : Nat} (chain : ChainOf hash t (Stored m) b l) :
    (l.map t.objId).Nodup := by
  refine (List.nodup_map_iff_inj_on chain.1.nodup).mpr fun x left y right same => ?_
  have first := rep.lookup_objId ((chain.2 x).mp left).1
  rw [same, rep.lookup_objId ((chain.2 y).mp right).1] at first
  exact (Option.some.inj first).symm

theorem printDistribution_yields (rep : Represents hash t m) {k : Nat} (inside : k ≤ hashsize t.hashpower) :
    (∃ n, Yields (fun fuel => printDistribution fuel t k) (.ok n) ∧
      ∀ b < k, ∀ l, Walk t.hashNext (t.ptrTable b) l → l.length ≤ 64) ∨
    (Yields (fun fuel => printDistribution fuel t k) (.error (.fault .outOfBounds)) ∧
      ∃ b < k, ∃ l, Walk t.hashNext (t.ptrTable b) l ∧ 64 < l.length) := by
  induction k with
  | zero => exact Or.inl ⟨0, .const _, by simp⟩
  | succ k ih =>
    rcases ih (by omega) with ⟨n, run, short⟩ | ⟨run, b, small, long⟩
    · obtain ⟨l, chain⟩ := rep.holds k (by omega)
      have counted := @countRound_yields _ _ _ [] chain.1 (ids_nodup rep chain) (by simp)
      rw [List.length_nil, Nat.zero_add] at counted
      by_cases fits : l.length ≤ 64
      · rw [if_pos fits] at counted
        refine Or.inl ⟨n + l.length, run.bind (counted.bind (.const _)), fun b small m walk => ?_⟩
        rcases Nat.lt_succ_iff_lt_or_eq.mp small with before | rfl
        · exact short b before m walk
        · rw [walk.unique chain.1]
          exact fits
      · rw [if_neg fits] at counted
        exact Or.inr ⟨run.bind counted.bind_error, k, by omega, l, chain.1, by omega⟩
    · exact Or.inr ⟨run.bind_error, b, by omega, long⟩

/-! ## Deleting -/

theorem passRound_yields {cur : Option Ptr} {p q : List Ptr} {prev : Ptr}
    (walk : Walk t.hashNext cur (p ++ prev :: obj :: q)) (n : Nat) :
    Yields (fun fuel => loop (passRound t obj) fuel (cur, n)) (.ok (some prev, n + p.length)) := by
  induction p generalizing cur n with
  | nil =>
    obtain ⟨rfl, link, -⟩ := walk
    exact .done (by rw [passRound, if_pos link]; rfl)
  | cons x p ih =>
    have nodup := walk.nodup
    obtain ⟨rfl, rest⟩ := walk
    have other : t.hashNext x ≠ some obj := by
      intro link
      rw [rest.start_eq] at link
      cases p with
      | nil =>
        cases link
        simp at nodup
      | cons y p =>
        cases link
        simp at nodup
    have run := ih rest (n + 1)
    rw [Nat.add_assoc, Nat.add_comm 1] at run
    exact run.again (by rw [passRound, if_neg other])

theorem delete_outcome (rep : Represents hash t m) (present : m.lookup id = some obj) (len : Nat) :
    (Safe hash t len obj ∧ Ends (fun fuel => delete hash fuel t len obj) fun a => Represents hash a.1 (m.erase id)) ∨
    (¬ Safe hash t len obj ∧ Yields (fun fuel => delete hash fuel t len obj) (.error (.fault .outOfBounds))) := by
  obtain ⟨l, chain⟩ := rep.holds.chain (t.objId obj)
  obtain ⟨p, q, rfl⟩ := List.append_of_mem ((chain.2 obj).mpr ⟨⟨id, present⟩, rfl⟩)
  rcases List.eq_nil_or_concat p with rfl | ⟨p, prev, rfl⟩
  · have head : t.ptrTable (bucket hash t.hashpower (t.objId obj)) = some obj := chain.1.1
    refine Or.inl ⟨Or.inl ⟨[], q, chain.1, Nat.zero_le _⟩, ?_⟩
    simp only [delete, if_pos head]
    exact Ends.const (rep.erased present (rep.first head).2 rfl rfl)
  · rw [List.concat_eq_append] at chain
    have nodup := chain.1.nodup
    have depth : ∀ p' q', Walk t.hashNext (t.ptrTable (bucket hash t.hashpower (t.objId obj))) (p' ++ obj :: q') →
        p'.length = p.length + 1 := by
      intro p' q' walk
      obtain ⟨outside, behind⟩ := not_or.mp (mt List.mem_append.mpr (List.nodup_cons.mp (List.nodup_middle.mp nodup)).1)
      obtain ⟨rfl, -, -⟩ := (List.append_cons_inj_of_notMem outside behind).mp (chain.1.unique walk)
      simp
    have safe : p.length + 1 ≤ len → Safe hash t len obj := fun short =>
      Or.inl ⟨p ++ [prev], q, chain.1, by simpa using short⟩
    rw [List.append_assoc] at chain nodup
    have head : t.ptrTable (bucket hash t.hashpower (t.objId obj)) ≠ some obj := by
      intro first
      rw [chain.1.start_eq] at first
      cases p with
      | nil =>
        cases first
        simp at nodup
      | cons y p =>
        cases first
        simp at nodup
    have held := rep.holds.dropAfter chain
    have passed := passRound_yields chain.1 1
    rw [Nat.add_comm] at passed
    simp only [delete, if_neg head]
    by_cases long : len < p.length + 1
    · rcases printDistribution_yields rep le_rfl with ⟨n, ⟨N, run⟩, short⟩ | ⟨⟨N, run⟩, b, small, chain', walk, more⟩
      · refine Or.inl ⟨Or.inr short, (dropAfter t prev obj, p.length + 1), passed.bind ⟨N, fun fuel enough => ?_⟩,
          rep.erased present held rfl rfl⟩
        simp only [if_pos long, run fuel enough]
        rfl
      · refine Or.inr ⟨?_, passed.bind ⟨N, fun fuel enough => ?_⟩⟩
        · rintro (⟨p', q', walk', near⟩ | short)
          · have := depth p' q' walk'
            omega
          · have := short b small chain' walk
            omega
        · simp only [if_pos long, run fuel enough]
          rfl
    · refine Or.inl ⟨safe (by omega), (dropAfter t prev obj, len), passed.bind (.of_eq fun fuel => ?_),
        rep.erased present held rfl rfl⟩
      simp only [if_neg long]
      rfl

/-! ## One bucket -/

theorem filled (n : Nat) : ∃ s, Reachable (Step fun _ => 0) ⟨create (fun _ => none) (fun _ => 0) 0, 16, ∅⟩ s ∧
    s.maxChainLen = 16 ∧ Represents (fun _ => 0) s.table s.contents ∧
    ∀ id, s.contents.lookup id = if id < n then some id else none := by
  induction n with
  | zero => exact ⟨_, .refl, rfl, create_represents .., fun id => by simp⟩
  | succ n ih =>
    obtain ⟨s, history, same, rep, lookup⟩ := ih
    have absent : s.contents.lookup n = none := by rw [lookup, if_neg (Nat.lt_irrefl n)]
    have unused : ∀ i, s.contents.lookup i ≠ some n := by
      intro i found
      rw [lookup] at found
      split at found
      · cases found
        omega
      · cases found
    obtain ⟨t, run, next⟩ := insert_represents rep absent unused
    refine ⟨⟨t, s.maxChainLen, s.contents.insert n n⟩, history.next (.insert absent unused run), same, next,
      fun id => ?_⟩
    by_cases own : id = n
    · subst own
      rw [Finmap.lookup_insert, if_pos (Nat.lt_succ_self id)]
    · rw [Finmap.lookup_insert_of_ne _ own, lookup]
      have : id < n ↔ id < n + 1 := by omega
      simp only [this]

theorem filled_chain {n : Nat} (rep : Represents (fun _ => 0) t m)
    (lookup : ∀ id, m.lookup id = if id < n then some id else none) : ∃ l, l.length = n ∧
      (∀ x, x ∈ l ↔ x < n) ∧ ∀ id, Walk t.hashNext (t.ptrTable (bucket (fun _ => 0) t.hashpower id)) l := by
  obtain ⟨l, walk, members⟩ := rep.holds.chain 0
  have home : ∀ id, bucket (fun _ => 0) t.hashpower id = 0 := fun id => Nat.zero_and _
  have inside : ∀ x, x ∈ l ↔ x < n := by
    intro x
    rw [members]
    constructor
    · rintro ⟨⟨i, stored⟩, -⟩
      rw [lookup] at stored
      split at stored
      · cases stored
        assumption
      · cases stored
    · intro small
      exact ⟨⟨x, by rw [lookup, if_pos small]⟩, by rw [home, home]⟩
  refine ⟨l, ?_, inside, fun id => by rw [home, ← home 0]; exact walk⟩
  have range : l.Perm (List.range n) := by
    refine (List.perm_ext_iff_of_nodup walk.nodup List.nodup_range).mpr fun x => ?_
    rw [inside, List.mem_range]
  rw [range.length_eq, List.length_range]

/-- From an empty table on, a deletion of a present object stays within its arrays if and
only if the object is not further behind the first one of its bucket than `max_chain_len`
or no bucket has more than 64 objects. -/
theorem delete_within_iff {next : Ptr → Option Ptr} {objId : Ptr → Nat} {hashpower start : Nat} {s : State}
    (history : Reachable (Step hash) ⟨create next objId hashpower, start, ∅⟩ s)
    (present : s.contents.lookup id = some obj) :
    (∃ t, Yields (fun fuel => delete hash fuel s.table s.maxChainLen obj) (.ok t)) ↔
      Safe hash s.table s.maxChainLen obj := by
  have rep : Represents hash s.table s.contents := by
    refine history.invariant (fun s => Represents hash s.table s.contents)
      (create_represents hash next objId hashpower) ?_
    rintro s u rep (⟨absent, unused, run⟩ | ⟨present, run⟩)
    · exact (insert_represents rep absent unused).result run
    · rcases delete_outcome rep present s.maxChainLen with ⟨-, ends⟩ | ⟨-, fault⟩
      · exact ends.result run
      · cases fault.unique run
  rcases delete_outcome rep present s.maxChainLen with ⟨safe, t, run, -⟩ | ⟨danger, fault⟩
  · exact ⟨fun _ => safe, fun _ => ⟨t, run⟩⟩
  · refine ⟨?_, fun safe => absurd safe danger⟩
    rintro ⟨t, run⟩
    cases fault.unique run

/-- A single object. -/
theorem delete_within_iff_one : ∃ s, Reachable (Step fun _ => 0) ⟨create (fun _ => none) (fun _ => 0) 0, 16, ∅⟩ s ∧
    s.contents.lookup 0 = some 0 ∧ Safe (fun _ => 0) s.table s.maxChainLen 0 ∧
    ∃ t, Yields (fun fuel => delete (fun _ => 0) fuel s.table s.maxChainLen 0) (.ok t) := by
  obtain ⟨s, history, -, rep, lookup⟩ := filled 1
  obtain ⟨l, length, inside, walk⟩ := filled_chain rep lookup
  have present : s.contents.lookup 0 = some 0 := by rw [lookup, if_pos Nat.one_pos]
  have safe : Safe (fun _ => 0) s.table s.maxChainLen 0 := by
    obtain ⟨p, q, rfl⟩ := List.append_of_mem ((inside 0).mpr Nat.one_pos)
    rw [List.length_append, List.length_cons] at length
    exact Or.inl ⟨p, q, walk _, by omega⟩
  exact ⟨s, history, present, safe, (delete_within_iff history present).mpr safe⟩

/-- Of 65 objects in one bucket the last one cannot be deleted. -/
theorem delete_out_of_bounds : ∃ s, Reachable (Step fun _ => 0) ⟨create (fun _ => none) (fun _ => 0) 0, 16, ∅⟩ s ∧
    ∃ id obj, s.contents.lookup id = some obj ∧
      Yields (fun fuel => delete (fun _ => 0) fuel s.table s.maxChainLen obj) (.error (.fault .outOfBounds)) := by
  obtain ⟨s, history, same, rep, lookup⟩ := filled 65
  obtain ⟨l, length, inside, walk⟩ := filled_chain rep lookup
  obtain ⟨p, obj, rfl⟩ := (List.eq_nil_or_concat l).resolve_left (by rintro rfl; cases length)
  rw [List.concat_eq_append] at length inside walk
  have present : s.contents.lookup obj = some obj := by
    rw [lookup, if_pos ((inside obj).mp (by simp))]
  refine ⟨s, history, obj, obj, present, ?_⟩
  rcases delete_outcome rep present s.maxChainLen with ⟨safe, -⟩ | ⟨-, fault⟩
  · exfalso
    rcases safe with ⟨p', q, walk', near⟩ | short
    · have last : obj ∉ p := fun again =>
        (List.nodup_append.mp (walk 0).nodup).2.2 obj again obj List.mem_cons_self rfl
      obtain ⟨rfl, -, -⟩ := (List.append_cons_inj_of_notMem last List.not_mem_nil).mp ((walk _).unique walk')
      rw [List.length_append, List.length_singleton] at length
      omega
    · have := short _ (bucket_lt (fun _ => 0) s.table.hashpower 0) _ (walk 0)
      omega
  · exact fault

end HashTableReport
