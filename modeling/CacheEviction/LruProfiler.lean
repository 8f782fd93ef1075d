import CacheEviction.LruRuns
import CacheEviction.SplayTree
import Mathlib.Algebra.BigOperators.Intervals

/-!
# The LRU profiler of libCacheSim

`_get_lru_hit_cnt` of `profilerLRU.c` with `get_stack_dist_add_req` of `dist.c`: one
pass over a trace that counts the LRU hits of every cache size. A splay tree holds
the time of the last request of each id, and the number of times right of an id's
own is its stack distance.

The hash table stores a time as a pointer, and `NULL` is also what it returns for
an id it does not have. The first request has time 0. Times and counts are not
bounded here. `last_access_ts` is `NULL` in this caller.
-/
namespace LruProfiler

open FuelLoops SplayTree LruStack LruRuns FifoCache

structure Profile where
  splayTree : STree
  hashTable : Nat → Option Int

def Profile.start : Profile := ⟨.nil, fun _ => none⟩

/-- `g_hash_table_lookup` as a pointer, with `NULL` as 0. -/
def lookup (table : Nat → Option Int) (objId : Nat) : Int := (table objId).getD 0

def store (table : Nat → Option Int) (objId : Nat) (ts : Int) : Nat → Option Int :=
  fun id => if id = objId then some ts else table id

/-- `get_stack_dist_add_req`; `newtree->right` is read without a test. -/
def getStackDistAddReq (p : Profile) (objId : Nat) (currTs : Int) : Option (Int × Profile) :=
  let gp := lookup p.hashTable objId
  if gp = 0 then
    some (-1, ⟨insert currTs p.splayTree, store p.hashTable objId currTs⟩)
  else
    match splay gp p.splayTree with
    | .nil => none
    | .node left key value right =>
      let newtree := splayDelete gp (.node left key value right)
      some (nodeValue right, ⟨insert currTs newtree, store p.hashTable objId currTs⟩)

/-- `hit_count_array[stack_dist + 1] += 1` for a distance within the array. -/
def countHit (size : Nat) (hitCount : Nat → Nat) (stackDist : Int) : Nat → Nat :=
  if stackDist = -1 then hitCount
  else if stackDist + 1 ≤ size then
    fun i => if i = (stackDist + 1).toNat then hitCount i + 1 else hitCount i
  else hitCount

/-- The `while` loop over the requests from time `ts` on. -/
def readRequests (size : Nat) : Int → Profile → (Nat → Nat) → List Nat → Option (Nat → Nat)
  | _, _, hitCount, [] => some hitCount
  | ts, p, hitCount, objId :: trace => do
    let (stackDist, p) ← getStackDistAddReq p objId ts
    readRequests size (ts + 1) p (countHit size hitCount stackDist) trace

/-- The `for` loop up to `i`. -/
def accumulate (hitCount : Nat → Nat) : Nat → Nat → Nat
  | 0 => hitCount
  | i + 1 =>
    let a := accumulate hitCount i
    fun j => if j = i + 1 then a (i + 1) + a i else a j

def getLruHitCnt (trace : List Nat) (size : Nat) : Option (Nat → Nat) := do
  let hitCount ← readRequests size 0 .start (fun _ => 0) trace
  return accumulate hitCount size

/-! ## The array -/

def within (hitCount : Nat → Nat) (c : Nat) : Nat := ∑ i ∈ Finset.range (c + 1), hitCount i

theorem accumulate_succ (hitCount : Nat → Nat) (n j : Nat) : accumulate hitCount (n + 1) j =
    if j = n + 1 then accumulate hitCount n (n + 1) + accumulate hitCount n n
    else accumulate hitCount n j :=
  rfl

theorem accumulate_above {hitCount : Nat → Nat} {n j : Nat} (h : n < j) :
    accumulate hitCount n j = hitCount j := by
  induction n with
  | zero => rfl
  | succ n ih => rw [accumulate_succ, if_neg (by omega), ih (by omega)]

theorem accumulate_eq (hitCount : Nat → Nat) {n c : Nat} (h : c ≤ n) :
    accumulate hitCount n c = within hitCount c := by
  induction n generalizing c with
  | zero =>
    obtain rfl : c = 0 := by omega
    simp [accumulate, within]
  | succ n ih =>
    rw [accumulate_succ]
    by_cases last : c = n + 1
    · subst last
      rw [if_pos rfl, accumulate_above (Nat.lt_succ_self n), ih le_rfl, within, within,
        Finset.sum_range_succ _ (n + 1), Nat.add_comm]
    · rw [if_neg last, ih (by omega)]

theorem countHit_cold (size : Nat) (hitCount : Nat → Nat) : countHit size hitCount (-1) = hitCount := by
  rw [countHit, if_pos rfl]

theorem within_countHit {size c : Nat} (inside : c ≤ size) (hitCount : Nat → Nat) (d : Nat) :
    within (countHit size hitCount d) c = within hitCount c + if d < c then 1 else 0 := by
  rw [countHit, if_neg (by omega)]
  by_cases near : (d : Int) + 1 ≤ size
  · have index : ((d : Int) + 1).toNat = d + 1 := by omega
    have one : ∀ i, (if i = d + 1 then hitCount i + 1 else hitCount i) =
        hitCount i + if i = d + 1 then 1 else 0 := by
      intro i
      split <;> rfl
    rw [if_pos near, index, within, within]
    simp only [one, Finset.sum_add_distrib, Finset.sum_ite_eq', Finset.mem_range]
    simp only [Nat.add_lt_add_iff_right]
  · rw [if_neg near, if_neg (by omega), Nat.add_zero]

/-! ## The tree and the table -/

variable {ts : Int} {R : List Nat} {p : Profile} {x : Nat}

/-- From the first request on: the tree holds time 0 and, in the order of the stack,
the last times of the ids requested since. -/
structure Tracks (ts : Int) (R : List Nat) (p : Profile) : Prop where
  keys : p.splayTree.keys = 0 :: R.map (lookup p.hashTable)
  sorted : Sorted p.splayTree.keys
  sized : Sized p.splayTree
  past : ∀ k ∈ p.splayTree.keys, k < ts
  absent : ∀ id ∉ R, lookup p.hashTable id = 0

theorem lookup_store (table : Nat → Option Int) (objId id : Nat) (ts : Int) :
    lookup (store table objId ts) id = if id = objId then ts else lookup table id := by
  rw [lookup, store]
  split
  · rfl
  · rfl

theorem map_lookup_store {l : List Nat} (table : Nat → Option Int) (ts : Int) (h : x ∉ l) :
    l.map (lookup (store table x ts)) = l.map (lookup table) := by
  apply List.map_congr_left
  intro id member
  rw [lookup_store, if_neg]
  rintro rfl
  exact h member

theorem sorted_concat {l : List Int} (sorted : Sorted l) (past : ∀ k ∈ l, k < ts) :
    Sorted (l ++ [ts]) := by
  rw [Sorted, List.pairwise_append]
  refine ⟨sorted, List.pairwise_singleton _ _, ?_⟩
  intro a member b last
  rw [List.mem_singleton.mp last]
  exact past a member

theorem insert_last {t : STree} (sorted : Sorted t.keys) (sized : Sized t)
    (past : ∀ k ∈ t.keys, k < ts) :
    (insert ts t).keys = t.keys ++ [ts] ∧ Sized (insert ts t) :=
  insert_keys sorted sized (List.append_nil _).symm past nofun

theorem Tracks.lookup_pos (tracks : Tracks ts R p) (member : x ∈ R) : 0 < lookup p.hashTable x := by
  have sorted := tracks.sorted
  rw [tracks.keys] at sorted
  exact List.rel_of_pairwise_cons sorted (List.mem_map_of_mem member)

theorem tracks_stored {t : STree} {rest : List Nat} (keys : t.keys = 0 :: rest.map (lookup p.hashTable))
    (sorted : Sorted t.keys) (sized : Sized t) (past : ∀ k ∈ t.keys, k < ts) (other : x ∉ rest)
    (absent : ∀ id, id ∉ rest → id ≠ x → lookup p.hashTable id = 0) :
    Tracks (ts + 1) (rest ++ [x]) ⟨insert ts t, store p.hashTable x ts⟩ := by
  obtain ⟨inserted, size⟩ := insert_last sorted sized past
  have shape : (insert ts t).keys = 0 :: (rest ++ [x]).map (lookup (store p.hashTable x ts)) := by
    rw [inserted, keys, List.map_append, map_lookup_store _ _ other, List.map_singleton,
      lookup_store, if_pos rfl]
    rfl
  refine ⟨shape, ?_, size, ?_, ?_⟩
  · show Sorted (insert ts t).keys
    rw [inserted]
    exact sorted_concat sorted past
  · intro k member
    replace member : k ∈ (insert ts t).keys := member
    rw [inserted] at member
    rcases List.mem_append.mp member with old | new
    · have := past k old
      omega
    · rw [List.mem_singleton.mp new]
      omega
  · intro id member
    rw [List.mem_append, List.mem_singleton, not_or] at member
    rw [lookup_store, if_neg member.2]
    exact absent id member.1 member.2

theorem Tracks.cold (tracks : Tracks ts R p) (missing : x ∉ R) :
    ∃ p', getStackDistAddReq p x ts = some (-1, p') ∧ Tracks (ts + 1) (touch R x) p' := by
  refine ⟨_, if_pos (tracks.absent x missing), ?_⟩
  rw [touch, List.erase_of_not_mem missing]
  exact tracks_stored tracks.keys tracks.sorted tracks.sized tracks.past missing
    fun id out _ => tracks.absent id out

theorem Tracks.warm {A B : List Nat} (tracks : Tracks ts (A ++ x :: B) p)
    (nodup : (A ++ x :: B).Nodup) :
    ∃ p', getStackDistAddReq p x ts = some ((B.length : Int), p') ∧
      Tracks (ts + 1) (touch (A ++ x :: B) x) p' := by
  obtain ⟨-, nodup', apart⟩ := List.nodup_append.mp nodup
  have notA : x ∉ A := fun member => apart x member x List.mem_cons_self rfl
  have notB : x ∉ B := (List.nodup_cons.mp nodup').1
  have positive := tracks.lookup_pos (List.mem_append_right A List.mem_cons_self)
  have cut : p.splayTree.keys = (0 :: A.map (lookup p.hashTable)) ++
      lookup p.hashTable x :: B.map (lookup p.hashTable) := by
    rw [tracks.keys, List.map_append]
    rfl
  obtain ⟨left, key, value, right, shape, distance, keys, sized⟩ :=
    splay_then_delete tracks.sorted tracks.sized cut
  have kept : List.Sublist ((0 :: A.map (lookup p.hashTable)) ++ B.map (lookup p.hashTable))
      p.splayTree.keys := by
    rw [cut]
    exact (List.Sublist.refl _).append (List.sublist_cons_self _ _)
  rw [← keys] at kept
  have shorter : (splayDelete (lookup p.hashTable x) (.node left key value right)).keys =
      0 :: (A ++ B).map (lookup p.hashTable) := by
    rw [keys, List.map_append]
    rfl
  have asked : getStackDistAddReq p x ts = some ((B.length : Int), ⟨insert ts (splayDelete
      (lookup p.hashTable x) (.node left key value right)), store p.hashTable x ts⟩) := by
    rw [getStackDistAddReq]
    simp only [if_neg (Int.ne_of_gt positive), shape, distance, List.length_map]
  refine ⟨_, asked, ?_⟩
  rw [touch, List.erase_append_right _ notA, List.erase_cons_head]
  refine tracks_stored shorter (tracks.sorted.sublist kept) sized
    (fun k member => tracks.past k (kept.subset member)) ?_ ?_
  · rw [List.mem_append, not_or]
    exact ⟨notA, notB⟩
  · intro id out other
    rw [List.mem_append, not_or] at out
    refine tracks.absent id ?_
    rw [List.mem_append, List.mem_cons, not_or, not_or]
    exact ⟨out.1, other, out.2⟩

theorem readRequests_stack (size : Nat) (tracks : Tracks ts R p) (nodup : R.Nodup)
    (hitCount : Nat → Nat) (trace : List Nat) :
    ∃ a, readRequests size ts p hitCount trace = some a ∧
      ∀ c ≤ size, within a c = within hitCount c + hits c R trace := by
  induction trace generalizing ts R p hitCount with
  | nil => exact ⟨hitCount, rfl, fun c _ => rfl⟩
  | cons x trace ih =>
    by_cases member : x ∈ R
    · obtain ⟨A, B, rfl⟩ := List.append_of_mem member
      obtain ⟨p', asked, next⟩ := tracks.warm nodup
      obtain ⟨a, read, counts⟩ := ih next (touch_nodup nodup) (countHit size hitCount B.length)
      refine ⟨a, ?_, fun c inside => ?_⟩
      · rw [readRequests, asked]
        exact read
      · have once := (List.nodup_cons.mp (List.nodup_append.mp nodup).2.1).1
        rw [counts c inside, within_countHit inside, hits, Nat.add_assoc]
        simp only [mem_newest once]
    · obtain ⟨p', asked, next⟩ := tracks.cold member
      obtain ⟨a, read, counts⟩ := ih next (touch_nodup nodup) hitCount
      refine ⟨a, ?_, fun c inside => ?_⟩
      · rw [readRequests, asked]
        show readRequests size (ts + 1) p' (countHit size hitCount (-1)) trace = some a
        rw [countHit_cold]
        exact read
      · have miss : x ∉ R.rtake c := fun newest => member (List.mem_of_mem_drop newest)
        rw [counts c inside, hits, if_neg miss, Nat.zero_add]

theorem first_tracks (x : Nat) :
    ∃ p, getStackDistAddReq .start x 0 = some (-1, p) ∧ Tracks 1 [] p := by
  refine ⟨_, rfl, rfl, List.pairwise_singleton _ _, ⟨rfl, trivial, trivial⟩, ?_, ?_⟩
  · intro k member
    rw [List.mem_singleton.mp member]
    decide
  · intro id _
    rw [lookup_store]
    split <;> rfl

theorem getLruHitCnt_eq (size : Nat) (trace : List Nat) :
    ∃ a, getLruHitCnt trace size = some a ∧ ∀ c ≤ size, a c = hits c [] trace.tail := by
  cases trace with
  | nil =>
    refine ⟨_, rfl, fun c inside => ?_⟩
    rw [accumulate_eq _ inside]
    simp [within, hits]
  | cons x trace =>
    obtain ⟨p, asked, tracks⟩ := first_tracks x
    obtain ⟨a, read, counts⟩ := readRequests_stack size tracks List.nodup_nil (fun _ => 0) trace
    refine ⟨accumulate a size, ?_, fun c inside => ?_⟩
    · rw [getLruHitCnt, readRequests, asked]
      show (readRequests size 1 p (countHit size (fun _ => 0) (-1)) trace).bind _ = _
      rw [countHit_cold, read]
      rfl
    · rw [accumulate_eq _ inside, counts c inside]
      simp [within]

/-- The first id is requested again with fewer than `c` other ids in between. -/
def FirstReused (c : Nat) (trace : List Nat) : Prop :=
  ∃ x ∈ trace.head?, x ∈ trace.tail ∧ (trace.tail.takeWhile (· ≠ x)).dedup.length < c

/-- Both counts exist, and they are the same unless the first id comes back soon:
its first request is forgotten. -/
theorem profiler_agrees_iff {c n : Nat} (atLeast : 1 ≤ c) (atMost : c ≤ n) (trace : List Nat) :
    ∃ a h, getLruHitCnt trace n = some a ∧
      Yields (fun fuel => lruHits c fuel .empty trace) (.ok h) ∧
      (a c = h ↔ ¬ FirstReused c trace) := by
  obtain ⟨a, profiled, counts⟩ := getLruHitCnt_eq n trace
  obtain ⟨h, simulated, rfl⟩ := lruHits_stack atLeast List.nodup_nil (empty_holds c) trace
  refine ⟨a, _, profiled, simulated, ?_⟩
  rw [counts c atMost]
  cases trace with
  | nil => simp [FirstReused]
  | cons x trace =>
    have lost := hits_first c x trace
    have first : FirstReused c (x :: trace) ↔
        x ∈ trace ∧ (trace.takeWhile (· ≠ x)).dedup.length < c := by
      simp [FirstReused]
    rw [first, List.tail_cons, lost]
    split_ifs with soon
    · exact ⟨fun same => by omega, fun other => absurd soon other⟩
    · exact ⟨fun _ => soon, fun _ => rfl⟩

theorem profiler_agrees_iff_two : 1 ≤ 1 ∧ 1 ≤ 2 ∧ ∃ a h, getLruHitCnt [5, 6, 6, 5] 2 = some a ∧
    Yields (fun fuel => lruHits 1 fuel .empty [5, 6, 6, 5]) (.ok h) ∧
    (a 1 = h ↔ ¬ FirstReused 1 [5, 6, 6, 5]) :=
  ⟨by decide, by decide, profiler_agrees_iff (by decide) (by decide) _⟩

/-- One id requested twice: a cache of size 1 hits, and the profiler counts none. -/
theorem first_reuse_missed : (getLruHitCnt [7, 7] 1).map (· 1) = some 0 ∧
    Yields (fun fuel => lruHits 1 fuel .empty [7, 7]) (.ok 1) := by
  refine ⟨by decide, ?_⟩
  obtain ⟨h, simulated, count⟩ :=
    lruHits_stack (le_refl 1) List.nodup_nil (empty_holds 1) [7, 7]
  rw [count] at simulated
  exact simulated

end LruProfiler
