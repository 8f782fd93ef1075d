import CacheEviction.CrLfu
import CacheEviction.RecordedCalls

/-!
# LFU

`LFU.c`: objects of one frequency hang off one node, in the order in which they reached that
frequency, and the first object of the least frequency is the victim. `min_freq` is 0 after
an eviction has emptied its node, and the next eviction searches for it. A hit frees the node
that it has emptied, other calls leave an empty node behind.

The nodes are those of `CR_LFU`, with the 32 bits of `n_obj`. `freq_one_node` is the node of
frequency 1, which is never freed. The ledger records how often each object was requested
since its insertion, and when it reached that count.
-/
namespace Lfu

open FifoCache FuelLoops CacheGet RecordedCalls StepTraces Function
open CrLfu (FreqNode Indexed Least)

variable {i : CrLfu.State} {obj : CrLfu.Obj} {node : FreqNode}

/-! ## The code -/

/-- The cache: the objects of the hash table with their frequencies, in no order that
counts, and `LFU_params_t`. -/
structure State where
  table : Fifo Int
  freqMap : Int → Option FreqNode
  minFreq : Int
  maxFreq : Int
  nReq : Nat

def lfuInit : State where
  table := .empty
  freqMap := fun freq => if freq = 1 then some ⟨0, []⟩ else none
  minFreq := 1
  maxFreq := 1
  nReq := 0

/-- What must not happen: a node that is missing or an object that is missing is used. -/
inductive Fault where
  | nullNode
  | nullObject
  deriving DecidableEq

structure Setup where
  cacheSize : Nat
  considerObjMetadata : Bool

def Setup.objMdSize (b : Setup) : Nat := if b.considerObjMetadata then 16 else 0

def State.index (s : State) : CrLfu.State where
  objs id := (s.table.find id).map fun o => ⟨o.objSize, o.tag⟩
  freqMap := s.freqMap
  minFreq := s.minFreq
  maxFreq := s.maxFreq

/-- `update_min_freq`: the search goes up from the old value, which stays if nothing is
found. -/
def updateMinFreq (s : State) : State :=
  { s with minFreq := s.index.nextFreq.getD s.minFreq }

/-- `LFU_find` with `update_cache` set. -/
def lfuFind (s : State) (r : Request) : Except (Stop Fault) (Bool × State) :=
  match s.table.find r.objId with
  | none => .ok (false, s)
  | some obj =>
    match s.freqMap obj.tag with
    | none => .error (.fault .nullNode)
    | some node =>
      let freq := obj.tag + 1
      let old := node.drop r.objId
      let freqMap := Function.update s.freqMap obj.tag (some old)
      -- a frequency that is new gets a node
      let new := ((freqMap freq).getD ⟨0, []⟩).push r.objId
      let s := { s with
        table := s.table.retag r.objId fun _ => freq
        freqMap := Function.update freqMap freq (some new)
        maxFreq := max s.maxFreq freq }
      if old.nObj = 0 then
        let s := if s.minFreq = obj.tag then updateMinFreq s else s
        if obj.tag ≠ 1 then
          .ok (true, { s with freqMap := Function.update s.freqMap obj.tag none })
        else .ok (true, s)
      else .ok (true, s)

def lfuInsert (s : State) (r : Request) : Except (Stop Fault) State :=
  match s.freqMap 1 with
  | none => .error (.fault .nullNode)
  | some node =>
    .ok { s with
      table := s.table.insert r 1
      freqMap := Function.update s.freqMap 1 (some (node.push r.objId))
      minFreq := 1 }

def getMinFreqNode (s : State) : State × Option FreqNode :=
  if s.minFreq = 1 then (s, s.freqMap 1)
  else
    let s := if s.minFreq = 0 then updateMinFreq s else s
    (s, s.freqMap s.minFreq)

def lfuEvict (s : State) : Except (Stop Fault) State :=
  match getMinFreqNode s with
  | (_, none) => .error (.fault .nullNode)
  | (s, some node) =>
    match node.objs.head? with
    | none => .error (.fault .nullObject)
    | some id =>
      let left := node.drop id
      .ok { s with
        table := s.table.remove id
        freqMap := Function.update s.freqMap s.minFreq (some left)
        minFreq := if left.nObj = 0 then 0 else s.minFreq }

def lfuRemove (s : State) (objId : Nat) : Except (Stop Fault) (Bool × State) :=
  match s.table.find objId with
  | none => .ok (false, s)
  | some obj =>
    match s.freqMap obj.tag with
    | none => .error (.fault .nullNode)
    | some node =>
      let left := node.drop objId
      let s := { s with
        table := s.table.remove objId
        freqMap := Function.update s.freqMap obj.tag (some left) }
      if obj.tag = s.minFreq ∧ left.nObj = 0 then .ok (true, updateMinFreq s) else .ok (true, s)

/-- Each object counts with its metadata. -/
def occupiedByte (b : Setup) (s : State) : Int :=
  s.table.occupiedByte + b.objMdSize * s.table.nObj

/-- `LFU_get` is `cache_get_base` with these functions. The metadata of the new object is
taken from the room that there is for it. -/
def lfu (b : Setup) : Policy State Fault where
  cacheSize := b.cacheSize - b.objMdSize
  tick s := { s with nReq := s.nReq + 1 }
  find := lfuFind
  canInsert _ s r := .ok (decide (r.objSize + b.objMdSize ≤ b.cacheSize), s)
  occupiedByte := occupiedByte b
  evict _ s _ := lfuEvict s
  insert := lfuInsert

/-! ## The ledger -/

/-- The number of requests since the insertion, and the time of the request that made it
so many. -/
structure Standing where
  uses : Int
  reached : Nat

/-- Fewer requests first; of equally many the count that was reached first. -/
def Standing.le (a b : Standing) : Prop := a.uses < b.uses ∨ a.uses = b.uses ∧ a.reached ≤ b.reached

def touch (l : Ledger Standing) (id now : Nat) : Ledger Standing :=
  match l.standings id with
  | none => l
  | some standing => l.enter id ⟨standing.uses + 1, now⟩

def bookkeeper : Recorder State (Ledger Standing) where
  found s r hit l := if hit then touch l r.objId s.nReq else l
  evicted s t l := l.depart s.table t.table
  inserted s r l := l.enter r.objId ⟨1, s.nReq⟩
  removed _ id l := l.leave id

/-- A request for an object that is cached, or one for which `n_obj` has room. -/
def Roomy (a : State × Ledger Standing) (r : Request) : Prop :=
  (a.1.table.find r.objId).isSome = true ∨ a.1.table.nObj + 1 < 2 ^ 32

instance (a : State × Ledger Standing) (r : Request) : Decidable (Roomy a r) :=
  inferInstanceAs (Decidable (_ ∨ _))

/-- Calls of `LFU_get` and `LFU_remove`, with the ledger. -/
abbrev Calls (b : Setup) (mayGet : State × Ledger Standing → Request → Prop) :
    State × Ledger Standing → State × Ledger Standing → Prop :=
  Called (bookkeeper.policy (lfu b)) (bookkeeper.remove lfuRemove) mayGet fun _ _ => True

/-! ## The order on a node -/

/-- The first object has reached its count before the second. -/
def Before (standings : Nat → Option Standing) (a b : Nat) : Prop :=
  ∀ x y, standings a = some x → standings b = some y → x.reached < y.reached

/-- Every node lists its objects in the order in which they came to it. -/
def Sorted (freqMap : Int → Option FreqNode) (standings : Nat → Option Standing) : Prop :=
  ∀ freq node, freqMap freq = some node → node.objs.Pairwise (Before standings)

section Order

variable {freqMap : Int → Option FreqNode} {standings : Nat → Option Standing} {id : Nat}

theorem before_update {l : List Nat} (sorted : l.Pairwise (Before standings)) (absent : id ∉ l)
    (w : Option Standing) : l.Pairwise (Before (update standings id w)) := by
  refine List.Pairwise.imp_of_mem ?_ sorted
  intro a b first second before x y
  have apart : a ≠ id := fun same => absent (same ▸ first)
  have apart' : b ≠ id := fun same => absent (same ▸ second)
  rw [update_of_ne apart, update_of_ne apart']
  exact before x y

theorem Sorted.drop (sorted : Sorted i.freqMap standings) (indexed : Indexed i)
    (here : i.objs id = some obj) (found : i.freqMap obj.freq = some node) :
    Sorted (update i.freqMap obj.freq (some (node.drop id)))
      (update standings id none) := by
  intro freq other at_
  rcases CrLfu.update_eq_some at_ with ⟨_, same⟩ | ⟨apart, old⟩
  · cases same
    have left : id ∉ (node.drop id).objs := (indexed.nodup found).not_mem_erase
    exact before_update ((sorted _ _ found).sublist List.erase_sublist) left none
  · refine before_update (sorted _ _ old) ?_ none
    intro member
    obtain ⟨own, stored, atFreq⟩ := indexed.freq_of old member
    rw [here] at stored
    cases stored
    exact apart atFreq.symm

theorem Sorted.push {now : Nat} (sorted : Sorted freqMap standings) (standing : Standing)
    (absent : ∀ freq node, freqMap freq = some node → id ∉ node.objs)
    (past : ∀ i other, standings i = some other → other.reached < now) (late : standing.reached = now)
    (freq : Int) :
    Sorted (update freqMap freq (some (((freqMap freq).getD ⟨0, []⟩).push id)))
      (update standings id (some standing)) := by
  have last : ∀ l : List Nat, id ∉ l → l.Pairwise (Before standings) →
      (l ++ [id]).Pairwise (Before (update standings id (some standing))) := by
    intro l new ordered
    refine List.pairwise_append.mpr ⟨before_update ordered new _, List.pairwise_singleton _ _, ?_⟩
    intro a member b own x y first second
    rw [List.mem_singleton.mp own, update_self] at second
    cases second
    have apart : a ≠ id := fun same => new (same ▸ member)
    rw [update_of_ne apart] at first
    rw [late]
    exact past a x first
  intro other node at_
  rcases CrLfu.update_eq_some at_ with ⟨_, same⟩ | ⟨_, old⟩
  · cases same
    cases here : freqMap freq with
    | none => exact last [] List.not_mem_nil List.Pairwise.nil
    | some node => exact last node.objs (absent _ _ here) (sorted _ _ here)
  · exact before_update (sorted _ _ old) (absent _ _ old) _

theorem Sorted.forget (sorted : Sorted freqMap standings) (freq : Int) :
    Sorted (update freqMap freq none) standings := by
  intro other node at_
  rcases CrLfu.update_eq_some at_ with ⟨_, impossible⟩ | ⟨_, old⟩
  · cases impossible
  · exact sorted _ _ old

end Order

/-! ## The lazy minimum -/

/-- `min_freq` is unknown, or it is the least frequency. -/
def LazyLeast (i : CrLfu.State) : Prop :=
  i.minFreq = 0 ∨ ∀ id obj, i.objs id = some obj → Least i

theorem LazyLeast.of_sound (sound : CrLfu.Sound i) : LazyLeast i :=
  .inr fun _ _ here => sound.least here

theorem indexed_forget {freq : Int} (indexed : Indexed i) (found : i.freqMap freq = some node)
    (empty : node.objs = []) : Indexed { i with freqMap := update i.freqMap freq none } := by
  have kept : ∀ {f n}, update i.freqMap freq none f = some n → i.freqMap f = some n := by
    intro f n at_
    rcases CrLfu.update_eq_some at_ with ⟨_, impossible⟩ | ⟨_, old⟩
    · cases impossible
    · exact old
  refine ⟨fun at_ => indexed.count (kept at_), fun at_ => indexed.nodup (kept at_), ?_, indexed.bounds⟩
  intro f id
  rw [← indexed.listed f id]
  constructor
  · rintro ⟨n, at_, member⟩
    exact ⟨n, kept at_, member⟩
  · rintro ⟨n, at_, member⟩
    have apart : f ≠ freq := by
      rintro rfl
      rw [found] at at_
      cases at_
      rw [empty] at member
      cases member
    exact ⟨n, (update_of_ne apart _ _).trans at_, member⟩

theorem LazyLeast.forget {freq : Int} (lazy : LazyLeast i) (found : i.freqMap freq = some node)
    (empty : node.objs = []) : LazyLeast { i with freqMap := update i.freqMap freq none } := by
  rcases lazy with zero | least
  · exact .inl zero
  · refine .inr fun id obj here => ?_
    obtain ⟨⟨lowest, at_, some_⟩, below⟩ := least id obj here
    have apart : i.minFreq ≠ freq := by
      intro same
      rw [same, found] at at_
      cases at_
      exact some_ empty
    exact ⟨⟨lowest, (update_of_ne apart _ _).trans at_, some_⟩, below⟩

theorem updateMinFreq_least {s : State} {id : Nat} (indexed : Indexed s.index)
    (zero : s.minFreq = 0) (here : s.index.objs id = some obj) : Least (updateMinFreq s).index := by
  have above : ∀ {x o}, s.index.objs x = some o → s.index.minFreq < o.freq := by
    intro x o stored
    have low := (indexed.bounds stored).1
    have none : s.index.minFreq = 0 := zero
    omega
  obtain ⟨freq, next, least⟩ := CrLfu.nextFreq_least indexed above here
  have same : (updateMinFreq s).index = s.index.raiseMin := rfl
  rw [same, CrLfu.State.raiseMin, next]
  exact least

theorem getMinFreqNode_least {s : State} {id : Nat} (indexed : Indexed s.index)
    (lazy : LazyLeast s.index) (here : s.index.objs id = some obj) :
    ∃ freq node, getMinFreqNode s = ({ s with minFreq := freq }, some node) ∧
      Least { s.index with minFreq := freq } ∧ s.freqMap freq = some node := by
  by_cases zero : s.minFreq = 0
  · have least := updateMinFreq_least indexed zero here
    obtain ⟨node, found, _⟩ := least.node
    refine ⟨(updateMinFreq s).minFreq, node, ?_, least, found⟩
    have other : ¬ s.minFreq = 1 := by omega
    simp only [getMinFreqNode, if_neg other, if_pos zero]
    exact congrArg _ found
  · have least := lazy.resolve_left zero id obj here
    obtain ⟨node, found, _⟩ := least.node
    refine ⟨s.minFreq, node, ?_, least, found⟩
    by_cases one : s.minFreq = 1
    · rw [getMinFreqNode, if_pos one]
      have at_ : s.freqMap 1 = some node := by
        rw [← one]
        exact found
      rw [at_]
    · simp only [getMinFreqNode, if_neg one, if_neg zero]
      exact congrArg _ found

end Lfu
