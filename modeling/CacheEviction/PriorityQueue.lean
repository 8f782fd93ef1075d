import CacheEviction.StepTraces
import Mathlib.Data.Set.Insert
import Mathlib.Order.Basic

/-!
# The heap of the priority queue

`pqueue.c` keeps its nodes in an array from index 1 on, and each node knows its index. The
parent of an index is its half. A node that is out of order goes up or down, and the nodes it
passes take the places it leaves. `cmp_pri` says that the first priority is the lower one.

The array grows as needed; an allocation that fails is left out. No priority is a NaN.
-/
namespace PriorityQueue

open Function StepTraces

/-- `pqueue_t`, with the `pos` of every node. The `pri` of the nodes is an argument. -/
structure Pqueue (P : Type) where
  d : Nat → P
  size : Nat
  pos : P → Nat

variable {P K : Type} {pri : P → K} {q p : Pqueue P} {S T : Set P} {i j : Nat} {node : P}

/-- `q->d[i] = q->d[--q->size]` -/
def Pqueue.fill (q : Pqueue P) (i : Nat) : Pqueue P :=
  { q with d := update q.d i (q.d (q.size - 1)), size := q.size - 1 }

@[grind =] theorem fill_d : (q.fill i).d j = if j = i then q.d (q.size - 1) else q.d j := update_apply ..

@[grind =] theorem fill_size : (q.fill i).size = q.size - 1 := rfl

@[grind =] theorem fill_pos : (q.fill i).pos = q.pos := rfl

/-- The nodes of a set have their places, and no others do. -/
def Seated (q : Pqueue P) (S : Set P) : Prop :=
  (∀ i, 1 ≤ i → i < q.size → q.d i ∈ S ∧ q.pos (q.d i) = i) ∧
    ∀ node ∈ S, 1 ≤ q.pos node ∧ q.pos node < q.size ∧ q.d (q.pos node) = node

section Order

variable [LinearOrder K]

def maxchild (pri : P → K) (q : Pqueue P) (i : Nat) : Nat :=
  if q.size ≤ 2 * i then 0
  else if 2 * i + 1 < q.size ∧ pri (q.d (2 * i)) < pri (q.d (2 * i + 1)) then 2 * i + 1
  else 2 * i

theorem maxchild_spec (some : maxchild pri q i ≠ 0) :
    maxchild pri q i / 2 = i ∧ maxchild pri q i < q.size ∧
      ∀ j < q.size, j / 2 = i → pri (q.d j) ≤ pri (q.d (maxchild pri q i)) := by
  grind [maxchild]

/-- No node is above its parent, except at the indices that are left out. -/
def Ordered (pri : P → K) (q : Pqueue P) (out : Nat → Prop) : Prop :=
  ∀ i, 2 ≤ i → i < q.size → ¬ out i → pri (q.d i) ≤ pri (q.d (i / 2))

/-- The children of an index are not above its parent. -/
def Bridged (pri : P → K) (q : Pqueue P) (i : Nat) : Prop :=
  ∀ j, 2 ≤ i → j < q.size → j / 2 = i → pri (q.d j) ≤ pri (q.d (i / 2))

structure Heap (pri : P → K) (q : Pqueue P) (S : Set P) : Prop where
  positive : 1 ≤ q.size
  seated : Seated q S
  ordered : Ordered pri q fun _ => False

theorem Heap.le_top (heap : Heap pri q S) (member : node ∈ S) : pri node ≤ pri (q.d 1) := by
  obtain ⟨first, inside, own⟩ := heap.seated.2 node member
  rw [← own]
  generalize q.pos node = i at first inside
  induction i using Nat.strongRecOn with
  | ind i ih =>
    by_cases root : i = 1
    · rw [root]
    · exact (heap.ordered i (by omega) inside id).trans (ih (i / 2) (by omega) (by omega) (by omega))

end Order

variable [DecidableEq P]

/-- `q->d[i] = node` and `q->setpos(node, i)` -/
def Pqueue.put (q : Pqueue P) (i : Nat) (node : P) : Pqueue P :=
  { q with d := update q.d i node, pos := update q.pos node i }

@[grind =] theorem put_d : (q.put i node).d j = if j = i then node else q.d j := update_apply ..

@[grind =] theorem put_pos (x : P) : (q.put i node).pos x = if x = node then i else q.pos x := update_apply ..

@[grind =] theorem put_size : (q.put i node).size = q.size := rfl

theorem Seated.swap (seated : Seated (q.put i node) S) (here : 1 ≤ i ∧ i < q.size)
    (there : 1 ≤ j ∧ j < q.size) (apart : i ≠ j) : Seated ((q.put i (q.d j)).put j node) S := by
  grind [Seated]

variable [LinearOrder K]

def bubbleUp (pri : P → K) (q : Pqueue P) (moving : P) (i : Nat) : Pqueue P :=
  if 1 < i ∧ pri (q.d (i / 2)) < pri moving then bubbleUp pri (q.put i (q.d (i / 2))) moving (i / 2)
  else q.put i moving

def percolateDown (pri : P → K) (q : Pqueue P) (moving : P) (i : Nat) : Pqueue P :=
  if maxchild pri q i ≠ 0 ∧ pri moving < pri (q.d (maxchild pri q i)) then
    percolateDown pri (q.put i (q.d (maxchild pri q i))) moving (maxchild pri q i)
  else q.put i moving
termination_by q.size - i
decreasing_by grind [maxchild]

/-- The end of `pqueue_change_priority` and `pqueue_remove`. -/
def restore (pri : P → K) (q : Pqueue P) (up : Bool) (i : Nat) : Pqueue P :=
  if up then bubbleUp pri q (q.d i) i else percolateDown pri q (q.d i) i

def pqueueInsert (pri : P → K) (q : Pqueue P) (node : P) : Pqueue P :=
  bubbleUp pri { q with d := update q.d q.size node, size := q.size + 1 } node q.size

def pqueueChangePriority (pri : P → K) (q : Pqueue P) (newPri : K) (node : P) : Pqueue P :=
  restore (update pri node newPri) q (pri node < newPri) (q.pos node)

def pqueueRemove (pri : P → K) (q : Pqueue P) (node : P) : Pqueue P :=
  restore pri (q.fill (q.pos node)) (pri node < pri ((q.fill (q.pos node)).d (q.pos node))) (q.pos node)

def pqueuePop (pri : P → K) (q : Pqueue P) : Option (P × Pqueue P) :=
  if q.size = 1 then none else some (q.d 1, percolateDown pri (q.fill 1) ((q.fill 1).d 1) 1)

/-- The queue, the priorities, and the nodes that were inserted and not taken out. -/
structure State (P K : Type) where
  queue : Pqueue P
  pri : P → K
  nodes : Set P

/-- A call. A node is given its priority before it is inserted. -/
inductive Step (s : State P K) : State P K → Prop where
  | insert {x : P} (newPri : K) (fresh : x ∉ s.nodes) : Step s
      ⟨pqueueInsert (update s.pri x newPri) s.queue x, update s.pri x newPri, insert x s.nodes⟩
  | changePriority {x : P} (newPri : K) (member : x ∈ s.nodes) :
      Step s ⟨pqueueChangePriority s.pri s.queue newPri x, update s.pri x newPri, s.nodes⟩
  | remove {x : P} (member : x ∈ s.nodes) : Step s ⟨pqueueRemove s.pri s.queue x, s.pri, s.nodes \ {x}⟩
  | pop {top : P} {rest : Pqueue P} (popped : pqueuePop s.pri s.queue = some (top, rest)) :
      Step s ⟨rest, s.pri, s.nodes \ {top}⟩

/-! ## Moving a node -/

theorem bubbleUp_heap (here : 1 ≤ i ∧ i < q.size) (seated : Seated (q.put i node) S)
    (ordered : Ordered pri (q.put i node) (· = i)) (bridged : Bridged pri (q.put i node) i) :
    Heap pri (bubbleUp pri q node i) S := by
  fun_induction bubbleUp pri q node i with
  | case1 q i up ih =>
    refine ih (by grind) (seated.swap here (by omega) (by omega)) ?_ ?_
    · intro j two inside other
      have old := ordered j two inside
      have between := bridged j (by omega) inside
      simp only [put_d] at *
      grind
    · -- the parent was in order, and so are its children
      intro j two inside child
      have parent := ordered (i / 2) two (by simp only [put_size]; omega)
      have old := ordered j (by omega) inside
      simp only [put_d] at *
      grind
  | case2 q i top =>
    refine ⟨by simp only [put_size]; omega, seated, fun j two inside _ => ?_⟩
    have old := ordered j two inside
    simp only [put_d] at *
    grind

theorem percolateDown_heap (here : 1 ≤ i) (positive : 1 ≤ q.size) (seated : Seated (q.put i node) S)
    (ordered : Ordered pri (q.put i node) (· / 2 = i)) (bridged : Bridged pri (q.put i node) i) :
    Heap pri (percolateDown pri q node i) S := by
  fun_induction percolateDown pri q node i with
  | case1 q i down ih =>
    obtain ⟨child, inside, most⟩ := maxchild_spec down.1
    refine ih (by omega) positive (seated.swap (by omega) (by omega) (by omega)) ?_ ?_
    · intro j two below other
      have old := ordered j two below
      have between := bridged (maxchild pri q i)
      have lower := most j below
      simp only [put_d, put_size] at *
      grind
    · intro j two below grandchild
      have old := ordered j (by omega) below
      simp only [put_d] at *
      grind
  | case2 q i stop =>
    refine ⟨positive, seated, fun j two inside _ => ?_⟩
    have old := ordered j two inside
    simp only [maxchild, put_d, put_size] at *
    grind

/-! ## The calls -/

theorem Heap.insert (heap : Heap pri q S) (fresh : node ∉ S) (newPri : K) :
    Heap (update pri node newPri) (pqueueInsert (update pri node newPri) q node) (insert node S) := by
  have positive := heap.positive
  have seated := heap.seated
  have other : ∀ j, 1 ≤ j → j < q.size → q.d j ≠ node := fun j first inside same =>
    fresh (same ▸ (seated.1 j first inside).1)
  refine bubbleUp_heap (by grind) (by grind [Seated]) (fun j two inside apart => ?_) (by grind [Bridged])
  have old := heap.ordered j two
  have own := other j
  have parent := other (j / 2)
  simp only [put_d, put_size, update_apply] at *
  grind

/-- What stands at an index has changed, and goes up if its priority is above the old one. -/
theorem Heap.restored {new : P → K} (heap : Heap pri q S) (here : 1 ≤ i) (positive : 1 ≤ p.size)
    (smaller : p.size ≤ q.size)
    (others : ∀ j, 1 ≤ j → j < p.size → j ≠ i → new (p.d j) = pri (q.d j))
    (inside : pri (q.d i) < new (p.d i) → i < p.size) (seated : Seated (p.put i (p.d i)) T) :
    Heap new (restore new p (pri (q.d i) < new (p.d i)) i) T := by
  have bridged : Bridged new (p.put i (p.d i)) i := by
    intro j two below child
    have lower := heap.ordered j
    have upper := heap.ordered i
    simp only [put_d, put_size] at *
    grind
  by_cases up : pri (q.d i) < new (p.d i)
  · rw [restore, if_pos (decide_eq_true up)]
    refine bubbleUp_heap ⟨here, inside up⟩ seated (fun j two below apart => ?_) bridged
    have old := heap.ordered j
    simp only [put_d, put_size] at *
    grind
  · rw [restore, if_neg (by simpa using up)]
    refine percolateDown_heap here positive seated (fun j two below apart => ?_) bridged
    have old := heap.ordered j
    simp only [put_d, put_size] at *
    grind

theorem Heap.changePriority (heap : Heap pri q S) (member : node ∈ S) (newPri : K) :
    Heap (update pri node newPri) (pqueueChangePriority pri q newPri node) S := by
  have seated := heap.seated
  obtain ⟨here, inside, own⟩ := seated.2 node member
  have run := @Heap.restored _ _ _ _ q _ S _ _ _ (update pri node newPri) heap here heap.positive
    le_rfl (by grind [Seated]) (fun _ => inside) (by grind [Seated])
  simpa only [pqueueChangePriority, own, update_self] using run

theorem Heap.remove (heap : Heap pri q S) (member : node ∈ S) :
    Heap pri (pqueueRemove pri q node) (S \ {node}) := by
  have seated := heap.seated
  obtain ⟨here, inside, own⟩ := seated.2 node member
  have run := @Heap.restored _ _ _ _ (q.fill (q.pos node)) _ (S \ {node}) _ _ _ pri heap here
    (by grind) (by grind) (by grind) (by grind) (by grind [Seated])
  rwa [own] at run

/-- The root is taken out as `pqueue_remove` does it, since nothing goes up from there. -/
theorem Heap.pop (heap : Heap pri q S) : (pqueuePop pri q = none ∧ S = ∅) ∨
    (pqueuePop pri q = some (q.d 1, pqueueRemove pri q (q.d 1)) ∧ q.d 1 ∈ S) := by
  have positive := heap.positive
  by_cases empty : q.size = 1
  · refine Or.inl ⟨if_pos empty, Set.eq_empty_of_forall_notMem fun node member => ?_⟩
    have place := heap.seated.2 node member
    omega
  · obtain ⟨member, first⟩ := heap.seated.1 1 le_rfl (by omega)
    obtain ⟨other, -⟩ := heap.seated.1 (q.size - 1) (by omega) (by omega)
    refine Or.inr ⟨?_, member⟩
    rw [pqueuePop, if_neg empty, pqueueRemove, first]
    simp [restore, fill_d, (heap.le_top other).not_gt]

/-- After any calls the queue is a heap of the nodes that were inserted and not taken out, and
`pqueue_pop` takes out one of them whose priority is not below any other. -/
theorem pqueue_pops_highest {d : Nat → P} {pos : P → Nat} {s : State P K}
    (history : Reachable Step ⟨⟨d, 1, pos⟩, pri, ∅⟩ s) :
    Heap s.pri s.queue s.nodes ∧ (pqueuePop s.pri s.queue = none ↔ s.nodes = ∅) ∧
      ∀ top rest, pqueuePop s.pri s.queue = some (top, rest) → top ∈ s.nodes ∧
        (∀ x ∈ s.nodes, s.pri x ≤ s.pri top) ∧ Heap s.pri rest (s.nodes \ {top}) := by
  have heap : Heap s.pri s.queue s.nodes := by
    refine history.invariant (fun s => Heap s.pri s.queue s.nodes) ?_ ?_
    · exact ⟨le_rfl, by grind [Seated], by grind [Ordered]⟩
    · intro s _ heap step
      cases step with
      | insert newPri fresh => exact heap.insert fresh newPri
      | changePriority newPri member => exact heap.changePriority member newPri
      | remove member => exact heap.remove member
      | pop popped =>
        rcases heap.pop with ⟨none, -⟩ | ⟨some, member⟩
        · cases none.symm.trans popped
        · cases some.symm.trans popped
          exact heap.remove member
  refine ⟨heap, ?_⟩
  rcases heap.pop with ⟨none, empty⟩ | ⟨some, member⟩
  · simp [none, empty]
  · refine ⟨by simp [some, Set.nonempty_iff_ne_empty.mp ⟨_, member⟩], fun top rest popped => ?_⟩
    cases some.symm.trans popped
    exact ⟨member, fun x => heap.le_top, heap.remove member⟩

/-- Node 3 is inserted with priority 5 and node 7 with priority 9; then node 3 is raised to 12. -/
theorem pqueue_pops_raised : ∃ (s : State Nat Nat) (rest : Pqueue Nat),
    pqueuePop s.pri s.queue = some (3, rest) ∧ ∀ x ∈ s.nodes, s.pri x ≤ s.pri 3 := by
  obtain ⟨s, history, rest, popped⟩ : ∃ s : State Nat Nat, Reachable Step ⟨⟨id, 1, id⟩, id, ∅⟩ s ∧
      ∃ rest, pqueuePop s.pri s.queue = some (3, rest) := by
    have one := Reachable.refl.next (Step.insert (s := ⟨⟨id, 1, id⟩, id, ∅⟩) 5 (Set.notMem_empty 3))
    have two := one.next (.insert (x := 7) 9 (by simp))
    refine ⟨_, two.next (.changePriority (x := 3) 12 (by simp)), ?_⟩
    simp [pqueuePop, pqueueInsert, pqueueChangePriority, restore, bubbleUp, Pqueue.put]
  exact ⟨s, rest, popped, ((pqueue_pops_highest history).2.2 3 rest popped).2.1⟩

end PriorityQueue
