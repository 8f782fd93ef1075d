import CacheEviction.LinkedChains
import Mathlib.Logic.Function.Basic

/-!
# MerlinFIFO: CacheLib's intrusive queues

Items are linked at the head and popped at the tail, and one memory of hooks is shared
by every queue. `removeTail` leaves the `next` link of the new tail pointing at the
popped item, and `remove` takes an item without links to be in no queue at all.

One thread at a time: an exchange succeeds, and a queue's lock is free when the code
spins on it.
-/
namespace MerlinFifo

open LinkedChains

variable {P : Type}

abbrev Hooks (P : Type) := P → Links P

structure Fifo (P : Type) where
  head : Option P := none
  tail : Option P := none
  headInsertSize : Nat := 0
  tailRemoveSize : Nat := 0

def Fifo.size (f : Fifo P) : Nat := f.headInsertSize - f.tailRemoveSize

section Code

variable [DecidableEq P]

def setNext (hooks : Hooks P) (node : P) (value : Option P) : Hooks P :=
  Function.update hooks node { hooks node with next := value }

def setPrev (hooks : Hooks P) (node : P) (value : Option P) : Hooks P :=
  Function.update hooks node { hooks node with prev := value }

@[simp] theorem setNext_next (hooks : Hooks P) (a x : P) (v : Option P) :
    (setNext hooks a v x).next = if x = a then v else (hooks x).next := by
  by_cases h : x = a <;> simp [setNext, h]

@[simp] theorem setNext_prev (hooks : Hooks P) (a x : P) (v : Option P) :
    (setNext hooks a v x).prev = (hooks x).prev := by
  by_cases h : x = a <;> simp [setNext, h]

@[simp] theorem setPrev_next (hooks : Hooks P) (a x : P) (v : Option P) :
    (setPrev hooks a v x).next = (hooks x).next := by
  by_cases h : x = a <;> simp [setPrev, h]

@[simp] theorem setPrev_prev (hooks : Hooks P) (a x : P) (v : Option P) :
    (setPrev hooks a v x).prev = if x = a then v else (hooks x).prev := by
  by_cases h : x = a <;> simp [setPrev, h]

def linkAtHead (hooks : Hooks P) (f : Fifo P) (node : P) : Hooks P × Fifo P :=
  let linked := setNext (setPrev hooks node none) node f.head
  match f.head with
  -- the exchange of `tail_` is from null only
  | none => (linked, { f with head := some node, tail := f.tail.or (some node),
                              headInsertSize := f.headInsertSize + 1 })
  | some oldHead => (setPrev linked oldHead (some node),
      { f with head := some node, headInsertSize := f.headInsertSize + 1 })

def removeTail (hooks : Hooks P) (f : Fifo P) : Option P × Hooks P × Fifo P :=
  match f.tail with
  | none => (none, hooks, f)
  | some tail =>
    let prev := (hooks tail).prev
    (some tail, setPrev (setNext hooks tail none) tail none,
      { f with head := if prev = none ∧ f.head = some tail then none else f.head
               tail := prev
               tailRemoveSize := f.tailRemoveSize + 1 })

def unlink (hooks : Hooks P) (f : Fifo P) (node : P) : Hooks P × Fifo P :=
  let next := (hooks node).next
  let head := if f.head = some node then next else f.head
  let hooks := match next with
    | none => hooks
    | some n => setPrev hooks n (hooks node).prev
  let prev := (hooks node).prev
  let tail := if f.tail = some node then prev else f.tail
  let hooks := match prev with
    | none => hooks
    | some p => setNext hooks p (hooks node).next
  (hooks, { f with head := head, tail := tail, tailRemoveSize := f.tailRemoveSize + 1 })

def remove (hooks : Hooks P) (f : Fifo P) (node : P) : Hooks P × Fifo P :=
  if (hooks node).prev = none ∧ (hooks node).next = none then (hooks, f)
  else
    let (hooks, f) := unlink hooks f node
    (setPrev (setNext hooks node none) node none, f)

end Code

structure Represents (hooks : Hooks P) (f : Fifo P) (l : List P) : Prop where
  chain : Chain hooks l
  tail : f.tail = l.head?
  head : f.head = l.getLast?
  sizes : f.headInsertSize = f.tailRemoveSize + l.length

variable {hooks hooks' : Hooks P} {f : Fifo P} {l : List P}

theorem represents_empty (hooks : Hooks P) : Represents hooks ({} : Fifo P) [] :=
  ⟨.nil hooks, rfl, rfl, rfl⟩

theorem Represents.size (h : Represents hooks f l) : f.size = l.length := by
  rw [Fifo.size, h.sizes]
  omega

theorem Represents.congr (h : Represents hooks f l) (same : ∀ x ∈ l, hooks' x = hooks x) :
    Represents hooks' f l :=
  ⟨h.chain.congr same, h.tail, h.head, h.sizes⟩

theorem Represents.unique {m : List P} (hl : Represents hooks f l) (hm : Represents hooks f m) :
    l = m :=
  hl.chain.unique hm.chain (hl.tail.symm.trans hm.tail)

variable [DecidableEq P]

theorem removeTail_nil (h : Represents hooks f []) : removeTail hooks f = (none, hooks, f) := by
  rw [removeTail, h.tail]
  rfl

theorem removeTail_cons {t : P} (h : Represents hooks f (t :: l)) :
    (removeTail hooks f).1 = some t ∧
      Represents (removeTail hooks f).2.1 (removeTail hooks f).2.2 l ∧
      ∀ x, x ≠ t → (removeTail hooks f).2.1 x = hooks x := by
  have others : ∀ x, x ≠ t → setPrev (setNext hooks t none) t none x = hooks x := by
    intro x hx
    rw [setPrev, setNext, Function.update_of_ne hx, Function.update_of_ne hx]
  have fresh : t ∉ l := (List.nodup_cons.mp h.chain.nodup).1
  have prev := h.chain.prev_head
  simp only [removeTail, h.tail, List.head?_cons]
  refine ⟨trivial, ⟨?_, prev, ?_, ?_⟩, others⟩
  · exact h.chain.tail.congr (fun x hx => others x (fun same => fresh (same ▸ hx)))
  · rw [prev, h.head]
    cases l with
    | nil => simp
    | cons y l => simp [List.getLast?_cons_cons]
  · have sizes := h.sizes
    simp only [List.length_cons] at sizes ⊢
    omega

theorem linkAtHead_snoc {n : P} (h : Represents hooks f l) (fresh : n ∉ l) :
    Represents (linkAtHead hooks f n).1 (linkAtHead hooks f n).2 (l ++ [n]) ∧
      ∀ x, x ∉ l → x ≠ n → (linkAtHead hooks f n).1 x = hooks x := by
  have sizes := h.sizes
  have count : (l ++ [n]).length = l.length + 1 := by simp
  cases last : l.getLast? with
  | none =>
    obtain rfl : l = [] := List.getLast?_eq_none_iff.mp last
    simp only [linkAtHead, h.head, last]
    refine ⟨⟨?_, ?_, rfl, by dsimp only; omega⟩, ?_⟩
    · apply h.chain.snoc fresh
      · simp
      · simp
      · simp [setNext, setPrev]
    · simp [h.tail]
    · intro x _ hx
      simp [setNext, setPrev, hx]
  | some o =>
    have member : o ∈ l := List.mem_of_getLast? last
    have distinct : o ≠ n := fun same => fresh (same ▸ member)
    simp only [linkAtHead, h.head, last]
    refine ⟨⟨?_, ?_, by simp, by dsimp only; omega⟩, ?_⟩
    · apply h.chain.snoc fresh
      · intro x hx away
        rw [last] at away
        have notLast : x ≠ o := fun same => away (same ▸ rfl)
        have notNew : x ≠ n := fun same => fresh (same ▸ hx)
        simp [setNext, setPrev, notLast, notNew]
      · intro p hp
        obtain rfl : o = p := by simpa [last] using hp
        simp [setNext, setPrev, distinct]
      · simp [setNext, setPrev, distinct.symm, last]
    · cases l with
      | nil => simp at last
      | cons y l => simpa using h.tail
    · intro x away hx
      have notLast : x ≠ o := fun same => away (same ▸ member)
      simp [setNext, setPrev, notLast, hx]

theorem remove_links {n o : P} {older newer : List P} (last : older.getLast? = some o)
    (next : (hooks n).next = some o) (prev : (hooks n).prev = newer.head?) (distinct : n ≠ o)
    (fresh : n ∉ newer) :
    (remove hooks f n).2 = { f with
        head := if f.head = some n then some o else f.head
        tail := if f.tail = some n then newer.head? else f.tail
        tailRemoveSize := f.tailRemoveSize + 1 } ∧
      Unlinked hooks (remove hooks f n).1 older newer n := by
  cases newer with
  | nil => simp +contextual [remove, unlink, next, prev, distinct, Unlinked, last, eq_comm]
  | cons y newer =>
    have notY : y ≠ n := fun same => fresh (same ▸ List.mem_cons_self)
    simp +contextual [remove, unlink, next, prev, distinct, Unlinked, last, eq_comm]

theorem remove_newer {n : P} {older newer : List P}
    (h : Represents hooks f (older ++ n :: newer)) (behind : older ≠ []) :
    Represents (remove hooks f n).1 (remove hooks f n).2 (older ++ newer) ∧
      ∀ x, x ∉ older ++ n :: newer → (remove hooks f n).1 x = hooks x := by
  obtain ⟨o, last⟩ : ∃ o, older.getLast? = some o :=
    Option.isSome_iff_exists.mp (by simpa using behind)
  obtain ⟨first, ahead⟩ : ∃ a, older.head? = some a :=
    Option.isSome_iff_exists.mp (by simpa using behind)
  obtain ⟨_, tailNodup, disjoint⟩ := List.nodup_append.mp h.chain.nodup
  have older_ne : ∀ x ∈ older, x ≠ n := fun x hx => disjoint x hx n List.mem_cons_self
  have fresh : n ∉ newer := (List.nodup_cons.mp tailNodup).1
  have member : o ∈ older := List.mem_of_getLast? last
  have joined := (List.isChain_append.mp h.chain.joined).2.2 o last n rfl
  obtain ⟨queue, unlinked⟩ := remove_links (f := f) last joined.2 h.chain.newer.prev_head
    (older_ne o member).symm fresh
  refine ⟨⟨h.chain.unlink unlinked, ?_, ?_, ?_⟩, fun x outside => unlinked.frame outside⟩
  · have tail : f.tail = some first := by rw [h.tail, List.head?_append, ahead]; rfl
    have notTail : first ≠ n := older_ne first (List.mem_of_mem_head? ahead)
    simp [queue, tail, notTail, List.head?_append, ahead]
  · have head : f.head = (n :: newer).getLast? := by
      rw [h.head, List.getLast?_append]
      cases newer <;> simp [List.getLast?_cons]
    rw [queue, head]
    cases newer with
    | nil => simp [last]
    | cons y newer =>
      have notHead : (y :: newer).getLast? ≠ some n := fun same =>
        fresh (List.mem_of_getLast? same)
      simp only [List.getLast?_cons_cons, notHead, if_false, List.getLast?_append]
      cases hl : (y :: newer).getLast? with
      | none => simp at hl
      | some z => rfl
  · have sizes := h.sizes
    simp only [queue, List.length_append, List.length_cons] at sizes ⊢
    omega

end MerlinFifo
