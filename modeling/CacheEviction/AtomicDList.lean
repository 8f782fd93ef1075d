import CacheEviction.HookedList

/-!
# AtomicDList: CacheLib's lock-free queues

`AtomicDList-inl.h`, run by one thread at a time, so that every exchange succeeds. Links
and ends are handled as in a queue of Merlin, whose facts are used for them; the size is
one counter here, and a queue that has lost its ends but not its size aborts.
-/
namespace AtomicDList

open LinkedChains MerlinFifo HookedList

variable {P : Type}

inductive Fault where
  | aborted
  deriving DecidableEq

structure ADList (P : Type) where
  head : Option P := none
  tail : Option P := none
  size : Nat := 0

section Code

variable [DecidableEq P]

def linkAtHead (hooks : Hooks P) (d : ADList P) (node : P) : Hooks P × ADList P :=
  let linked := setNext (setPrev hooks node none) node d.head
  match d.head with
  | none => (linked, { head := some node, tail := d.tail.or (some node), size := d.size + 1 })
  | some oldHead => (setPrev linked oldHead (some node),
      { d with head := some node, size := d.size + 1 })

def removeTail (hooks : Hooks P) (d : ADList P) : Except Fault (Option P × Hooks P × ADList P) :=
  match d.tail with
  | none => if d.head = none ∧ d.size ≠ 0 then .error .aborted else .ok (none, hooks, d)
  | some tail => .ok (some tail, setPrev (setNext hooks tail none) tail none,
      { head := if d.head = some tail then none else d.head
        tail := (hooks tail).prev
        size := decrement d.size })

end Code

def ADList.asFifo (d : ADList P) : Fifo P where
  head := d.head
  tail := d.tail
  headInsertSize := d.size
  tailRemoveSize := 0

def Holds (hooks : Hooks P) (d : ADList P) (l : List P) : Prop := Represents hooks d.asFifo l

variable {hooks hooks' : Hooks P} {d : ADList P} {l : List P} {n t : P}

theorem holds_empty (hooks : Hooks P) : Holds hooks ({} : ADList P) [] := represents_empty hooks

theorem Holds.size (h : Holds hooks d l) : d.size = l.length := Represents.size h

theorem Holds.nodup (h : Holds hooks d l) : l.Nodup := h.chain.nodup

theorem Holds.congr (h : Holds hooks d l) (same : ∀ x ∈ l, hooks' x = hooks x) : Holds hooks' d l :=
  Represents.congr h same

variable [DecidableEq P]

theorem linkAtHead_asFifo (hooks : Hooks P) (d : ADList P) (n : P) :
    (linkAtHead hooks d n).1 = (MerlinFifo.linkAtHead hooks d.asFifo n).1 ∧
      (linkAtHead hooks d n).2.asFifo = (MerlinFifo.linkAtHead hooks d.asFifo n).2 := by
  cases head : d.head <;> simp [linkAtHead, MerlinFifo.linkAtHead, ADList.asFifo, head]

theorem linkAtHead_holds (h : Holds hooks d l) (fresh : n ∉ l) :
    Holds (linkAtHead hooks d n).1 (linkAtHead hooks d n).2 (l ++ [n]) ∧
      ∀ x, x ∉ l → x ≠ n → (linkAtHead hooks d n).1 x = hooks x := by
  obtain ⟨links, queue⟩ := linkAtHead_asFifo hooks d n
  rw [Holds, links, queue]
  exact linkAtHead_snoc h fresh

theorem removeTail_holds (h : Holds hooks d (t :: l)) :
    ∃ hooks' d', removeTail hooks d = .ok (some t, hooks', d') ∧ Holds hooks' d' l ∧
      ∀ x, x ≠ t → hooks' x = hooks x := by
  have tail : d.tail = some t := h.tail
  have fresh : t ∉ l := (List.nodup_cons.mp h.nodup).1
  have size := h.size
  have others : ∀ x, x ≠ t → setPrev (setNext hooks t none) t none x = hooks x := by
    intro x other
    rw [setPrev, setNext, Function.update_of_ne other, Function.update_of_ne other]
  have run : removeTail hooks d = .ok (some t, setPrev (setNext hooks t none) t none,
      { head := if d.head = some t then none else d.head
        tail := (hooks t).prev
        size := decrement d.size }) := by rw [removeTail, tail]
  refine ⟨_, _, run, ⟨?_, h.chain.prev_head, ?_, ?_⟩, others⟩
  · exact h.chain.tail.congr fun x member => others x fun same => fresh (same ▸ member)
  · have head : d.head = (t :: l).getLast? := h.head
    show (if d.head = some t then none else d.head) = l.getLast?
    rw [head]
    cases l with
    | nil => simp
    | cons y l =>
      rw [List.getLast?_cons_cons]
      exact if_neg fun same => fresh (List.mem_of_getLast? same)
  · show decrement d.size = 0 + l.length
    rw [decrement, size, List.length_cons]
    simp

end AtomicDList
