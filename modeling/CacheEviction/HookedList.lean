import CacheEviction.MerlinFifo
import Mathlib.Algebra.Order.Group.Nat

/-!
# DList: CacheLib's doubly linked lists

`DList.h`: a list has a head, a tail and a size, and its nodes carry the links. One
memory of hooks is shared by all lists. Unlike a queue of Merlin, a list that is
handled by `linkAtHead` and `remove` keeps the `next` link of its tail null.
-/
namespace HookedList

open LinkedChains MerlinFifo Function

variable {P : Type}

structure DList (P : Type) where
  head : Option P := none
  tail : Option P := none
  size : Nat := 0

section Code

variable [DecidableEq P]

def linkAtHead (hooks : Hooks P) (d : DList P) (node : P) : Hooks P × DList P :=
  let linked := setPrev (setNext hooks node d.head) node none
  let hooks := match d.head with
    | none => linked
    | some head => setPrev linked head (some node)
  (hooks, { head := some node, tail := d.tail.or (some node), size := d.size + 1 })

/-- `size_--` on a `size_t`. -/
def decrement (size : Nat) : Nat := if size = 0 then 2 ^ 64 - 1 else size - 1

/-- `unlink`; both neighbours copy the links of the node. -/
def unlink (hooks : Hooks P) (d : DList P) (node : P) : Hooks P × DList P :=
  let prev := (hooks node).prev
  let next := (hooks node).next
  let head := if d.head = some node then next else d.head
  let tail := if d.tail = some node then prev else d.tail
  let hooks := match prev with
    | none => hooks
    | some p => setNext hooks p (hooks node).next
  let hooks := match next with
    | none => hooks
    | some n => setPrev hooks n (hooks node).prev
  (hooks, { head := head, tail := tail, size := decrement d.size })

def remove (hooks : Hooks P) (d : DList P) (node : P) : Hooks P × DList P :=
  let (hooks, d) := unlink hooks d node
  (setPrev (setNext hooks node none) node none, d)

def replace (hooks : Hooks P) (d : DList P) (oldNode newNode : P) : Hooks P × DList P :=
  let head := if d.head = some oldNode then some newNode else d.head
  let tail := if d.tail = some oldNode then some newNode else d.tail
  let prev := (hooks oldNode).prev
  let next := (hooks oldNode).next
  let hooks := match prev with
    | none => hooks
    | some p => setNext hooks p (some newNode)
  let hooks := match next with
    | none => hooks
    | some n => setPrev hooks n (some newNode)
  let hooks := setNext (setPrev hooks newNode prev) newNode next
  (setNext (setPrev hooks oldNode none) oldNode none, { d with head := head, tail := tail })

end Code

/-- The list has the nodes of `l`, from its tail to its head. -/
structure Spells (hooks : Hooks P) (d : DList P) (l : List P) : Prop where
  chain : Chain hooks l
  last : ∀ x ∈ l.head?, (hooks x).next = none
  tail : d.tail = l.head?
  head : d.head = l.getLast?
  size : d.size = l.length

variable {hooks hooks' : Hooks P} {d : DList P} {l older newer : List P} {n : P}
variable {newNode oldNode x : P}

theorem spells_empty (hooks : Hooks P) : Spells hooks ({} : DList P) [] :=
  ⟨.nil hooks, by simp, rfl, rfl, rfl⟩

theorem Spells.congr (h : Spells hooks d l) (same : ∀ x ∈ l, hooks' x = hooks x) :
    Spells hooks' d l where
  chain := h.chain.congr same
  last := by
    intro x first
    rw [same x (List.mem_of_mem_head? first)]
    exact h.last x first
  tail := h.tail
  head := h.head
  size := h.size

theorem Spells.prev (h : Spells hooks d (older ++ n :: newer)) : (hooks n).prev = newer.head? :=
  h.chain.newer.prev_head

theorem Spells.next (h : Spells hooks d (older ++ n :: newer)) : (hooks n).next = older.getLast? := by
  rcases List.eq_nil_or_concat older with rfl | ⟨oldest, o, rfl⟩
  · exact h.last n rfl
  · rw [List.concat_eq_append] at h ⊢
    rw [List.getLast?_concat]
    exact ((List.isChain_append.mp h.chain.joined).2.2 o (by simp) n rfl).2

theorem Spells.next_mem (h : Spells hooks d l) {y : P} (member : x ∈ l)
    (next : (hooks x).next = some y) : y ∈ l ∧ (hooks y).prev = some x := by
  obtain ⟨older, newer, rfl⟩ := List.append_of_mem member
  rw [h.next] at next
  obtain ⟨oldest, rfl⟩ := List.getLast?_eq_some_iff.mp next
  rw [List.append_assoc] at h
  exact ⟨by simp, h.prev⟩

theorem Spells.next_ne (h : Spells hooks d l) (member : x ∈ l) : (hooks x).next ≠ some x := by
  obtain ⟨older, newer, rfl⟩ := List.append_of_mem member
  rw [h.next]
  intro last
  exact (List.nodup_append.mp h.chain.nodup).2.2 x (List.mem_of_getLast? last) x List.mem_cons_self rfl

theorem Spells.prev_mem (h : Spells hooks d l) {y : P} (member : x ∈ l)
    (prev : (hooks x).prev = some y) : y ∈ l ∧ (hooks y).next = some x := by
  obtain ⟨older, newer, rfl⟩ := List.append_of_mem member
  rw [h.prev] at prev
  obtain ⟨newest, rfl⟩ := List.head?_eq_some_iff.mp prev
  rw [← List.singleton_append, ← List.append_assoc] at h
  exact ⟨by simp, h.next.trans (by simp)⟩

theorem Spells.map {σ : P → P} {d' : DList P} (h : Spells hooks d l)
    (inj : ∀ x ∈ l, ∀ y ∈ l, σ x = σ y → x = y)
    (renamed : ∀ x ∈ l, hooks' (σ x) = ⟨(hooks x).next.map σ, (hooks x).prev.map σ⟩)
    (tail : d'.tail = d.tail.map σ) (head : d'.head = d.head.map σ) (size : d'.size = d.size) :
    Spells hooks' d' (l.map σ) where
  chain := h.chain.map inj renamed
  last := by
    intro y first
    rw [List.head?_map, Option.mem_def, Option.map_eq_some_iff] at first
    obtain ⟨x, first, rfl⟩ := first
    rw [renamed x (List.mem_of_mem_head? first), h.last x first]
    rfl
  tail := by rw [tail, h.tail, List.head?_map]
  head := by rw [head, h.head, List.getLast?_map]
  size := by rw [size, h.size, List.length_map]

variable [DecidableEq P]

theorem linkAtHead_spells (h : Spells hooks d l) (fresh : n ∉ l) :
    Spells (linkAtHead hooks d n).1 (linkAtHead hooks d n).2 (l ++ [n]) ∧
      ∀ x, x ∉ l → x ≠ n → (linkAtHead hooks d n).1 x = hooks x := by
  have size := h.size
  cases last : l.getLast? with
  | none =>
    obtain rfl : l = [] := List.getLast?_eq_none_iff.mp last
    simp only [linkAtHead, h.head, last]
    refine ⟨⟨?_, ?_, ?_, rfl, by simp [h.size]⟩, ?_⟩
    · apply h.chain.snoc fresh
      · simp
      · simp
      · simp [setNext, setPrev]
    · simp
    · simp [h.tail]
    · intro x _ other
      simp [setNext, setPrev, other]
  | some o =>
    have member : o ∈ l := List.mem_of_getLast? last
    have distinct : o ≠ n := fun same => fresh (same ▸ member)
    simp only [linkAtHead, h.head, last]
    refine ⟨⟨?_, ?_, ?_, by simp, by simp [h.size]⟩, ?_⟩
    · apply h.chain.snoc fresh
      · intro x inside away
        rw [last] at away
        have notLast : x ≠ o := fun same => away (same ▸ rfl)
        have notNew : x ≠ n := fun same => fresh (same ▸ inside)
        simp [setNext, setPrev, notLast, notNew]
      · intro p hp
        obtain rfl : o = p := by simpa [last] using hp
        simp [setNext, setPrev, distinct]
      · simp [setNext, setPrev, distinct.symm, last]
    · obtain ⟨x, rest, rfl⟩ := List.exists_cons_of_ne_nil (List.ne_nil_of_mem member)
      intro y first
      cases first
      have notNew : x ≠ n := fun same => fresh (same ▸ List.mem_cons_self)
      simp only [setPrev_next, setNext_next, if_neg notNew]
      exact h.last x rfl
    · obtain ⟨x, rest, rfl⟩ := List.exists_cons_of_ne_nil (List.ne_nil_of_mem member)
      rw [h.tail]
      rfl
    · intro x away other
      have notLast : x ≠ o := fun same => away (same ▸ member)
      simp [setNext, setPrev, notLast, other]

theorem remove_unlinked (next : (hooks n).next = older.getLast?)
    (prev : (hooks n).prev = newer.head?) : Unlinked hooks (remove hooks d n).1 older newer n := by
  intro x other
  cases ho : older.getLast? <;> cases hn : newer.head? <;>
    simp [remove, unlink, next, prev, ho, hn, other, eq_comm]

theorem remove_ends (next : (hooks n).next = older.getLast?) (prev : (hooks n).prev = newer.head?) :
    (remove hooks d n).2 = {
      head := if d.head = some n then older.getLast? else d.head
      tail := if d.tail = some n then newer.head? else d.tail
      size := decrement d.size } := by
  simp [remove, unlink, next, prev]

theorem remove_spells (h : Spells hooks d (older ++ n :: newer)) :
    Spells (remove hooks d n).1 (remove hooks d n).2 (older ++ newer) ∧
      ∀ x, x ∉ older ++ n :: newer → (remove hooks d n).1 x = hooks x := by
  obtain ⟨notOlder, notNewer⟩ := not_or.mp
    (mt List.mem_append.mpr (List.nodup_cons.mp (List.nodup_middle.mp h.chain.nodup)).1)
  have unlinked := remove_unlinked (d := d) h.next h.prev
  have ends := remove_ends (d := d) h.next h.prev
  refine ⟨⟨h.chain.unlink unlinked, ?_, ?_, ?_, ?_⟩, fun x outside => unlinked.frame outside⟩
  · intro x first
    have other : x ≠ n := by
      rintro rfl
      rcases List.mem_append.mp (List.mem_of_mem_head? first) with old | new
      · exact notOlder old
      · exact notNewer new
    rw [(unlinked x other).2]
    cases older with
    | nil =>
      rw [List.nil_append] at first
      rw [if_pos (Option.mem_def.mp first)]
      rfl
    | cons o older =>
      obtain rfl : o = x := Option.some.inj first
      have apart : newer.head? ≠ some o := fun same => by
        have nodup := List.nodup_cons.mp h.chain.nodup
        exact nodup.1 (List.mem_append_right _ (List.mem_cons_of_mem n (List.mem_of_mem_head? same)))
      rw [if_neg apart]
      exact h.last o rfl
  · rw [ends, h.tail]
    cases older with
    | nil => simp
    | cons o older =>
      have other : o ≠ n := fun same => notOlder (same ▸ List.mem_cons_self)
      simp [other]
  · rw [ends, h.head]
    rcases List.eq_nil_or_concat newer with rfl | ⟨new, y, rfl⟩
    · simp
    · have other : y ≠ n := by
        rintro rfl
        exact notNewer (by simp)
      simp [List.getLast?_append, List.getLast?_cons, other]
  · rw [ends]
    have size := h.size
    simp only [decrement, List.length_append, List.length_cons] at size ⊢
    rw [if_neg (by omega)]
    omega

/-- The new node goes by the place of the old one. -/
def instead (oldNode newNode x : P) : P := if x = oldNode then newNode else x

theorem instead_map (oldNode newNode : P) (o : Option P) :
    o.map (instead oldNode newNode) = if o = some oldNode then some newNode else o := by
  cases o with
  | none => rfl
  | some x => by_cases same : x = oldNode <;> simp [instead, same]

theorem instead_inj (out : newNode ∉ l) :
    ∀ x ∈ l, ∀ y ∈ l, instead oldNode newNode x = instead oldNode newNode y → x = y := by
  intro x hx y hy same
  by_cases left : x = oldNode <;> by_cases right : y = oldNode <;>
    simp only [instead, left, right, if_true, if_false] at same
  · rw [left, right]
  · exact absurd (same ▸ hy) out
  · exact absurd (same ▸ hx) out
  · exact same

theorem mem_instead (distinct : newNode ≠ oldNode) (out : newNode ∉ l) :
    x ∈ l.map (instead oldNode newNode) ↔ if x = newNode then oldNode ∈ l else x ≠ oldNode ∧ x ∈ l := by
  rw [List.mem_map]
  by_cases new : x = newNode
  · subst new
    rw [if_pos rfl]
    refine ⟨?_, fun member => ⟨oldNode, member, if_pos rfl⟩⟩
    rintro ⟨y, member, same⟩
    by_cases old : y = oldNode
    · exact old ▸ member
    · rw [instead, if_neg old] at same
      exact absurd (same ▸ member) out
  · rw [if_neg new]
    constructor
    · rintro ⟨y, member, rfl⟩
      by_cases old : y = oldNode
      · exact absurd (if_pos old) new
      · rw [instead, if_neg old]
        exact ⟨old, member⟩
    · exact fun ⟨old, member⟩ => ⟨x, member, if_neg old⟩

theorem replace_new (distinct : newNode ≠ oldNode) :
    (replace hooks d oldNode newNode).1 newNode = hooks oldNode := by
  refine Links.ext ?_ ?_ <;> simp [replace, distinct]

theorem replace_other (notOld : x ≠ oldNode) (notNew : x ≠ newNode) :
    (replace hooks d oldNode newNode).1 x =
      ⟨if (hooks oldNode).prev = some x then some newNode else (hooks x).next,
        if (hooks oldNode).next = some x then some newNode else (hooks x).prev⟩ := by
  cases next : (hooks oldNode).next <;> cases prev : (hooks oldNode).prev <;>
    refine Links.ext ?_ ?_ <;> simp [replace, next, prev, notOld, notNew, eq_comm]

theorem replace_renames {own any : DList P} {m : List P} (spells : Spells hooks own l)
    (member : oldNode ∈ l) (out : newNode ∉ l) (others : Spells hooks any m) (inside : x ∈ m)
    (outside : newNode ∉ m) : (replace hooks d oldNode newNode).1 (instead oldNode newNode x) =
      ⟨(hooks x).next.map (instead oldNode newNode), (hooks x).prev.map (instead oldNode newNode)⟩ := by
  rw [instead_map, instead_map]
  by_cases same : x = oldNode
  · subst same
    have distinct : newNode ≠ x := fun eq => out (eq ▸ member)
    have notNext : (hooks x).next ≠ some x := spells.next_ne member
    have notPrev : (hooks x).prev ≠ some x := fun prev =>
      notNext (spells.prev_mem member prev).2
    rw [instead, if_pos rfl, replace_new distinct, if_neg notNext, if_neg notPrev]
  · have notNew : x ≠ newNode := fun eq => outside (eq ▸ inside)
    have backward : (hooks oldNode).next = some x ↔ (hooks x).prev = some oldNode :=
      ⟨fun next => (spells.next_mem member next).2, fun prev => (others.prev_mem inside prev).2⟩
    have forward : (hooks oldNode).prev = some x ↔ (hooks x).next = some oldNode :=
      ⟨fun prev => (spells.prev_mem member prev).2, fun next => (others.next_mem inside next).2⟩
    rw [instead, if_neg same, replace_other same notNew]
    simp only [backward, forward]

/-! ## Two lists over one memory -/

/-- The lists that CAR and ARC call T1 and T2. -/
inductive Side where
  | t1
  | t2
  deriving DecidableEq

def Side.other : Side → Side
  | .t1 => .t2
  | .t2 => .t1

theorem Side.eq_or_other (a b : Side) : a = b ∨ a = b.other := by
  cases a <;> cases b <;> decide

theorem Side.other_ne (a : Side) : a.other ≠ a := by
  cases a <;> decide

structure Spelled (hooks : Hooks P) (list : Side → DList P) (l : Side → List P) : Prop where
  spells : ∀ side, Spells hooks (list side) (l side)
  apart : ∀ side, ∀ x ∈ l side, x ∉ l side.other

variable {list : Side → DList P} {k : Side → List P} {side : Side}

omit [DecidableEq P] in
omit [DecidableEq P] in
theorem mem_linked {a : Side} : x ∈ update k side (k side ++ [n]) a ↔
    x ∈ k a ∨ a = side ∧ x = n := by
  by_cases same : a = side
  · subst same
    simp
  · simp [same]

theorem mem_unlinked (nodup : (k side).Nodup) {a : Side} :
    x ∈ update k side ((k side).erase n) a ↔ x ∈ k a ∧ ¬ (a = side ∧ x = n) := by
  by_cases same : a = side
  · subst same
    rw [update_self, nodup.mem_erase_iff]
    tauto
  · simp [same]

theorem Spelled.link (spelled : Spelled hooks list k) (out : ∀ a, n ∉ k a) (side : Side) :
    Spelled (linkAtHead hooks (list side) n).1
      (update list side (linkAtHead hooks (list side) n).2)
      (update k side (k side ++ [n])) := by
  obtain ⟨linked, others⟩ := linkAtHead_spells (spelled.spells side) (out side)
  refine ⟨fun a => ?_, fun a x inside both => ?_⟩
  · rcases Side.eq_or_other a side with rfl | rfl
    · simp only [update_self]
      exact linked
    · simp only [update_of_ne side.other_ne]
      refine (spelled.spells side.other).congr fun x member => others x (fun inside => ?_) ?_
      · exact spelled.apart side x inside member
      · rintro rfl
        exact out side.other member
  · rcases mem_linked.mp inside with one | ⟨own, rfl⟩
    · rcases mem_linked.mp both with two | ⟨-, rfl⟩
      · exact spelled.apart a x one two
      · exact out a one
    · rcases mem_linked.mp both with two | ⟨again, -⟩
      · exact out a.other two
      · exact a.other_ne (again.trans own.symm)

theorem Spelled.unlink (spelled : Spelled hooks list k) (member : n ∈ k side) :
    Spelled (remove hooks (list side) n).1
      (update list side (remove hooks (list side) n).2)
      (update k side ((k side).erase n)) := by
  obtain ⟨older, newer, cut⟩ := List.append_of_mem member
  have here := spelled.spells side
  have nodup := here.chain.nodup
  rw [cut] at here
  have notOlder : n ∉ older := fun old =>
    (List.nodup_append.mp here.chain.nodup).2.2 n old n List.mem_cons_self rfl
  have gone : (k side).erase n = older ++ newer := by
    rw [cut, List.erase_append_right _ notOlder, List.erase_cons_head]
  obtain ⟨removed, others⟩ := remove_spells here
  refine ⟨fun a => ?_, fun a x inside both => ?_⟩
  · rcases Side.eq_or_other a side with rfl | rfl
    · simp only [update_self, gone]
      exact removed
    · simp only [update_of_ne side.other_ne]
      refine (spelled.spells side.other).congr fun x member => others x fun inside => ?_
      rw [← cut] at inside
      exact spelled.apart side x inside member
  · exact spelled.apart a x ((mem_unlinked nodup).mp inside).1 ((mem_unlinked nodup).mp both).1

theorem Spelled.gone (spelled : Spelled hooks list k) (member : n ∈ k side) (a : Side) :
    n ∉ update k side ((k side).erase n) a := by
  intro inside
  obtain ⟨still, apart⟩ := (mem_unlinked (spelled.spells side).chain.nodup).mp inside
  rcases Side.eq_or_other a side with rfl | rfl
  · exact apart ⟨rfl, rfl⟩
  · exact spelled.apart side n member still

/-- One node has left its list; every other node is in the list it was in. -/
def Takes (hooks : Hooks P) (list : Side → DList P) (hooks' : Hooks P) (list' : Side → DList P)
    (node : P) : Prop :=
  ∃ k m, Spelled hooks list k ∧ Spelled hooks' list' m ∧ (∃ side, node ∈ k side) ∧
    (∀ side, node ∉ m side) ∧ ∀ side x, x ≠ node → (x ∈ m side ↔ x ∈ k side)

theorem Spelled.takes {list' : Side → DList P} (spelled : Spelled hooks list k)
    (member : n ∈ k side) (spelled' : Spelled hooks' list' (update k side ((k side).erase n))) :
    Takes hooks list hooks' list' n := by
  refine ⟨k, _, spelled, spelled', ⟨side, member⟩, spelled.gone member, fun a x other => ?_⟩
  rw [mem_unlinked (spelled.spells side).chain.nodup]
  simp [other]

end HookedList
