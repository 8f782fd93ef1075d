import CacheEviction.MerlinFifo
import CacheEviction.StepTraces

/-!
# Histories of one MerlinFIFO queue

Where items are only linked at the head and popped at the tail, a queue is a FIFO:
`removeTail` walks along the `prev` links, and those are right whatever the `next` link
of the tail may be.

`remove` reads that link. It takes the last item of a queue for an unlinked one if both
its links are null, and otherwise moves the head of the queue to where the stale link
points. With more than one item the oldest can be taken out unless its stale link leads
back into the queue; but the item behind the link is written to.
-/
namespace MerlinFifo

open LinkedChains StepTraces

variable {P : Type}

/-! ## Linking and popping -/

section HotPath

/-- A queue with its memory, the items in the order in which they were linked, and those
that `removeTail` has returned. -/
structure Logged (P : Type) where
  hooks : Hooks P
  fifo : Fifo P := {}
  linked : List P := []
  removed : List P := []

def Logged.waiting (s : Logged P) : List P := s.linked.drop s.removed.length

variable {s : Logged P} {l : List P} {hooks : Hooks P} {f : Fifo P} {heir node : P}

theorem waiting_eq (order : s.removed ++ l = s.linked) : s.waiting = l := by
  rw [Logged.waiting, ← order, List.drop_left]

/-- What was returned is what was linked first, and the queue holds the rest. -/
structure Ordered (s : Logged P) : Prop where
  order : s.removed ++ s.waiting = s.linked
  holds : Represents s.hooks s.fifo s.waiting

theorem ordered_of (order : s.removed ++ l = s.linked) (holds : Represents s.hooks s.fifo l) :
    Ordered s := by
  have rest := waiting_eq order
  exact ⟨by rw [rest, order], by rw [rest]; exact holds⟩

variable [DecidableEq P]

def Logged.link (s : Logged P) (node : P) : Logged P :=
  let after := linkAtHead s.hooks s.fifo node
  { s with hooks := after.1, fifo := after.2, linked := s.linked ++ [node] }

def Logged.pop (s : Logged P) : Logged P :=
  let after := removeTail s.hooks s.fifo
  { s with hooks := after.2.1, fifo := after.2.2, removed := s.removed ++ after.1.toList }

/-- An item is linked only while it is not in the queue. -/
inductive Passes : Logged P → Logged P → Prop where
  | link {s : Logged P} (node : P) (out : node ∉ s.waiting) : Passes s (s.link node)
  | pop (s : Logged P) : Passes s s.pop

theorem Ordered.step {t : Logged P} (ordered : Ordered s) (step : Passes s t) : Ordered t := by
  cases step with
  | link node out =>
    refine ordered_of (l := s.waiting ++ [node]) ?_ (linkAtHead_snoc ordered.holds out).1
    rw [← List.append_assoc]
    exact congrArg (· ++ [node]) ordered.order
  | pop =>
    cases rest : s.waiting with
    | nil =>
      have holds := ordered.holds
      have order := ordered.order
      rw [rest] at holds order
      have idle := removeTail_nil holds
      refine ordered_of (l := []) ?_ ?_
      · simpa [Logged.pop, idle] using order
      · simpa [Logged.pop, idle] using holds
    | cons oldest l =>
      have holds := ordered.holds
      have order := ordered.order
      rw [rest] at holds order
      obtain ⟨popped, after, -⟩ := removeTail_cons holds
      refine ordered_of (l := l) ?_ after
      simpa [Logged.pop, popped] using order

theorem reached_ordered (history : Reachable Passes { hooks := hooks } s) : Ordered s :=
  history.invariant Ordered (ordered_of rfl (represents_empty hooks)) fun _ _ ordered step =>
    ordered.step step

theorem Represents.removeTail_eq (holds : Represents hooks f l) : (removeTail hooks f).1 = l.head? := by
  cases l with
  | nil => rw [removeTail_nil holds]; rfl
  | cons oldest l => exact (removeTail_cons holds).1

/-- In every history of `linkAtHead` and `removeTail`, from any memory: the items are
returned in the order in which they were linked, and the next to be returned is the first
of those that wait. The ends are null exactly if none waits, and `size` counts them. -/
theorem hot_path_is_fifo {hooks : Hooks P} {s : Logged P}
    (history : Reachable Passes { hooks := hooks } s) :
    s.removed ++ s.waiting = s.linked ∧ (removeTail s.hooks s.fifo).1 = s.waiting.head? ∧
      (s.fifo.head = none ↔ s.waiting = []) ∧ (s.fifo.tail = none ↔ s.waiting = []) ∧
      s.fifo.size = s.waiting.length := by
  obtain ⟨order, holds⟩ := reached_ordered history
  refine ⟨order, holds.removeTail_eq, ?_, ?_, holds.size⟩
  · rw [holds.head, List.getLast?_eq_none_iff]
  · rw [holds.tail, List.head?_eq_none_iff]

/-- Item 0 is popped and linked again while the `next` link of item 1 still points at it. -/
theorem hot_path_is_fifo_relinked :
    ∃ s : Logged Nat, Reachable Passes { hooks := fun _ => ⟨none, none⟩ } s ∧
      (s.hooks 1).next = some 0 ∧ s.waiting = [1, 0] ∧ (removeTail s.hooks s.fifo).1 = some 1 := by
  have one := Reachable.refl.next
    (Passes.link (s := { hooks := fun _ : Nat => ⟨none, none⟩ }) 0 (by decide))
  have two := one.next (.link 1 (by decide))
  have three := two.next (.pop _)
  have four := three.next (.link 0 (by decide))
  exact ⟨_, four, by decide, by decide, (hot_path_is_fifo four).2.1⟩

end HotPath

/-! ## Removing any item -/

section Removals

/-- The walk from the tail along the `prev` links meets the items of `l`, the ends of the
queue are theirs, and the queue has their number. -/
structure Walks (hooks : Hooks P) (f : Fifo P) (l : List P) : Prop where
  steps : l.IsChain fun x y => (hooks x).prev = some y
  newest : ∀ x ∈ l.getLast?, (hooks x).prev = none
  tail : f.tail = l.head?
  head : f.head = l.getLast?
  size : f.size = l.length

theorem Represents.walks (h : Represents hooks f l) : Walks hooks f l :=
  ⟨h.chain.joined.imp fun _ _ joined => joined.1, h.chain.newest, h.tail, h.head, h.size⟩

theorem Walks.prev_ne {first : P} (h : Walks hooks f (first :: l)) (nodup : (first :: l).Nodup) :
    ∀ x ∈ first :: l, (hooks x).prev ≠ some first := by
  intro x member back
  obtain ⟨older, newer, split⟩ := List.append_of_mem member
  have steps := h.steps
  have newest := h.newest
  rw [split] at steps newest
  cases newer with
  | nil =>
    have last : (hooks x).prev = none := newest x (by simp)
    rw [last] at back
    cases back
  | cons y newer =>
    have onward : (hooks x).prev = some y :=
      (List.isChain_cons_cons.mp (List.isChain_append.mp steps).2.1).1
    obtain rfl : y = first := Option.some.inj (onward.symm.trans back)
    -- `y` would stand behind `x` in the walk and at its start
    cases older with
    | nil =>
      obtain ⟨rfl, rest⟩ := List.cons.inj split
      rw [rest] at nodup
      simp at nodup
    | cons z older =>
      obtain ⟨rfl, rest⟩ := List.cons.inj split
      rw [rest] at nodup
      simp at nodup

/-- A queue with its memory and the items that are linked, oldest first. -/
structure Tracked (P : Type) where
  hooks : Hooks P
  fifo : Fifo P := {}
  members : List P := []

variable [DecidableEq P]

def Tracked.link (s : Tracked P) (node : P) : Tracked P :=
  let after := linkAtHead s.hooks s.fifo node
  ⟨after.1, after.2, s.members ++ [node]⟩

def Tracked.pop (s : Tracked P) : Tracked P :=
  let after := removeTail s.hooks s.fifo
  ⟨after.2.1, after.2.2, s.members.tail⟩

def Tracked.unlink (s : Tracked P) (node : P) : Tracked P :=
  let after := remove s.hooks s.fifo node
  ⟨after.1, after.2, s.members.erase node⟩

/-- What `remove` should do: take a linked item out of the walk, and leave everything as it
is for an item that is not linked. -/
def RemovesExactly (s : Tracked P) (node : P) : Prop :=
  if node ∈ s.members then Walks (s.unlink node).hooks (s.unlink node).fifo (s.members.erase node)
  else remove s.hooks s.fifo node = (s.hooks, s.fifo)

/-- An item that is not linked has no links. The oldest item is not the only one, and its
`next` link does not lead to a newer one. -/
structure Removable (s : Tracked P) (node : P) : Prop where
  unlinked : node ∉ s.members → (s.hooks node).prev = none ∧ (s.hooks node).next = none
  oldest : ∀ newer, s.members = node :: newer →
    newer ≠ [] ∧ ∀ x, (s.hooks node).next = some x → x ∉ newer

/-- Items are linked only while they are not in the queue, and removed only if they are
removable. -/
inductive Moves : Tracked P → Tracked P → Prop where
  | link {s : Tracked P} (node : P) (out : node ∉ s.members) : Moves s (s.link node)
  | pop (s : Tracked P) : Moves s s.pop
  | unlink {s : Tracked P} (node : P) (removable : Removable s node) : Moves s (s.unlink node)

variable {hooks : Hooks P} {f : Fifo P} {l : List P}

theorem remove_oldest (h : Represents hooks f (node :: heir :: l)) : (remove hooks f node).2 =
        { f with tail := some heir, tailRemoveSize := f.tailRemoveSize + 1 } ∧
      ∀ x, x ≠ node →
        ((remove hooks f node).1 x).prev =
          (if (hooks node).next = some x then some heir else (hooks x).prev) ∧
        ((remove hooks f node).1 x).next =
          if x = heir then (hooks node).next else (hooks x).next := by
  have prev : (hooks node).prev = some heir := h.chain.prev_head
  have tail : f.tail = some node := h.tail
  have fresh : node ∉ heir :: l := (List.nodup_cons.mp h.chain.nodup).1
  have distinct : heir ≠ node := fun same => fresh (same ▸ List.mem_cons_self)
  have notHead : f.head ≠ some node := by
    rw [h.head, List.getLast?_cons_cons]
    exact fun same => fresh (List.mem_of_getLast? same)
  cases next : (hooks node).next with
  | none => simp +contextual [remove, unlink, next, prev, tail, notHead]
  | some stale =>
    by_cases own : stale = node
    · subst own
      simp +contextual [remove, unlink, next, prev, tail, notHead, eq_comm]
    · simp +contextual [remove, unlink, next, prev, tail, notHead, eq_comm]

theorem remove_oldest_represents (h : Represents hooks f (node :: heir :: l))
    (apart : ∀ x, (hooks node).next = some x → x ∉ heir :: l) :
    Represents (remove hooks f node).1 (remove hooks f node).2 (heir :: l) := by
  obtain ⟨queue, links⟩ := remove_oldest h
  have fresh : node ∉ heir :: l := (List.nodup_cons.mp h.chain.nodup).1
  have rest := h.chain.tail
  have prev : ∀ x ∈ heir :: l, ((remove hooks f node).1 x).prev = (hooks x).prev := by
    intro x hx
    rw [(links x fun same => fresh (same ▸ hx)).1, if_neg fun stale => apart x stale hx]
  have next : ∀ x ∈ l, ((remove hooks f node).1 x).next = (hooks x).next := by
    intro x hx
    have notHeir : x ≠ heir := fun same => (List.nodup_cons.mp rest.nodup).1 (same ▸ hx)
    rw [(links x fun same => fresh (same ▸ List.mem_cons_of_mem _ hx)).2, if_neg notHeir]
  refine ⟨rest.relink prev next, ?_, ?_, ?_⟩
  · rw [queue]
    rfl
  · rw [queue, h.head, List.getLast?_cons_cons]
  · have sizes := h.sizes
    rw [queue]
    simp only [List.length_cons] at sizes ⊢
    omega

theorem erase_split {older newer : List P} (fresh : node ∉ older) :
    (older ++ node :: newer).erase node = older ++ newer := by
  rw [List.erase_append_right _ fresh, List.erase_cons_head]

theorem Removable.unlink_represents {s : Tracked P} (removable : Removable s node)
    (h : Represents s.hooks s.fifo s.members) :
    Represents (s.unlink node).hooks (s.unlink node).fifo (s.unlink node).members := by
  show Represents (remove s.hooks s.fifo node).1 (remove s.hooks s.fifo node).2
    (s.members.erase node)
  by_cases member : node ∈ s.members
  · obtain ⟨older, newer, split⟩ := List.append_of_mem member
    rw [split] at h ⊢
    have fresh : node ∉ older := fun hx =>
      (List.nodup_append.mp h.chain.nodup).2.2 node hx node List.mem_cons_self rfl
    rw [erase_split fresh]
    cases older with
    | nil =>
      obtain ⟨more, apart⟩ := removable.oldest newer split
      cases newer with
      | nil => exact absurd rfl more
      | cons heir newer => exact remove_oldest_represents h apart
    | cons first older => exact (remove_newer h (List.cons_ne_nil first older)).1
  · have idle : remove s.hooks s.fifo node = (s.hooks, s.fifo) := by
      rw [remove, if_pos (removable.unlinked member)]
    rw [idle, List.erase_of_not_mem member]
    exact h

theorem Moves.keeps {s t : Tracked P} (move : Moves s t)
    (h : Represents s.hooks s.fifo s.members) : Represents t.hooks t.fifo t.members := by
  cases move with
  | link node out => exact (linkAtHead_snoc h out).1
  | pop =>
    show Represents _ _ s.members.tail
    cases rest : s.members with
    | nil =>
      rw [rest] at h
      simpa [Tracked.pop, removeTail_nil h] using h
    | cons oldest l =>
      rw [rest] at h
      exact (removeTail_cons h).2.1
  | unlink node removable => exact removable.unlink_represents h

theorem moved_represents {hooks : Hooks P} {s : Tracked P}
    (history : Reachable Moves { hooks := hooks } s) : Represents s.hooks s.fifo s.members :=
  history.invariant (fun s => Represents s.hooks s.fifo s.members) (represents_empty hooks)
    fun _ _ h move => move.keeps h

theorem unlinked_of_unchanged (same : remove hooks f node = (hooks, f)) :
    (hooks node).prev = none ∧ (hooks node).next = none := by
  by_contra links
  have counted : (remove hooks f node).2.tailRemoveSize = f.tailRemoveSize + 1 := by
    rw [remove, if_neg links]
    rfl
  rw [same] at counted
  exact absurd counted (by simp)

theorem only_item_stays (h : Represents hooks f [node]) :
    ¬ Walks (remove hooks f node).1 (remove hooks f node).2 [] := by
  intro walks
  have prev : (hooks node).prev = none := h.chain.prev_head
  have head : f.head = some node := h.head
  cases next : (hooks node).next with
  | none =>
    have idle : remove hooks f node = (hooks, f) := by rw [remove, if_pos ⟨prev, next⟩]
    have emptied := walks.head
    rw [idle, head] at emptied
    cases emptied
  | some stale =>
    have moved : (remove hooks f node).2.head = some stale := by
      simp [remove, unlink, next, head]
    have emptied := walks.head
    rw [moved] at emptied
    cases emptied

theorem apart_of_walks (h : Represents hooks f (node :: heir :: l))
    (walks : Walks (remove hooks f node).1 (remove hooks f node).2 (heir :: l)) :
    ∀ x, (hooks node).next = some x → x ∉ heir :: l := by
  intro x stale member
  obtain ⟨fresh, nodup⟩ := List.nodup_cons.mp h.chain.nodup
  have written := ((remove_oldest h).2 x fun same => fresh (same ▸ member)).1
  rw [if_pos stale] at written
  exact walks.prev_ne nodup x member written

theorem Removable.of_removes {s : Tracked P} (h : Represents s.hooks s.fifo s.members)
    (removes : RemovesExactly s node) : Removable s node := by
  rw [RemovesExactly] at removes
  constructor
  · intro out
    rw [if_neg out] at removes
    exact unlinked_of_unchanged removes
  · intro newer first
    have walks : Walks (remove s.hooks s.fifo node).1 (remove s.hooks s.fifo node).2 newer := by
      rw [if_pos (first ▸ List.mem_cons_self), first, List.erase_cons_head] at removes
      exact removes
    rw [first] at h
    cases newer with
    | nil => exact absurd walks (only_item_stays h)
    | cons heir newer => exact ⟨List.cons_ne_nil heir newer, apart_of_walks h walks⟩

/-- In every history of links, pops and removals of removable items, the walk meets the
linked items, and `remove` is right for exactly the removable ones. -/
theorem removes_exactly_iff {hooks : Hooks P} {s : Tracked P}
    (history : Reachable Moves { hooks := hooks } s) :
    Walks s.hooks s.fifo s.members ∧ ∀ node, RemovesExactly s node ↔ Removable s node := by
  have h := moved_represents history
  refine ⟨h.walks, fun node => ⟨Removable.of_removes h, ?_⟩⟩
  intro removable
  rw [RemovesExactly]
  split_ifs with member
  · exact (removable.unlink_represents h).walks
  · rw [remove, if_pos (removable.unlinked member)]

/-- Of two items the newer can be removed. -/
theorem removes_exactly_iff_two :
    ∃ s : Tracked Nat, Reachable Moves { hooks := fun _ => ⟨none, none⟩ } s ∧
      s.members = [0, 1] ∧ RemovesExactly s 1 := by
  have one := Reachable.refl.next
    (Moves.link (s := { hooks := fun _ : Nat => ⟨none, none⟩ }) 0 (by decide))
  have two := one.next (.link 1 (by decide))
  refine ⟨_, two, by decide, ((removes_exactly_iff two).2 1).mpr ⟨?_, ?_⟩⟩
  · intro out
    exact absurd (by decide) out
  · intro newer first
    have head : some 0 = some 1 := congrArg List.head? first
    exact absurd head (by decide)

/-- The only item of a fresh queue has no links, and `remove` leaves it where it is. -/
theorem only_item_not_removed :
    ∃ s : Tracked Nat, Reachable Moves { hooks := fun _ => ⟨none, none⟩ } s ∧
      s.members = [0] ∧ (s.unlink 0).fifo.tail = some 0 ∧ (s.unlink 0).fifo.size = 1 ∧
      ¬ RemovesExactly s 0 := by
  have one := Reachable.refl.next
    (Moves.link (s := { hooks := fun _ : Nat => ⟨none, none⟩ }) 0 (by decide))
  refine ⟨_, one, by decide, by decide, by decide, ?_⟩
  intro removes
  have removable := Removable.of_removes (moved_represents one) removes
  exact (removable.oldest [] (by decide)).1 rfl

end Removals

end MerlinFifo
