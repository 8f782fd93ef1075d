import CacheEviction.MmArc

/-!
# Removing and replacing items of MMARC

The container of `MMARC.h` with all of its calls. Two of them do not find out in which
list an item is. `ARCList::remove` removes the item from both lists, so that one of the
two counts an item too few. `replace` chooses the list by `getLruType`, which reads a flag
that nothing sets before: the list is always T2, and for the head or the tail of T1 the end
of T1 is left pointing at the old item.
-/
namespace MmArc

open LinkedChains MerlinFifo HookedList StepTraces

variable {P : Type}

inductive LruType where
  | recency
  | frequency
  deriving DecidableEq

def LruType.of : Side → LruType
  | .t1 => .recency
  | .t2 => .frequency

/-- ARC with the flags of its items, `kMMFlag0` and `kMMFlag1`. -/
structure Container (P : Type) where
  arc : State P
  isRecency : P → Bool := fun _ => false
  isFrequency : P → Bool := fun _ => false

def getLruType (c : Container P) (node : P) : LruType :=
  if c.isRecency node then .recency else .frequency

def Container.fresh (P : Type) : Container P where
  arc := MmArc.fresh P

section Code

variable [DecidableEq P]

def setRecency (c : Container P) (node : P) : Container P :=
  { c with isRecency := Function.update c.isRecency node true }

def setFrequency (c : Container P) (node : P) : Container P :=
  { c with isFrequency := Function.update c.isFrequency node true }

def listRemove (s : State P) (node : P) : State P := (s.unlink .t1 node).unlink .t2 node

def Container.remove (c : Container P) (node : P) : Bool × Container P :=
  if (c.arc.item node).inMMContainer then
    (true, { c with arc := (listRemove c.arc node).write node fun i => { i with inMMContainer := false } })
  else (false, c)

def State.replace (s : State P) (side : Side) (oldNode newNode : P) : State P :=
  let replaced := HookedList.replace s.hooks (s.list side) oldNode newNode
  { s with hooks := replaced.1, list := Function.update s.list side replaced.2 }

def Container.replaceIn (c : Container P) (side : Side) (oldNode newNode : P) : Container P :=
  let updateTime := (c.arc.item oldNode).updateTime
  let s := c.arc.replace side oldNode newNode
  let s := s.write oldNode fun i => { i with inMMContainer := false }
  { c with arc := s.write newNode fun _ => { inMMContainer := true, updateTime := updateTime } }

def Container.replace (c : Container P) (oldNode newNode : P) : Bool × Container P :=
  if !(c.arc.item oldNode).inMMContainer || (c.arc.item newNode).inMMContainer then (false, c)
  else
    match getLruType c oldNode with
    | .recency => (true, (setRecency c newNode).replaceIn .t1 oldNode newNode)
    | .frequency => (true, (setFrequency c newNode).replaceIn .t2 oldNode newNode)

end Code

/-! ## What the calls should do -/

variable [DecidableEq P] {hashNode : P → UInt32} {cfg : Config} {c : Container P}
  {l : Side → List P} {node oldNode newNode : P}

/-- The item has left its list, and the lists are otherwise as they were. -/
def RemovesNode (c : Container P) (l : Side → List P) (node : P) : Prop :=
  Kept (c.remove node).2.arc fun side => (l side).erase node

/-- A call that is not refused puts the new item in the place of the old one. -/
def ReplacesNode (c : Container P) (l : Side → List P) (oldNode newNode : P) : Prop :=
  Kept (c.replace oldNode newNode).2.arc fun side =>
    if (c.replace oldNode newNode).1 then (l side).map (instead oldNode newNode) else l side

/-- The call is refused, or the old item is at neither end of T1. -/
def Replaceable (c : Container P) (oldNode newNode : P) : Prop :=
  (c.arc.item oldNode).inMMContainer = false ∨ (c.arc.item newNode).inMMContainer = true ∨
    (c.arc.list .t1).head ≠ some oldNode ∧ (c.arc.list .t1).tail ≠ some oldNode

instance : Decidable (Replaceable c oldNode newNode) := inferInstanceAs (Decidable (_ ∨ _ ∨ _))

variable (hashNode cfg) in
/-- The calls that keep the lists: an item is removed only if it is not in the container,
and replaced only if it is replaceable. -/
inductive Called : Container P → Container P → Prop where
  | base {c : Container P} {t : State P} (op : Op P) (ran : exec hashNode cfg c.arc op = some t) :
      Called c { c with arc := t }
  | remove {c : Container P} (node : P) (out : (c.arc.item node).inMMContainer = false) :
      Called c (c.remove node).2
  | replace {c : Container P} (oldNode newNode : P) (replaceable : Replaceable c oldNode newNode) :
      Called c (c.replace oldNode newNode).2

/-- Nothing sets the first flag of an item. -/
structure Flagless (c : Container P) (l : Side → List P) : Prop where
  kept : Kept c.arc l
  flag : ∀ x, c.isRecency x = false

/-! ## Removing -/

theorem unlink_size (s : State P) (side a : Side) (node : P) :
    ((s.unlink side node).list a).size =
      if a = side then decrement (s.list a).size else (s.list a).size := by
  by_cases same : a = side
  · subst same
    simp [State.unlink, HookedList.remove, HookedList.unlink]
  · simp [State.unlink, same]

theorem listRemove_size (s : State P) (side : Side) (node : P) :
    ((listRemove s node).list side).size = decrement (s.list side).size := by
  rw [listRemove, unlink_size, unlink_size]
  cases side <;> simp

theorem decrement_ne (size : Nat) : decrement size ≠ size := by
  rw [decrement]
  split <;> omega

theorem removes_iff (kept : Kept c.arc l) :
    RemovesNode c l node ↔ (c.arc.item node).inMMContainer = false := by
  constructor
  · intro removes
    by_contra inside
    rw [Bool.not_eq_false] at inside
    obtain ⟨side, member⟩ := (kept.marked node).mp inside
    have out : node ∉ l side.other := kept.apart side node member
    have counted := (removes.spells side.other).size
    rw [List.erase_of_not_mem out, ← (kept.spells side.other).size] at counted
    simp only [Container.remove, if_pos inside, State.write, listRemove_size] at counted
    exact decrement_ne _ counted
  · intro outside
    have gone : (fun side => (l side).erase node) = l := by
      funext side
      refine List.erase_of_not_mem fun member => ?_
      rw [(kept.marked node).mpr ⟨side, member⟩] at outside
      cases outside
    rw [RemovesNode, gone, Container.remove, if_neg (by simp [outside])]
    exact kept

/-! ## Replacing -/

theorem replace_run (flagless : Flagless c l) (inside : (c.arc.item oldNode).inMMContainer = true)
    (outside : (c.arc.item newNode).inMMContainer = false) :
    c.replace oldNode newNode = (true, (setFrequency c newNode).replaceIn .t2 oldNode newNode) := by
  rw [Container.replace, if_neg (by simp [inside, outside])]
  simp [getLruType, flagless.flag]

theorem replace_refused (refused : (c.arc.item oldNode).inMMContainer = false ∨
    (c.arc.item newNode).inMMContainer = true) : c.replace oldNode newNode = (false, c) := by
  rw [Container.replace, if_pos]
  rcases refused with out | inside
  · simp [out]
  · simp [inside]

theorem replaced_spelled (kept : Kept c.arc l) {side : Side} (member : oldNode ∈ l side)
    (out : ∀ a, newNode ∉ l a)
    (ends : (c.arc.list .t1).head ≠ some oldNode ∧ (c.arc.list .t1).tail ≠ some oldNode) :
    Spelled (c.arc.replace .t2 oldNode newNode).hooks (c.arc.replace .t2 oldNode newNode).list
      fun a => (l a).map (instead oldNode newNode) := by
  have both : newNode ∉ l .t1 ++ l .t2 := by simp [out]
  refine ⟨fun a => ?_, fun a x inside again => ?_⟩
  · refine (kept.spells a).map (instead_inj (out a)) ?_ ?_ ?_ ?_
    · intro x inside
      exact replace_renames (d := c.arc.list .t2) (kept.spells side) member (out side)
        (kept.spells a) inside (out a)
    · cases a with
      | t1 => simp [State.replace, instead_map, ends]
      | t2 => simp [State.replace, HookedList.replace, instead_map]
    · cases a with
      | t1 => simp [State.replace, instead_map, ends]
      | t2 => simp [State.replace, HookedList.replace, instead_map]
    · cases a <;> simp [State.replace, HookedList.replace]
  · obtain ⟨y, first, rfl⟩ := List.mem_map.mp inside
    obtain ⟨z, second, same⟩ := List.mem_map.mp again
    have joint : ∀ a, ∀ x ∈ l a, x ∈ l .t1 ++ l .t2 := by
      intro a x member
      cases a <;> simp [member]
    obtain rfl := instead_inj both z (joint _ z second) y (joint _ y first) same
    exact kept.apart a z first second

theorem replaced_kept (kept : Kept c.arc l) {side : Side} (member : oldNode ∈ l side)
    (out : ∀ a, newNode ∉ l a)
    (ends : (c.arc.list .t1).head ≠ some oldNode ∧ (c.arc.list .t1).tail ≠ some oldNode) :
    Kept ((setFrequency c newNode).replaceIn .t2 oldNode newNode).arc
      fun a => (l a).map (instead oldNode newNode) := by
  have distinct : newNode ≠ oldNode := fun same => out side (same ▸ member)
  refine ⟨replaced_spelled kept member out ends, fun x => ?_, ?_⟩
  · simp only [mem_instead distinct (out _)]
    by_cases new : x = newNode
    · subst new
      simpa [Container.replaceIn, State.write] using ⟨side, member⟩
    · by_cases old : x = oldNode
      · subst old
        simp [Container.replaceIn, State.write, new]
      · simpa [Container.replaceIn, State.write, State.replace, setFrequency, new, old] using kept.marked x
  · refine .inl (kept.tables.resolve_right fun none => ?_)
    rw [none.2 side] at member
    cases member

theorem replaces_iff (flagless : Flagless c l) :
    ReplacesNode c l oldNode newNode ↔ Replaceable c oldNode newNode := by
  have kept := flagless.kept
  by_cases refused : (c.arc.item oldNode).inMMContainer = false ∨
      (c.arc.item newNode).inMMContainer = true
  · refine iff_of_true ?_ (or_assoc.mp (.inl refused))
    rw [ReplacesNode, replace_refused refused]
    exact kept
  · obtain ⟨inside, outside⟩ := not_or.mp refused
    rw [Bool.not_eq_false] at inside
    rw [Bool.not_eq_true] at outside
    obtain ⟨side, member⟩ := (kept.marked oldNode).mp inside
    have out : ∀ a, newNode ∉ l a := fun a member => by
      rw [(kept.marked newNode).mpr ⟨a, member⟩] at outside
      cases outside
    have distinct : oldNode ≠ newNode := fun same => out side (same ▸ member)
    have run := replace_run flagless inside outside
    have expected : ReplacesNode c l oldNode newNode ↔
        Kept ((setFrequency c newNode).replaceIn .t2 oldNode newNode).arc
          fun a => (l a).map (instead oldNode newNode) := by
      rw [ReplacesNode, run]
      rfl
    rw [expected, Replaceable, inside, outside]
    constructor
    · intro replaced
      -- `replace` on T2 leaves the ends of T1, and they are those of the renamed list
      have first := replaced.spells .t1
      have tail : (c.arc.list .t1).tail = (c.arc.list .t1).tail.map (instead oldNode newNode) := by
        rw [(kept.spells .t1).tail, ← List.head?_map, ← first.tail, ← (kept.spells .t1).tail]
        rfl
      have head : (c.arc.list .t1).head = (c.arc.list .t1).head.map (instead oldNode newNode) := by
        rw [(kept.spells .t1).head, ← List.getLast?_map, ← first.head, ← (kept.spells .t1).head]
        rfl
      rw [instead_map] at tail head
      refine .inr (.inr ⟨fun here => ?_, fun here => ?_⟩)
      · rw [if_pos here, here] at head
        exact distinct (Option.some.inj head)
      · rw [if_pos here, here] at tail
        exact distinct (Option.some.inj tail)
    · rintro (none | none | ends)
      · cases none
      · cases none
      · exact replaced_kept kept member out ends

/-! ## Histories -/

theorem replace_flag (flag : ∀ x, c.isRecency x = false) (oldNode newNode x : P) :
    (c.replace oldNode newNode).2.isRecency x = false := by
  rw [Container.replace]
  split
  · exact flag x
  · simp only [getLruType, flag]
    exact flag x

theorem Called.keeps {d : Container P} (called : Called hashNode cfg c d) (flagless : Flagless c l) :
    ∃ m, Flagless d m := by
  cases called with
  | base op ran =>
    obtain ⟨m, u, run, kept⟩ := exec_keeps hashNode flagless.kept cfg op
    cases ran.symm.trans run
    exact ⟨m, kept, flagless.flag⟩
  | remove node out =>
    refine ⟨_, (removes_iff flagless.kept).mpr out, fun x => ?_⟩
    rw [Container.remove, if_neg (by simp [out])]
    exact flagless.flag x
  | replace oldNode newNode replaceable =>
    exact ⟨_, (replaces_iff flagless).mpr replaceable, replace_flag flagless.flag oldNode newNode⟩

theorem called_flagless (history : Reachable (Called hashNode cfg) (Container.fresh P) c) :
    ∃ l, Flagless c l := by
  refine history.invariant (fun c => ∃ l, Flagless c l) ⟨_, fresh_kept P, fun _ => rfl⟩ ?_
  rintro c d ⟨l, flagless⟩ called
  exact called.keeps flagless

omit [DecidableEq P] in
theorem types_iff (flagless : Flagless c l) :
    (∀ side, ∀ x ∈ l side, getLruType c x = .of side) ↔ l .t1 = [] := by
  constructor
  · intro named
    refine List.eq_nil_iff_forall_not_mem.mpr fun x member => ?_
    have wrong := named .t1 x member
    rw [getLruType, flagless.flag x] at wrong
    cases wrong
  · intro empty side x member
    cases side with
    | t1 =>
      rw [empty] at member
      cases member
    | t2 =>
      rw [getLruType, flagless.flag x]
      rfl

/-- In every history of calls that keep the lists: every item of the container is in one of
the lists, which have their sizes. The types name the lists exactly while T1 is empty.
`add`, `recordAccess` and the evictions keep the lists, `remove` does so for no item of
the container, and `replace` exactly for the replaceable ones. -/
theorem container_kept_iff (history : Reachable (Called hashNode cfg) (Container.fresh P) c) :
    ∃ l, Kept c.arc l ∧
      ((∀ side, ∀ x ∈ l side, getLruType c x = .of side) ↔ l .t1 = []) ∧
      (∀ op, ∃ m t, exec hashNode cfg c.arc op = some t ∧ Kept t m) ∧
      (∀ node, RemovesNode c l node ↔ (c.arc.item node).inMMContainer = false) ∧
      ∀ oldNode newNode, ReplacesNode c l oldNode newNode ↔ Replaceable c oldNode newNode := by
  obtain ⟨l, flagless⟩ := called_flagless history
  exact ⟨l, flagless.kept, types_iff flagless, exec_keeps hashNode flagless.kept cfg,
    fun node => removes_iff flagless.kept, fun oldNode newNode => replaces_iff flagless⟩

/-- Of three items the middle one can be replaced. -/
theorem container_kept_iff_three :
    ∃ (c : Container Nat) (l : Side → List Nat),
      Reachable (Called (fun n => n.toUInt32 + 1) {}) (Container.fresh Nat) c ∧ Kept c.arc l ∧
      (c.arc.list .t1).size = 3 ∧ ReplacesNode c l 1 7 := by
  have one : Reachable (Called (fun n => n.toUInt32 + 1) {}) (Container.fresh Nat) _ :=
    Reachable.refl.next (.base (.add 0 0) rfl)
  have two := one.next (.base (.add 1 0) rfl)
  have three := two.next (.base (.add 2 0) rfl)
  obtain ⟨l, kept, -, -, -, replaces⟩ := container_kept_iff three
  exact ⟨_, l, three, kept, rfl, (replaces 1 7).mpr (.inr (.inr ⟨by decide, by decide⟩))⟩

/-- A single item is in T1 and is taken for one of T2. Removing it leaves T2 with a
wrapped size, and replacing it leaves T1 with the old item for its head. -/
theorem single_item_breaks :
    ∃ c : Container Nat, Reachable (Called (fun n => n.toUInt32 + 1) {}) (Container.fresh Nat) c ∧
      ((c.remove 0).2.arc.list .t2).size = 2 ^ 64 - 1 ∧
      ((c.replace 0 1).2.arc.list .t1).head = some 0 ∧
      ∀ l, Kept c.arc l → 0 ∈ l .t1 ∧ getLruType c 0 = .frequency ∧ ¬ RemovesNode c l 0 ∧
        ¬ ReplacesNode c l 0 1 := by
  have one : Reachable (Called (fun n => n.toUInt32 + 1) {}) (Container.fresh Nat) _ :=
    Reachable.refl.next (.base (.add 0 0) rfl)
  refine ⟨_, one, by decide, by decide, fun l kept => ⟨?_, by decide, ?_, ?_⟩⟩
  · have head := (kept.spells .t1).head
    exact List.mem_of_getLast? head.symm
  · rw [removes_iff kept]
    decide
  · rw [replaces_iff ⟨kept, fun _ => rfl⟩]
    decide

end MmArc
