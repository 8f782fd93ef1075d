import CacheEviction.MmCar

/-!
# Histories of CAR

Whatever is called, an item that is marked as in the container is in exactly one of
the two lists, and the one its flags name. After the first `add` the target is at most
the capacity and the ghost buffers are within theirs.
-/
namespace MmCar

open LinkedChains MerlinFifo HookedList StepTraces Function

/-! ## Items and lists -/

section Lists

variable {P : Type} {s t : State P} {l : Side → List P} {node : P} {side : Side}

structure Listed (s : State P) (l : Side → List P) : Prop extends Spelled s.hooks s.list l where
  flags : ∀ side x, (s.item x).flag side = true ↔ x ∈ l side

structure Kept (s : State P) (l : Side → List P) : Prop extends Listed s l where
  marked : ∀ x, (s.item x).inMMContainer = true ↔ ∃ side, x ∈ l side

theorem fresh_kept (P : Type) : Kept (fresh P) fun _ => [] where
  spells := fun _ => spells_empty _
  flags := by simp [fresh]
  apart := by simp
  marked := by simp [fresh]

/-- Nothing but hands and reference bits differs. -/
structure Swept (s t : State P) : Prop where
  hooks : t.hooks = s.hooks
  list : t.list = s.list
  flag : ∀ x, (t.item x).flag = (s.item x).flag
  marked : ∀ x, (t.item x).inMMContainer = (s.item x).inMMContainer
  ghost : t.ghost = s.ghost
  partitionSize : t.partitionSize = s.partitionSize
  capacity : t.capacity = s.capacity

theorem Swept.refl (s : State P) : Swept s s := ⟨rfl, rfl, fun _ => rfl, fun _ => rfl, rfl, rfl, rfl⟩

theorem Swept.trans {u : State P} (first : Swept s t) (second : Swept t u) : Swept s u where
  hooks := second.hooks.trans first.hooks
  list := second.list.trans first.list
  flag := fun x => (second.flag x).trans (first.flag x)
  marked := fun x => (second.marked x).trans (first.marked x)
  ghost := second.ghost.trans first.ghost
  partitionSize := second.partitionSize.trans first.partitionSize
  capacity := second.capacity.trans first.capacity

theorem Swept.listed (swept : Swept s t) (listed : Listed s l) : Listed t l where
  spells := by
    rw [swept.hooks, swept.list]
    exact listed.spells
  flags := by
    intro side x
    rw [swept.flag]
    exact listed.flags side x
  apart := listed.apart

theorem swept_hand (s : State P) (hand : Side → Option P) : Swept s { s with hand := hand } :=
  ⟨rfl, rfl, fun _ => rfl, fun _ => rfl, rfl, rfl, rfl⟩

theorem swept_advance (s : State P) (side : Side) (node : P) : Swept s (advance s side node) :=
  swept_hand s _

variable [DecidableEq P]

theorem swept_write (s : State P) (node : P) {f : Item → Item} (flag : ∀ i, (f i).flag = i.flag)
    (marked : ∀ i, (f i).inMMContainer = i.inMMContainer) : Swept s (s.write node f) where
  hooks := rfl
  list := rfl
  flag := by
    intro x
    by_cases same : x = node
    · subst same
      simp [State.write, flag]
    · simp [State.write, same]
  marked := by
    intro x
    by_cases same : x = node
    · subst same
      simp [State.write, marked]
    · simp [State.write, same]
  ghost := rfl
  partitionSize := rfl
  capacity := rfl

/-! ## The clock -/

omit [DecidableEq P] in
theorem Listed.aim_mem (listed : Listed s l) (held : l side ≠ []) :
    ∃ x ∈ l side, aim s side = some x := by
  have tail : ∃ x ∈ l side, (s.list side).tail = some x := by
    obtain ⟨x, rest, shape⟩ := List.exists_cons_of_ne_nil held
    refine ⟨x, by rw [shape]; exact List.mem_cons_self, ?_⟩
    rw [(listed.spells side).tail, shape]
    rfl
  rw [aim]
  cases hand : s.hand side with
  | none => exact tail
  | some node =>
    by_cases own : isIn s side node = true
    · exact ⟨node, (listed.flags side node).mp own, if_pos own⟩
    · simp only [if_neg own]
      exact tail

theorem scan_finds (listed : Listed s l) (held : l side ≠ []) (n : Nat) :
    ∃ x ∈ l side, (scan side n s).1 = some x ∧ Swept s (scan side n s).2 := by
  induction n generalizing s with
  | zero =>
    obtain ⟨x, rest, shape⟩ := List.exists_cons_of_ne_nil held
    refine ⟨x, by rw [shape]; exact List.mem_cons_self, ?_, .refl s⟩
    rw [scan, (listed.spells side).tail, shape]
    rfl
  | succ n ih =>
    obtain ⟨x, inside, aimed⟩ := listed.aim_mem held
    rw [scan, aimed]
    by_cases referenced : (s.item x).refBit = true
    · simp only [if_pos referenced]
      have cleared : Swept s (s.write x fun i => { i with refBit := false }) :=
        swept_write s x (fun _ => rfl) fun _ => rfl
      have step := cleared.trans (swept_advance _ side x)
      obtain ⟨y, member, found, swept⟩ := ih (step.listed listed)
      exact ⟨y, member, found, step.trans swept⟩
    · simp only [if_neg referenced]
      exact ⟨x, inside, rfl, swept_hand s _⟩

theorem findVictim_finds (listed : Listed s l) (held : l side ≠ []) :
    ∃ x ∈ l side, (findVictim s side).1 = some x ∧ Swept s (findVictim s side).2 := by
  have occupied : (s.list side).size ≠ 0 := by
    rw [(listed.spells side).size]
    exact fun empty => held (List.length_eq_zero_iff.mp empty)
  rw [findVictim, if_neg occupied]
  have aimed := swept_hand s (update s.hand side (aim s side))
  obtain ⟨x, member, found, swept⟩ := scan_finds (aimed.listed listed) held
    ((s.list side).size + (s.list side).size / 2)
  exact ⟨x, member, found, aimed.trans swept⟩

/-! ## Linking and unlinking -/

theorem Listed.follow {m : Side → List P} (listed : Listed s l) (node : P)
    (spelled : Spelled t.hooks t.list m)
    (lists : ∀ a x, x ≠ node → (x ∈ m a ↔ x ∈ l a))
    (flags : ∀ x, x ≠ node → (t.item x).flag = (s.item x).flag)
    (own : ∀ a, (t.item node).flag a = true ↔ node ∈ m a) : Listed t m := by
  refine ⟨spelled, fun a x => ?_⟩
  by_cases same : x = node
  · subst same
    exact own a
  · rw [flags x same, lists a x same]
    exact listed.flags a x

theorem Listed.write (listed : Listed s l) (node : P) {f : Item → Item}
    (flag : ∀ i, (f i).flag = i.flag) : Listed (s.write node f) l := by
  refine listed.follow node ⟨listed.spells, listed.apart⟩ (fun _ _ _ => Iff.rfl) ?_ ?_
  · intro x other
    simp [State.write, other]
  · intro a
    simp only [State.write, update_self, flag]
    exact listed.flags a node

theorem Listed.addTo (listed : Listed s l) (out : ∀ a, node ∉ l a) (side : Side) :
    Listed (addTo s side node) (update l side (l side ++ [node])) := by
  have spelled := listed.link out side
  refine listed.follow node ⟨spelled.spells, spelled.apart⟩ ?_ ?_ ?_
  · intro a x other
    rw [mem_linked]
    simp [other]
  · intro x other
    simp [MmCar.addTo, State.write, State.link, other]
  · intro a
    rw [mem_linked]
    simp [MmCar.addTo, State.write, Item.set, out a]

def moved (l : Side → List P) (node : P) : Side → List P :=
  Function.update (Function.update l .t1 ((l .t1).erase node)) .t2 (l .t2 ++ [node])

theorem Listed.mem_moved (listed : Listed s l) (member : node ∈ l .t1) {a : Side} {x : P} :
    x ∈ moved l node a ↔ (x ∈ l a ∧ x ≠ node) ∨ a = .t2 ∧ x = node := by
  have nodup := (listed.spells .t1).chain.nodup
  have linked : x ∈ update (update l .t1 ((l .t1).erase node)) .t2 _ a ↔ _ :=
    mem_linked (n := node)
  rw [update_of_ne (by decide : Side.t2 ≠ Side.t1)] at linked
  rw [moved, linked]
  constructor
  · rintro (inside | new)
    · refine Or.inl ⟨((mem_unlinked nodup).mp inside).1, ?_⟩
      rintro rfl
      exact listed.gone member a inside
    · exact Or.inr new
  · rintro (⟨inside, other⟩ | new)
    · exact Or.inl ((mem_unlinked nodup).mpr ⟨inside, fun h => other h.2⟩)
    · exact Or.inr new

theorem Listed.moveT1ToT2 (listed : Listed s l) (member : node ∈ l .t1) :
    Listed (moveT1ToT2 s node) (moved l node) := by
  have flag : isIn s .t1 node = true := (listed.flags .t1 node).mpr member
  have spelled := (listed.unlink member).link (listed.gone member) .t2
  rw [update_of_ne (by decide : Side.t2 ≠ Side.t1)] at spelled
  rw [MmCar.moveT1ToT2, if_pos flag]
  refine listed.follow node ⟨spelled.spells, spelled.apart⟩ ?_ ?_ ?_
  · intro a x other
    rw [listed.mem_moved member]
    simp [other]
  · intro x other
    simp [setRefBit, State.write, State.link, State.unlink, other]
  · intro a
    rw [listed.mem_moved member]
    simp [setRefBit, State.write, Item.set]

theorem Listed.unlinked (listed : Listed s l) (member : node ∈ l side)
    (hooks : t.hooks = (s.unlink side node).hooks) (list : t.list = (s.unlink side node).list)
    (item : t.item = update s.item node (s.item node).unsetAll) :
    Listed t (update l side ((l side).erase node)) := by
  have spelled : Spelled t.hooks t.list (update l side ((l side).erase node)) := by
    rw [hooks, list]
    exact listed.unlink member
  refine listed.follow node ⟨spelled.spells, spelled.apart⟩ ?_ ?_ ?_
  · intro a x other
    rw [mem_unlinked (listed.spells side).chain.nodup]
    simp [other]
  · intro x other
    simp [item, other]
  · intro a
    simp only [item, update_self, Item.unsetAll, Bool.false_eq_true, false_iff]
    exact listed.gone member a

theorem Kept.entered (kept : Kept s l)
    (listed : Listed t (update l side (l side ++ [node])))
    (own : (t.item node).inMMContainer = true)
    (others : ∀ x, x ≠ node → (t.item x).inMMContainer = (s.item x).inMMContainer) :
    Kept t (update l side (l side ++ [node])) := by
  refine ⟨listed, fun x => ?_⟩
  by_cases same : x = node
  · subst same
    exact iff_of_true own ⟨side, mem_linked.mpr (Or.inr ⟨rfl, rfl⟩)⟩
  · rw [others x same, kept.marked x]
    simp [mem_linked, same]

theorem Kept.left (kept : Kept s l) (member : node ∈ l side)
    (listed : Listed t (update l side ((l side).erase node)))
    (own : (t.item node).inMMContainer = false)
    (others : ∀ x, x ≠ node → (t.item x).inMMContainer = (s.item x).inMMContainer) :
    Kept t (update l side ((l side).erase node)) := by
  refine ⟨listed, fun x => ?_⟩
  by_cases same : x = node
  · subst same
    exact iff_of_false (by simp [own]) fun ⟨a, inside⟩ => kept.gone member a inside
  · rw [others x same, kept.marked x]
    simp [mem_unlinked (kept.spells side).chain.nodup, same]

/-! ## Eviction -/

variable {hashNode : P → UInt32}

structure Retired (s : State P) (l : Side → List P) (side : Side) (victim : P) (g : GhostList)
    (t : State P) : Prop where
  listed : Listed t (Function.update l side ((l side).erase victim))
  ghost : t.ghost = Function.update s.ghost side g
  partitionSize : t.partitionSize = s.partitionSize
  capacity : t.capacity = s.capacity
  marked : ∀ x, (t.item x).inMMContainer = (s.item x).inMMContainer

theorem retire_ok (listed : Listed s l) {victim : P} (member : victim ∈ l side) (time : Nat)
    {g : GhostList} (stored : (s.ghost side).insert (hashNode victim) time = .ok g) :
    ∃ t, retire hashNode side time (some victim, s) = .ok (some victim, t) ∧
      Retired s l side victim g t := by
  refine ⟨{ s.unlink side victim with
    ghost := update s.ghost side g }.write victim Item.unsetAll, ?_, ?_⟩
  · have ghost : (s.unlink side victim).ghost = s.ghost := rfl
    simp only [retire, ghost, stored]
    rfl
  · refine ⟨listed.unlinked member rfl rfl rfl, rfl, rfl, rfl, fun x => ?_⟩
    by_cases same : x = victim
    · subst same
      simp [State.write, Item.unsetAll, State.unlink]
    · simp [State.write, State.unlink, same]

theorem retire_error {victim : P} {time : Nat} {e : Fault}
    (failed : (s.ghost side).insert (hashNode victim) time = .error e) :
    retire hashNode side time (some victim, s) = .error e := by
  have ghost : (s.unlink side victim).ghost = s.ghost := rfl
  simp only [retire, ghost, failed]
  rfl

/-- The first list is long enough for its target, or the second list has an item. -/
def Ready (s : State P) : Prop :=
  max 1 s.partitionSize ≤ (s.list .t1).size ∨ 0 < (s.list .t2).size

theorem replace_idle (idle : ¬ Ready s) (time : Nat) : replace hashNode s time = .ok (none, s) := by
  obtain ⟨short, none⟩ := not_or.mp idle
  rw [replace, if_neg short, if_neg none]
  split <;> rfl

variable (hashNode) in
/-- The side and the item that `replace` settles on depend on the lists only up to
hands and reference bits; what follows is the entry into the ghost. -/
theorem replace_ready (listed : Listed s l) (ready : Ready s) :
    ∃ side u victim, victim ∈ l side ∧ Swept s u ∧
      ∀ time, replace hashNode s time = retire hashNode side time (some victim, u) := by
  have occupied : ¬ ((s.list .t1).size = 0 ∧ (s.list .t2).size = 0) := by
    rcases ready with long | some_ <;> omega
  by_cases long : max 1 s.partitionSize ≤ (s.list .t1).size
  · have held : l .t1 ≠ [] := by
      intro empty
      have size := (listed.spells .t1).size
      rw [empty, List.length_nil] at size
      omega
    obtain ⟨v, member, found, swept⟩ := findVictim_finds listed held
    refine ⟨.t1, (findVictim s .t1).2, v, member, swept, fun time => ?_⟩
    rw [replace, if_neg occupied, if_pos long, ← found]
  · have some_ : 0 < (s.list .t2).size := ready.resolve_left long
    have held : l .t2 ≠ [] := by
      intro empty
      have size := (listed.spells .t2).size
      rw [empty, List.length_nil] at size
      omega
    obtain ⟨v, member, found, swept⟩ := findVictim_finds listed held
    refine ⟨.t2, (findVictim s .t2).2, v, member, swept, fun time => ?_⟩
    rw [replace, if_neg occupied, if_neg long, if_pos some_, ← found]

/-! ## The ghosts -/

/-- The ring buffer is within its capacity; one without capacity was never used. -/
structure GhostList.Sized (g : GhostList) (size : Nat) : Prop where
  capacity : g.capacity = size
  within : g.buffer.length ≤ size
  head : g.head < size ∨ g.head = 0
  unused : size = 0 → g.hashSet = ∅

theorem GhostList.Sized.insert {g : GhostList} {size : Nat} (sized : g.Sized size) (some_ : 1 ≤ size)
    (hash : UInt32) (time : Nat) : ∃ g', g.insert hash time = .ok g' ∧ g'.Sized size := by
  have head : g.head < size := by
    rcases sized.head with inside | first <;> omega
  by_cases known : hash ∈ g.hashSet
  · exact ⟨g, if_pos known, sized⟩
  · rw [GhostList.insert, if_neg known, sized.capacity]
    by_cases full : size ≤ g.buffer.length
    · have present : g.head < g.buffer.length := by omega
      rw [if_pos full, List.getElem?_eq_getElem present]
      refine ⟨_, if_neg (by omega), rfl, ?_, Or.inl (Nat.mod_lt _ (by omega)), fun none => by omega⟩
      simp only [List.length_set]
      exact sized.within
    · refine ⟨_, if_neg full, rfl, ?_, Or.inl head, fun none => by omega⟩
      simp only [List.length_append, List.length_singleton]
      omega

theorem GhostList.insert_unsized {g : GhostList} (none : g.capacity = 0) {hash : UInt32}
    (new : hash ∉ g.hashSet) (time : Nat) : ∃ e, g.insert hash time = .error e := by
  rw [GhostList.insert, if_neg new, if_pos (by omega)]
  cases g.buffer[g.head]? with
  | none => exact ⟨_, rfl⟩
  | some old => exact ⟨_, if_pos none⟩

theorem GhostList.Sized.inserted {g g' : GhostList} {size : Nat} (sized : g.Sized size)
    {hash : UInt32} {time : Nat} (stored : g.insert hash time = .ok g') : g'.Sized size := by
  by_cases some_ : 1 ≤ size
  · obtain ⟨g'', same, sized'⟩ := sized.insert some_ hash time
    rw [stored] at same
    cases same
    exact sized'
  · have none : g.capacity = 0 := by rw [sized.capacity]; omega
    have new : hash ∉ g.hashSet := by rw [sized.unused (by omega)]; exact Finset.notMem_empty _
    obtain ⟨e, failed⟩ := GhostList.insert_unsized none new time
    rw [stored] at failed
    cases failed

theorem GhostList.Sized.remove {g : GhostList} {size : Nat} (sized : g.Sized size) (hash : UInt32) :
    (g.remove hash).Sized size where
  capacity := sized.capacity
  within := sized.within
  head := sized.head
  unused := by
    intro none
    rw [GhostList.remove, sized.unused none]
    rfl

/-- After the first `add` the capacity is that of the estimate for an empty list, and
the target is within it. -/
structure Limited (s : State P) : Prop where
  capacity : s.capacity = 1000
  target : s.partitionSize ≤ 1000

/-- The ghosts have the capacity that goes with the estimate. -/
structure Used (cfg : Config) (s : State P) : Prop extends Limited s where
  ghosts : ∀ side, (s.ghost side).Sized (ghostSize cfg 1000)

/-! ## Each call -/

variable {cfg : Config}

omit [DecidableEq P] in
theorem initCapacity_limited (cfg : Config) (state : s = fresh P ∨ Limited s) :
    Limited (initCapacity cfg s) := by
  rcases state with rfl | limited
  · refine ⟨rfl, ?_⟩
    simp [initCapacity, setMaxGhostSize, setCapacity, State.size, fresh]
  · have set : s.capacity ≠ 0 := by rw [limited.capacity]; decide
    rw [initCapacity, if_neg set]
    exact limited

omit [DecidableEq P] in
theorem initCapacity_used (state : s = fresh P ∨ Used cfg s) : Used cfg (initCapacity cfg s) := by
  refine ⟨initCapacity_limited cfg (state.imp_right Used.toLimited), fun side => ?_⟩
  rcases state with rfl | used
  · exact ⟨rfl, Nat.zero_le _, Or.inr rfl, fun _ => rfl⟩
  · have set : s.capacity ≠ 0 := by rw [used.capacity]; decide
    rw [initCapacity, if_neg set]
    exact used.ghosts side

omit [DecidableEq P] in
theorem initCapacity_same (cfg : Config) (s : State P) :
    (initCapacity cfg s).toMemory = s.toMemory ∧ (initCapacity cfg s).list = s.list := by
  rw [initCapacity]
  split <;> exact ⟨rfl, rfl⟩

omit [DecidableEq P] in
theorem Kept.congr (kept : Kept s l) (memory : t.toMemory = s.toMemory) (list : t.list = s.list) :
    Kept t l := by
  obtain ⟨⟨⟨spells, apart⟩, flags⟩, marked⟩ := kept
  refine ⟨⟨⟨?_, apart⟩, ?_⟩, ?_⟩
  · rw [memory, list]
    exact spells
  · rw [memory]
    exact flags
  · rw [memory]
    exact marked

omit [DecidableEq P] in
theorem Limited.adapted (limited : Limited s) :
    Limited (adaptOnB1Hit s) ∧ Limited (adaptOnB2Hit s) := by
  have small := limited.target
  have capacity := limited.capacity
  refine ⟨⟨capacity, ?_⟩, ⟨capacity, ?_⟩⟩
  · simp only [adaptOnB1Hit, capacity]
    exact Nat.min_le_right _ _
  · simp only [adaptOnB2Hit]
    split <;> omega

theorem addTo_marked (s : State P) (side : Side) (node x : P) :
    ((addTo s side node).item x).inMMContainer = (s.item x).inMMContainer := by
  by_cases same : x = node
  · subst same
    simp [addTo, State.write, State.link, Item.set]
  · simp [addTo, State.write, State.link, same]

variable (hashNode) in
theorem place_lists (listed : Listed s l) (out : ∀ a, node ∉ l a) :
    ∃ side, Listed (place hashNode s node) (update l side (l side ++ [node])) ∧
      ∀ x, ((place hashNode s node).item x).inMMContainer = (s.item x).inMMContainer := by
  have same : ∀ t : State P, t.toMemory = s.toMemory → t.list = s.list → Listed t l := by
    intro t memory list
    refine ⟨⟨?_, listed.apart⟩, ?_⟩
    · rw [memory, list]
      exact listed.spells
    · rw [memory]
      exact listed.flags
  rw [place]
  split_ifs with one two
  · exact ⟨.t2, (same (removeFromGhost (adaptOnB1Hit s) _) rfl rfl).addTo out .t2, addTo_marked _ _ _⟩
  · exact ⟨.t2, (same (removeFromGhost (adaptOnB2Hit s) _) rfl rfl).addTo out .t2, addTo_marked _ _ _⟩
  · exact ⟨.t1, listed.addTo out .t1, addTo_marked _ _ _⟩

variable (hashNode) in
theorem place_limited (limited : Limited s) (node : P) : Limited (place hashNode s node) := by
  rw [place]
  split_ifs
  · exact ⟨limited.adapted.1.capacity, limited.adapted.1.target⟩
  · exact ⟨limited.adapted.2.capacity, limited.adapted.2.target⟩
  · exact ⟨limited.capacity, limited.target⟩

variable (hashNode) in
theorem place_ghost (s : State P) (node : P) :
    (place hashNode s node).ghost = fun side => (s.ghost side).remove (hashNode node) := by
  rw [place]
  split_ifs with one two
  · rfl
  · rfl
  · funext side
    have absent : hashNode node ∉ (s.ghost side).hashSet := by
      simp only [isInGhost, GhostList.contains, decide_eq_true_eq] at one two
      cases side with
      | t1 => exact one
      | t2 => exact two
    rw [GhostList.remove, Finset.erase_eq_of_notMem absent]
    rfl

variable (hashNode) in
theorem add_keeps (kept : Kept s l) (cfg : Config) (unmarked : (s.item node).inMMContainer = false)
    (now : Nat) :
    ∃ side, Kept (add hashNode cfg s node now).2 (update l side (l side ++ [node])) := by
  have out : ∀ a, node ∉ l a := fun a inside => by
    rw [(kept.marked node).mpr ⟨a, inside⟩] at unmarked
    cases unmarked
  obtain ⟨memory, list⟩ := initCapacity_same cfg s
  have kept' : Kept (initCapacity cfg s) l := kept.congr memory list
  obtain ⟨side, listed, marks⟩ := place_lists hashNode kept'.toListed out
  rw [add, if_neg (by simp [unmarked])]
  refine ⟨side, kept'.entered ?_ ?_ fun x other => ?_⟩
  · exact listed.write node (f := fun i => { i with inMMContainer := true, updateTime := now })
      fun _ => rfl
  · simp [State.write]
  · simp only [State.write, update_of_ne other, marks]

variable (hashNode) in
theorem add_limited (cfg : Config) (state : s = fresh P ∨ Limited s)
    (unmarked : (s.item node).inMMContainer = false) (now : Nat) :
    Limited (add hashNode cfg s node now).2 := by
  have limited := place_limited hashNode (initCapacity_limited cfg state) node
  rw [add, if_neg (by simp [unmarked])]
  exact ⟨limited.capacity, limited.target⟩

variable (hashNode) in
theorem add_ghost (cfg : Config) (unmarked : (s.item node).inMMContainer = false) (now : Nat) :
    (add hashNode cfg s node now).2.ghost =
      fun side => ((initCapacity cfg s).ghost side).remove (hashNode node) := by
  rw [add, if_neg (by simp [unmarked])]
  exact place_ghost hashNode _ _

variable (hashNode) in
theorem add_used (state : s = fresh P ∨ Used cfg s) (unmarked : (s.item node).inMMContainer = false)
    (now : Nat) : Used cfg (add hashNode cfg s node now).2 := by
  refine ⟨add_limited hashNode cfg (state.imp_right Used.toLimited) unmarked now, fun side => ?_⟩
  rw [add_ghost hashNode cfg unmarked now]
  exact ((initCapacity_used state).ghosts side).remove _

omit [DecidableEq P] in
theorem Kept.swept (kept : Kept s l) (swept : Swept s t) : Kept t l := by
  refine ⟨swept.listed kept.toListed, fun x => ?_⟩
  rw [swept.marked]
  exact kept.marked x

theorem refresh_keeps (kept : Kept s l) (node : P) (curr : Nat) :
    ∃ m, Kept (refresh s node curr) m ∧ (∀ x, (∃ a, x ∈ m a) ↔ ∃ a, x ∈ l a) ∧
      (refresh s node curr).ghost = s.ghost ∧
      (refresh s node curr).partitionSize = s.partitionSize ∧
      (refresh s node curr).capacity = s.capacity := by
  have timed : ∀ u : State P, Swept u (u.write node fun i => { i with updateTime := curr }) :=
    fun u => swept_write u node (fun _ => rfl) fun _ => rfl
  rw [refresh]
  split_ifs with one two
  · have member : node ∈ l .t1 := (kept.flags .t1 node).mp one
    have marks : ∀ x, ((moveT1ToT2 s node).item x).inMMContainer = (s.item x).inMMContainer := by
      intro x
      rw [moveT1ToT2, if_pos one]
      by_cases same : x = node
      · subst same
        simp [setRefBit, State.write, State.link, State.unlink, Item.set]
      · simp [setRefBit, State.write, State.link, State.unlink, same]
    have same : ∀ x, (∃ a, x ∈ moved l node a) ↔ ∃ a, x ∈ l a := by
      intro x
      simp only [kept.mem_moved member]
      constructor
      · rintro ⟨a, ⟨inside, -⟩ | ⟨-, rfl⟩⟩
        · exact ⟨a, inside⟩
        · exact ⟨.t1, member⟩
      · rintro ⟨a, inside⟩
        by_cases own : x = node
        · exact ⟨.t2, Or.inr ⟨rfl, own⟩⟩
        · exact ⟨a, Or.inl ⟨inside, own⟩⟩
    have kept' : Kept (moveT1ToT2 s node) (moved l node) :=
      ⟨kept.moveT1ToT2 member, fun x => by rw [marks, same, kept.marked]⟩
    refine ⟨_, kept'.swept (timed _), same, ?_⟩
    rw [moveT1ToT2, if_pos one]
    exact ⟨rfl, rfl, rfl⟩
  · have marked : Swept s (markAccessed s node) :=
      swept_write s node (f := fun i => { i with refBit := true }) (fun _ => rfl) fun _ => rfl
    exact ⟨l, (kept.swept marked).swept (timed _), fun _ => Iff.rfl, rfl, rfl, rfl⟩
  · exact ⟨l, kept.swept (timed s), fun _ => Iff.rfl, rfl, rfl, rfl⟩

theorem recordAccess_keeps (kept : Kept s l) (cfg : Config) (node : P) (mode : AccessMode)
    (curr : Nat) :
    ∃ m, Kept (recordAccess cfg s node mode curr).2 m ∧ (∀ x, (∃ a, x ∈ m a) ↔ ∃ a, x ∈ l a) ∧
      (recordAccess cfg s node mode curr).2.ghost = s.ghost ∧
      (recordAccess cfg s node mode curr).2.partitionSize = s.partitionSize ∧
      (recordAccess cfg s node mode curr).2.capacity = s.capacity := by
  rw [recordAccess]
  split_ifs with off due tried
  · exact ⟨l, kept, fun _ => Iff.rfl, rfl, rfl, rfl⟩
  · exact refresh_keeps kept node curr
  · have marked : Swept s (markAccessed s node) :=
      swept_write s node (f := fun i => { i with refBit := true }) (fun _ => rfl) fun _ => rfl
    exact ⟨l, kept.swept marked, fun _ => Iff.rfl, rfl, rfl, rfl⟩
  · exact ⟨l, kept, fun _ => Iff.rfl, rfl, rfl, rfl⟩

theorem evict_idle (idle : ¬ Ready s) (now : Nat) : evict hashNode s now = .ok (none, s) := by
  rw [evict, replace_idle idle]
  rfl

theorem Retired.consumed {u : State P} {victim : P} {g : GhostList} (kept : Kept s l)
    (member : victim ∈ l side) (retired : Retired s l side victim g u) :
    Kept (removeLocked (u.write victim fun i => { i with inMMContainer := false }) victim)
      (update l side ((l side).erase victim)) := by
  have out : ∀ a, isIn (u.write victim fun i => { i with inMMContainer := false }) a victim = false := by
    intro a
    have flag := (retired.listed.flags a victim).not.mpr (kept.gone member a)
    simpa [isIn, State.write] using flag
  rw [removeLocked, removeNode, if_neg (by simp [out]), if_neg (by simp [out])]
  refine kept.left member ?_ (by simp [State.write]) fun x other => ?_
  · refine retired.listed.follow victim ⟨retired.listed.spells, retired.listed.apart⟩
      (fun _ _ _ => Iff.rfl) ?_ ?_
    · intro x other
      simp [State.write, other]
    · intro a
      simp only [State.write, update_self, Item.unsetAll, Bool.false_eq_true, false_iff]
      exact kept.gone member a
  · simp only [State.write, update_of_ne other, retired.marked]

theorem removeLocked_same (s : State P) (node : P) : (removeLocked s node).ghost = s.ghost ∧
    (removeLocked s node).partitionSize = s.partitionSize ∧
    (removeLocked s node).capacity = s.capacity := by
  rw [removeLocked, removeNode]
  split_ifs <;> exact ⟨rfl, rfl, rfl⟩

variable (hashNode) in
theorem evict_ready (kept : Kept s l) (ready : Ready s) : ∃ side, ∃ victim ∈ l side, ∀ now,
    (∀ e, (s.ghost side).insert (hashNode victim) now = .error e → evict hashNode s now = .error e) ∧
    ∀ g, (s.ghost side).insert (hashNode victim) now = .ok g →
      ∃ t, evict hashNode s now = .ok (some victim, t) ∧
        Kept t (update l side ((l side).erase victim)) ∧
        t.ghost = update s.ghost side g ∧ t.partitionSize = s.partitionSize ∧
        t.capacity = s.capacity := by
  obtain ⟨side, u, victim, member, swept, found⟩ := replace_ready hashNode kept.toListed ready
  refine ⟨side, victim, member, fun now => ⟨fun e failed => ?_, fun g stored => ?_⟩⟩
  · rw [← swept.ghost] at failed
    rw [evict, found, retire_error failed]
    rfl
  · rw [← swept.ghost] at stored
    obtain ⟨v, run, retired⟩ := retire_ok (swept.listed kept.toListed) member now stored
    rw [evict, found, run]
    obtain ⟨ghost, partitionSize, capacity⟩ :=
      removeLocked_same (v.write victim fun i => { i with inMMContainer := false }) victim
    refine ⟨_, rfl, retired.consumed (kept.swept swept) member, ghost.trans ?_,
      partitionSize.trans ?_, capacity.trans ?_⟩
    · rw [← swept.ghost]
      exact retired.ghost
    · rw [← swept.partitionSize]
      exact retired.partitionSize
    · rw [← swept.capacity]
      exact retired.capacity

/-! ## Histories -/

omit [DecidableEq P] in
theorem Limited.congr (limited : Limited s) (partitionSize : t.partitionSize = s.partitionSize)
    (capacity : t.capacity = s.capacity) : Limited t :=
  ⟨capacity.trans limited.capacity, partitionSize ▸ limited.target⟩

variable (hashNode) in
/-- A property of the limits and the ghosts that every call keeps. -/
structure Stable (cfg : Config) (U : State P → Prop) : Prop where
  congr : ∀ {s t}, U s → t.ghost = s.ghost → t.partitionSize = s.partitionSize →
    t.capacity = s.capacity → U t
  add : ∀ {s node} now, s = fresh P ∨ U s → (s.item node).inMMContainer = false →
    U (add hashNode cfg s node now).2
  insert : ∀ {s t side hash now g}, U s → (s.ghost side).insert hash now = .ok g →
    t.ghost = Function.update s.ghost side g → t.partitionSize = s.partitionSize →
    t.capacity = s.capacity → U t

/-- What holds after any history: the lists, and either nothing was added yet or
the limits are set. -/
def Since (U : State P → Prop) (s : State P) : Prop := ∃ l, Kept s l ∧ (s = fresh P ∨ U s)

variable {U : State P → Prop}

theorem recordAccess_since (stable : Stable hashNode cfg U) (since : Since U s) (node : P)
    (mode : AccessMode) (now : Nat) : Since U (recordAccess cfg s node mode now).2 := by
  obtain ⟨l, kept, start | used⟩ := since
  · have unmarked : (s.item node).inMMContainer = false := by rw [start]; rfl
    refine ⟨l, ?_, Or.inl ?_⟩
    all_goals rw [recordAccess]; simp [unmarked]
    · exact kept
    · exact start
  · obtain ⟨m, kept', -, ghost, partitionSize, capacity⟩ := recordAccess_keeps kept cfg node mode now
    exact ⟨m, kept', Or.inr (stable.congr used ghost partitionSize capacity)⟩

theorem evict_since (stable : Stable hashNode cfg U) (since : Since U s) {now : Nat} {r : Option P}
    (ran : evict hashNode s now = .ok (r, t)) : Since U t := by
  obtain ⟨l, kept, state⟩ := since
  by_cases ready : Ready s
  · have used : U s := state.resolve_left fun start => by
      subst start
      simp [Ready, fresh] at ready
    obtain ⟨side, victim, member, run⟩ := evict_ready hashNode kept ready
    obtain ⟨fails, works⟩ := run now
    cases stored : (s.ghost side).insert (hashNode victim) now with
    | error e =>
      rw [fails e stored] at ran
      cases ran
    | ok g =>
      obtain ⟨u, ran', kept', ghost, partitionSize, capacity⟩ := works g stored
      rw [ran] at ran'
      cases ran'
      exact ⟨_, kept', Or.inr (stable.insert used stored ghost partitionSize capacity)⟩
  · rw [evict_idle ready] at ran
    cases ran
    exact ⟨l, kept, state⟩

theorem exec_since (stable : Stable hashNode cfg U) (since : Since U s) {op : Op P}
    (ran : exec hashNode cfg s op = .ok t) : Since U t := by
  cases op with
  | add node now =>
    cases ran
    by_cases marked : (s.item node).inMMContainer = true
    · rw [add, if_pos marked]
      exact since
    · obtain ⟨l, kept, state⟩ := since
      rw [Bool.not_eq_true] at marked
      obtain ⟨side, kept'⟩ := add_keeps hashNode kept cfg marked now
      exact ⟨_, kept', Or.inr (stable.add now state marked)⟩
  | recordAccess node mode now =>
    cases ran
    exact recordAccess_since stable since node mode now
  | evict now =>
    cases run : evict hashNode s now with
    | error e =>
      rw [exec, run] at ran
      cases ran
    | ok a =>
      rw [exec, run] at ran
      cases ran
      exact evict_since stable since run

theorem limited_stable : Stable hashNode cfg Limited where
  congr := fun limited _ partitionSize capacity => limited.congr partitionSize capacity
  add := fun now state unmarked => add_limited hashNode cfg state unmarked now
  insert := fun limited _ _ partitionSize capacity => limited.congr partitionSize capacity

theorem used_stable : Stable hashNode cfg (Used cfg) where
  congr := by
    intro s t used ghost partitionSize capacity
    refine ⟨used.toLimited.congr partitionSize capacity, ?_⟩
    rw [ghost]
    exact used.ghosts
  add := fun now state unmarked => add_used hashNode state unmarked now
  insert := by
    intro s t side hash now g used stored ghost partitionSize capacity
    refine ⟨used.toLimited.congr partitionSize capacity, fun a => ?_⟩
    rw [ghost]
    rcases Side.eq_or_other a side with rfl | rfl
    · rw [update_self]
      exact (used.ghosts a).inserted stored
    · rw [update_of_ne side.other_ne]
      exact used.ghosts side.other

omit [DecidableEq P] in
theorem fresh_since : Since U (fresh P) := ⟨_, fresh_kept P, Or.inl rfl⟩

theorem reached_used (history : Reachable (Stepped hashNode cfg) (fresh P) s) :
    Since (Used cfg) s := by
  refine history.invariant _ fresh_since ?_
  rintro s t since ⟨op, ran⟩
  exact exec_since used_stable since ran

/-! ## Finding a victim -/

theorem replace_takes_iff (history : Reachable (Stepped hashNode cfg) (fresh P) s) (held : 0 < s.size)
    (time : Nat) : (∃ victim t, replace hashNode s time = .ok (some victim, t) ∧
      Takes s.hooks s.list t.hooks t.list victim) ↔
      Ready s ∧ 1 ≤ ghostSize cfg 1000 := by
  obtain ⟨l, kept, state⟩ := reached_used history
  have used : Used cfg s := state.resolve_left fun start => by
    subst start
    exact Nat.lt_irrefl 0 held
  by_cases ready : Ready s
  · obtain ⟨side, u, victim, member, swept, found⟩ :=
      replace_ready hashNode kept.toListed ready
    have sized := used.ghosts side
    rw [found]
    by_cases some_ : 1 ≤ ghostSize cfg 1000
    · refine ⟨fun _ => ⟨ready, some_⟩, fun _ => ?_⟩
      obtain ⟨g, stored, -⟩ := sized.insert some_ (hashNode victim) time
      rw [← swept.ghost] at stored
      have listed := swept.listed kept.toListed
      obtain ⟨t, run, retired⟩ := retire_ok listed member time stored
      exact ⟨victim, t, run, kept.takes member retired.listed.toSpelled⟩
    · have none : (s.ghost side).capacity = 0 := by rw [sized.capacity]; omega
      have new : hashNode victim ∉ (s.ghost side).hashSet := by
        rw [sized.unused (by omega)]
        exact Finset.notMem_empty _
      obtain ⟨e, failed⟩ := GhostList.insert_unsized none new time
      rw [← swept.ghost] at failed
      rw [retire_error failed]
      constructor
      · rintro ⟨_, _, run, -⟩
        cases run
      · exact fun h => absurd h.2 some_
  · rw [replace_idle ready]
    constructor
    · rintro ⟨_, _, run, -⟩
      cases run
    · exact fun h => absurd h.1 ready

end Lists

end MmCar
