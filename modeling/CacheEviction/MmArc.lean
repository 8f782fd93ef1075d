import CacheEviction.HookedList
import CacheEviction.StepTraces

/-!
# ARC in CacheLib

`ARCList.h` under `MMARC.h`: two lists, of which a new item enters the first and a
ghost hit the second, and a target `p_` for the first list that ghost hits move. The
ghosts are tables of `AtomicFIFOHashTable.cpp`: 64-bit slots in buckets of eight, with the
hash in the lower half and the time of its insertion in the upper.

One thread at a time. An item is its address together with its key. A table that is used
before it is allocated is a fault.
-/
namespace MmArc

open LinkedChains MerlinFifo HookedList StepTraces Function

/-! ## The ghost tables -/

structure FifoHashTable where
  numElem : Nat := 0
  timestampsize : Nat := 0
  numInserts : Nat := 0
  hashTable : Option (Nat → Nat) := none

namespace FifoHashTable

def initialized (t : FifoHashTable) : Bool := t.hashTable.isSome

def nItemPerBucket : Nat := 8

/-- The argument and the sum are 32 bits wide. -/
def setFIFOSize (t : FifoHashTable) (fifoSize : Nat) : FifoHashTable :=
  let size := (fifoSize % 2 ^ 32 / 8 + 1) * 8 % 2 ^ 32
  { t with numElem := size * 2, timestampsize := size }

def initHashtable (t : FifoHashTable) : FifoHashTable := { t with hashTable := some fun _ => 0 }

/-- The index of the key's slot with its three lowest bits cleared. -/
def getBucketIdx (t : FifoHashTable) (key : UInt32) : Nat := key.toNat % t.numElem / 8 * 8

def matchKey (v : Nat) (key : UInt32) : Bool := v % 2 ^ 32 = key.toNat

def getInsertionTime (v : Nat) : Nat := v / 2 ^ 32

def genHashtableVal (key : UInt32) (time : Nat) : Nat := key.toNat + time * 2 ^ 32

/-- The age of a slot is compared as an unsigned number. -/
def expired (t : FifoHashTable) (v : Nat) : Bool :=
  t.timestampsize < (((t.numInserts : Int) - getInsertionTime v) % 2 ^ 64).toNat

/-- The loop of `contains` over the last `n` slots of a bucket that ends before `stop`. -/
def probe (t : FifoHashTable) (key : UInt32) (stop : Nat) : Nat → (Nat → Nat) → Bool × (Nat → Nat)
  | 0, slots => (false, slots)
  | n + 1, slots =>
    let i := stop - (n + 1)
    if slots i = 0 then probe t key stop n slots
    else if t.expired (slots i) then probe t key stop n (Function.update slots i 0)
    else if matchKey (slots i) key then (true, Function.update slots i 0)
    else probe t key stop n slots

/-- A key that is found is also taken out. -/
def contains (t : FifoHashTable) (key : UInt32) : Option (Bool × FifoHashTable) :=
  t.hashTable.map fun slots =>
    let found := probe t key (t.getBucketIdx key + nItemPerBucket) nItemPerBucket slots
    (found.1, { t with hashTable := some found.2 })

def emptySlot (slots : Nat → Nat) (bucketIdx : Nat) : Option Nat :=
  ((List.range nItemPerBucket).map (bucketIdx + ·)).find? fun i => slots i = 0

def insert (t : FifoHashTable) (key : UInt32) : Option FifoHashTable :=
  t.hashTable.map fun slots =>
    let wraps := 2 ^ 32 ≤ t.numInserts
    let value := genHashtableVal key (if wraps then 0 else t.numInserts)
    let i := (emptySlot slots (t.getBucketIdx key)).getD (key.toNat % t.numElem)
    { t with
      numInserts := if wraps then 0 else t.numInserts + 1
      hashTable := some (Function.update slots i value) }

theorem contains_allocated {t : FifoHashTable} {slots : Nat → Nat} (here : t.hashTable = some slots)
    (key : UInt32) :
    ∃ found u slots', t.contains key = some (found, u) ∧ u.hashTable = some slots' := by
  rw [contains, here]
  exact ⟨_, _, _, rfl, rfl⟩

theorem insert_allocated {t : FifoHashTable} {slots : Nat → Nat} (here : t.hashTable = some slots)
    (key : UInt32) : ∃ u slots', t.insert key = some u ∧ u.hashTable = some slots' := by
  rw [insert, here]
  exact ⟨_, _, rfl, rfl⟩

end FifoHashTable

/-! ## ARCList -/

/-- What the container keeps in an item besides its links. -/
structure Item where
  inMMContainer : Bool := false
  updateTime : Nat := 0

structure State (P : Type) where
  hooks : Hooks P
  item : P → Item
  list : Side → DList P := fun _ => {}
  ghost : Side → FifoHashTable := fun _ => {}
  p : Nat := 0

def fresh (P : Type) : State P where
  hooks := fun _ => ⟨none, none⟩
  item := fun _ => {}

inductive AccessMode where
  | kRead
  | kWrite
  deriving DecidableEq

structure Config where
  updateOnWrite : Bool := false
  updateOnRead : Bool := true

section Code

variable {P : Type} [DecidableEq P]

def State.size (s : State P) : Nat := (s.list .t1).size + (s.list .t2).size

def State.link (s : State P) (side : Side) (node : P) : State P :=
  let linked := linkAtHead s.hooks (s.list side) node
  { s with hooks := linked.1, list := Function.update s.list side linked.2 }

def State.unlink (s : State P) (side : Side) (node : P) : State P :=
  let removed := HookedList.remove s.hooks (s.list side) node
  { s with hooks := removed.1, list := Function.update s.list side removed.2 }

def initGhostTables (s : State P) (cap : Nat) : State P :=
  if (s.ghost .t1).initialized then s
  else { s with ghost := fun side => ((s.ghost side).setFIFOSize (cap / 2)).initHashtable }

/-- A lookup in a ghost, for its answer and its effect. -/
def State.asks (s : State P) (side : Side) (hash : UInt32) : Option (Bool × State P) :=
  ((s.ghost side).contains hash).map fun a =>
    (a.1, { s with ghost := Function.update s.ghost side a.2 })

def onGhostHitB1 (s : State P) : State P := { s with p := min (s.p + 1) s.size }

def onGhostHitB2 (s : State P) : State P := { s with p := s.p - 1 }

variable (hashNode : P → UInt32)

def listAdd (s : State P) (node : P) : Option (State P) := do
  let (inB1, s) ← (initGhostTables s s.size).asks .t1 (hashNode node)
  if inB1 then return (onGhostHitB1 s).link .t2 node
  let (inB2, s) ← s.asks .t2 (hashNode node)
  if inB2 then return (onGhostHitB2 s).link .t2 node
  return s.link .t1 node

/-- `rememberInB1`, `rememberInB2` of a victim that was removed from its list. -/
def retire (s : State P) (side : Side) : Option (Option P × State P) :=
  match (s.list side).tail with
  | none => some (none, s)
  | some victim => do
    let s := s.unlink side victim
    let g ← (s.ghost side).insert (hashNode victim)
    return (some victim, { s with ghost := Function.update s.ghost side g })

def getEvictionCandidate (s : State P) : Option (Option P × State P) :=
  if s.size = 0 then some (none, s)
  else if s.p < (s.list .t1).size then retire hashNode s .t1
  else retire hashNode s .t2

/-! ## MMARC -/

omit hashNode in
def State.write (s : State P) (node : P) (f : Item → Item) : State P :=
  { s with item := Function.update s.item node (f (s.item node)) }

def add (s : State P) (node : P) (currTime : Nat) : Option (State P) :=
  if (s.item node).inMMContainer then some s
  else (listAdd hashNode s node).map fun s =>
    s.write node fun _ => { inMMContainer := true, updateTime := currTime }

omit hashNode in
def recordAccess (cfg : Config) (s : State P) (node : P) (mode : AccessMode) (curr : Nat) :
    State P :=
  if (mode = .kWrite ∧ !cfg.updateOnWrite) ∨ (mode = .kRead ∧ !cfg.updateOnRead) then s
  else if (s.item node).inMMContainer then s.write node fun i => { i with updateTime := curr }
  else s

/-- A candidate, and the `remove` by which the allocator consumes it. -/
def evict (s : State P) : Option (Option P × State P) := do
  match ← getEvictionCandidate hashNode s with
  | (none, s) => return (none, s)
  | (some victim, s) => return (some victim, s.write victim fun i => { i with inMMContainer := false })

inductive Op (P : Type) where
  | add (node : P) (now : Nat)
  | recordAccess (node : P) (mode : AccessMode) (now : Nat)
  | evict

def exec (cfg : Config) (s : State P) : Op P → Option (State P)
  | .add node now => add hashNode s node now
  | .recordAccess node mode now => some (recordAccess cfg s node mode now)
  | .evict => (evict hashNode s).map Prod.snd

inductive Stepped (cfg : Config) : State P → State P → Prop where
  | step {s t : State P} (op : Op P) (ran : exec hashNode cfg s op = some t) : Stepped cfg s t

end Code

/-! ## Histories -/

section Histories

variable {P : Type} {s t : State P} {l : Side → List P} {node : P} {side : Side}

def Tabled (s : State P) : Prop := ∀ side, ∃ slots, (s.ghost side).hashTable = some slots

/-- An item is marked if it is in a list, and it is in one list only. The tables are
allocated before the first item comes. -/
structure Kept (s : State P) (l : Side → List P) : Prop extends Spelled s.hooks s.list l where
  marked : ∀ x, (s.item x).inMMContainer = true ↔ ∃ side, x ∈ l side
  tables : Tabled s ∨ (∀ side, (s.ghost side).hashTable = none) ∧ ∀ side, l side = []

theorem fresh_kept (P : Type) : Kept (fresh P) fun _ => [] where
  spells := fun _ => spells_empty _
  apart := by simp
  marked := by simp [fresh]
  tables := Or.inr ⟨fun _ => rfl, fun _ => rfl⟩

variable [DecidableEq P] {hashNode : P → UInt32}

omit [DecidableEq P] in
theorem initGhostTables_tabled (kept : Kept s l) (cap : Nat) :
    Tabled (initGhostTables s cap) := by
  rw [initGhostTables]
  rcases kept.tables with tabled | ⟨none, -⟩
  · obtain ⟨slots, first⟩ := tabled .t1
    rw [if_pos (by simp [FifoHashTable.initialized, first])]
    exact tabled
  · rw [if_neg (by simp [FifoHashTable.initialized, none])]
    exact fun side => ⟨_, rfl⟩

/-- Only ghosts and the target differ. -/
structure SameLists (s t : State P) : Prop where
  hooks : t.hooks = s.hooks
  item : t.item = s.item
  list : t.list = s.list

omit [DecidableEq P] in
theorem SameLists.trans {u : State P} (first : SameLists s t) (second : SameLists t u) :
    SameLists s u :=
  ⟨second.hooks.trans first.hooks, second.item.trans first.item, second.list.trans first.list⟩

omit [DecidableEq P] in
theorem initGhostTables_same (s : State P) (cap : Nat) : SameLists s (initGhostTables s cap) := by
  rw [initGhostTables]
  split <;> exact ⟨rfl, rfl, rfl⟩

omit [DecidableEq P] in
theorem Tabled.update (tabled : Tabled s) (side : Side) {g : FifoHashTable} {slots : Nat → Nat}
    (here : g.hashTable = some slots) (a : Side) :
    ∃ slots, (update s.ghost side g a).hashTable = some slots := by
  rcases Side.eq_or_other a side with rfl | rfl
  · rw [update_self]
    exact ⟨slots, here⟩
  · rw [update_of_ne side.other_ne]
    exact tabled side.other

omit [DecidableEq P] in
theorem asks_tabled (tabled : Tabled s) (side : Side) (hash : UInt32) :
    ∃ found u, s.asks side hash = some (found, u) ∧ Tabled u ∧ SameLists s u := by
  obtain ⟨slots, here⟩ := tabled side
  obtain ⟨found, g, slots', asked, here'⟩ := FifoHashTable.contains_allocated here hash
  refine ⟨found, { s with ghost := update s.ghost side g }, ?_, tabled.update side here',
    rfl, rfl, rfl⟩
  rw [State.asks, asked]
  rfl

theorem link_links {u : State P} (spelled : Spelled s.hooks s.list l) (out : ∀ a, node ∉ l a)
    (same : SameLists s u) (side : Side) :
    Spelled (u.link side node).hooks (u.link side node).list
      (update l side (l side ++ [node])) := by
  rw [← same.hooks, ← same.list] at spelled
  exact spelled.link out side

variable (hashNode) in
theorem listAdd_links (kept : Kept s l) (out : ∀ a, node ∉ l a) :
    ∃ side u, listAdd hashNode s node = some u ∧ Tabled u ∧ u.item = s.item ∧
      Spelled u.hooks u.list (update l side (l side ++ [node])) := by
  obtain ⟨inB1, s₁, asked₁, tabled₁, same₁⟩ :=
    asks_tabled (initGhostTables_tabled kept s.size) .t1 (hashNode node)
  obtain ⟨inB2, s₂, asked₂, tabled₂, same₂⟩ := asks_tabled tabled₁ .t2 (hashNode node)
  have first := (initGhostTables_same s s.size).trans same₁
  have second := first.trans same₂
  rw [listAdd, asked₁]
  cases inB1 with
  | true =>
    have hit : SameLists s (onGhostHitB1 s₁) := first.trans ⟨rfl, rfl, rfl⟩
    exact ⟨.t2, _, rfl, tabled₁, first.item, link_links kept.toSpelled out hit .t2⟩
  | false =>
    cases inB2 with
    | true =>
      have hit : SameLists s (onGhostHitB2 s₂) := second.trans ⟨rfl, rfl, rfl⟩
      refine ⟨.t2, (onGhostHitB2 s₂).link .t2 node, ?_, tabled₂, second.item,
        link_links kept.toSpelled out hit .t2⟩
      simp [asked₂]
    | false =>
      refine ⟨.t1, s₂.link .t1 node, ?_, tabled₂, second.item,
        link_links kept.toSpelled out second .t1⟩
      simp [asked₂]

variable (hashNode) in
theorem add_keeps (kept : Kept s l) (unmarked : (s.item node).inMMContainer = false) (now : Nat) :
    ∃ m u, add hashNode s node now = some u ∧ Kept u m := by
  have out : ∀ a, node ∉ l a := fun a member => by
    have marked := (kept.marked node).mpr ⟨a, member⟩
    rw [unmarked] at marked
    exact Bool.false_ne_true marked
  obtain ⟨side, u, added, tabled, item, spelled⟩ := listAdd_links hashNode kept out
  have run : add hashNode s node now =
      some (u.write node fun _ => { inMMContainer := true, updateTime := now }) := by
    rw [add, if_neg (by simp [unmarked]), added]
    rfl
  refine ⟨_, _, run, spelled, fun x => ?_, Or.inl tabled⟩
  simp only [mem_linked, State.write, item]
  by_cases same : x = node
  · subst same
    simp
  · simp [same, kept.marked x]

theorem recordAccess_keeps (kept : Kept s l) (cfg : Config) (node : P) (mode : AccessMode)
    (now : Nat) : Kept (recordAccess cfg s node mode now) l := by
  rw [recordAccess]
  split
  · exact kept
  split
  · rename_i marked
    refine ⟨kept.toSpelled, fun x => ?_, kept.tables⟩
    by_cases same : x = node
    · subst same
      simpa [State.write, marked] using (kept.marked x).mp marked
    · simpa [State.write, same] using kept.marked x
  · exact kept

theorem retire_empty (spelled : Spelled s.hooks s.list l) (empty : (s.list side).size = 0) :
    retire hashNode s side = some (none, s) := by
  have here := spelled.spells side
  rw [here.size, List.length_eq_zero_iff] at empty
  rw [retire, here.tail, empty]
  rfl

theorem retire_takes (kept : Kept s l) (some_ : (s.list side).size ≠ 0) :
    ∃ victim ∈ l side, ∃ u, retire hashNode s side = some (some victim, u) ∧ Tabled u ∧
      u.item = s.item ∧ Spelled u.hooks u.list (update l side ((l side).erase victim)) := by
  have here := kept.spells side
  have nonempty : l side ≠ [] := fun empty => by
    rw [here.size, empty] at some_
    exact some_ rfl
  have tabled : Tabled s := kept.tables.resolve_right fun none => nonempty (none.2 side)
  obtain ⟨victim, rest, list⟩ := List.exists_cons_of_ne_nil nonempty
  have member : victim ∈ l side := list ▸ List.mem_cons_self
  have oldest : (s.list side).tail = some victim := by rw [here.tail, list]; rfl
  obtain ⟨slots, table⟩ := tabled side
  obtain ⟨g, slots', stored, table'⟩ := FifoHashTable.insert_allocated table (hashNode victim)
  refine ⟨victim, member,
    { s.unlink side victim with ghost := update s.ghost side g }, ?_,
    tabled.update side table', rfl, kept.unlink member⟩
  rw [retire, oldest]
  simp [State.unlink, stored]

/-- A list from which the code would take a victim has one. -/
def Ready (s : State P) : Prop := s.p < (s.list .t1).size ∨ 0 < (s.list .t2).size

theorem getEvictionCandidate_idle (spelled : Spelled s.hooks s.list l) (idle : ¬ Ready s) :
    getEvictionCandidate hashNode s = some (none, s) := by
  obtain ⟨low, empty⟩ := not_or.mp idle
  rw [getEvictionCandidate, if_neg low]
  split
  · rfl
  · exact retire_empty spelled (Nat.eq_zero_of_not_pos empty)

variable (hashNode) in
theorem getEvictionCandidate_ready (kept : Kept s l) (ready : Ready s) :
    ∃ side, ∃ victim ∈ l side, ∃ u, getEvictionCandidate hashNode s = some (some victim, u) ∧
      Tabled u ∧ u.item = s.item ∧
      Spelled u.hooks u.list (update l side ((l side).erase victim)) := by
  have held : s.size ≠ 0 := by
    rw [State.size]
    rcases ready with above | some_ <;> omega
  rw [getEvictionCandidate, if_neg held]
  split
  · exact ⟨.t1, retire_takes kept (by omega)⟩
  · exact ⟨.t2, retire_takes kept (by rcases ready with above | some_ <;> omega)⟩

variable (hashNode) in
theorem evict_keeps (kept : Kept s l) : ∃ m r u, evict hashNode s = some (r, u) ∧ Kept u m := by
  by_cases ready : Ready s
  · obtain ⟨side, victim, member, u, found, tabled, item, spelled⟩ :=
      getEvictionCandidate_ready hashNode kept ready
    have run : evict hashNode s = some (some victim,
        u.write victim fun i => { i with inMMContainer := false }) := by
      rw [evict, found]
      rfl
    refine ⟨_, _, _, run, spelled, fun x => ?_, Or.inl tabled⟩
    simp only [mem_unlinked (kept.spells side).chain.nodup, State.write, item]
    by_cases same : x = victim
    · subst same
      -- The victim is unmarked, and the other list does not have it either.
      have gone := kept.gone member
      simp only [mem_unlinked (kept.spells side).chain.nodup] at gone
      simpa using gone
    · simp [same, kept.marked x]
  · refine ⟨l, none, s, ?_, kept⟩
    rw [evict, getEvictionCandidate_idle kept.toSpelled ready]
    rfl

variable (hashNode) in
theorem exec_keeps (kept : Kept s l) (cfg : Config) (op : Op P) :
    ∃ m u, exec hashNode cfg s op = some u ∧ Kept u m := by
  cases op with
  | add node now =>
    cases marked : (s.item node).inMMContainer with
    | false => exact add_keeps hashNode kept marked now
    | true => exact ⟨l, s, by rw [exec, add, if_pos marked], kept⟩
  | recordAccess node mode now => exact ⟨l, _, rfl, recordAccess_keeps kept cfg node mode now⟩
  | evict =>
    obtain ⟨m, r, u, run, kept'⟩ := evict_keeps hashNode kept
    exact ⟨m, u, by rw [exec, run]; rfl, kept'⟩

theorem reached_kept {cfg : Config} (history : Reachable (Stepped hashNode cfg) (fresh P) s) :
    ∃ l, Kept s l := by
  refine history.invariant (fun s => ∃ l, Kept s l) ⟨_, fresh_kept P⟩ ?_
  rintro s t ⟨l, kept⟩ ⟨op, ran⟩
  obtain ⟨m, u, run, kept'⟩ := exec_keeps hashNode kept cfg op
  rw [ran] at run
  cases run
  exact ⟨m, kept'⟩

theorem candidate_takes_iff {cfg : Config}
    (history : Reachable (Stepped hashNode cfg) (fresh P) s) :
    (∃ victim t, getEvictionCandidate hashNode s = some (some victim, t) ∧
      Takes s.hooks s.list t.hooks t.list victim) ↔ Ready s := by
  obtain ⟨l, kept⟩ := reached_kept history
  by_cases ready : Ready s
  · refine iff_of_true ?_ ready
    obtain ⟨side, victim, member, u, found, -, -, spelled⟩ :=
      getEvictionCandidate_ready hashNode kept ready
    exact ⟨victim, u, found, kept.takes member spelled⟩
  · refine iff_of_false ?_ ready
    rintro ⟨victim, t, found, -⟩
    rw [getEvictionCandidate_idle kept.toSpelled ready] at found
    cases found

end Histories

end MmArc
