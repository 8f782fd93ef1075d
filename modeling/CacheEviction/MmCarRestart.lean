import CacheEviction.MerlinRestart
import CacheEviction.MmCarRuns
import Mathlib.Data.Fintype.EquivFin

/-!
# Saving and restoring a CAR list

`CARList::saveState` writes the two lists, the two limits and the entries of the ghost
buffers. The constructor that reads them back leaves the hands null and the capacity
and head of the ghosts at zero, and takes every entry of a buffer to be remembered, also one
whose hash was removed. Only the first `add` on a list without a capacity would size the
ghosts, and a restored list that was in use has one.

The links and flags of the items live in the saved memory and are not touched.
-/
namespace MmCar

open HookedList StepTraces MerlinShards

/-! ## The other calls of a container -/

section Code

variable {P : Type} [DecidableEq P]

def remove (s : State P) (node : P) : State P :=
  if (s.item node).inMMContainer then removeLocked s node else s

/-- `Container::replace`: the new item enters the old one's list at the head. -/
def replaceNode (s : State P) (oldNode newNode : P) : State P :=
  if !(s.item oldNode).inMMContainer ∨ (s.item newNode).inMMContainer then s
  else
    let old := s.item oldNode
    let s := removeNode s oldNode
    let s := if old.flag .t1 then addTo s .t1 newNode
      else if old.flag .t2 then addTo s .t2 newNode
      else s
    let s := if old.refBit then setRefBit s newNode else s
    let s := s.write oldNode fun i => { i with inMMContainer := false }
    s.write newNode fun i => { i with inMMContainer := true, updateTime := old.updateTime }

/-- `Container::setConfig`, as far as the list is concerned. -/
def reconfigure (s : State P) (cfg : Config) : State P :=
  if 0 < s.capacity then setMaxGhostSize s (ghostSize cfg s.capacity) else s

inductive Call (P : Type) where
  | op (op : Op P)
  | remove (node : P)
  | replace (oldNode newNode : P)
  | setConfig (cfg : Config)

variable (hashNode : P → UInt32)

/-- A container is its configuration and its list. -/
def call (cfg : Config) (s : State P) : Call P → Except Fault (Config × State P)
  | .op op => (exec hashNode cfg s op).map fun t => (cfg, t)
  | .remove node => .ok (cfg, remove s node)
  | .replace oldNode newNode => .ok (cfg, replaceNode s oldNode newNode)
  | .setConfig cfg => .ok (cfg, reconfigure s cfg)

inductive Called : Config × State P → Config × State P → Prop where
  | step {cfg : Config} {s : State P} {c : Config × State P} (k : Call P)
      (ran : call hashNode cfg s k = .ok c) : Called (cfg, s) c

def execAll (cfg : Config) (s : State P) (ops : List (Op P)) : Except Fault (State P) :=
  ops.foldlM (exec hashNode cfg) s

end Code

/-! ## The saved object -/

structure DListObject where
  compressedHead : Int
  compressedTail : Int
  size : Int

/-- The casts between `uint32_t` and `i32` keep the bits. -/
structure GhostEntryObject where
  hash : Int32
  time : Int32

structure CarListObject where
  list : Side → DListObject
  partitionSize : Int32
  capacity : Int32
  ghost : Side → List GhostEntryObject

section Object

variable {P : Type} (compressor : PtrCompressor P)

def saveList (d : DList P) : DListObject where
  compressedHead := compressor.compress d.head
  compressedTail := compressor.compress d.tail
  size := d.size

def DListObject.restore (object : DListObject) : DList P where
  head := compressor.unCompress object.compressedHead
  tail := compressor.unCompress object.compressedTail
  size := object.size.toNat

def saveEntry (e : GhostEntry) : GhostEntryObject := ⟨e.hash.toInt32, Int32.ofNat e.time⟩

def GhostEntryObject.restore (object : GhostEntryObject) : GhostEntry :=
  ⟨object.hash.toUInt32, object.time.toUInt32.toNat⟩

def CarList.saveState (l : CarList P) : CarListObject where
  list := fun side => saveList compressor (l.list side)
  partitionSize := Int32.ofNat l.partitionSize
  capacity := Int32.ofNat l.capacity
  ghost := fun side => (l.ghost side).buffer.map saveEntry

/-- `CARList(object, compressor)` -/
def CarListObject.restore (object : CarListObject) : CarList P where
  list := fun side => (object.list side).restore compressor
  ghost := fun side => ((object.ghost side).map GhostEntryObject.restore).foldl GhostList.loadInsert {}
  partitionSize := object.partitionSize.toUInt32.toNat
  capacity := object.capacity.toUInt32.toNat

def restart (s : State P) : State P :=
  { s.toMemory, (s.toCarList.saveState compressor).restore compressor with }

end Object

/-! ## Histories with all calls -/

section Histories

variable {P : Type} [DecidableEq P] {s t : State P} {l : Side → List P} {node : P} {side : Side}

theorem Listed.removeNode_eq (listed : Listed s l) (member : node ∈ l side) :
    removeNode s node = (s.unlink side node).write node Item.unsetAll := by
  have flag : isIn s side node = true := (listed.flags side node).mpr member
  cases side with
  | t1 => rw [removeNode, if_pos flag]
  | t2 =>
    have other : ¬ isIn s .t1 node = true := fun also =>
      listed.apart .t2 node member ((listed.flags .t1 node).mp also)
    rw [removeNode, if_neg other, if_pos flag]

theorem removeLocked_keeps (kept : Kept s l) (member : node ∈ l side) :
    Kept (removeLocked s node) (Function.update l side ((l side).erase node)) := by
  rw [removeLocked, kept.removeNode_eq member]
  have gone : Listed ((s.unlink side node).write node Item.unsetAll) _ :=
    kept.unlinked member rfl rfl rfl
  refine kept.left member ?_ ?_ fun x other => ?_
  · exact gone.write node (f := fun i => { i with inMMContainer := false }) fun _ => rfl
  · simp [State.write]
  · simp [State.write, State.unlink, other]

theorem remove_since (since : Since Limited s) (node : P) : Since Limited (remove s node) := by
  rw [remove]
  split
  · rename_i marked
    obtain ⟨l, kept, state⟩ := since
    obtain ⟨side, member⟩ := (kept.marked node).mp marked
    obtain ⟨-, partitionSize, capacity⟩ := removeLocked_same s node
    refine ⟨_, removeLocked_keeps kept member, Or.inr ?_⟩
    rcases state with rfl | limited
    · cases marked
    · exact limited.congr partitionSize capacity
  · exact since

theorem swept_bit (s : State P) (bit : Bool) (node : P) :
    Swept s (if bit then setRefBit s node else s) := by
  split
  · exact swept_write s node (f := fun i => { i with refBit := true }) (fun _ => rfl) fun _ => rfl
  · exact Swept.refl s

theorem replaceNode_keeps (kept : Kept s l) {oldNode newNode : P} (member : oldNode ∈ l side)
    (unmarked : (s.item newNode).inMMContainer = false) :
    ∃ m, Kept (replaceNode s oldNode newNode) m := by
  have marked := (kept.marked oldNode).mpr ⟨side, member⟩
  have out : ∀ a, newNode ∉ Function.update l side ((l side).erase oldNode) a := fun a inside => by
    have still := ((mem_unlinked (kept.spells side).chain.nodup).mp inside).1
    rw [(kept.marked newNode).mpr ⟨a, still⟩] at unmarked
    cases unmarked
  have gone : Listed ((s.unlink side oldNode).write oldNode Item.unsetAll) _ :=
    kept.unlinked member rfl rfl rfl
  have chosen : ∀ u : State P, (if (s.item oldNode).flag .t1 then addTo u .t1 newNode
      else if (s.item oldNode).flag .t2 then addTo u .t2 newNode else u) = addTo u side newNode := by
    intro u
    have flag : (s.item oldNode).flag side = true := (kept.flags side oldNode).mpr member
    cases side with
    | t1 => rw [if_pos flag]
    | t2 =>
      have apart : ¬ (s.item oldNode).flag .t1 = true := fun also =>
        kept.apart .t2 oldNode member ((kept.flags .t1 oldNode).mp also)
      rw [if_neg apart, if_pos flag]
  rw [replaceNode, if_neg (by simp [marked, unmarked]), kept.removeNode_eq member]
  simp only [chosen]
  have swept := swept_bit (addTo ((s.unlink side oldNode).write oldNode Item.unsetAll) side newNode)
    (s.item oldNode).refBit newNode
  have entered := swept.listed (gone.addTo out side)
  have unmarkedOld := entered.write oldNode (f := fun i => { i with inMMContainer := false })
    fun _ => rfl
  refine ⟨_, (removeLocked_keeps kept member).entered (unmarkedOld.write newNode
    (f := fun i => { i with inMMContainer := true, updateTime := (s.item oldNode).updateTime })
      fun _ => rfl) ?_ fun x apart => ?_⟩
  · simp [State.write]
  · rw [removeLocked, kept.removeNode_eq member]
    by_cases same : x = oldNode
    · subst same
      simp [State.write, apart]
    · have mark := (swept.marked x).trans (addTo_marked _ side newNode x)
      simp only [State.write, Function.update_of_ne apart, Function.update_of_ne same] at mark ⊢
      exact mark

theorem replaceNode_same (s : State P) (oldNode newNode : P) :
    (replaceNode s oldNode newNode).partitionSize = s.partitionSize ∧
      (replaceNode s oldNode newNode).capacity = s.capacity := by
  simp only [replaceNode, removeNode]
  split_ifs <;> exact ⟨rfl, rfl⟩

theorem replaceNode_since (since : Since Limited s) (oldNode newNode : P) :
    Since Limited (replaceNode s oldNode newNode) := by
  by_cases refused : !(s.item oldNode).inMMContainer ∨ (s.item newNode).inMMContainer
  · rw [replaceNode, if_pos refused]
    exact since
  · obtain ⟨marked, unmarked⟩ := not_or.mp refused
    simp only [Bool.not_eq_true', Bool.not_eq_false, Bool.not_eq_true] at marked unmarked
    obtain ⟨l, kept, state⟩ := since
    obtain ⟨side, member⟩ := (kept.marked oldNode).mp marked
    obtain ⟨m, kept'⟩ := replaceNode_keeps kept member unmarked
    obtain ⟨partitionSize, capacity⟩ := replaceNode_same s oldNode newNode
    refine ⟨m, kept', Or.inr ?_⟩
    rcases state with rfl | limited
    · cases marked
    · exact limited.congr partitionSize capacity

omit [DecidableEq P] in
theorem reconfigure_since (since : Since Limited s) (cfg : Config) :
    Since Limited (reconfigure s cfg) := by
  obtain ⟨l, kept, state⟩ := since
  rw [reconfigure]
  split
  · rename_i used
    refine ⟨l, kept.congr rfl rfl, Or.inr ?_⟩
    rcases state with rfl | limited
    · cases used
    · exact limited.congr rfl rfl
  · exact ⟨l, kept, state⟩

variable {hashNode : P → UInt32} {cfg : Config}

theorem call_since (since : Since Limited s) {k : Call P} {c : Config × State P}
    (ran : call hashNode cfg s k = .ok c) : Since Limited c.2 := by
  cases k with
  | op op =>
    cases run : exec hashNode cfg s op with
    | error e =>
      rw [call, run] at ran
      cases ran
    | ok t =>
      rw [call, run] at ran
      cases ran
      exact exec_since limited_stable since run
  | remove node =>
    cases ran
    exact remove_since since node
  | replace oldNode newNode =>
    cases ran
    exact replaceNode_since since oldNode newNode
  | setConfig cfg =>
    cases ran
    exact reconfigure_since since cfg

theorem reached_limited {start : Config}
    (history : Reachable (Called hashNode) (start, fresh P) (cfg, s)) : Since Limited s := by
  refine history.invariant (fun c => Since Limited c.2) fresh_since ?_
  rintro _ _ since ⟨k, ran⟩
  exact call_since since ran

/-! ## What is restored -/

section Restored

omit [DecidableEq P]
variable (compressor : PtrCompressor P)

theorem restart_list (s : State P) : (restart compressor s).list = s.list := by
  funext side
  simp [restart, CarListObject.restore, CarList.saveState, DListObject.restore, saveList,
    compressor.unCompress_compress]

theorem restart_limits (small : s.partitionSize ≤ 1000) (capacity : s.capacity ≤ 1000) :
    (restart compressor s).partitionSize = s.partitionSize ∧
      (restart compressor s).capacity = s.capacity := by
  simp only [restart, CarListObject.restore, CarList.saveState]
  constructor
  · simp
    omega
  · simp
    omega

theorem restart_unsized (s : State P) (side : Side) :
    ((restart compressor s).ghost side).capacity = 0 := by
  have loaded : ∀ (es : List GhostEntry) (g : GhostList),
      (es.foldl GhostList.loadInsert g).capacity = g.capacity := by
    intro es
    induction es with
    | nil => exact fun _ => rfl
    | cons e es ih => exact fun g => ih (g.loadInsert e)
  exact loaded _ {}

theorem restart_kept (kept : Kept s l) : Kept (restart compressor s) l :=
  kept.congr rfl (restart_list compressor s)

theorem restart_fresh : restart compressor (fresh P) = fresh P := by
  simp [restart, fresh, CarListObject.restore, CarList.saveState, DListObject.restore, saveList,
    compressor.unCompress_compress]
  rfl

end Restored

/-! ## A run that fails -/

/-- The limits are set, but the ghosts have no capacity. -/
structure Unsized (s : State P) : Prop extends Limited s where
  unsized : ∀ side, (s.ghost side).capacity = 0

variable (hashNode) in
def known (s : State P) (x : P) : Bool := isInGhost s .t1 (hashNode x) || isInGhost s .t2 (hashNode x)

variable (hashNode) in
/-- The number of items whose hash is in a ghost. -/
def recalled (s : State P) (l : Side → List P) : Nat :=
  (l .t1).countP (known hashNode s) + (l .t2).countP (known hashNode s)

omit [DecidableEq P] in
theorem Kept.size_eq (kept : Kept s l) : s.size = (l .t1).length + (l .t2).length := by
  rw [State.size, (kept.spells .t1).size, (kept.spells .t2).size]

omit [DecidableEq P] in
theorem recalled_linked (s : State P) (l : Side → List P) (side : Side) (node : P) :
    recalled hashNode s (Function.update l side (l side ++ [node])) =
      recalled hashNode s l + if known hashNode s node then 1 else 0 := by
  cases side <;> simp [recalled, List.countP_append, List.countP_singleton] <;> omega

theorem recalled_unlinked (s : State P) (l : Side → List P) (member : node ∈ l side)
    (here : known hashNode s node = true) :
    recalled hashNode s (Function.update l side ((l side).erase node)) < recalled hashNode s l := by
  have counted : 0 < (l side).countP (known hashNode s) := List.countP_pos_iff.mpr ⟨node, member, here⟩
  have fewer : ((l side).erase node).countP (known hashNode s) <
      (l side).countP (known hashNode s) := by
    rw [List.countP_erase, if_pos ⟨member, here⟩]
    omega
  cases side with
  | t1 => exact Nat.add_lt_add_right fewer _
  | t2 => exact Nat.add_lt_add_left fewer _

omit [DecidableEq P] in
theorem recalled_mono (l : Side → List P)
    (fewer : ∀ side, (t.ghost side).hashSet ⊆ (s.ghost side).hashSet) :
    recalled hashNode t l ≤ recalled hashNode s l := by
  have imp : ∀ x, known hashNode t x = true → known hashNode s x = true := by
    intro x
    simp only [known, isInGhost, GhostList.contains, Bool.or_eq_true, decide_eq_true_eq]
    exact Or.imp (fun h => fewer _ h) fun h => fewer _ h
  exact Nat.add_le_add (List.countP_mono_left fun x _ => imp x) (List.countP_mono_left fun x _ => imp x)

variable (hashNode) in
theorem add_recalled (kept : Kept s l) (unsized : Unsized s) (cfg : Config)
    (unmarked : (s.item node).inMMContainer = false) (now : Nat) :
    ∃ m, Kept (add hashNode cfg s node now).2 m ∧ Unsized (add hashNode cfg s node now).2 ∧
      recalled hashNode (add hashNode cfg s node now).2 m ≤ recalled hashNode s l ∧
      (add hashNode cfg s node now).2.size = s.size + 1 := by
  obtain ⟨side, kept'⟩ := add_keeps hashNode kept cfg unmarked now
  have limited := add_limited hashNode cfg (Or.inr unsized.toLimited) unmarked now
  have ghost := add_ghost hashNode cfg unmarked now
  have set : s.capacity ≠ 0 := by rw [unsized.capacity]; decide
  rw [initCapacity, if_neg set] at ghost
  generalize (add hashNode cfg s node now).2 = t at kept' limited ghost
  have forgotten : known hashNode t node = false := by
    simp [known, isInGhost, GhostList.contains, GhostList.remove, ghost]
  refine ⟨_, kept', ⟨limited, fun a => ?_⟩, ?_, ?_⟩
  · rw [ghost]
    exact unsized.unsized a
  · rw [recalled_linked, forgotten]
    refine recalled_mono l fun a => ?_
    rw [ghost]
    exact Finset.erase_subset _ _
  · rw [kept'.size_eq, kept.size_eq]
    cases side <;> simp <;> omega

omit [DecidableEq P] in
theorem Limited.ready (limited : Limited s) (many : 1000 ≤ s.size) : Ready s := by
  have target := limited.target
  rw [State.size] at many
  by_cases some_ : 0 < (s.list .t2).size
  · exact Or.inr some_
  · exact Or.inl (by omega)

theorem evict_recalled (kept : Kept s l) (unsized : Unsized s) (ready : Ready s) (now : Nat) :
    (∃ e, evict hashNode s now = .error e) ∨
      ∃ r t m, evict hashNode s now = .ok (r, t) ∧ Kept t m ∧ Unsized t ∧
        recalled hashNode t m < recalled hashNode s l := by
  obtain ⟨side, victim, member, run⟩ := evict_ready hashNode kept ready
  obtain ⟨fails, works⟩ := run now
  by_cases here : hashNode victim ∈ (s.ghost side).hashSet
  · right
    obtain ⟨t, ran, kept', ghost, partitionSize, capacity⟩ := works (s.ghost side) (if_pos here)
    rw [Function.update_eq_self] at ghost
    refine ⟨_, t, _, ran, kept', ⟨unsized.toLimited.congr partitionSize capacity, ?_⟩, ?_⟩
    · rw [ghost]
      exact unsized.unsized
    · have familiar : known hashNode s victim = true := by
        simp only [known, isInGhost, GhostList.contains, Bool.or_eq_true, decide_eq_true_eq]
        cases side with
        | t1 => exact Or.inl here
        | t2 => exact Or.inr here
      refine Nat.lt_of_le_of_lt (recalled_mono _ fun a => ?_) (recalled_unlinked s l member familiar)
      rw [ghost]
  · left
    obtain ⟨e, failed⟩ := GhostList.insert_unsized (unsized.unsized side) here now
    exact ⟨e, fails e failed⟩

section Fails

variable (hashNode) (cfg : Config) [Infinite P]

theorem fill (kept : Kept s l) (unsized : Unsized s) (k : Nat) :
    ∃ ops t m, execAll hashNode cfg s ops = .ok t ∧ Kept t m ∧ Unsized t ∧
      recalled hashNode t m ≤ recalled hashNode s l ∧ k ≤ t.size := by
  induction k with
  | zero => exact ⟨[], s, l, rfl, kept, unsized, Nat.le_refl _, Nat.zero_le _⟩
  | succ k ih =>
    obtain ⟨ops, t, m, ran, kept', unsized', fewer, many⟩ := ih
    obtain ⟨node, new⟩ := Infinite.exists_notMem_finset (m .t1 ++ m .t2).toFinset
    have unmarked : (t.item node).inMMContainer = false := by
      rw [← Bool.not_eq_true, kept'.marked]
      rintro ⟨side, inside⟩
      cases side <;> simp [inside] at new
    obtain ⟨m', kept'', unsized'', fewer', size⟩ := add_recalled hashNode kept' unsized' cfg unmarked 0
    refine ⟨ops ++ [.add node 0], _, m', ?_, kept'', unsized'', fewer'.trans fewer, by omega⟩
    rw [execAll] at ran
    rw [execAll, List.foldlM_append, ran]
    rfl

theorem unsized_fails (kept : Kept s l) (unsized : Unsized s) :
    ∃ ops e, execAll hashNode cfg s ops = .error e := by
  -- The induction is on the number of items that the ghosts recall.
  generalize count : recalled hashNode s l = n
  induction n using Nat.strong_induction_on generalizing s l with
  | _ n ih =>
    obtain ⟨ops, t, m, ran, kept', unsized', fewer, many⟩ := fill hashNode cfg kept unsized 1000
    have ready := unsized'.toLimited.ready many
    rw [execAll] at ran
    rcases evict_recalled kept' unsized' ready 0 with ⟨e, failed⟩ | ⟨r, u, k, took, kept'', unsized'', less⟩
    · refine ⟨ops ++ [.evict 0], e, ?_⟩
      rw [execAll, List.foldlM_append, ran]
      show (exec hashNode cfg t (.evict 0)) >>= _ = _
      rw [exec, failed]
      rfl
    · obtain ⟨later, e, failed⟩ := ih _ (by omega) kept'' unsized'' rfl
      refine ⟨ops ++ (.evict 0 :: later), e, ?_⟩
      rw [execAll] at failed ⊢
      rw [List.foldlM_append, ran]
      show (exec hashNode cfg t (.evict 0)) >>= _ = _
      rw [exec, took]
      exact failed

end Fails

/-! ## A run that does not fail -/

theorem exec_works (some_ : 1 ≤ ghostSize cfg 1000) (since : Since (Used cfg) s) (op : Op P) :
    ∃ t, exec hashNode cfg s op = .ok t := by
  cases op with
  | add node now => exact ⟨_, rfl⟩
  | recordAccess node mode now => exact ⟨_, rfl⟩
  | evict now =>
    by_cases ready : Ready s
    · obtain ⟨l, kept, state⟩ := since
      have used : Used cfg s := state.resolve_left fun start => by
        subst start
        simp [Ready, fresh] at ready
      obtain ⟨side, victim, member, run⟩ := evict_ready hashNode kept ready
      obtain ⟨g, stored, -⟩ := (used.ghosts side).insert some_ (hashNode victim) now
      obtain ⟨t, ran, -⟩ := (run now).2 g stored
      exact ⟨t, by rw [exec, ran]; rfl⟩
    · exact ⟨s, by rw [exec, evict_idle ready]; rfl⟩

theorem execAll_works (some_ : 1 ≤ ghostSize cfg 1000) (since : Since (Used cfg) s)
    (ops : List (Op P)) : ∃ t, execAll hashNode cfg s ops = .ok t := by
  induction ops generalizing s with
  | nil => exact ⟨s, rfl⟩
  | cons op ops ih =>
    obtain ⟨t, ran⟩ := exec_works some_ since op
    obtain ⟨u, rest⟩ := ih (exec_since used_stable since ran)
    refine ⟨u, ?_⟩
    rw [execAll, List.foldlM_cons, ran]
    exact rest

/-! ## The restored list against the original -/

variable (hashNode cfg) in
/-- Whatever is called later, no access of `t` to a ghost fails, and the ghosts of `t` answer
as those of `s` do. -/
def Agrees (s t : State P) : Prop := ∀ ops, ∃ v, execAll hashNode cfg t ops = .ok v ∧
  ∀ u, execAll hashNode cfg s ops = .ok u → ∀ side hash, isInGhost v side hash = isInGhost u side hash

theorem agrees_used [Infinite P] {l : Side → List P} (kept : Kept s l) (limited : Limited s)
    (compressor : PtrCompressor P) : ¬ Agrees hashNode cfg s (restart compressor s) := by
  intro agrees
  obtain ⟨partitionSize, capacity⟩ :=
    restart_limits compressor limited.target (Nat.le_of_eq limited.capacity)
  have unsized : Unsized (restart compressor s) :=
    ⟨limited.congr partitionSize capacity, restart_unsized compressor s⟩
  obtain ⟨ops, e, failed⟩ := unsized_fails hashNode cfg (restart_kept compressor kept) unsized
  obtain ⟨v, ran, -⟩ := agrees ops
  rw [failed] at ran
  cases ran

theorem agrees_fresh [Infinite P] (compressor : PtrCompressor P) :
    Agrees hashNode cfg (fresh P) (restart compressor (fresh P)) ↔ 1 ≤ ghostSize cfg 1000 := by
  rw [restart_fresh]
  constructor
  · intro agrees
    by_contra none
    obtain ⟨node⟩ : Nonempty P := inferInstance
    -- One `add` sets the limits, here to nothing.
    have unmarked : ((fresh P).item node).inMMContainer = false := rfl
    have used : Used cfg _ := add_used hashNode (Or.inl rfl) unmarked 0
    obtain ⟨side, kept⟩ := add_keeps hashNode (fresh_kept P) cfg unmarked 0
    obtain ⟨ops, e, failed⟩ := unsized_fails hashNode cfg kept
      ⟨used.toLimited, fun side => by rw [(used.ghosts side).capacity]; omega⟩
    obtain ⟨v, ran, -⟩ := agrees (.add node 0 :: ops)
    have later : execAll hashNode cfg (add hashNode cfg (fresh P) node 0).2 ops = .ok v := ran
    rw [failed] at later
    cases later
  · intro some_ ops
    obtain ⟨v, ran⟩ : ∃ v, execAll hashNode cfg (fresh P) ops = .ok v :=
      execAll_works some_ fresh_since ops
    refine ⟨v, ran, fun u same side hash => ?_⟩
    rw [ran] at same
    cases same
    rfl

/-- A restart keeps the two lists and the limits of every list reached. It gives a list
that behaves as the original exactly if nothing was ever added (and the configured ghosts
are not empty). -/
theorem restart_agrees_iff [Infinite P] (compressor : PtrCompressor P) {start : Config}
    (history : Reachable (Called hashNode) (start, fresh P) (cfg, s)) :
    (∃ l, Spelled s.hooks s.list l ∧
      Spelled (restart compressor s).hooks (restart compressor s).list l) ∧
    (restart compressor s).partitionSize = s.partitionSize ∧
    (restart compressor s).capacity = s.capacity ∧
    (Agrees hashNode cfg s (restart compressor s) ↔ s.capacity = 0 ∧ 1 ≤ ghostSize cfg 1000) := by
  obtain ⟨l, kept, state⟩ := reached_limited history
  have restored := (restart_kept compressor kept).toSpelled
  rcases state with rfl | limited
  · have limits := restart_limits compressor (s := fresh P) (Nat.zero_le _) (Nat.zero_le _)
    refine ⟨⟨l, kept.toSpelled, restored⟩, limits.1, limits.2, ?_⟩
    rw [agrees_fresh]
    exact (and_iff_right rfl).symm
  · have limits := restart_limits compressor limited.target (Nat.le_of_eq limited.capacity)
    refine ⟨⟨l, kept.toSpelled, restored⟩, limits.1, limits.2, ?_⟩
    refine iff_of_false (agrees_used kept limited compressor) fun ⟨unset, _⟩ => ?_
    rw [limited.capacity] at unset
    cases unset

end Histories

def hashOf (n : Nat) : UInt32 := n.toUInt32

/-- Items are compressed to their number, from 1 on. -/
def numbered : PtrCompressor Nat where
  compress := fun p => p.elim 0 fun n => n + 1
  unCompress := fun i => if i = 0 then none else some (i - 1).toNat
  unCompress_compress := by
    rintro (_ | n)
    · rfl
    · simp
      omega

/-- Nothing was added to a new list. -/
theorem restart_agrees_iff_fresh :
    Agrees hashOf default (fresh Nat) (restart numbered (fresh Nat)) := by
  have history : Reachable (Called hashOf) (default, fresh Nat) (default, fresh Nat) := .refl
  exact (restart_agrees_iff numbered history).2.2.2.mpr ⟨rfl, by decide +kernel⟩

/-- An item that was added before the restart, is read and then evicted: the original remembers
its hash, the restored list reads outside the empty buffer. -/
theorem restart_fails : ∃ s, Reachable (Called hashOf) (default, fresh Nat) (default, s) ∧
    (∃ t, execAll hashOf default s [.recordAccess 0 .kRead 60, .evict 60] = .ok t ∧
      isInGhost t .t2 (hashOf 0) = true) ∧
    execAll hashOf default (restart numbered s) [.recordAccess 0 .kRead 60, .evict 60] =
      .error .outOfRange := by
  refine ⟨_, Reachable.refl.next (.step (.op (.add 0 0)) rfl), ?_, rfl⟩
  -- The ghost sizes of the original are `double`s, so the kernel does the evaluation.
  have remembered : (execAll hashOf default (add hashOf default (fresh Nat) 0 0).2
      [.recordAccess 0 .kRead 60, .evict 60]).map (fun t => isInGhost t .t2 (hashOf 0)) =
      .ok true := by
    decide +kernel
  show ∃ t, execAll hashOf default (add hashOf default (fresh Nat) 0 0).2 _ = .ok t ∧ _
  cases ran : execAll hashOf default (add hashOf default (fresh Nat) 0 0).2
      [.recordAccess 0 .kRead 60, .evict 60] with
  | error e =>
    rw [ran] at remembered
    cases remembered
  | ok t =>
    rw [ran] at remembered
    exact ⟨t, rfl, Except.ok.inj remembered⟩

end MmCar
