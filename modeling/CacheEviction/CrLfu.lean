import Mathlib.Algebra.Order.Group.Int
import Mathlib.Algebra.Order.Group.Nat
import Mathlib.Data.List.Nodup
import Mathlib.Logic.Function.Basic

/-!
# CR_LFU

`CR_LFU.c`, the frequency expert of Cacheus. Objects of one frequency hang off one
node, the newest last, and the last object of the least frequency is the victim. The
least frequency is kept in `min_freq`, which is -1 after the last object was evicted,
and searched for upwards when its node runs empty.

A node lists ids from `first_obj` to `last_obj`. Where the code dereferences a null
pointer the result is `none`. A frequency has 64 bits in the code, which no count of
requests fills, and no bound here; the 32 bits of `n_obj` are kept.
-/
namespace CrLfu

structure Obj where
  objSize : UInt32
  freq : Int
  deriving DecidableEq

structure FreqNode where
  nObj : UInt32
  objs : List Nat
  deriving DecidableEq

structure State where
  objs : Nat → Option Obj := fun _ => none
  freqMap : Int → Option FreqNode
  minFreq : Int := 1
  maxFreq : Int := 1

/-- `CR_LFU_init`: `freq_one_node` is there from the start. -/
def crLfuInit : State where
  freqMap := fun f => if f = 1 then some ⟨0, []⟩ else none

/-! ## Code -/

def FreqNode.push (node : FreqNode) (id : Nat) : FreqNode := ⟨node.nObj + 1, node.objs ++ [id]⟩

def FreqNode.drop (node : FreqNode) (id : Nat) : FreqNode := ⟨node.nObj - 1, node.objs.erase id⟩

def State.setNode (s : State) (freq : Int) (node : FreqNode) : State :=
  { s with freqMap := Function.update s.freqMap freq (some node) }

def State.store (s : State) (id : Nat) (obj : Option Obj) : State :=
  { s with objs := Function.update s.objs id obj }

/-- A frequency that is new gets a node. -/
def State.link (s : State) (id : Nat) (freq : Int) : State :=
  s.setNode freq (((s.freqMap freq).getD ⟨0, []⟩).push id)

def State.unlink (s : State) (id : Nat) (freq : Int) : Option State :=
  (s.freqMap freq).map fun node => s.setNode freq (node.drop id)

/-- The search for the next frequency that some object has. -/
def State.nextFreq (s : State) : Option Int :=
  ((List.range (s.maxFreq - s.minFreq).toNat).map fun i : Nat => s.minFreq + 1 + i).find? fun freq =>
    (s.freqMap freq).any fun node => 0 < node.nObj

def State.raiseMin (s : State) : State := { s with minFreq := s.nextFreq.getD s.minFreq }

/-- `CR_LFU_find` with `update_cache` set. -/
def crLfuFind (s : State) (id : Nat) : Option (Bool × State) :=
  match s.objs id with
  | none => some (false, s)
  | some obj => do
    let freq := obj.freq + 1
    let s := { s.store id (some { obj with freq := freq }) with maxFreq := max s.maxFreq freq }
    let s ← s.unlink id obj.freq
    let s := s.link id freq
    let old ← s.freqMap obj.freq
    if s.minFreq = obj.freq ∧ old.nObj = 0 then return (true, s.raiseMin)
    return (true, s)

/-- `CR_LFU_insert`; `recalled` is the frequency in the history of `SR_LRU`, if the
object is there. -/
def crLfuInsert (s : State) (id : Nat) (objSize : UInt32) (recalled : Option Int) : State :=
  let freq := (recalled.map (· + 1)).getD 1
  let s := s.store id (some ⟨objSize, freq⟩)
  let s : State := if freq = 1 then { s with minFreq := 1 } else s
  let s : State := { s.link id freq with maxFreq := max s.maxFreq freq }
  if freq < s.minFreq ∨ s.minFreq = -1 then { s with minFreq := freq } else s

/-- `CR_LFU_to_evict`, of which the caller reads the id. -/
def crLfuToEvict (s : State) : Option Nat := do
  let node ← s.freqMap s.minFreq
  node.objs.getLast?

/-- `CR_LFU_evict`, apart from handing over the frequency. -/
def crLfuEvict (s : State) : Option ((Nat × Obj) × State) := do
  let node ← s.freqMap s.minFreq
  let id ← node.objs.getLast?
  let obj ← s.objs id
  let s := s.setNode s.minFreq ⟨node.nObj - 1, node.objs.dropLast⟩
  let minFreq := if node.objs.dropLast = [] then s.nextFreq.getD (-1) else s.minFreq
  return ((id, obj), { s.store id none with minFreq := minFreq })

/-- `CR_LFU_remove`, apart from handing over the frequency. -/
def crLfuRemove (s : State) (id : Nat) : Option (Option Obj × State) :=
  match s.objs id with
  | none => some (none, s)
  | some obj => do
    let s ← s.unlink id obj.freq
    let s := s.store id none
    let node ← s.freqMap s.minFreq
    if node.nObj = 0 then return (some obj, (s.setNode s.minFreq { node with objs := [] }).raiseMin)
    return (some obj, s)

/-! ## Nodes and objects -/

variable {s t : State} {id : Nat} {obj : Obj} {freq : Int} {node : FreqNode}
variable {recalled : Option Int}

theorem update_eq_some {K V : Type} [DecidableEq K] {f : K → Option V} {k x : K} {entry : Option V}
    {y : V} (here : Function.update f k entry x = some y) :
    x = k ∧ entry = some y ∨ x ≠ k ∧ f x = some y := by
  by_cases same : x = k
  · subst same
    rw [Function.update_self] at here
    exact Or.inl ⟨rfl, here⟩
  · rw [Function.update_of_ne same] at here
    exact Or.inr ⟨same, here⟩

/-- The objects are on the nodes of their frequencies, and `n_obj` counts those of a
node. -/
structure Indexed (s : State) : Prop where
  count : ∀ {freq node}, s.freqMap freq = some node → node.nObj.toNat = node.objs.length
  nodup : ∀ {freq node}, s.freqMap freq = some node → node.objs.Nodup
  listed : ∀ freq id, (∃ node, s.freqMap freq = some node ∧ id ∈ node.objs) ↔
    ∃ obj, s.objs id = some obj ∧ obj.freq = freq
  bounds : ∀ {id obj}, s.objs id = some obj → 1 ≤ obj.freq ∧ obj.freq ≤ s.maxFreq

theorem crLfuInit_indexed : Indexed crLfuInit where
  count := by
    intro freq node here
    simp only [crLfuInit] at here
    split at here
    · cases here
      rfl
    · cases here
  nodup := by
    intro freq node here
    simp only [crLfuInit] at here
    split at here
    · cases here
      exact List.nodup_nil
    · cases here
  listed := by
    intro freq id
    simp only [crLfuInit, reduceCtorEq, false_and, exists_false, iff_false, not_exists, not_and]
    intro node here
    split at here
    · cases here
      exact List.not_mem_nil
    · cases here
  bounds := by
    intro id obj here
    cases here

theorem Indexed.node_of (indexed : Indexed s) (here : s.objs id = some obj) :
    ∃ node, s.freqMap obj.freq = some node ∧ id ∈ node.objs :=
  (indexed.listed obj.freq id).mpr ⟨obj, here, rfl⟩

theorem Indexed.freq_of (indexed : Indexed s) (here : s.freqMap freq = some node)
    (member : id ∈ node.objs) : ∃ obj, s.objs id = some obj ∧ obj.freq = freq :=
  (indexed.listed freq id).mp ⟨node, here, member⟩

theorem Indexed.positive_iff (indexed : Indexed s) (here : s.freqMap freq = some node) :
    0 < node.nObj ↔ node.objs ≠ [] := by
  rw [UInt32.lt_iff_toNat_lt, indexed.count here, ← List.length_pos_iff]
  rfl

theorem Indexed.zero_iff (indexed : Indexed s) (here : s.freqMap freq = some node) :
    node.nObj = 0 ↔ node.objs = [] := by
  rw [← UInt32.toNat_inj, indexed.count here, ← List.length_eq_zero_iff]
  rfl

theorem Indexed.replace (indexed : Indexed s) {entry : Option Obj} {maxFreq : Int}
    (higher : s.maxFreq ≤ maxFreq) (count : node.nObj.toNat = node.objs.length)
    (nodup : node.objs.Nodup)
    (others : ∀ x, x ≠ id → (x ∈ node.objs ↔ ∃ obj, s.objs x = some obj ∧ obj.freq = freq))
    (own : id ∈ node.objs ↔ entry.isSome)
    (apart : ∀ obj, s.objs id = some obj → obj.freq = freq)
    (fits : ∀ obj ∈ entry, obj.freq = freq ∧ 1 ≤ freq ∧ freq ≤ maxFreq) :
    Indexed { (s.setNode freq node).store id entry with maxFreq := maxFreq } := by
  refine ⟨fun {f n} here => ?_, fun {f n} here => ?_, fun f x => ?_, fun {x obj} here => ?_⟩
  · rcases update_eq_some here with ⟨-, ⟨⟩⟩ | ⟨-, old⟩
    · exact count
    · exact indexed.count old
  · rcases update_eq_some here with ⟨-, ⟨⟩⟩ | ⟨-, old⟩
    · exact nodup
    · exact indexed.nodup old
  · simp only [State.store, State.setNode]
    by_cases sameId : x = id
    · subst sameId
      simp only [Function.update_self]
      by_cases same : f = freq
      · subst same
        simp only [Function.update_self, Option.some.injEq, exists_eq_left', own]
        cases entry with
        | none => simp
        | some obj => simp [(fits obj rfl).1]
      · simp only [Function.update_of_ne same]
        refine iff_of_false (fun ⟨n, here, member⟩ => ?_) fun ⟨obj, here, atFreq⟩ => ?_
        · obtain ⟨obj, stored, atFreq⟩ := indexed.freq_of here member
          exact same (atFreq.symm.trans (apart obj stored))
        · exact same (atFreq.symm.trans (fits obj here).1)
    · simp only [Function.update_of_ne sameId]
      by_cases same : f = freq
      · subst same
        simp only [Function.update_self, Option.some.injEq, exists_eq_left', others x sameId]
      · simp only [Function.update_of_ne same]
        exact indexed.listed f x
  · rcases update_eq_some here with ⟨-, new⟩ | ⟨-, old⟩
    · obtain ⟨atFreq, low, high⟩ := fits obj new
      exact ⟨atFreq ▸ low, atFreq ▸ high⟩
    · obtain ⟨low, high⟩ := indexed.bounds old
      exact ⟨low, high.trans higher⟩

theorem Indexed.unlink (indexed : Indexed s) (here : s.objs id = some obj) :
    ∃ t, s.unlink id obj.freq = some t ∧ Indexed (t.store id none) := by
  obtain ⟨node, found, member⟩ := indexed.node_of here
  have nodup := indexed.nodup found
  refine ⟨s.setNode obj.freq (node.drop id), by rw [State.unlink, found]; rfl, ?_⟩
  refine indexed.replace (Int.le_refl s.maxFreq) ?_ (nodup.erase id) ?_ ?_ ?_ ?_
  · have count := indexed.count found
    have pos := List.length_pos_of_mem member
    rw [FreqNode.drop, UInt32.toNat_sub_of_le, count, List.length_erase_of_mem member]
    · rfl
    · rw [UInt32.le_iff_toNat_le, count]
      exact pos
  · intro x other
    rw [FreqNode.drop, List.mem_erase_of_ne other, ← indexed.listed]
    simp [found]
  · simp [FreqNode.drop, nodup.mem_erase_iff]
  · intro other same
    rw [here] at same
    cases same
    rfl
  · intro other impossible
    cases impossible

theorem Indexed.link (indexed : Indexed s) (obj : Obj) (new : s.objs id = none) (low : 1 ≤ obj.freq)
    (room : ∀ node, s.freqMap obj.freq = some node → node.objs.length + 1 < 2 ^ 32) :
    Indexed { (s.link id obj.freq).store id (some obj) with
      maxFreq := max s.maxFreq obj.freq } := by
  have absent : ∀ node, s.freqMap obj.freq = some node → id ∉ node.objs := by
    intro node here member
    obtain ⟨other, stored, -⟩ := indexed.freq_of here member
    rw [new] at stored
    cases stored
  refine indexed.replace (Int.le_max_left _ _) ?_ ?_ ?_ ?_ ?_ ?_
  · cases here : s.freqMap obj.freq with
    | none => rfl
    | some node =>
      have count := indexed.count here
      have small := room node here
      simp only [Option.getD_some, FreqNode.push, List.length_append, List.length_singleton]
      rw [UInt32.toNat_add, count]
      exact Nat.mod_eq_of_lt small
  · cases here : s.freqMap obj.freq with
    | none => exact List.nodup_singleton id
    | some node =>
      exact List.nodup_append.mpr ⟨indexed.nodup here, List.nodup_singleton id, by
        rintro x member y own rfl
        exact absent node here (List.mem_singleton.mp own ▸ member)⟩
  · intro x other
    rw [← indexed.listed]
    cases here : s.freqMap obj.freq with
    | none => simp [FreqNode.push, other]
    | some node => simp [FreqNode.push, other]
  · simp [FreqNode.push]
  · intro other stored
    rw [new] at stored
    cases stored
  · rintro _ ⟨⟩
    exact ⟨rfl, low, Int.le_max_right _ _⟩

theorem Indexed.drop (indexed : Indexed s) (here : s.objs id = some obj)
    (found : s.freqMap obj.freq = some node) :
    Indexed ((s.setNode obj.freq (node.drop id)).store id none) := by
  obtain ⟨u, unlinked, off⟩ := indexed.unlink here
  rw [State.unlink, found] at unlinked
  cases unlinked
  exact off

theorem Indexed.absent (indexed : Indexed s) (gone : s.objs id = none) (freq : Int) (node : FreqNode)
    (found : s.freqMap freq = some node) : id ∉ node.objs := by
  intro member
  obtain ⟨obj, stored, _⟩ := indexed.freq_of found member
  rw [gone] at stored
  cases stored

/-! ## The least frequency -/

/-- `min_freq` has a node with an object on it, and no object has a smaller frequency. -/
structure Least (s : State) : Prop where
  node : ∃ node, s.freqMap s.minFreq = some node ∧ node.objs ≠ []
  below : ∀ {id obj}, s.objs id = some obj → s.minFreq ≤ obj.freq

theorem nextFreq_least (indexed : Indexed s)
    (above : ∀ {id obj}, s.objs id = some obj → s.minFreq < obj.freq) (here : s.objs id = some obj) :
    ∃ freq, s.nextFreq = some freq ∧ Least { s with minFreq := freq } := by
  have occupied : ∀ {x o}, s.objs x = some o →
      (s.freqMap o.freq).any (fun node => 0 < node.nObj) = true := by
    intro x o stored
    obtain ⟨node, found, member⟩ := indexed.node_of stored
    rw [found]
    exact decide_eq_true ((indexed.positive_iff found).mpr (List.ne_nil_of_mem member))
  -- Frequencies are searched by their distance from the old minimum.
  have place : ∀ {x o}, s.objs x = some o → ∃ i : Nat, i < (s.maxFreq - s.minFreq).toNat ∧
      s.minFreq + 1 + (i : Int) = o.freq := by
    intro x o stored
    have low := above stored
    have high := (indexed.bounds stored).2
    exact ⟨(o.freq - s.minFreq - 1).toNat, by omega, by omega⟩
  rw [State.nextFreq, List.find?_map]
  cases search : (List.range (s.maxFreq - s.minFreq).toNat).find? _ with
  | none =>
    obtain ⟨i, inside, same⟩ := place here
    have missed := List.find?_eq_none.mp search i (List.mem_range.mpr inside)
    simp only [Function.comp_apply, same, occupied here, not_true_eq_false] at missed
  | some i =>
    obtain ⟨found, inside, first⟩ := List.find?_range_eq_some.mp search
    refine ⟨_, rfl, ?_, ?_⟩
    · rw [Function.comp_apply] at found
      cases at_ : s.freqMap (s.minFreq + 1 + (i : Int)) with
      | none =>
        rw [at_] at found
        cases found
      | some node =>
        rw [at_] at found
        exact ⟨node, rfl, (indexed.positive_iff at_).mp (of_decide_eq_true found)⟩
    · intro x o stored
      obtain ⟨j, -, same⟩ := place stored
      show s.minFreq + 1 + (i : Int) ≤ o.freq
      by_contra less
      have skipped := first j (by omega)
      simp only [Function.comp_apply, same, occupied stored] at skipped
      cases skipped

/-! ## What the calls do to a sound state -/

/-- The nodes are right, and so is `min_freq` unless there is no object. -/
structure Sound (s : State) : Prop extends Indexed s where
  least : ∀ {id obj}, s.objs id = some obj → Least s

theorem crLfuInit_sound : Sound crLfuInit := ⟨crLfuInit_indexed, fun here => by cases here⟩

theorem Indexed.setMin (indexed : Indexed s) (minFreq : Int) : Indexed { s with minFreq := minFreq } :=
  ⟨indexed.count, indexed.nodup, indexed.listed, indexed.bounds⟩

theorem Indexed.stays (indexed : Indexed s)
    (below : ∀ {x o}, s.objs x = some o → s.minFreq ≤ o.freq)
    (found : s.freqMap s.minFreq = some node) (some_ : node.objs ≠ []) : Sound s :=
  ⟨indexed, fun _ => ⟨⟨node, found, some_⟩, below⟩⟩

theorem Indexed.nextFreq (indexed : Indexed s)
    (below : ∀ {x o}, s.objs x = some o → s.minFreq ≤ o.freq)
    (found : s.freqMap s.minFreq = some node) (empty : node.objs = [])
    (here : s.objs id = some obj) :
    ∃ freq, s.nextFreq = some freq ∧ Sound { s with minFreq := freq } := by
  have above : ∀ {x o}, s.objs x = some o → s.minFreq < o.freq := by
    intro x o stored
    refine lt_of_le_of_ne (below stored) fun same => ?_
    obtain ⟨other, at_, member⟩ := indexed.node_of stored
    rw [← same, found] at at_
    cases at_
    rw [empty] at member
    cases member
  obtain ⟨freq, next, least⟩ := nextFreq_least indexed above here
  exact ⟨freq, next, indexed.setMin freq, fun _ => least⟩

theorem Indexed.raises (indexed : Indexed s)
    (below : ∀ {x o}, s.objs x = some o → s.minFreq ≤ o.freq)
    (found : s.freqMap s.minFreq = some node) (empty : node.objs = [])
    (here : s.objs id = some obj) : Sound s.raiseMin := by
  obtain ⟨freq, next, sound⟩ := indexed.nextFreq below found empty here
  rw [State.raiseMin, next]
  exact sound

theorem Indexed.sound_of (indexed : Indexed s)
    (below : ∀ {x o}, s.objs x = some o → s.minFreq ≤ o.freq) (here : s.objs id = some obj)
    (least : obj.freq = s.minFreq) : Sound s := by
  obtain ⟨node, found, member⟩ := indexed.node_of here
  rw [least] at found
  exact indexed.stays below found (List.ne_nil_of_mem member)

theorem Sound.least_obj (sound : Sound s) (here : s.objs id = some obj) :
    ∃ x o, s.objs x = some o ∧ o.freq = s.minFreq := by
  obtain ⟨node, found, some_⟩ := (sound.least here).node
  obtain ⟨x, member⟩ := List.exists_mem_of_ne_nil _ some_
  obtain ⟨o, stored, least⟩ := sound.freq_of found member
  exact ⟨x, o, stored, least⟩

/-- The index after the last of `remove_obj_from_freq_node`: `min_freq` goes up if its node
has lost its last object. -/
def State.leave (s : State) (id : Nat) (obj : Obj) (node : FreqNode) : State :=
  let off := (s.setNode obj.freq (node.drop id)).store id none
  if obj.freq = s.minFreq ∧ (node.drop id).nObj = 0 then off.raiseMin else off

theorem Sound.leave (sound : Sound s) (here : s.objs id = some obj)
    (found : s.freqMap obj.freq = some node) : Sound (s.leave id obj node) := by
  have off := sound.drop here found
  have left : ((s.setNode obj.freq (node.drop id)).store id none).freqMap obj.freq =
      some (node.drop id) := Function.update_self ..
  have below : ∀ {x o}, ((s.setNode obj.freq (node.drop id)).store id none).objs x = some o →
      s.minFreq ≤ o.freq := by
    intro x o stored
    rcases update_eq_some stored with ⟨_, impossible⟩ | ⟨_, old⟩
    · cases impossible
    · exact (sound.least here).below old
  unfold State.leave
  split
  · rename_i emptied
    have at_min : ((s.setNode obj.freq (node.drop id)).store id none).freqMap s.minFreq =
        some (node.drop id) := (congrArg _ emptied.1.symm).trans left
    have empty := (off.zero_iff left).mp emptied.2
    by_cases others : ∃ x o, ((s.setNode obj.freq (node.drop id)).store id none).objs x = some o
    · obtain ⟨x, o, stored⟩ := others
      exact off.raises below at_min empty stored
    · exact ⟨off.setMin _, fun stored => absurd ⟨_, _, stored⟩ others⟩
  · rename_i kept
    by_cases own : obj.freq = s.minFreq
    · have at_min : ((s.setNode obj.freq (node.drop id)).store id none).freqMap s.minFreq =
          some (node.drop id) := (congrArg _ own.symm).trans left
      exact off.stays below at_min fun none => kept ⟨own, (off.zero_iff left).mpr none⟩
    · obtain ⟨lowest, there, some_⟩ := (sound.least here).node
      have at_min : ((s.setNode obj.freq (node.drop id)).store id none).freqMap s.minFreq =
          some lowest := (Function.update_of_ne (fun same => own same.symm) _ _).trans there
      exact off.stays below at_min some_

theorem crLfuFind_absent (absent : s.objs id = none) : crLfuFind s id = some (false, s) := by
  rw [crLfuFind, absent]

/-- The state of a hit in which `min_freq` is looked at. -/
def State.raised (s : State) (id : Nat) (obj : Obj) (node : FreqNode) : State :=
  { (((s.setNode obj.freq (node.drop id)).store id none).link id (obj.freq + 1)).store id
      (some { obj with freq := obj.freq + 1 }) with maxFreq := max s.maxFreq (obj.freq + 1) }

theorem raised_objs (s : State) (id : Nat) (obj : Obj) (node : FreqNode) :
    (s.raised id obj node).objs =
      Function.update s.objs id (some { obj with freq := obj.freq + 1 }) := by
  simp [State.raised, State.store, State.link, State.setNode]

theorem raised_node (s : State) (id : Nat) (obj : Obj) (node : FreqNode) :
    (s.raised id obj node).freqMap obj.freq = some (node.drop id) := by
  have other : obj.freq ≠ obj.freq + 1 := by omega
  simp [State.raised, State.store, State.link, State.setNode, other]

theorem crLfuFind_raised (here : s.objs id = some obj) (found : s.freqMap obj.freq = some node) :
    crLfuFind s id = some (true, if s.minFreq = obj.freq ∧ (node.drop id).nObj = 0 then
      (s.raised id obj node).raiseMin else s.raised id obj node) := by
  have other : obj.freq ≠ obj.freq + 1 := by omega
  simp [crLfuFind, here, State.unlink, State.store, State.link, State.setNode, State.raised, found, other]
  split <;> rfl

theorem Indexed.raise (indexed : Indexed s) (here : s.objs id = some obj)
    (found : s.freqMap obj.freq = some node)
    (room : ∀ node, s.freqMap (obj.freq + 1) = some node → node.objs.length + 1 < 2 ^ 32) :
    Indexed (s.raised id obj node) := by
  have other : obj.freq + 1 ≠ obj.freq := by omega
  obtain ⟨u, unlinked, off⟩ := indexed.unlink here
  obtain rfl : s.setNode obj.freq (node.drop id) = u := by
    rw [State.unlink, found] at unlinked
    exact Option.some.inj unlinked
  have low := (indexed.bounds here).1
  refine off.link { obj with freq := obj.freq + 1 } (Function.update_self _ _ _) ?_ fun next at_ => ?_
  · show 1 ≤ obj.freq + 1
    omega
  · exact room next ((Function.update_of_ne other _ _).symm.trans at_)

theorem crLfuFind_hit (sound : Sound s) (here : s.objs id = some obj)
    (room : ∀ node, s.freqMap (obj.freq + 1) = some node → node.objs.length + 1 < 2 ^ 32) :
    ∃ t, crLfuFind s id = some (true, t) ∧ Sound t ∧
      t.objs = Function.update s.objs id (some { obj with freq := obj.freq + 1 }) := by
  obtain ⟨node, found, member⟩ := sound.node_of here
  have run := crLfuFind_raised here found
  have indexed := sound.raise here found room
  have objs := raised_objs s id obj node
  have old := raised_node s id obj node
  have minFreq : (s.raised id obj node).minFreq = s.minFreq := rfl
  generalize s.raised id obj node = t at run indexed objs old minFreq
  have below : ∀ {x o}, t.objs x = some o → t.minFreq ≤ o.freq := by
    intro x o stored
    have least := sound.least here
    rw [objs] at stored
    rw [minFreq]
    rcases update_eq_some stored with ⟨-, ⟨⟩⟩ | ⟨-, kept⟩
    · exact (least.below here).trans (Int.le_of_lt (Int.lt_succ _))
    · exact least.below kept
  rw [← minFreq] at run
  refine ⟨_, run, ?_, by split <;> exact objs⟩
  have empty_iff := indexed.zero_iff old
  by_cases least : t.minFreq = obj.freq
  · rw [← least] at old
    by_cases empty : (node.drop id).nObj = 0
    · rw [if_pos ⟨least, empty⟩]
      have stored : t.objs id = some { obj with freq := obj.freq + 1 } := by
        rw [objs, Function.update_self]
      exact indexed.raises below old (empty_iff.mp empty) stored
    · rw [if_neg fun both => empty both.2]
      exact indexed.stays below old fun none => empty (empty_iff.mpr none)
  · rw [if_neg fun both => least both.1]
    obtain ⟨x, o, stored, minimal⟩ := sound.least_obj here
    have apart : x ≠ id := by
      rintro rfl
      rw [here] at stored
      cases stored
      exact least (minFreq.trans minimal.symm)
    have kept : t.objs x = some o := by
      rw [objs, Function.update_of_ne apart]
      exact stored
    exact indexed.sound_of below kept (minimal.trans minFreq.symm)

/-- The state of an insertion in which `min_freq` is looked at. -/
def State.entered (s : State) (id : Nat) (obj : Obj) : State :=
  { (s.link id obj.freq).store id (some obj) with maxFreq := max s.maxFreq obj.freq }

theorem crLfuInsert_entered (s : State) (id : Nat) (objSize : UInt32)
    (entering : (recalled.map (· + 1)).getD 1 = freq) :
    crLfuInsert s id objSize recalled = { s.entered id ⟨objSize, freq⟩ with minFreq :=
      if freq = 1 then 1 else if freq < s.minFreq ∨ s.minFreq = -1 then freq else s.minFreq } := by
  rw [crLfuInsert, entering]
  by_cases one : freq = 1
  · subst one
    rfl
  · simp only [if_neg one]
    by_cases lower : freq < s.minFreq ∨ s.minFreq = -1
    · rw [if_pos lower]
      exact if_pos lower
    · rw [if_neg lower]
      exact if_neg lower

theorem Sound.enter (sound : Sound s) (new : s.objs id = none) (indexed : Indexed (s.entered id obj))
    {x : Nat} {o : Obj} (stored : s.objs x = some o) :
    Sound { s.entered id obj with
      minFreq := if obj.freq < s.minFreq ∨ s.minFreq = -1 then obj.freq else s.minFreq } := by
  have least := sound.least stored
  obtain ⟨y, p, minimal, atMin⟩ := sound.least_obj stored
  have positive := (sound.bounds minimal).1
  have below : ∀ {z q}, (s.entered id obj).objs z = some q → q.freq = obj.freq ∨ s.minFreq ≤ q.freq := by
    intro z q here
    rcases update_eq_some here with ⟨-, ⟨⟩⟩ | ⟨-, old⟩
    · exact Or.inl rfl
    · exact Or.inr (least.below old)
  by_cases lower : obj.freq < s.minFreq
  · have own : (s.entered id obj).objs id = some obj := Function.update_self _ _ _
    rw [if_pos (Or.inl lower)]
    refine (indexed.setMin obj.freq).sound_of (fun here => ?_) own rfl
    rcases below here with same | above
    · exact same.ge
    · exact (Int.le_of_lt lower).trans above
  · have unset : ¬ (obj.freq < s.minFreq ∨ s.minFreq = -1) := by omega
    have apart : y ≠ id := by
      rintro rfl
      rw [new] at minimal
      cases minimal
    have kept : (s.entered id obj).objs y = some p := (Function.update_of_ne apart _ _).trans minimal
    rw [if_neg unset]
    refine (indexed.setMin s.minFreq).sound_of (fun here => ?_) kept atMin
    rcases below here with same | above
    · exact (Int.not_lt.mp lower).trans same.ge
    · exact above

theorem entering_pos (known : ∀ f ∈ recalled, 1 ≤ f)
    (entering : (recalled.map (· + 1)).getD 1 = freq) : 1 ≤ freq := by
  rw [← entering]
  cases recalled with
  | none => exact Int.le_refl 1
  | some f =>
    have := known f rfl
    simp
    omega

theorem crLfuInsert_new (sound : Sound s) (new : s.objs id = none) (objSize : UInt32)
    (known : ∀ f ∈ recalled, 1 ≤ f) (others : recalled = none ∨ ∃ x o, s.objs x = some o)
    (room : ∀ freq node, s.freqMap freq = some node → node.objs.length + 1 < 2 ^ 32) :
    Sound (crLfuInsert s id objSize recalled) ∧ (crLfuInsert s id objSize recalled).objs =
      Function.update s.objs id (some ⟨objSize, (recalled.map (· + 1)).getD 1⟩) := by
  generalize entering : (recalled.map (· + 1)).getD 1 = freq
  have low := entering_pos known entering
  have indexed : Indexed (s.entered id ⟨objSize, freq⟩) := sound.link ⟨objSize, freq⟩ new low (room freq)
  rw [crLfuInsert_entered s id objSize entering]
  refine ⟨?_, rfl⟩
  by_cases one : freq = 1
  · rw [if_pos one]
    exact (indexed.setMin 1).sound_of (fun stored => (indexed.bounds stored).1)
      (Function.update_self _ _ _) one
  · -- A frequency above 1 was recalled, so there are other objects.
    obtain ⟨x, o, stored⟩ := others.resolve_left fun none => one (by rw [← entering, none]; rfl)
    rw [if_neg one]
    exact sound.enter new indexed stored

theorem crLfuInsert_alone (indexed : Indexed s) (empty : ∀ x, s.objs x = none) (objSize : UInt32)
    (known : ∀ f ∈ recalled, 1 ≤ f) (entering : (recalled.map (· + 1)).getD 1 = freq) :
    (crLfuInsert s id objSize recalled).objs = Function.update s.objs id (some ⟨objSize, freq⟩) ∧
      Indexed (crLfuInsert s id objSize recalled) ∧
      (Sound (crLfuInsert s id objSize recalled) ↔ freq = 1 ∨ s.minFreq = -1 ∨ freq ≤ s.minFreq) := by
  have low := entering_pos known entering
  have hollow : ∀ node, s.freqMap freq = some node → node.objs.length + 1 < 2 ^ 32 := by
    intro node found
    have none : node.objs = [] := by
      by_contra some_
      obtain ⟨x, member⟩ := List.exists_mem_of_ne_nil _ some_
      exact indexed.absent (empty x) freq node found member
    rw [none]
    decide
  have entered : Indexed (s.entered id ⟨objSize, freq⟩) :=
    indexed.link ⟨objSize, freq⟩ (empty id) low hollow
  have own : (s.entered id ⟨objSize, freq⟩).objs id = some ⟨objSize, freq⟩ := Function.update_self _ _ _
  have only : ∀ {x o}, (s.entered id ⟨objSize, freq⟩).objs x = some o → o.freq = freq := by
    intro x o stored
    rcases update_eq_some stored with ⟨-, ⟨⟩⟩ | ⟨-, old⟩
    · rfl
    · cases (empty x).symm.trans old
  rw [crLfuInsert_entered s id objSize entering]
  refine ⟨rfl, entered.setMin _, ?_⟩
  constructor
  · intro sound
    obtain ⟨x, o, stored, least⟩ := sound.least_obj own
    have same : freq = if freq = 1 then 1 else if freq < s.minFreq ∨ s.minFreq = -1 then freq
        else s.minFreq := (only stored).symm.trans least
    split at same
    · exact Or.inl same
    · split at same <;> omega
  · intro fits
    refine (entered.setMin _).sound_of (fun stored => ?_) own ?_
    · rw [only stored]
      show (if freq = 1 then 1 else if freq < s.minFreq ∨ s.minFreq = -1 then freq else s.minFreq) ≤ freq
      split
      · exact low
      · split <;> omega
    · show freq = if freq = 1 then 1 else if freq < s.minFreq ∨ s.minFreq = -1 then freq else s.minFreq
      split
      · assumption
      · split <;> omega

theorem erase_last {l : List Nat} {x : Nat} (nodup : l.Nodup) (last : l.getLast? = some x) :
    l.erase x = l.dropLast := by
  obtain ⟨rest, rfl⟩ := List.getLast?_eq_some_iff.mp last
  have apart : x ∉ rest := fun member =>
    (List.nodup_append.mp nodup).2.2 x member x (List.mem_singleton.mpr rfl) rfl
  rw [List.erase_append_right _ apart, List.dropLast_concat]
  simp

theorem crLfuEvict_takes (sound : Sound s) (here : s.objs id = some obj) :
    ∃ x o t, crLfuToEvict s = some x ∧ s.objs x = some o ∧ crLfuEvict s = some ((x, o), t) ∧
      Sound t ∧ t.objs = Function.update s.objs x none := by
  obtain ⟨node, found, some_⟩ := (sound.least here).node
  obtain ⟨x, last⟩ : ∃ x, node.objs.getLast? = some x :=
    ⟨node.objs.getLast some_, List.getLast?_eq_some_getLast some_⟩
  obtain ⟨o, stored, atMin⟩ := sound.freq_of found (List.mem_of_getLast? last)
  obtain ⟨u, unlinked, indexed⟩ := sound.unlink stored
  have dropped : (⟨node.nObj - 1, node.objs.dropLast⟩ : FreqNode) = node.drop x := by
    rw [FreqNode.drop, erase_last (sound.nodup found) last]
  obtain rfl : s.setNode s.minFreq (node.drop x) = u := by
    rw [State.unlink, atMin, found] at unlinked
    exact Option.some.inj unlinked
  refine ⟨x, o, { (s.setNode s.minFreq (node.drop x)).store x none with
    minFreq := if node.objs.dropLast = [] then (s.setNode s.minFreq (node.drop x)).nextFreq.getD (-1)
      else s.minFreq }, ?_, stored, ?_, ?_, rfl⟩
  · simp [crLfuToEvict, found, last]
  · simp [crLfuEvict, found, last, stored, dropped, State.setNode]
  · have below : ∀ {z q}, ((s.setNode s.minFreq (node.drop x)).store x none).objs z = some q →
        s.minFreq ≤ q.freq := by
      intro z q kept
      rcases update_eq_some kept with ⟨-, ⟨⟩⟩ | ⟨-, old⟩
      exact (sound.least here).below old
    have left : ((s.setNode s.minFreq (node.drop x)).store x none).freqMap s.minFreq =
        some (node.drop x) := Function.update_self _ _ _
    have rest : (node.drop x).objs = node.objs.dropLast := by rw [← dropped]
    split
    · rename_i alone
      by_cases last : ∃ z q, ((s.setNode s.minFreq (node.drop x)).store x none).objs z = some q
      · obtain ⟨z, q, kept⟩ := last
        obtain ⟨freq, next, sound'⟩ := indexed.nextFreq below left (rest.trans alone) kept
        have same : (s.setNode s.minFreq (node.drop x)).nextFreq = some freq := next
        rw [same]
        exact sound'
      · exact ⟨indexed.setMin _, fun kept => absurd ⟨_, _, kept⟩ last⟩
    · rename_i more
      exact indexed.stays below left fun none => more (rest.symm.trans none)

theorem crLfuRemove_takes (sound : Sound s) (here : s.objs id = some obj) :
    ∃ t, crLfuRemove s id = some (some obj, t) ∧ Sound t ∧
      t.objs = Function.update s.objs id none := by
  obtain ⟨u, unlinked, indexed⟩ := sound.unlink here
  obtain ⟨node, found, -⟩ := sound.node_of here
  obtain rfl : s.setNode obj.freq (node.drop id) = u := by
    rw [State.unlink, found] at unlinked
    exact Option.some.inj unlinked
  generalize state : (s.setNode obj.freq (node.drop id)).store id none = t at indexed
  have objs : t.objs = Function.update s.objs id none := by rw [← state]; rfl
  have minFreq : t.minFreq = s.minFreq := by rw [← state]; rfl
  have below : ∀ {z q}, t.objs z = some q → t.minFreq ≤ q.freq := by
    intro z q stored
    rw [objs] at stored
    rw [minFreq]
    rcases update_eq_some stored with ⟨-, ⟨⟩⟩ | ⟨-, old⟩
    exact (sound.least here).below old
  obtain ⟨lowest, atMin⟩ : ∃ lowest, t.freqMap t.minFreq = some lowest := by
    obtain ⟨lowest, atMin, -⟩ := (sound.least here).node
    rw [minFreq, ← state]
    by_cases same : s.minFreq = obj.freq
    · exact ⟨node.drop id, by simp [State.store, State.setNode, same]⟩
    · exact ⟨lowest, by simpa [State.store, State.setNode, same] using atMin⟩
  have run : crLfuRemove s id = some (some obj, if lowest.nObj = 0 then
      (t.setNode t.minFreq { lowest with objs := [] }).raiseMin else t) := by
    simp only [crLfuRemove, here, unlinked, Option.bind_eq_bind, Option.bind_some, state, atMin]
    split <;> rfl
  refine ⟨_, run, ?_⟩
  split
  · rename_i zero
    have empty := (indexed.zero_iff atMin).mp zero
    have same : t.setNode t.minFreq { lowest with objs := [] } = t := by
      have node : ({ lowest with objs := [] } : FreqNode) = lowest := by rw [← empty]
      rw [State.setNode, node, ← atMin, Function.update_eq_self]
    rw [same]
    refine ⟨?_, objs⟩
    -- without another object there is no minimum to be right about
    by_cases others : ∃ x o, t.objs x = some o
    · obtain ⟨x, o, kept⟩ := others
      exact indexed.raises below atMin empty kept
    · exact ⟨indexed.setMin _, fun stored => absurd ⟨_, _, stored⟩ others⟩
  · rename_i more
    exact ⟨indexed.stays below atMin fun none => more ((indexed.zero_iff atMin).mpr none), objs⟩

end CrLfu
