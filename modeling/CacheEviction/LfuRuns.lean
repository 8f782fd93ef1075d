import CacheEviction.LfuPolicy

/-!
# Runs of LFU

As long as the 32 bits of `n_obj` can count the objects, every call finds the nodes it
looks for, the nodes hold the objects by their number of requests, and each victim is an
object of the fewest requests that reached this number first.
-/
namespace Lfu

open FifoCache FuelLoops CacheGet RecordedCalls StepTraces WeightedLists Function
open CrLfu (FreqNode Indexed Least)

variable {s : State} {l : Ledger Standing} {now : Nat}
variable {id : Nat} {obj : CacheObj Int} {freq : Int} {node : FreqNode} {r : Request}

/-! ## The index after a change of the table -/

theorem index_objs {q t : Fifo Int} {i : Nat} {v : Option (CacheObj Int)}
    (changed : t.find = update q.find i v) :
    (fun id => (t.find id).map fun o => (⟨o.objSize, o.tag⟩ : CrLfu.Obj)) =
      update (fun id => (q.find id).map fun o => ⟨o.objSize, o.tag⟩) i
        (v.map fun o => ⟨o.objSize, o.tag⟩) := by
  funext id
  rw [changed]
  by_cases same : id = i
  · rw [same, update_self, update_self]
  · rw [update_of_ne same, update_of_ne same]

theorem index_found (found : s.table.find id = some obj) :
    s.index.objs id = some ⟨obj.objSize, obj.tag⟩ := by
  simp only [State.index, found, Option.map_some]

theorem index_absent (missed : s.table.find id = none) : s.index.objs id = none := by
  simp only [State.index, missed, Option.map_none]

/-! ## The invariant -/

structure Sound (s : State) (l : Ledger Standing) (now : Nat) : Prop where
  indexed : Indexed s.index
  lazy : LazyLeast s.index
  one : ∃ node, s.freqMap 1 = some node
  high : 1 ≤ s.maxFreq
  distinct : s.table.Distinct
  small : s.table.objs.length < 2 ^ 32
  stocked : Stocked (fun o : CacheObj Int => o.tag) Standing.uses s.table l.standings
  sorted : Sorted s.freqMap l.standings
  past : ∀ id standing, l.standings id = some standing → standing.reached < now
  victims : ∀ e ∈ l.evictions, e.Least Standing.le

theorem sound_init (now : Nat) : Sound lfuInit .empty now where
  indexed := CrLfu.crLfuInit_indexed
  lazy := .inr fun _ _ impossible => by cases impossible
  one := ⟨_, rfl⟩
  high := le_rfl
  distinct := Fifo.distinct_empty
  small := by
    simp only [lfuInit, Fifo.objs_empty, List.length_nil]
    norm_num
  stocked _ := rfl
  sorted := by
    intro freq node at_
    simp only [lfuInit] at at_
    split at at_
    · cases at_
      exact List.Pairwise.nil
    · cases at_
  past _ _ impossible := by cases impossible
  victims _ impossible := by cases impossible

theorem Sound.later (sound : Sound s l now) {now' : Nat} (later : now ≤ now') : Sound s l now' :=
  { sound with past := fun id standing known => (sound.past id standing known).trans_le later }

theorem Sound.cached_of_mem (sound : Sound s l now) (found : s.freqMap freq = some node)
    (member : id ∈ node.objs) : (s.table.find id).isSome = true := by
  obtain ⟨obj, stored, _⟩ := sound.indexed.freq_of found member
  have there := congrArg Option.isSome stored
  simpa only [State.index, Option.isSome_map, Option.isSome_some] using there

theorem Sound.indexed_of (sound : Sound s l now) {standing : Standing}
    (known : l.standings id = some standing) :
    ∃ obj, s.index.objs id = some obj ∧ obj.freq = standing.uses := by
  have same := sound.stocked id
  rw [known, Option.map_some] at same
  obtain ⟨o, found, uses⟩ := Option.map_eq_some_iff.mp same
  exact ⟨⟨o.objSize, o.tag⟩, index_found found, uses⟩

theorem Sound.standing_of (sound : Sound s l now) {obj : CrLfu.Obj}
    (stored : s.index.objs id = some obj) :
    ∃ standing, l.standings id = some standing ∧ standing.uses = obj.freq := by
  obtain ⟨o, found, rfl⟩ := Option.map_eq_some_iff.mp stored
  exact sound.stocked.known found

/-! ## A hit -/

def moved (s : State) (id : Nat) (obj : CacheObj Int) (node : FreqNode) : State :=
  let freqMap := Function.update s.freqMap obj.tag (some (node.drop id))
  { s with
    table := s.table.retag id fun _ => obj.tag + 1
    freqMap := Function.update freqMap (obj.tag + 1)
      (some (((freqMap (obj.tag + 1)).getD ⟨0, []⟩).push id))
    maxFreq := max s.maxFreq (obj.tag + 1) }

def settled (s : State) (id : Nat) (obj : CacheObj Int) (node : FreqNode) : State :=
  if s.minFreq = obj.tag ∧ (node.drop id).nObj = 0 then updateMinFreq (moved s id obj node)
  else moved s id obj node

theorem lfuFind_settled (found : s.table.find r.objId = some obj)
    (at_ : s.freqMap obj.tag = some node) :
    lfuFind s r = .ok (true, if (node.drop r.objId).nObj = 0 ∧ obj.tag ≠ 1 then
      { settled s r.objId obj node with
        freqMap := update (settled s r.objId obj node).freqMap obj.tag none }
      else settled s r.objId obj node) := by
  simp only [lfuFind, found, at_]
  by_cases empty : (node.drop r.objId).nObj = 0
  · simp only [empty, if_true, true_and, and_true, settled]
    by_cases least : s.minFreq = obj.tag
    · simp only [if_pos least]
      split <;> rfl
    · simp only [if_neg least]
      split <;> rfl
  · simp only [empty, if_false, false_and, and_false, settled]
    rfl

theorem moved_index (node : FreqNode) (found : s.table.find id = some obj) :
    (moved s id obj node).index = s.index.raised id ⟨obj.objSize, obj.tag⟩ node := by
  have objs := index_objs (Fifo.find_retag (fun _ => obj.tag + 1) found)
  simp only [State.index, moved, objs, Option.map_some]
  simp [CrLfu.State.raised, CrLfu.State.store, CrLfu.State.link, CrLfu.State.setNode]

theorem settled_index (found : s.table.find id = some obj) : (settled s id obj node).index =
      if s.index.minFreq = obj.tag ∧ (node.drop id).nObj = 0 then
        (s.index.raised id ⟨obj.objSize, obj.tag⟩ node).raiseMin
      else s.index.raised id ⟨obj.objSize, obj.tag⟩ node := by
  have index := moved_index node found
  have min : s.index.minFreq = s.minFreq := rfl
  rw [settled, min]
  split
  · rw [← index]
    rfl
  · exact index

theorem raise_lazy {i : CrLfu.State} {obj : CrLfu.Obj} (indexed : Indexed i) (lazy : LazyLeast i)
    (here : i.objs id = some obj) (found : i.freqMap obj.freq = some node)
    (room : ∀ node, i.freqMap (obj.freq + 1) = some node → node.objs.length + 1 < 2 ^ 32) :
    LazyLeast (if i.minFreq = obj.freq ∧ (node.drop id).nObj = 0 then (i.raised id obj node).raiseMin
      else i.raised id obj node) := by
  rcases lazy with zero | least
  · have low := (indexed.bounds here).1
    have other : ¬ (i.minFreq = obj.freq ∧ (node.drop id).nObj = 0) := by omega
    rw [if_neg other]
    exact .inl zero
  · obtain ⟨t, run, sound, _⟩ :=
      CrLfu.crLfuFind_hit ⟨indexed, fun stored => least _ _ stored⟩ here room
    rw [CrLfu.crLfuFind_raised here found] at run
    cases run
    exact .of_sound sound

theorem settled_eq (s : State) (id : Nat) (obj : CacheObj Int) (node : FreqNode) :
    settled s id obj node =
      { moved s id obj node with minFreq := (settled s id obj node).minFreq } := by
  unfold settled
  split <;> rfl

theorem Sound.settles (sound : Sound s l s.nReq) (found : s.table.find id = some obj)
    (at_ : s.freqMap obj.tag = some node) :
    Sound (settled s id obj node) (touch l id s.nReq) (s.nReq + 1) := by
  obtain ⟨standing, known, uses⟩ := sound.stocked.known found
  have here := index_found found
  have room : ∀ next, s.index.freqMap (obj.tag + 1) = some next → next.objs.length + 1 < 2 ^ 32 := by
    intro next there
    have apart : id ∉ next.objs := by
      intro member
      obtain ⟨other, stored, freq⟩ := sound.indexed.freq_of there member
      rw [here] at stored
      cases stored
      simp only at freq
      omega
    have nodup : (id :: next.objs).Nodup := List.nodup_cons.mpr ⟨apart, sound.indexed.nodup there⟩
    have cached : ∀ x ∈ id :: next.objs, (s.table.find x).isSome = true := by
      intro x member
      rcases List.mem_cons.mp member with rfl | listed
      · rw [found]
        rfl
      · exact sound.cached_of_mem there listed
    have bound := Fifo.length_le_of_found nodup cached
    have small := sound.small
    rw [List.length_cons] at bound
    omega
  have indexed := sound.indexed.raise here at_ room
  have lazy := raise_lazy sound.indexed sound.lazy here at_ room
  have off := sound.indexed.drop here at_
  have touched : touch l id s.nReq = l.enter id ⟨standing.uses + 1, s.nReq⟩ := by
    simp only [touch, known]
  have past : ∀ i other, (l.leave id).standings i = some other → other.reached < s.nReq :=
    fun i other stays => sound.past i other (of_leave stays)
  have order := (sound.sorted.drop sound.indexed here at_).push ⟨standing.uses + 1, s.nReq⟩
    (off.absent (update_self ..)) past rfl (obj.tag + 1)
  rw [update_idem] at order
  rw [touched]
  have shape := settled_eq s id obj node
  constructor
  · rw [settled_index found]
    split
    · exact indexed.setMin _
    · exact indexed
  · rw [settled_index found]
    exact lazy
  · rw [shape]
    simp only [moved, update_apply]
    obtain ⟨first, one⟩ := sound.one
    split
    · exact ⟨_, rfl⟩
    · split
      · exact ⟨_, rfl⟩
      · exact ⟨first, one⟩
  · rw [shape]
    exact sound.high.trans (Int.le_max_left ..)
  · rw [shape]
    exact sound.distinct.retag _ _
  · rw [shape]
    have same : ((s.table.retag id fun _ => obj.tag + 1).objs).length = s.table.objs.length :=
      length_updateFirst ..
    exact same.trans_lt sound.small
  · rw [shape]
    refine sound.stocked.update (Fifo.find_retag _ found) ?_
    simp only [Option.map_some, uses]
  · rw [shape]
    exact order
  · intro i other stays
    rcases of_enter stays with ⟨_, rfl⟩ | kept
    · exact Nat.lt_succ_self _
    · exact (sound.past i other kept).trans (Nat.lt_succ_self _)
  · exact sound.victims

theorem Sound.forget (sound : Sound s l now) (found : s.freqMap freq = some node)
    (empty : node.objs = []) (other : freq ≠ 1) :
    Sound { s with freqMap := update s.freqMap freq none } l now :=
  { sound with
    indexed := indexed_forget sound.indexed found empty
    lazy := sound.lazy.forget found empty
    one := by
      obtain ⟨first, one⟩ := sound.one
      exact ⟨first, (update_of_ne other.symm _ _).trans one⟩
    sorted := sound.sorted.forget freq }

theorem lfuFind_hit (sound : Sound s l s.nReq) (found : s.table.find r.objId = some obj) :
    ∃ t, lfuFind s r = .ok (true, t) ∧ t.nReq = s.nReq ∧
      Sound t (touch l r.objId s.nReq) (s.nReq + 1) := by
  obtain ⟨node, at_, _⟩ := sound.indexed.node_of (index_found found)
  have after := sound.settles found at_
  have clock : (settled s r.objId obj node).nReq = s.nReq := by
    rw [settled_eq]
    rfl
  refine ⟨_, lfuFind_settled found at_, ?_, ?_⟩
  · split <;> exact clock
  · split
    · rename_i freed
      have old : (settled s r.objId obj node).freqMap obj.tag = some (node.drop r.objId) := by
        have apart : obj.tag ≠ obj.tag + 1 := by omega
        rw [settled_eq]
        simp only [moved, update_of_ne apart, update_self]
      exact after.forget old ((after.indexed.zero_iff old).mp freed.1) freed.2
    · exact after

/-! ## Insertions, evictions and removals -/

theorem lfuInsert_new (sound : Sound s l s.nReq) (missed : s.table.find r.objId = none)
    (room : s.table.objs.length + 1 < 2 ^ 32) : ∃ t, lfuInsert s r = .ok t ∧ t.nReq = s.nReq ∧
      Sound t (l.enter r.objId ⟨1, s.nReq⟩) (s.nReq + 1) := by
  obtain ⟨node, one⟩ := sound.one
  have absent := index_absent missed
  have few : ∀ node, s.index.freqMap 1 = some node → node.objs.length + 1 < 2 ^ 32 := by
    intro next there
    have bound := Fifo.length_le_of_found (sound.indexed.nodup there) fun x listed =>
      sound.cached_of_mem there listed
    omega
  have linked := sound.indexed.link ⟨UInt32.ofNat r.objSize, 1⟩ absent le_rfl few
  have run : lfuInsert s r = .ok { s with
      table := s.table.insert r 1
      freqMap := update s.freqMap 1 (some (node.push r.objId))
      minFreq := 1 } := by
    simp only [lfuInsert, one]
  have order := sound.sorted.push ⟨1, s.nReq⟩ (sound.indexed.absent absent) sound.past rfl 1
  rw [one] at order
  have objs := index_objs (Fifo.find_insert_of_absent missed 1)
  have first : update s.freqMap 1 (some (node.push r.objId)) 1 = some (node.push r.objId) :=
    update_self ..
  have highest : max s.maxFreq 1 = s.maxFreq := max_eq_left sound.high
  have indexed : Indexed (State.index { s with
      table := s.table.insert r 1
      freqMap := update s.freqMap 1 (some (node.push r.objId))
      minFreq := 1 }) := by
    have same := linked.setMin 1
    simp only [CrLfu.State.link, CrLfu.State.setNode, CrLfu.State.store, State.index, one,
      Option.getD_some, highest] at same
    simp only [State.index, objs]
    exact same
  refine ⟨_, run, rfl, ?_⟩
  constructor
  · exact indexed
  · refine .inr fun _ _ _ => ?_
    refine ⟨⟨node.push r.objId, first, ?_⟩, fun here => (indexed.bounds here).1⟩
    exact List.append_ne_nil_of_right_ne_nil _ (List.cons_ne_nil _ _)
  · exact ⟨_, first⟩
  · exact sound.high
  · exact sound.distinct.insert missed 1
  · simp only [Fifo.objs_insert, List.length_append, List.length_singleton]
    exact room
  · exact sound.stocked.update (Fifo.find_insert_of_absent missed 1) rfl
  · exact order
  · intro i other stays
    rcases of_enter stays with ⟨_, rfl⟩ | kept
    · exact Nat.lt_succ_self _
    · exact (sound.past i other kept).trans (Nat.lt_succ_self _)
  · exact sound.victims

theorem Sound.first_least (sound : Sound s l now) {rest : List Nat}
    (least : Least { s.index with minFreq := freq }) (found : s.freqMap freq = some node)
    (shape : node.objs = id :: rest) : Eviction.Least Standing.le ⟨id, l.standings⟩ := by
  have member : id ∈ node.objs := by
    rw [shape]
    exact List.mem_cons_self
  obtain ⟨obj, stored, atFreq⟩ := sound.indexed.freq_of found member
  obtain ⟨own, known, uses⟩ := sound.standing_of stored
  refine ⟨own, known, ?_⟩
  intro i other stands
  obtain ⟨obj', stored', uses'⟩ := sound.indexed_of stands
  have below : freq ≤ obj'.freq := least.below stored'
  rcases below.lt_or_eq with less | equal
  · left
    omega
  · right
    refine ⟨by omega, ?_⟩
    obtain ⟨node', found', member'⟩ := sound.indexed.node_of stored'
    rw [← equal] at found'
    cases found.symm.trans found'
    rw [shape] at member'
    rcases List.mem_cons.mp member' with rfl | later
    · cases known.symm.trans stands
      exact le_rfl
    · have order := sound.sorted _ _ found
      rw [shape] at order
      exact ((List.pairwise_cons.mp order).1 i later own other known stands).le

theorem Sound.drop (sound : Sound s l now) {minFreq : Int} {k : Ledger Standing}
    (found : s.table.find id = some obj) (at_ : s.freqMap obj.tag = some node)
    (left : k.standings = update l.standings id none)
    (victims : ∀ e ∈ k.evictions, e.Least Standing.le)
    (lazy : LazyLeast { (s.index.setNode obj.tag (node.drop id)).store id none with minFreq := minFreq }) :
    Sound { s with
      table := s.table.remove id
      freqMap := update s.freqMap obj.tag (some (node.drop id))
      minFreq := minFreq } k now := by
  have here := index_found found
  have off := (sound.indexed.drop here at_).setMin minFreq
  have gone := Fifo.find_remove sound.distinct id
  have objs := index_objs gone
  constructor
  · simp only [State.index, objs]
    exact off
  · simp only [State.index, objs]
    exact lazy
  · obtain ⟨first, one⟩ := sound.one
    simp only [update_apply]
    split
    · exact ⟨_, rfl⟩
    · exact ⟨first, one⟩
  · exact sound.high
  · exact sound.distinct.remove id
  · exact (Fifo.length_remove_lt found).trans sound.small
  · rw [left]
    exact sound.stocked.update gone rfl
  · rw [left]
    exact sound.sorted.drop sound.indexed here at_
  · intro i other stays
    rw [left] at stays
    exact sound.past i other (of_leave stays)
  · exact victims

theorem lazy_stays {i : CrLfu.State} {minFreq : Int} (least : Least { i with minFreq := minFreq })
    (lowest : FreqNode) (found : update i.freqMap freq (some (node.drop id)) minFreq = some lowest)
    (some_ : lowest.objs ≠ []) :
    LazyLeast { (i.setNode freq (node.drop id)).store id none with minFreq := minFreq } := by
  refine .inr fun _ _ _ => ⟨⟨lowest, found, some_⟩, ?_⟩
  intro x o stored
  rcases CrLfu.update_eq_some stored with ⟨_, impossible⟩ | ⟨_, old⟩
  · cases impossible
  · exact least.below old

theorem lfuEvict_takes (sound : Sound s l now) (cached : (s.table.find id).isSome = true) :
    ∃ victim t, lfuEvict s = .ok t ∧ t.table = s.table.remove victim ∧
      (s.table.find victim).isSome = true ∧ Eviction.Least Standing.le ⟨victim, l.standings⟩ ∧
      t.nReq = s.nReq ∧ Sound t (l.evict victim) now := by
  obtain ⟨obj, found⟩ := Option.isSome_iff_exists.mp cached
  obtain ⟨freq, node, lookup, least, at_⟩ :=
    getMinFreqNode_least sound.indexed sound.lazy (index_found found)
  obtain ⟨victim, rest, shape⟩ : ∃ victim rest, node.objs = victim :: rest := by
    obtain ⟨lowest, there, some_⟩ := least.node
    cases at_.symm.trans there
    exact List.exists_cons_of_ne_nil some_
  have member : victim ∈ node.objs := by
    rw [shape]
    exact List.mem_cons_self
  have present := sound.cached_of_mem at_ member
  obtain ⟨o, there⟩ := Option.isSome_iff_exists.mp present
  obtain rfl : o.tag = freq := by
    obtain ⟨other, stored, same⟩ := sound.indexed.freq_of at_ member
    rw [index_found there] at stored
    cases stored
    exact same
  have first := sound.first_least least at_ shape
  have run : lfuEvict s = .ok { s with
      table := s.table.remove victim
      freqMap := update s.freqMap o.tag (some (node.drop victim))
      minFreq := if (node.drop victim).nObj = 0 then 0 else o.tag } := by
    simp only [lfuEvict, lookup, shape, List.head?_cons]
  refine ⟨victim, _, run, rfl, present, first, rfl, ?_⟩
  refine sound.drop there at_ rfl ?_ ?_
  · intro e listed
    rcases List.mem_cons.mp listed with rfl | older
    · exact first
    · exact sound.victims e older
  · have off := sound.indexed.drop (index_found there) at_
    have node_left : ((s.index.setNode o.tag (node.drop victim)).store victim none).freqMap o.tag =
        some (node.drop victim) := update_self ..
    split
    · exact .inl rfl
    · rename_i more
      exact lazy_stays least _ (update_self ..) fun none =>
        more ((off.zero_iff node_left).mpr none)

theorem lfuRemove_returns (sound : Sound s l now) (id : Nat) :
    ∃ found t, lfuRemove s id = .ok (found, t) ∧ t.nReq = s.nReq ∧ Sound t (l.leave id) now := by
  cases held : s.table.find id with
  | none =>
    refine ⟨false, s, ?_, rfl, ?_⟩
    · simp only [lfuRemove, held]
    · have same : l.leave id = l := by
        rw [Ledger.leave, ← sound.stocked.absent held, update_eq_self]
      rw [same]
      exact sound
  | some obj =>
    have here := index_found held
    obtain ⟨node, at_, _⟩ : ∃ node, s.freqMap obj.tag = some node ∧ id ∈ node.objs :=
      sound.indexed.node_of here
    have lazy : LazyLeast (s.index.leave id ⟨obj.objSize, obj.tag⟩ node) := by
      rcases sound.lazy with zero | least
      · have low := (sound.indexed.bounds here).1
        have kept : ¬ (obj.tag = s.index.minFreq ∧ (node.drop id).nObj = 0) := by
          intro both
          simp only at low
          omega
        rw [CrLfu.State.leave, if_neg kept]
        exact .inl zero
      · exact .of_sound (CrLfu.Sound.leave ⟨sound.indexed, fun stored => least _ _ stored⟩ here at_)
    have objs := index_objs (Fifo.find_remove sound.distinct id)
    simp only [lfuRemove, held, at_]
    split
    · rename_i emptied
      refine ⟨true, _, rfl, rfl, sound.drop held at_ rfl sound.victims ?_⟩
      have raised : s.index.leave id ⟨obj.objSize, obj.tag⟩ node =
          ((s.index.setNode obj.tag (node.drop id)).store id none).raiseMin := if_pos emptied
      rw [raised] at lazy
      simp only [State.index, objs]
      exact lazy
    · rename_i kept
      refine ⟨true, _, rfl, rfl, sound.drop held at_ rfl sound.victims ?_⟩
      have stays : s.index.leave id ⟨obj.objSize, obj.tag⟩ node =
          (s.index.setNode obj.tag (node.drop id)).store id none := if_neg kept
      rw [stays] at lazy
      exact lazy

/-! ## Runs -/

theorem lfuGet_serves (b : Setup) (sound : Sound s l (s.nReq + 1)) (roomy : Roomy (s, l) r) :
    ∃ hit t, Serves (bookkeeper.policy (lfu b)) (s, l) r hit t ∧ Sound t.1 t.2 (t.1.nReq + 1) := by
  let ticked : State := { s with nReq := s.nReq + 1 }
  have start : Sound ticked l ticked.nReq := { sound with }
  refine serves_of (p := bookkeeper.policy (lfu b)) (Q := fun _ t => Sound t.1 t.2 (t.1.nReq + 1))
    (fun a => Sound a.1 a.2 a.1.nReq ∧ a.1.table.find r.objId = none ∧
      a.1.table.objs.length + 1 < 2 ^ 32)
    (fun a => a.1.table.objs.length) (decide (r.objSize + b.objMdSize ≤ b.cacheSize))
    (fun _ _ _ => rfl) ?_ ?_ ?_ ?_
  · cases held : s.table.find r.objId with
    | none =>
      have room : s.table.objs.length + 1 < 2 ^ 32 := by
        have count := s.table.nObj_eq
        rcases roomy with cached | room
        · simp only [held] at cached
          cases cached
        · simp only at room
          omega
      refine ⟨false, (ticked, l), ?_, start, held, room⟩
      simp only [Recorder.policy, lfu, lfuFind, held]
      rfl
    | some obj =>
      obtain ⟨t, run, clock, after⟩ := lfuFind_hit start held
      refine ⟨true, (t, touch l r.objId t.nReq), ?_, ?_⟩
      · simp only [Recorder.policy, lfu]
        rw [run]
        rfl
      · rw [if_pos rfl, clock]
        exact after
  · rintro ⟨t, k⟩ ⟨kept, _⟩ _
    exact kept.later (Nat.le_succ _)
  · rintro ⟨u, k⟩ ⟨kept, missed, room⟩ admitted full
    obtain ⟨id, cached⟩ := exists_of_full (of_decide_eq_true admitted) full
    obtain ⟨victim, v, run, table, present, _, clock, after⟩ := lfuEvict_takes kept cached
    obtain ⟨obj, found⟩ := Option.isSome_iff_exists.mp present
    have left := k.depart_remove kept.distinct present table
    have fewer := Fifo.length_remove_lt found
    refine ⟨(v, k.evict victim), ?_, ⟨?_, ?_, ?_⟩, ?_⟩
    · intro n
      simp only [Recorder.policy, lfu, run, Except.map, bookkeeper, left]
    · simp only [clock]
      exact after
    · have gone := congrFun (Fifo.find_remove kept.distinct victim) r.objId
      simp only [table, gone, update_apply, missed, ite_self]
    · simp only [table]
      exact (Nat.succ_lt_succ fewer).trans room
    · simp only [table]
      exact fewer
  · rintro ⟨u, k⟩ ⟨kept, missed, room⟩ _ _
    obtain ⟨t, run, clock, after⟩ := lfuInsert_new kept missed room
    refine ⟨(t, k.enter r.objId ⟨1, t.nReq⟩), ?_, ?_⟩
    · simp only [Recorder.policy, lfu, run]
      rfl
    · simp only [clock]
      exact after

theorem calls_sound {b : Setup} {a : State × Ledger Standing}
    (history : Reachable (Calls b Roomy) (lfuInit, .empty) a) : Sound a.1 a.2 (a.1.nReq + 1) := by
  refine history.invariant (fun a => Sound a.1 a.2 (a.1.nReq + 1)) (sound_init _) ?_
  rintro ⟨s, l⟩ t sound call
  cases call with
  | get r roomy served =>
    obtain ⟨hit, u, run, after⟩ := lfuGet_serves b sound roomy
    have same := served.unique run
    cases same
    exact after
  | remove id _ removed =>
    obtain ⟨found, u, run, clock, after⟩ := lfuRemove_returns sound id
    simp only [Recorder.remove, run] at removed
    cases removed
    simp only [clock]
    exact after

structure LeastUsed (s : State) (l : Ledger Standing) : Prop where
  residents : ∀ id, (l.standings id).isSome = (s.table.find id).isSome
  /-- The nodes partition the objects by their number of requests. -/
  partition : ∀ freq id, (∃ node, s.freqMap freq = some node ∧ id ∈ node.objs) ↔
    ∃ standing, l.standings id = some standing ∧ standing.uses = freq
  counts : ∀ freq node, s.freqMap freq = some node →
    node.objs.Nodup ∧ node.nObj.toNat = node.objs.length
  /-- An eviction now would find its node and take the least of the cached objects. -/
  evicts : ∀ id, (s.table.find id).isSome = true → ∃ victim t, lfuEvict s = .ok t ∧
    t.table = s.table.remove victim ∧ Eviction.Least Standing.le ⟨victim, l.standings⟩
  /-- So did every eviction of the run. -/
  victims : ∀ e ∈ l.evictions, e.Least Standing.le

theorem Sound.leastUsed (sound : Sound s l now) : LeastUsed s l := by
  constructor
  · intro id
    exact (sound.stocked.isSome id).symm
  · intro freq id
    constructor
    · rintro ⟨node, found, member⟩
      obtain ⟨obj, stored, rfl⟩ := sound.indexed.freq_of found member
      exact sound.standing_of stored
    · rintro ⟨standing, known, rfl⟩
      obtain ⟨obj, stored, uses⟩ := sound.indexed_of known
      rw [← uses]
      exact sound.indexed.node_of stored
  · intro freq node found
    exact ⟨sound.indexed.nodup found, sound.indexed.count found⟩
  · intro id cached
    obtain ⟨victim, t, run, table, _, least, _⟩ := lfuEvict_takes sound cached
    exact ⟨victim, t, run, table, least⟩
  · exact sound.victims

end Lfu
