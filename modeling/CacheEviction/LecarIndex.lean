import CacheEviction.LecarTable

/-!
# The frequency nodes of LeCaR

The frequency nodes list the cached objects by frequency, whatever the counters do. What a
call does to the nodes is said here as an equation, from which the invariants follow.
-/
namespace Lecar

open FifoCache FuelLoops Function
open CrLfu (FreqNode)

variable {s : State}
variable {q t table : Fifo Meta} {i id : Nat} {v : Option (CacheObj Meta)} {obj : CacheObj Meta}

/-! ## The objects on the nodes -/

def freqEntry (o : CacheObj Meta) : Option Int :=
  if o.tag.isGhost then none else some (freqOf o.tag.freq)

def freqs (table : Fifo Meta) (id : Nat) : Option Int := (table.find id).bind freqEntry

/-- The nodes list the objects by frequency, each of them once. -/
structure Listed (freqMap : Int → Option FreqNode) (freqs : Nat → Option Int) : Prop where
  nodup : ∀ {freq node}, freqMap freq = some node → node.objs.Nodup
  mem : ∀ freq id, (∃ node, freqMap freq = some node ∧ id ∈ node.objs) ↔ freqs id = some freq

namespace Listed

variable {freqMap : Int → Option FreqNode} {freqs : Nat → Option Int} {id : Nat} {freq : Int}
  {node : FreqNode}

theorem drop (listed : Listed freqMap freqs) (own : freqs id = some freq)
    (found : freqMap freq = some node) :
    Listed (update freqMap freq (some (node.drop id))) (update freqs id none) := by
  have once := listed.nodup found
  constructor
  · intro f other there
    rcases CrLfu.update_eq_some there with ⟨_, ⟨⟩⟩ | ⟨_, old⟩
    · exact once.erase id
    · exact listed.nodup old
  · intro f x
    by_cases same : x = id
    · subst same
      rw [update_self]
      refine iff_of_false ?_ (by simp)
      rintro ⟨other, there, member⟩
      rcases CrLfu.update_eq_some there with ⟨_, ⟨⟩⟩ | ⟨apart, old⟩
      · exact once.not_mem_erase member
      · have here := (listed.mem f x).mp ⟨other, old, member⟩
        rw [own] at here
        exact apart (Option.some.inj here).symm
    · rw [update_of_ne same, ← listed.mem]
      by_cases at_ : f = freq
      · subst at_
        simp only [update_self, found, Option.some.injEq, exists_eq_left', FreqNode.drop,
          List.mem_erase_of_ne same]
      · simp only [update_of_ne at_]

theorem push (listed : Listed freqMap freqs) (absent : freqs id = none) (freq : Int) :
    Listed (update freqMap freq (some (((freqMap freq).getD ⟨0, []⟩).push id)))
      (update freqs id (some freq)) := by
  have missing : ∀ f other, freqMap f = some other → id ∉ other.objs := by
    intro f other there member
    have here := (listed.mem f id).mp ⟨other, there, member⟩
    rw [absent] at here
    cases here
  constructor
  · intro f other there
    rcases CrLfu.update_eq_some there with ⟨_, ⟨⟩⟩ | ⟨_, old⟩
    · cases here : freqMap freq with
      | none => exact List.nodup_singleton id
      | some node =>
        refine List.nodup_append.mpr ⟨listed.nodup here, List.nodup_singleton id, ?_⟩
        rintro x member y own rfl
        exact missing freq node here (List.mem_singleton.mp own ▸ member)
    · exact listed.nodup old
  · intro f x
    by_cases at_ : f = freq
    · subst at_
      simp only [update_self, Option.some.injEq, exists_eq_left', FreqNode.push,
        List.mem_append, List.mem_singleton]
      by_cases same : x = id
      · simp [same]
      · rw [update_of_ne same, ← listed.mem]
        cases freqMap f <;> simp [same]
    · simp only [update_of_ne at_]
      by_cases same : x = id
      · subst same
        rw [update_self]
        refine iff_of_false ?_ fun equal => at_ (Option.some.inj equal).symm
        rintro ⟨other, there, member⟩
        exact missing f other there member
      · rw [update_of_ne same]
        exact listed.mem f x

end Listed

/-! ## The index after a change of the table -/

def indexEntry (o : CacheObj Meta) : Option CrLfu.Obj :=
  if o.tag.isGhost then none else some ⟨o.objSize, freqOf o.tag.freq⟩

theorem bind_update {β : Type} (g : CacheObj Meta → Option β) (changed : t.find = update q.find i v) :
    (fun id => (t.find id).bind g) = update (fun id => (q.find id).bind g) i (v.bind g) := by
  funext id
  rw [changed]
  by_cases same : id = i
  · rw [same, update_self, update_self]
  · rw [update_of_ne same, update_of_ne same]

theorem freqs_update (changed : t.find = update q.find i v) :
    freqs t = update (freqs q) i (v.bind freqEntry) := bind_update freqEntry changed

theorem index_update (changed : t.find = update q.find i v) :
    (fun id => (t.find id).bind indexEntry) =
      update (fun id => (q.find id).bind indexEntry) i (v.bind indexEntry) :=
  bind_update indexEntry changed

theorem index_objs (s : State) : s.index.objs = fun id => (s.table.find id).bind indexEntry := rfl

theorem freqs_cached (found : table.find id = some obj) (cached : kindOf obj = .cached) :
    freqs table id = some (freqOf obj.tag.freq) := by
  rw [freqs, found, Option.bind_some, freqEntry, if_neg (isGhost_of_cached cached)]

theorem kinds_of_freqs {freq : Int} (here : freqs table id = some freq) :
    kinds table id = some .cached := by
  obtain ⟨o, found, own⟩ := Option.bind_eq_some_iff.mp here
  unfold freqEntry at own
  split at own
  · cases own
  · rename_i resident
    rw [kinds, found, Option.map_some, kindOf, if_neg resident]

theorem freqs_of_index {entry : CrLfu.Obj} (stored : s.index.objs id = some entry) :
    freqs s.table id = some entry.freq := by
  obtain ⟨o, found, own⟩ := Option.bind_eq_some_iff.mp stored
  split at own
  · cases own
  · rename_i resident
    cases own
    rw [freqs, found, Option.bind_some, freqEntry, if_neg resident]

theorem freqs_absent (absent : kinds table id ≠ some .cached) : freqs table id = none := by
  by_contra stored
  obtain ⟨freq, here⟩ := Option.ne_none_iff_exists'.mp stored
  exact absent (kinds_of_freqs here)

theorem index_absent (absent : kinds s.table id ≠ some .cached) : s.index.objs id = none := by
  by_contra stored
  obtain ⟨entry, found⟩ := Option.ne_none_iff_exists'.mp stored
  exact absent (kinds_of_freqs (freqs_of_index found))

/-! ## An object leaves the nodes -/

theorem removeObjFromFreqNode_eq {freq : BitVec 23} {node : FreqNode} (objSize : UInt32)
    (found : s.freqMap (freqOf freq) = some node) (id : Nat) (table : Fifo Meta) (q : List Nat) :
    removeObjFromFreqNode { s with table := table, q := q } id freq = .ok { s with
      table := table
      q := q
      freqMap := update s.freqMap (freqOf freq) (some (node.drop id))
      minFreq := (s.index.leave id ⟨objSize, freqOf freq⟩ node).minFreq } := by
  simp only [removeObjFromFreqNode, found, CrLfu.State.leave]
  by_cases emptied : freqOf freq = s.minFreq ∧ (node.drop id).nObj = 0
  · have same : freqOf freq = s.index.minFreq ∧ (node.drop id).nObj = 0 := emptied
    rw [if_pos emptied, if_pos same]
    rfl
  · have same : ¬ (freqOf freq = s.index.minFreq ∧ (node.drop id).nObj = 0) := emptied
    rw [if_neg emptied, if_neg same]
    rfl

/-! ## The least frequency after a hit -/

/-- The nodes after the object has gone to the one of its next frequency. -/
def relink (i : CrLfu.State) (id : Nat) (obj : CrLfu.Obj) (node : FreqNode) (next : Int) :
    CrLfu.State :=
  { (i.setNode obj.freq (node.drop id)).link id next with maxFreq := max i.maxFreq next }

/-- `min_freq` after a hit; `alone` if the object is the only one. -/
def minAfterHit (i : CrLfu.State) (id : Nat) (obj : CrLfu.Obj) (node : FreqNode) (next : Int)
    (alone : Prop) [Decidable alone] : Int :=
  let left := (i.leave id obj node).minFreq
  let searched :=
    if alone then
      (CrLfu.State.nextFreq { relink i id obj node next with minFreq := left }).getD left
    else left
  if next < searched then next else searched

theorem nextFreq_index (s : State) (objs : Nat → Option CrLfu.Obj) :
    s.index.nextFreq = CrLfu.State.nextFreq ⟨objs, s.freqMap, s.minFreq, s.maxFreq⟩ := rfl

theorem touchObj_eq {node : FreqNode} (found : s.freqMap (freqOf obj.tag.freq) = some node) :
    touchObj s obj = .ok { s with
      q := s.q.erase obj.objId ++ [obj.objId]
      table := s.table.retag obj.objId fun m => { m with freq := obj.tag.freq + 1 }
      freqMap := (relink s.index obj.objId ⟨obj.objSize, freqOf obj.tag.freq⟩ node
        (freqOf (obj.tag.freq + 1))).freqMap
      maxFreq := max s.maxFreq (freqOf (obj.tag.freq + 1))
      minFreq := minAfterHit s.index obj.objId ⟨obj.objSize, freqOf obj.tag.freq⟩ node
        (freqOf (obj.tag.freq + 1)) (s.nObj = 1) } := by
  have dropped := removeObjFromFreqNode_eq obj.objSize found obj.objId s.table
    (s.q.erase obj.objId ++ [obj.objId])
  obtain ⟨next, after⟩ : ∃ next, freqOf (obj.tag.freq + 1) = next := ⟨_, rfl⟩
  have linked : (relink s.index obj.objId ⟨obj.objSize, freqOf obj.tag.freq⟩ node next).freqMap =
      update (update s.freqMap (freqOf obj.tag.freq) (some (node.drop obj.objId)))
        next (some ((((update s.freqMap (freqOf obj.tag.freq)
          (some (node.drop obj.objId))) next).getD ⟨0, []⟩).push obj.objId)) := rfl
  have highest : (relink s.index obj.objId ⟨obj.objSize, freqOf obj.tag.freq⟩ node next).maxFreq =
      max s.maxFreq next := rfl
  simp only [touchObj, dropped, insertObjInfoFreqNode, after, ← linked, highest, minAfterHit, updateLfuMinFreq,
    nextFreq_index _ (relink s.index obj.objId ⟨obj.objSize, freqOf obj.tag.freq⟩ node next).objs,
    bind, Except.bind, pure, Except.pure]
  by_cases alone : s.nObj = 1
  · simp only [if_pos alone]
    split <;> rfl
  · simp only [if_neg alone]
    split <;> rfl

end Lecar
