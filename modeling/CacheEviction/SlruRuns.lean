import CacheEviction.SlruPolicy

/-!
# The counters of SLRU

The counters of the segments go wrong in three ways. `SLRU_remove` does not change the
counters of the segment from which it takes an object. `SLRU_cool` moves the bytes of an
object without its metadata. And the counters take the size of a request in 64 bits, while
an object keeps 32 bits of it.
-/
namespace Slru

open FifoCache FuelLoops CacheGet RecordedCalls StepTraces WeightedLists Function

variable {b : Setup} {s : State}
variable {i id : Nat} {obj : CacheObj Nat} {r : Request}

structure Sound (b : Setup) (s : State) : Prop where
  linked : Linked b s.segs
  accounted : Accounted b s
  occupied : s.occupiedByte = total (fun i => cost b (s.segs i)) (List.range b.nSeg)

theorem sound_init (b : Setup) : Sound b slruInit := by
  have empty : ∀ i, (slruInit.segs i).objs = [] := fun _ => rfl
  have free : cost b .empty = 0 := by simp [cost, Fifo.empty]
  constructor
  · constructor
    · intro i obj member
      rw [empty] at member
      cases member
    · intro i obj member
      rw [empty] at member
      cases member
    · intro i obj member
      rw [empty] at member
      cases member
    · intro id
      simp [slruInit, total]
  · intro i _
    exact ⟨free.symm, rfl⟩
  · simp [slruInit, total, free]

theorem Accounted.change (accounted : Accounted b s) {q : Fifo Nat} {bytes objs : Int}
    (sum : cost b q = cost b (s.segs i) + bytes) (count : q.nObj = (s.segs i).nObj + objs) :
    Accounted b (charge { s with segs := update s.segs i q } i bytes objs) := by
  intro j inside
  obtain ⟨bytesBefore, objsBefore⟩ := accounted j inside
  by_cases same : j = i
  · subst same
    simp only [charge, update_self]
    exact ⟨by rw [sum, bytesBefore], by rw [count, objsBefore]⟩
  · simp only [charge, update_of_ne same]
    exact ⟨bytesBefore, objsBefore⟩

/-! ## Evictions -/

theorem slruToEvict_tail (linked : Linked b s.segs) (chosen : slruToEvict b s = some obj) :
    obj.tag < b.nSeg ∧ (s.segs obj.tag).toEvict = some obj := by
  obtain ⟨i, first, tail⟩ := Option.bind_eq_some_iff.mp chosen
  have tag := linked.tags i obj (Fifo.toEvict_mem tail)
  rw [tag]
  exact ⟨List.mem_range.mp (List.mem_of_find?_eq_some first), tail⟩

theorem Sound.toEvict (sound : Sound b s) (inside : i < b.nSeg) (some_ : (s.segs i).objs ≠ []) :
    ∃ obj, slruToEvict b s = some obj := by
  have counted : 0 < s.lruNBytes i := by
    obtain ⟨obj, member⟩ := List.exists_mem_of_ne_nil _ some_
    rw [(sound.accounted i inside).1]
    exact cost_pos b member (sound.linked.positive i obj member)
  have first : ∃ j, (List.range b.nSeg).find? (fun i => 0 < s.lruNBytes i) = some j := by
    rw [← Option.isSome_iff_exists, List.find?_isSome]
    exact ⟨i, List.mem_range.mpr inside, decide_eq_true counted⟩
  obtain ⟨j, first⟩ := first
  have there := List.mem_range.mp (List.mem_of_find?_eq_some first)
  have positive : 0 < s.lruNBytes j := by simpa using List.find?_some first
  rw [(sound.accounted j there).1] at positive
  cases objs : (s.segs j).objs with
  | nil =>
    have none : cost b (s.segs j) = 0 := by
      rw [cost, (s.segs j).occupied_eq, (s.segs j).nObj_eq, objs]
      simp
    omega
  | cons obj rest =>
    refine ⟨obj, ?_⟩
    rw [slruToEvict, first]
    exact Fifo.toEvict_of_objs objs

def without (b : Setup) (s : State) (obj : CacheObj Nat) : State :=
  let s := charge s obj.tag (-(obj.bytes + b.objMdSize)) (-1)
  let s := unlink s obj.tag obj.objId
  { s with occupiedByte := s.occupiedByte - (obj.bytes + b.objMdSize) }

theorem placement_nonneg (b : Setup) (s : State) : 0 ≤ placement b s := by
  refine total_nonneg _ _ fun i _ => ?_
  have count := (s.segs i).nObj_eq
  exact Int.mul_nonneg (by omega) (by omega)

theorem placement_toNat_lt {u v : State} (less : placement b v < placement b u) :
    (placement b v).toNat < (placement b u).toNat := by
  have nonneg := placement_nonneg b v
  omega

theorem Sound.without (sound : Sound b s) (inside : obj.tag < b.nSeg)
    (found : (s.segs obj.tag).find obj.objId = some obj) :
    Sound b (without b s obj) ∧ placement b (without b s obj) < placement b s := by
  have left := cost_remove b found
  have fewer := nObj_remove found
  have sum : cost b ((s.segs obj.tag).remove obj.objId) =
      cost b (s.segs obj.tag) + -(obj.bytes + b.objMdSize) := by
    rw [left]
    ring
  have count : ((s.segs obj.tag).remove obj.objId).nObj = (s.segs obj.tag).nObj + -1 := by
    rw [fewer]
    ring
  constructor
  · constructor
    · exact sound.linked.remove inside obj.objId
    · exact sound.accounted.change sum count
    · have sum := total_segs (fun _ q => cost b q) s.segs inside ((s.segs obj.tag).remove obj.objId)
      have before := sound.occupied
      simp only [Slru.without, unlink, charge]
      rw [sum, left, before]
      ring
  · have sum := total_segs (fun i q => (i + 1) * q.nObj) s.segs inside
      ((s.segs obj.tag).remove obj.objId)
    have less : ((obj.tag : Int) + 1) * ((s.segs obj.tag).nObj - 1) =
        (obj.tag + 1) * (s.segs obj.tag).nObj - (obj.tag + 1) := by ring
    simp only [placement, Slru.without, unlink, charge]
    rw [sum, fewer, less]
    omega

theorem slruEvict_takes (sound : Sound b s) (chosen : slruToEvict b s = some obj) :
    slruEvict b s = .ok (without b s obj) ∧ Sound b (without b s obj) ∧
      placement b (without b s obj) < placement b s := by
  obtain ⟨inside, tail⟩ := slruToEvict_tail sound.linked chosen
  obtain ⟨rest, objs⟩ := Fifo.toEvict_eq_some tail
  refine ⟨?_, sound.without inside (Fifo.find_of_objs objs)⟩
  simp only [slruEvict, chosen]
  rfl

/-! ## Moves between segments -/

/-- The object goes to the head of another segment, and takes `bytes` along. -/
def move (s : State) (obj : CacheObj Nat) (i j : Nat) (bytes : Int) : State :=
  let s := charge (unlink s i obj.objId) i (-bytes) (-1)
  charge (link s j obj.toRequest) j bytes 1

theorem move_segs (s : State) (obj : CacheObj Nat) {j : Nat} (apart : j ≠ i) (bytes : Int) :
    (move s obj i j bytes).segs =
      update (update s.segs i ((s.segs i).remove obj.objId)) j
        ((s.segs j).insert obj.toRequest j) := by
  simp only [move, charge, link, unlink, update_of_ne apart]

theorem Sound.move (sound : Sound b s) {j : Nat} (apart : j ≠ i) (inside : i < b.nSeg)
    (inside' : j < b.nSeg) (found : (s.segs i).find obj.objId = some obj) :
    Sound b (move s obj i j (obj.bytes + b.objMdSize)) ∧
      placement b (Slru.move s obj i j (obj.bytes + b.objMdSize)) = placement b s + j - i := by
  have left := cost_remove b found
  have fewer := nObj_remove found
  have member := Fifo.find_mem found
  have segs := move_segs s obj apart (obj.bytes + b.objMdSize)
  have same : (update s.segs i ((s.segs i).remove obj.objId)) j = s.segs j := update_of_ne apart ..
  have bytes : (createCacheObj obj.toRequest j).bytes = obj.bytes := by simp [CacheObj.bytes]
  have off := sound.linked.remove inside obj.objId
  constructor
  · constructor
    · rw [segs, ← same]
      refine off.insert inside' ?_ ?_ ?_
      · -- the object was in one place, which it has left
        have single := sound.linked.single obj.objId
        have after := total_segs (fun _ q => q.held obj.objId) s.segs inside ((s.segs i).remove obj.objId)
        have gone := (s.segs i).held_remove obj.objId obj.objId
        have present : 0 < (s.segs i).held obj.objId := by
          rw [← Fifo.find_isSome_iff, found]
          rfl
        rw [if_pos ⟨rfl, present⟩] at gone
        have nonneg : 0 ≤ total
            (fun j => (update s.segs i ((s.segs i).remove obj.objId) j).held obj.objId)
            (List.range b.nSeg) := total_nonneg _ _ fun k _ => Fifo.held_nonneg _ _
        have target : obj.toRequest.objId = obj.objId := rfl
        rw [target]
        omega
      · rw [bytes]
        exact sound.linked.positive i obj member
      · rw [bytes]
        exact sound.linked.small i obj member
    · have first : Accounted b (charge (unlink s i obj.objId) i (-(obj.bytes + b.objMdSize)) (-1)) :=
        sound.accounted.change (by rw [left]; ring) (by rw [fewer]; ring)
      exact first.change (by rw [cost_insert, bytes]) (nObj_insert _ _ _)
    · have out := total_segs (fun _ q => cost b q) s.segs inside ((s.segs i).remove obj.objId)
      have into := total_segs (fun _ q => cost b q)
        (update s.segs i ((s.segs i).remove obj.objId)) inside'
        ((s.segs j).insert obj.toRequest j)
      have before : (Slru.move s obj i j (obj.bytes + b.objMdSize)).occupiedByte = s.occupiedByte := rfl
      rw [before, segs, into, out, same, cost_insert, left, bytes, sound.occupied]
      ring
  · have out := total_segs (fun k q => (k + 1) * q.nObj) s.segs inside ((s.segs i).remove obj.objId)
    have into := total_segs (fun k q => (k + 1) * q.nObj)
      (update s.segs i ((s.segs i).remove obj.objId)) inside'
      ((s.segs j).insert obj.toRequest j)
    rw [placement, segs, into, out, same, nObj_insert, fewer, placement]
    ring

/-! ## Cooling -/

def Newest (s : State) (i id : Nat) : Prop :=
  ∃ rest obj, (s.segs i).objs = rest ++ [obj] ∧ obj.objId = id

theorem Newest.held (newest : Newest s i id) : 0 < (s.segs i).held id := by
  obtain ⟨rest, obj, objs, rfl⟩ := newest
  rw [Fifo.held, copies_pos_iff, objs]
  simp

theorem newest_insert (r : Request) (q : Fifo Nat) (at_ : s.segs i = q.insert r i) :
    Newest s i r.objId :=
  ⟨q.objs, createCacheObj r i, by rw [at_, Fifo.objs_insert], rfl⟩

/-- What cooling a segment does: its last object leaves it, and an object that was alone in
it is at the head of a segment below. -/
structure Cooled (b : Setup) (i : Nat) (s t : State) : Prop where
  sound : Sound b t
  less : placement b t < placement b s
  above : ∀ j, i < j → t.segs j = s.segs j
  tail : ∃ obj, (s.segs i).objs = obj :: (t.segs i).objs
  down : (t.segs i).objs = [] → ∀ id, Newest s i id → ∃ k < i, Newest t k id

theorem Cooled.newest {t : State} (cooled : Cooled b i s t) (newest : Newest s i id) :
    Newest t i id ∨ (t.segs i).objs = [] ∧ ∃ k < i, Newest t k id := by
  by_cases empty : (t.segs i).objs = []
  · exact .inr ⟨empty, cooled.down empty id newest⟩
  · left
    obtain ⟨first, shape⟩ := cooled.tail
    obtain ⟨rest, obj, objs, own⟩ := newest
    rw [shape] at objs
    cases rest with
    | nil =>
      exact absurd (List.cons.inj objs).2 empty
    | cons _ rest =>
      rw [List.cons_append] at objs
      exact ⟨rest, obj, (List.cons.inj objs).2, own⟩

theorem nonempty_of_full (sound : Sound b s) (inside : i < b.nSeg)
    (full : b.lruMaxNBytes i < s.lruNBytes i) : ∃ obj rest, (s.segs i).objs = obj :: rest := by
  rw [(sound.accounted i inside).1] at full
  cases objs : (s.segs i).objs with
  | nil =>
    have none : cost b (s.segs i) = 0 := by
      rw [cost, (s.segs i).occupied_eq, (s.segs i).nObj_eq, objs]
      simp
    omega
  | cons obj rest => exact ⟨obj, rest, rfl⟩

theorem slruCool_first (sound : Sound b s) (full : b.lruMaxNBytes 0 < s.lruNBytes 0) :
    ∃ t, slruCool b 0 s = .ok t ∧ Cooled b 0 s t := by
  obtain ⟨obj, rest, objs⟩ := nonempty_of_full sound b.nSeg_pos full
  have member : obj ∈ (s.segs 0).objs := by
    rw [objs]
    exact List.mem_cons_self
  have tag : obj.tag = 0 := sound.linked.tags 0 obj member
  have chosen : slruToEvict b s = some obj := by
    have first : (List.range b.nSeg).find? (fun i => 0 < s.lruNBytes i) = some 0 := by
      have positive : 0 < s.lruNBytes 0 := by omega
      obtain ⟨n, size⟩ := Nat.exists_eq_succ_of_ne_zero b.nSeg_pos.ne'
      rw [size, List.range_succ_eq_map]
      exact List.find?_cons_of_pos (decide_eq_true positive)
    rw [slruToEvict, first]
    exact Fifo.toEvict_of_objs objs
  obtain ⟨run, after, less⟩ := slruEvict_takes sound chosen
  have left : ((without b s obj).segs 0).objs = rest := by
    simp only [without, unlink, charge, tag, update_self]
    exact Fifo.objs_remove_oldest objs
  refine ⟨_, run, after, less, ?_, ⟨obj, by rw [objs, left]⟩, ?_⟩
  · intro j above
    have apart : j ≠ obj.tag := by omega
    simp only [without, unlink, charge, update_of_ne apart]
  · intro empty
    rw [left] at empty
    have small := sound.linked.small 0 obj member
    have bytes := (sound.accounted 0 b.nSeg_pos).1
    rw [cost, (s.segs 0).occupied_eq, (s.segs 0).nObj_eq, objs, empty] at bytes
    simp at bytes
    omega

/-- What the loop of a segment keeps: the objects in the segments above, and the object
that came to its head. -/
structure Settling (b : Setup) (i : Nat) (s u : State) : Prop where
  sound : Sound b u
  le : placement b u ≤ placement b s
  above : ∀ j, i < j → u.segs j = s.segs j
  newest : ∀ id, Newest s i id → Newest u i id ∨ (u.segs i).objs = [] ∧ ∃ k < i, Newest u k id

theorem Settling.next {u v : State} (settling : Settling b i s u) (cooled : Cooled b i u v) :
    Settling b i s v where
  sound := cooled.sound
  le := cooled.less.le.trans settling.le
  above j above := (cooled.above j above).trans (settling.above j above)
  newest id newest := by
    rcases settling.newest id newest with here | ⟨empty, _⟩
    · exact cooled.newest here
    · obtain ⟨obj, shape⟩ := cooled.tail
      rw [empty] at shape
      cases shape

theorem slruCool_cools (plain : b.objMdSize = 0) (i : Nat) :
    ∀ s, Sound b s → i < b.nSeg → b.lruMaxNBytes i < s.lruNBytes i →
      ∃ t, slruCool b i s = .ok t ∧ Cooled b i s t := by
  induction i with
  | zero =>
    intro s sound _ full
    exact slruCool_first sound full
  | succ i ih =>
    intro s sound inside full
    obtain ⟨obj, rest, objs⟩ := nonempty_of_full sound inside full
    have tail := Fifo.toEvict_of_objs objs
    have below : i < b.nSeg := by omega
    have apart : i ≠ i + 1 := by omega
    obtain ⟨after, less⟩ := sound.move apart inside below (Fifo.find_of_objs objs)
    have free : obj.bytes + b.objMdSize = obj.bytes := by
      rw [plain]
      simp
    rw [free] at after less
    have segs := move_segs s obj apart obj.bytes
    have shape : slruCool b (i + 1) s = loop (whileFull b (slruCool b i) i)
        ((placement b (move s obj (i + 1) i obj.bytes)).toNat + 1) (move s obj (i + 1) i obj.bytes) := by
      rw [slruCool, tail]
      rfl
    -- the loop of the segment below
    have cools : ∀ u, Settling b i (move s obj (i + 1) i obj.bytes) u → ∃ round,
        whileFull b (slruCool b i) i u = .ok round ∧
          Round.Progress (Settling b i (move s obj (i + 1) i obj.bytes))
            (fun u => (placement b u).toNat) (Settling b i (move s obj (i + 1) i obj.bytes)) u round := by
      intro u settling
      by_cases high : b.lruMaxNBytes i < u.lruNBytes i
      · obtain ⟨v, run, cooled⟩ := ih u settling.sound below high
        refine ⟨.again v, ?_, settling.next cooled, ?_⟩
        · rw [whileFull, if_pos high, run]
          rfl
        · exact placement_toNat_lt cooled.less
      · refine ⟨.done u, ?_, settling⟩
        rw [whileFull, if_neg high]
    have start : Settling b i (move s obj (i + 1) i obj.bytes) (move s obj (i + 1) i obj.bytes) :=
      ⟨after, le_rfl, fun _ _ => rfl, fun _ newest => .inl newest⟩
    obtain ⟨t, run, settled⟩ := loop_within _ _ cools start (Nat.lt_succ_self _)
    have left : (t.segs (i + 1)).objs = rest := by
      rw [settled.above (i + 1) (by omega), segs, update_of_ne (Ne.symm apart),
        update_self]
      exact Fifo.objs_remove_oldest objs
    refine ⟨t, shape.trans run, settled.sound, ?_, ?_, ⟨obj, by rw [objs, left]⟩, ?_⟩
    · have le := settled.le
      omega
    · intro j above
      have first : j ≠ i + 1 := by omega
      have second : j ≠ i := by omega
      rw [settled.above j (by omega), segs, update_of_ne second, update_of_ne first]
    · intro empty id newest
      rw [left] at empty
      obtain ⟨others, last, same, rfl⟩ := newest
      rw [objs, empty] at same
      obtain rfl : obj = last := by
        have equal := congrArg List.getLast? same
        simpa using equal
      have moved : Newest (move s obj (i + 1) i obj.bytes) i obj.objId :=
        newest_insert obj.toRequest (s.segs i) (by rw [segs, update_self])
      rcases settled.newest _ moved with here | ⟨_, k, lower, there⟩
      · exact ⟨i, by omega, here⟩
      · exact ⟨k, by omega, there⟩

/-! ## Lookups -/

theorem settle_ends (plain : b.objMdSize = 0) (sound : Sound b s) (inside : i < b.nSeg)
    (newest : Newest s i id) :
    ∃ t, loop (settle b id) ((placement b s).toNat + 1) s = .ok t ∧ Sound b t := by
  have rounds : ∀ u, (Sound b u ∧ ∃ k < b.nSeg, Newest u k id) → ∃ round,
      settle b id u = .ok round ∧ Round.Progress (fun u => Sound b u ∧ ∃ k < b.nSeg, Newest u k id)
        (fun u => (placement b u).toNat) (Sound b) u round := by
    rintro u ⟨sound, k, inside, newest⟩
    obtain ⟨obj, found, tag⟩ := findObj_of_held sound.linked inside newest.held
    by_cases full : b.lruMaxNBytes k < u.lruNBytes k
    · obtain ⟨v, run, cooled⟩ := slruCool_cools plain k u sound inside full
      refine ⟨.again v, ?_, ⟨cooled.sound, ?_⟩, placement_toNat_lt cooled.less⟩
      · simp only [settle, found, tag, whileFull, if_pos full, run]
        rfl
      · rcases cooled.newest newest with here | ⟨_, j, lower, there⟩
        · exact ⟨k, inside, here⟩
        · exact ⟨j, by omega, there⟩
    · refine ⟨.done u, ?_, sound⟩
      simp only [settle, found, tag, whileFull, if_neg full]
  exact loop_within _ _ rounds ⟨sound, i, inside, newest⟩ (Nat.lt_succ_self _)

theorem nObj_promote {q : Fifo Nat} (found : q.find id = some obj) :
    (q.promote id).nObj = q.nObj := by
  have fewer := nObj_remove found
  simp only [Fifo.promote, found, nObj_insert, fewer]
  ring

theorem Sound.promote (sound : Sound b s) (inside : i < b.nSeg)
    (found : (s.segs i).find id = some obj) :
    Sound b { s with segs := update s.segs i ((s.segs i).promote id) } := by
  have same : cost b ((s.segs i).promote id) = cost b (s.segs i) := by
    have bytes := Fifo.total_promote CacheObj.bytes (s.segs i) id
    rw [← Fifo.occupied_eq, ← Fifo.occupied_eq] at bytes
    rw [cost, cost, bytes, nObj_promote found]
  have member : ∀ o ∈ ((s.segs i).promote id).objs, o ∈ (s.segs i).objs := by
    intro o listed
    rw [Fifo.objs_promote found] at listed
    rcases List.mem_append.mp listed with old | last
    · exact List.mem_of_mem_eraseP old
    · rw [List.mem_singleton.mp last]
      exact Fifo.find_mem found
  constructor
  · constructor
    · exact Linked.forall_update sound.linked.tags fun o listed => sound.linked.tags i o (member o listed)
    · exact Linked.forall_update sound.linked.positive fun o listed =>
        sound.linked.positive i o (member o listed)
    · exact Linked.forall_update sound.linked.small fun o listed => sound.linked.small i o (member o listed)
    · intro x
      have sum := total_segs (fun _ q => q.held x) s.segs inside ((s.segs i).promote id)
      have single := sound.linked.single x
      rw [sum, Fifo.held_promote]
      omega
  · intro j below
    obtain ⟨bytes, objs⟩ := sound.accounted j below
    by_cases own : j = i
    · subst own
      simp only [update_self]
      exact ⟨by rw [same, bytes], by rw [nObj_promote found, objs]⟩
    · simp only [update_of_ne own]
      exact ⟨bytes, objs⟩
  · have sum := total_segs (fun _ q => cost b q) s.segs inside ((s.segs i).promote id)
    have before := sound.occupied
    simp only
    rw [sum, same, before]
    ring

theorem slruFind_hit (sound : Sound b s) (found : findObj b s r.objId = some obj)
    (countable : Countable b s r) : ∃ t, slruFind b s r = .ok (true, t) ∧ Sound b t := by
  obtain ⟨inside, here⟩ := findObj_spec sound.linked found
  by_cases top : obj.tag = b.nSeg - 1
  · refine ⟨_, ?_, sound.promote inside here⟩
    simp only [slruFind, found, if_pos top]
  have own : obj.objId = r.objId := Fifo.find_objId here
  have below : obj.tag + 1 < b.nSeg := by omega
  have apart : obj.tag + 1 ≠ obj.tag := by omega
  obtain ⟨after, _⟩ := sound.move apart inside below (own ▸ here)
  have segs := move_segs s obj apart (obj.bytes + b.objMdSize)
  have newest : Newest (slruPromoteToNextSeg b s obj) (obj.tag + 1) r.objId := by
    rw [← own]
    exact newest_insert obj.toRequest (s.segs (obj.tag + 1)) (by
      exact (congrFun segs _).trans (update_self ..))
  have promoted : Sound b (slruPromoteToNextSeg b s obj) := after
  have ends : ∃ t, loop (settle b r.objId) ((placement b (slruPromoteToNextSeg b s obj)).toNat + 1)
      (slruPromoteToNextSeg b s obj) = .ok t ∧ Sound b t := by
    simp only [Countable, found] at countable
    rcases countable with plain | last | fits
    · exact settle_ends plain promoted below newest
    · exact absurd last top
    · -- the next segment has room, so that nothing cools
      obtain ⟨there, again, tag⟩ := findObj_of_held promoted.linked below newest.held
      have bytes : (slruPromoteToNextSeg b s obj).lruNBytes (obj.tag + 1) =
          s.lruNBytes (obj.tag + 1) + (obj.bytes + b.objMdSize) := by
        simp only [slruPromoteToNextSeg, charge, link, unlink, update_self,
          update_of_ne apart]
      refine ⟨_, loop_done ?_ _, promoted⟩
      have room : ¬ (b.lruMaxNBytes (obj.tag + 1) : Int) <
          (slruPromoteToNextSeg b s obj).lruNBytes (obj.tag + 1) := by omega
      simp only [settle, again, tag, whileFull, if_neg room]
  obtain ⟨t, run, sound'⟩ := ends
  refine ⟨t, ?_, sound'⟩
  simp only [slruFind, found, if_neg top, run]
  rfl

/-! ## Insertions -/

theorem createCacheObj_bytes (narrow : r.objSize < 2 ^ 32) (tag : Nat) :
    (createCacheObj r tag).bytes = r.objSize := by
  have stored : (UInt32.ofNat r.objSize).toNat = r.objSize := by
    rw [UInt32.toNat_ofNat']
    exact Nat.mod_eq_of_lt narrow
  simp only [CacheObj.bytes, createCacheObj, stored]

def Missing (b : Setup) (s : State) (id : Nat) : Prop :=
  total (fun i => (s.segs i).held id) (List.range b.nSeg) = 0

theorem Sound.place (sound : Sound b s) (inside : i < b.nSeg) (missing : Missing b s r.objId)
    (positive : 1 ≤ r.objSize) (admitted : slruCanInsert b r = true) (narrow : r.objSize < 2 ^ 32) :
    Sound b (place b s r i) := by
  have bytes := createCacheObj_bytes narrow i
  have small := (of_decide_eq_true admitted).2
  constructor
  · exact sound.linked.insert inside missing (by omega) (by omega)
  · exact sound.accounted.change (by rw [cost_insert, bytes]) (nObj_insert _ _ _)
  · have sum := total_segs (fun _ q => cost b q) s.segs inside ((s.segs i).insert r i)
    have before := sound.occupied
    simp only [Slru.place, link, charge]
    rw [sum, cost_insert, before]
    ring

theorem slruInsert_new (sound : Sound b s) (missing : Missing b s r.objId)
    (positive : 1 ≤ r.objSize) (admitted : slruCanInsert b r = true) (narrow : r.objSize < 2 ^ 32)
    (fits : s.occupiedByte + r.objSize ≤ b.cacheSize - b.objMdSize) :
    ∃ t, slruInsert b s r = .ok t ∧ Sound b t := by
  cases place : (List.range b.nSeg).find? fun i =>
      s.lruNBytes i + r.objSize + b.objMdSize ≤ b.lruMaxNBytes i with
  | some i =>
    have inside := List.mem_range.mp (List.mem_of_find?_eq_some place)
    refine ⟨_, ?_, sound.place inside missing positive admitted narrow⟩
    simp only [slruInsert, place]
  | none =>
    have room : ¬ (b.cacheSize : Int) < s.occupiedByte + r.objSize + b.objMdSize := by omega
    have leave : whileNoRoom b r s = .ok (.done s) := by
      rw [whileNoRoom, if_neg room]
    refine ⟨_, ?_, sound.place b.nSeg_pos missing positive admitted narrow⟩
    simp only [slruInsert, place, loop_done leave]
    rfl

/-! ## Runs -/

theorem Sound.nonempty (sound : Sound b s) (bytes : 0 < s.occupiedByte) :
    ∃ i < b.nSeg, (s.segs i).objs ≠ [] := by
  by_contra none
  have empty : ∀ i ∈ List.range b.nSeg, cost b (s.segs i) = 0 := by
    intro i inside
    have nil : (s.segs i).objs = [] := by
      by_contra some_
      exact none ⟨i, List.mem_range.mp inside, some_⟩
    rw [cost, (s.segs i).occupied_eq, (s.segs i).nObj_eq, nil]
    simp
  have sum := (total_eq_zero_iff (fun i => cost_nonneg b (s.segs i)) (List.range b.nSeg)).mpr empty
  have before := sound.occupied
  omega

theorem slruGet_serves (sound : Sound b s) (positive : 1 ≤ r.objSize) (countable : Countable b s r) :
    ∃ hit t, Serves (slru b) s r hit t ∧ Sound b t := by
  cases found : findObj b s r.objId with
  | some obj =>
    obtain ⟨t, run, after⟩ := slruFind_hit sound found countable
    exact ⟨true, t, serves_hit run, after⟩
  | none =>
    simp only [Countable, found] at countable
    refine serves_of (p := slru b) (Q := fun _ t => Sound b t)
      (fun u => Sound b u ∧ Missing b u r.objId) (fun u => (placement b u).toNat) (slruCanInsert b r)
      (fun _ _ _ => rfl) ?_ ?_ ?_ ?_
    · refine ⟨false, s, ?_, sound, findObj_absent found⟩
      simp only [slru, slruFind, found]
    · rintro u ⟨kept, _⟩ _
      exact kept
    · rintro u ⟨kept, missing⟩ admitted full
      have bytes : 0 < u.occupiedByte := by
        have small := (of_decide_eq_true admitted).1
        simp only [slru] at full
        omega
      obtain ⟨i, inside, some_⟩ := kept.nonempty bytes
      obtain ⟨obj, chosen⟩ := kept.toEvict inside some_
      obtain ⟨run, after, less⟩ := slruEvict_takes kept chosen
      obtain ⟨there, _⟩ := slruToEvict_tail kept.linked chosen
      refine ⟨_, fun _ => run, ⟨after, ?_⟩, placement_toNat_lt less⟩
      have sum := total_segs (fun _ q => q.held r.objId) u.segs there
        ((u.segs obj.tag).remove obj.objId)
      have fewer := (u.segs obj.tag).held_remove obj.objId r.objId
      have nonneg : 0 ≤ total (fun i => ((without b u obj).segs i).held r.objId) (List.range b.nSeg) :=
        total_nonneg _ _ fun k _ => Fifo.held_nonneg _ _
      simp only [Missing, without, unlink, charge] at missing nonneg ⊢
      rw [sum, fewer] at nonneg ⊢
      split at nonneg <;> omega
    · rintro u ⟨kept, missing⟩ admitted fits
      exact slruInsert_new kept missing positive admitted (countable admitted) fits

/-- A request for an object of some bytes that the counters can follow. -/
def FairGet (b : Setup) (s : State) (r : Request) : Prop := 1 ≤ r.objSize ∧ Countable b s r

instance (b : Setup) (s : State) (r : Request) : Decidable (FairGet b s r) :=
  inferInstanceAs (Decidable (_ ∧ _))

def FairRemove (b : Setup) (s : State) (id : Nat) : Prop := findObj b s id = none

theorem calls_sound (history : Reachable (Calls b (FairGet b) (FairRemove b)) slruInit s) :
    Sound b s := by
  refine history.invariant (Sound b) (sound_init b) ?_
  intro s t sound call
  cases call with
  | get r fair served =>
    obtain ⟨hit, u, run, after⟩ := slruGet_serves sound fair.1 fair.2
    cases served.unique run
    exact after
  | remove id absent removed =>
    simp only [slruRemove, show findObj b s id = none from absent] at removed
    cases removed
    exact sound

theorem slruGet_mono (b : Setup) (s : State) (r : Request) :
    FuelMono fun n => cacheGetBase (slru b) n s r :=
  cacheGetBase_mono (fun _ => .const _) (fun _ => .const _) s

def fourBytes : Setup := equalSegments 4 2 Nat.two_pos false

def hundredBytes : Setup := equalSegments 100 2 Nat.two_pos true

end Slru
