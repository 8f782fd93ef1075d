import CacheEviction.LirsInvariant

/-!
# The evictions of LIRS

Objects have one byte, so an eviction loop makes at most one round. An object that
leaves `LRU_q` stays in the stack without its data. A block that leaves the tail of the
stack goes to `LRU_q`, and may push out the oldest object there.
-/
namespace Lirs

open FuelLoops FifoCache CacheGet WeightedLists

variable {s t u : State} {owed : Nat → Int} {o : CacheObj Flags} {x : Nat}
    {os : List (CacheObj Flags)} {b : Params}

/-! ## Evictions from `LRU_q` -/

/-- What `loseData` does to the entries of the stack. -/
structure Lost (s : State) (y : Nat) (t : State) : Prop where
  kinds : t.kinds = s.kinds
  lir : ∀ id, t.lir id = s.lir id
  hir : ∀ id, t.hir id = if y = id then 0 else s.hir id
  absent : ∀ id, t.absent id = s.absent id + if y = id then s.hir id else 0
  ghosts : ∀ id, t.lruNh.held id = s.lruNh.held id + if y = id then s.hir id else 0
  sizes : total odd t.lruS.objs = total odd s.lruS.objs
  low : total isLow t.lruS.objs = total isLow s.lruS.objs

theorem Lost.of_same {y : Nat} (stack : u.lruS = s.lruS) (ghost : u.lruNh = s.lruNh)
    (zero : s.hir y = 0) : Lost s y u := by
  have none : ∀ id, (if y = id then s.hir id else 0) = 0 := by
    intro id
    split
    · rename_i here
      rw [← here, zero]
    · rfl
  constructor
  · simp only [State.kinds, stack]
  · intro id
    simp only [State.lir, stack]
  · intro id
    rw [State.hir, stack]
    split
    · rename_i here
      rw [← here]
      exact zero
    · rfl
  · intro id
    rw [none, add_zero, State.absent, State.absent, stack]
  · intro id
    rw [none, add_zero, ghost]
  · rw [stack]
  · rw [stack]

theorem Lost.of_found {entry : CacheObj Flags} (core : Core owed s)
    (found : s.lruS.find o.objId = some entry) (roles : s.lir o.objId = 0 ∧ s.absent o.objId = 0)
    (stack : u.lruS = s.lruS.retag o.objId fun flags => { flags with inCache := false })
    (ghost : u.lruNh = s.lruNh.insert o.toRequest ()) : Lost s o.objId u := by
  have key := Fifo.find_objId found
  have own := core.found found
  have sum := roles_sum o.objId entry
  rw [copies, if_pos key] at sum
  have high : entry.tag.isLIR = false := by
    cases low : entry.tag.isLIR with
    | false => rfl
    | true =>
      have mark := (roles_of_low low o.objId).1
      rw [if_pos key] at mark
      omega
  generalize emptying : ({ entry with tag := { entry.tag with inCache := false } } : CacheObj Flags) = emptied
  have marks := roles_of_absent (o := emptied) (by rw [← emptying]; exact high)
    (by rw [← emptying]) o.objId
  have keyE : emptied.objId = o.objId := by rw [← emptying]; exact key
  rw [if_pos keyE] at marks
  have hirs : s.hir o.objId = 1 := by omega
  have changed := fun w => Fifo.total_retag w (fun flags : Flags => { flags with inCache := false }) found
  have after := core.retag_roles found fun flags => { flags with inCache := false }
  simp only [emptying] at changed after
  constructor
  · rw [State.kinds, stack]
    exact map_updateFirst (fun o : CacheObj Flags => (o.objId, o.tag.isLIR)) (hasId o.objId)
      (fun o => { o with tag := { o.tag with inCache := false } }) (fun _ => rfl) s.lruS.objs
  · intro id
    rw [State.lir, stack, (after id).1, marks.1]
    split
    · rename_i here
      rw [← here, roles.1]
    · rfl
  · intro id
    rw [State.hir, stack, (after id).2.1, marks.2.1]
  · intro id
    rw [State.absent, stack, (after id).2.2, marks.2.2]
    split
    · rename_i here
      rw [← here, hirs, roles.2]
      rfl
    · rw [add_zero]
  · intro id
    have came : o.toRequest.objId = o.objId := rfl
    rw [ghost, Fifo.held_insert, came]
    split
    · rename_i here
      rw [← here, hirs]
    · rfl
  · have same : odd emptied = odd entry := by rw [← emptying]; rfl
    rw [stack, changed, same]
    omega
  · have same : isLow emptied = isLow entry := by rw [← emptying]; rfl
    rw [stack, changed, same]
    omega

theorem loseData_spec (core : Core owed s) (stack : u.lruS = s.lruS) (ghost : u.lruNh = s.lruNh)
    (roles : s.lir o.objId = 0 ∧ s.absent o.objId = 0) : Lost s o.objId (loseData u o) := by
  cases found : s.lruS.find o.objId with
  | none =>
    have same : loseData u o = u := by simp [loseData, stack, found]
    rw [same]
    exact Lost.of_same stack ghost (Core.not_found found).2.1
  | some entry =>
    have shape : loseData u o = { u with
        lruS := s.lruS.retag o.objId fun flags => { flags with inCache := false }
        lruNh := s.lruNh.insert o.toRequest () } := by
      simp [loseData, stack, ghost, found]
    rw [shape]
    exact Lost.of_found core found roles rfl rfl

/-- A block that the stack says is cached and that `LRU_q` does not have. -/
def owedTo (x id : Nat) : Int := if x = id then 1 else 0

theorem owedTo_nonneg (x id : Nat) : 0 ≤ owedTo x id := by
  unfold owedTo
  split <;> omega

theorem core_leaveQ (owed' : Nat → Int) {q : CacheObj Flags} (core : Core owed s)
    (found : s.lruQ.find x = some q) (debt : ∀ id, owed id + owedTo x id ≤ owed' id) :
    Core owed' (leaveQ s (some q)) ∧
      (∀ id, (leaveQ s (some q)).lruQ.held id = s.lruQ.held id - owedTo x id) ∧
      (leaveQ s (some q)).hirsCount = s.hirsCount - 1 := by
  have key := Fifo.find_objId found
  have unit := core.unitQ (Fifo.find_mem found)
  have bytes := bytes_of_odd unit.1
  have removed : ∀ w, total w (s.lruQ.remove x).objs = total w s.lruQ.objs - w q :=
    fun w => Fifo.total_remove_found w found
  have held : ∀ id, (s.lruQ.remove x).held id = s.lruQ.held id - owedTo x id := by
    intro id
    rw [Fifo.held, removed, copies, key]
    rfl
  have shape : leaveQ s (some q) = { s with
      hirsCount := s.hirsCount - 1
      lruQ := s.lruQ.remove x
      occupiedByte := s.occupiedByte - 1 } := by
    rw [leaveQ, bytes, key]
  rw [shape]
  refine ⟨?_, held, rfl⟩
  constructor
  · exact core.single
  · intro id
    have before := core.apart id
    have one := owedTo_nonneg x id
    show s.lir id + s.absent id + (s.lruQ.remove x).held id ≤ 1
    rw [held]
    omega
  · intro id
    have before := core.queued id
    have more := debt id
    show s.hir id ≤ (s.lruQ.remove x).held id + owed' id
    rw [held]
    omega
  · exact core.ghosts
  · exact core.sizesS
  · rw [removed, core.sizesQ, unit.1]
    rfl
  · have present : lost q = 0 := by simp [lost, unit.2]
    rw [removed, core.cached, present]
    rfl
  · exact core.lirs
  · rw [removed, ← core.hirs]
    rfl
  · show s.occupiedByte - 1 = s.lirsCount + (s.hirsCount - 1)
    rw [core.occupied]
    omega

/-- The object `y` has left `LRU_q`; if the stack has it, it is an entry without
data now. -/
structure Outed (owed : Nat → Int) (s : State) (y : Nat) (t : State) : Prop where
  core : Core owed t
  kinds : t.kinds = s.kinds
  lir : ∀ id, t.lir id = s.lir id
  others : ∀ id, y ≠ id → t.hir id = s.hir id ∧ t.absent id = s.absent id
  held : ∀ id, t.lruQ.held id = s.lruQ.held id - if y = id then 1 else 0
  lirs : t.lirsCount = s.lirsCount
  hirs : t.hirsCount = s.hirsCount - 1

theorem loseData_frame (u : State) (o : CacheObj Flags) :
    (loseData u o).lruQ = u.lruQ ∧ (loseData u o).hirsCount = u.hirsCount ∧
      (loseData u o).lirsCount = u.lirsCount ∧ (loseData u o).occupiedByte = u.occupiedByte := by
  unfold loseData
  split <;> exact ⟨rfl, rfl, rfl, rfl⟩

theorem Lost.settles (core : Core owed s) (nonneg : ∀ id, 0 ≤ owed id)
    (coreU : Core (fun id => owed id + owedTo o.objId id) u)
    (less : ∀ id, u.lruQ.held id = s.lruQ.held id - owedTo o.objId id) (stack : u.lruS = s.lruS)
    (roles : u.lir o.objId = 0 ∧ u.absent o.objId = 0) (lost : Lost u o.objId (loseData u o)) :
    Core owed (loseData u o) := by
  obtain ⟨queue, hirs, lirs, occupied⟩ := loseData_frame u o
  constructor
  · intro id
    have before := coreU.single id
    rw [lost.lir, lost.hir, lost.absent]
    split <;> omega
  · intro id
    have before := core.apart id
    have single := coreU.single id
    have same : u.lir id = s.lir id ∧ u.absent id = s.absent id := by
      rw [State.lir, State.absent, stack]
      exact ⟨rfl, rfl⟩
    rw [lost.lir, lost.absent, queue, less, owedTo]
    split
    · rename_i here
      rw [← here] at before single same ⊢
      omega
    · omega
  · intro id
    have before := coreU.queued id
    have positive := u.lruQ.held_nonneg id
    have debt := nonneg id
    rw [lost.hir, queue]
    split
    · omega
    · rename_i other
      rw [owedTo, if_neg other, add_zero] at before
      exact before
  · intro id
    rw [lost.ghosts, lost.absent, coreU.ghosts]
  · rw [lost.sizes]
    exact coreU.sizesS
  · rw [queue]
    exact coreU.sizesQ
  · rw [queue]
    exact coreU.cached
  · rw [lirs, lost.low]
    exact coreU.lirs
  · rw [hirs, queue]
    exact coreU.hirs
  · rw [occupied, lirs, hirs]
    exact coreU.occupied

theorem evictHIR_spec (core : Core owed s) (nonneg : ∀ id, 0 ≤ owed id)
    (objs : s.lruQ.objs = o :: os) : ∃ t, evictHIR s = .ok t ∧ Outed owed s o.objId t := by
  have found := Fifo.find_of_objs objs
  let u : State := leaveQ s (some o)
  obtain ⟨coreU, less, fewer⟩ : Core (fun id => owed id + owedTo o.objId id) u ∧
      (∀ id, u.lruQ.held id = s.lruQ.held id - owedTo o.objId id) ∧ u.hirsCount = s.hirsCount - 1 :=
    core_leaveQ _ core found fun _ => le_rfl
  have roles : u.lir o.objId = 0 ∧ u.absent o.objId = 0 := by
    have apart := core.apart o.objId
    have positive := roles_nonneg s o.objId
    have present := (s.lruQ.find_isSome_iff o.objId).mp (by rw [found]; rfl)
    show s.lir o.objId = 0 ∧ s.absent o.objId = 0
    omega
  have lost := loseData_spec (u := u) coreU rfl rfl roles
  obtain ⟨queue, hirs, lirs, _⟩ := loseData_frame u o
  refine ⟨loseData u o, by rw [evictHIR, tail, Fifo.toEvict_of_objs objs]; rfl, ?_⟩
  constructor
  · exact Lost.settles core nonneg coreU less rfl roles lost
  · exact lost.kinds
  · exact lost.lir
  · intro id other
    rw [lost.hir, lost.absent, if_neg other, if_neg other, add_zero]
    exact ⟨rfl, rfl⟩
  · intro id
    rw [queue]
    exact less id
  · exact lirs
  · rw [hirs]
    exact fewer

theorem makeRoomQ_spec (core : Core owed s) (nonneg : ∀ id, 0 ≤ owed id) :
    (s.hirsCount < b.hirsLimit → makeRoomQ b 1 s = .ok s) ∧
      (s.hirsCount = b.hirsLimit → ∃ o os t, s.lruQ.objs = o :: os ∧ makeRoomQ b 1 s = .ok t ∧
        Outed owed s o.objId t) := by
  constructor
  · intro free
    have stays : roomQRound b 1 s = .ok (.done s) := if_neg (by omega)
    exact loop_done stays _
  · intro full
    have positive := hirsLimit_pos b
    have some : 0 < total one s.lruQ.objs := by
      rw [← core.hirs]
      omega
    obtain ⟨o, os, objs⟩ := exists_cons_of_total_pos some
    obtain ⟨t, run, outed⟩ := evictHIR_spec core nonneg objs
    have first : roomQRound b 1 s = .ok (.again t) := by
      rw [roomQRound, if_pos (by omega), run]
      rfl
    have stays : roomQRound b 1 t = .ok (.done t) := by
      have fewer := outed.hirs
      exact if_neg (by omega)
    refine ⟨o, os, t, objs, ?_, outed⟩
    rw [makeRoomQ, objs, List.length_cons, loop_again first]
    exact loop_done stays _

/-! ## Evictions from the stack -/

/-- Which object of `LRU_q` has to go when another one comes. -/
def pushedOut (b : Params) (s : State) (id : Nat) : Int :=
  if s.hirsCount = b.hirsLimit ∧ s.lruQ.toEvict.map CacheObj.objId = some id then 1 else 0

theorem pushedOut_nonneg (b : Params) (s : State) (id : Nat) : 0 ≤ pushedOut b s id := by
  unfold pushedOut
  split <;> omega

structure Roomed (b : Params) (owed : Nat → Int) (s t : State) : Prop where
  core : Core owed t
  kinds : t.kinds = s.kinds
  lir : ∀ id, t.lir id = s.lir id
  others : ∀ id, s.lruQ.held id = 0 → t.hir id = s.hir id ∧ t.absent id = s.absent id
  held : ∀ id, t.lruQ.held id = s.lruQ.held id - pushedOut b s id
  lirs : t.lirsCount = s.lirsCount
  hirs : 0 ≤ t.hirsCount ∧ t.hirsCount + 1 ≤ b.hirsLimit

theorem makeRoomQ_roomed (core : Core owed s) (nonneg : ∀ id, 0 ≤ owed id)
    (bound : s.hirsCount ≤ b.hirsLimit) : ∃ t, makeRoomQ b 1 s = .ok t ∧ Roomed b owed s t := by
  have spec := makeRoomQ_spec (b := b) core nonneg
  rcases bound.lt_or_eq with free | full
  · have positive : 0 ≤ s.hirsCount := by
      rw [core.hirs]
      exact total_nonneg one _ fun _ _ => zero_le_one
    refine ⟨s, spec.1 free, core, rfl, fun _ => rfl, fun _ _ => ⟨rfl, rfl⟩, ?_, rfl, positive, free⟩
    intro id
    rw [pushedOut, if_neg (by omega), sub_zero]
  · obtain ⟨y, ys, t, queue, run, outed⟩ := spec.2 full
    have front : s.lruQ.toEvict = some y := Fifo.toEvict_of_objs queue
    have limit := hirsLimit_pos b
    have fewer := outed.hirs
    refine ⟨t, run, outed.core, outed.kinds, outed.lir, ?_, ?_, outed.lirs, by omega, by omega⟩
    · intro id empty
      refine outed.others id ?_
      rintro rfl
      have less := outed.held y.objId
      have positive := t.lruQ.held_nonneg y.objId
      rw [if_pos rfl, empty] at less
      omega
    · intro id
      rw [outed.held, pushedOut, front]
      simp [full]

theorem Roomed.gone (roomed : Roomed b owed s t) (away : s.lruQ.held x = 0)
    (none : s.lir x = 0 ∧ s.hir x = 0 ∧ s.absent x = 0) :
    t.lruQ.held x = 0 ∧ t.lir x = 0 ∧ t.hir x = 0 ∧ t.absent x = 0 := by
  have out := pushedOut_nonneg b s x
  have less := roomed.held x
  have positive := t.lruQ.held_nonneg x
  have same := roomed.others x away
  rw [roomed.lir, same.1, same.2]
  omega

/-- The block `z` has gone from the tail of the stack to `LRU_q`, and the stack has
been pruned. -/
structure Demoted (b : Params) (owed : Nat → Int) (s : State) (z : Nat) (rest : List (Nat × Bool))
    (t : State) : Prop where
  core : Core owed t
  based : Based t ∨ t.kinds.length ≤ 1
  split : ∃ dropped, rest = dropped ++ t.kinds
  nonempty : rest ≠ [] → t.kinds ≠ []
  kept : ∀ id ∈ t.kinds.map Prod.fst, s.lruQ.held id = 0 →
    t.lir id = s.lir id ∧ t.hir id = s.hir id ∧ t.absent id = s.absent id
  held : ∀ id, t.lruQ.held id = s.lruQ.held id - pushedOut b s id + if z = id then 1 else 0
  lirs : t.lirsCount = s.lirsCount - 1
  hirs : 1 ≤ t.hirsCount ∧ t.hirsCount ≤ b.hirsLimit

theorem core_dropLIR (core : Core owed s) (objs : s.lruS.objs = o :: os) (low : o.tag.isLIR = true) :
    Core owed { s with
      lirsCount := s.lirsCount - o.bytes
      lruS := s.lruS.remove o.objId
      occupiedByte := s.occupiedByte - o.bytes } := by
  have unit := core.unitS (o := o) (by rw [objs]; exact List.mem_cons_self)
  have weight : o.bytes = isLow o := by
    rw [bytes_of_odd unit]
    simp [isLow, low]
  refine core.dropEntry (fun w => Fifo.total_remove_oldest w (Fifo.toEvict_of_objs objs)) unit ?_ rfl ?_ rfl ?_
  · intro id
    rw [(roles_of_low low id).2.2, sub_zero]
  · rw [weight]
  · rw [weight]

theorem core_enterQ {r : Request} {bytes : Int} (core : Core owed s)
    (unit : odd (createCacheObj r { isLIR := false, inCache := true }) = 0) (single : bytes = 1)
    (out : s.lir r.objId = 0 ∧ s.absent r.objId = 0) (away : s.lruQ.held r.objId = 0) :
    Core owed { s with
      lruQ := s.lruQ.insert r { isLIR := false, inCache := true }
      hirsCount := s.hirsCount + bytes
      occupiedByte := s.occupiedByte + bytes } := by
  have added := fun w => Fifo.total_insert w s.lruQ r { isLIR := false, inCache := true }
  have held := fun id => Fifo.held_insert s.lruQ r { isLIR := false, inCache := true } id
  constructor
  · exact core.single
  · intro id
    have before := core.apart id
    rw [held]
    show s.lir id + s.absent id + _ ≤ 1
    split
    · rename_i here
      rw [here] at out away
      omega
    · omega
  · intro id
    have before := core.queued id
    rw [held]
    show s.hir id ≤ _
    split <;> omega
  · exact core.ghosts
  · exact core.sizesS
  · rw [added, core.sizesQ, unit]
    rfl
  · rw [added, core.cached]
    rfl
  · exact core.lirs
  · rw [added, single, ← core.hirs]
    rfl
  · show s.occupiedByte + bytes = s.lirsCount + (s.hirsCount + bytes)
    rw [core.occupied]
    omega

theorem roles_dropLIR (objs : s.lruS.objs = o :: os) (low : o.tag.isLIR = true) (id : Nat) :
    total (lirAt id) (s.lruS.remove o.objId).objs = s.lir id - (if o.objId = id then 1 else 0) ∧
      total (hirAt id) (s.lruS.remove o.objId).objs = s.hir id ∧
      total (absentAt id) (s.lruS.remove o.objId).objs = s.absent id := by
  have removed : ∀ w, total w (s.lruS.remove o.objId).objs = total w s.lruS.objs - w o :=
    fun w => Fifo.total_remove_oldest w (Fifo.toEvict_of_objs objs)
  obtain ⟨mark, none, none'⟩ := roles_of_low low id
  rw [removed, removed, removed, mark, none, none', sub_zero, sub_zero]
  exact ⟨rfl, rfl, rfl⟩

/-- What the entries are that are left when the block has gone from the tail, room has
been made in `LRU_q`, and the stack has been pruned. -/
theorem kept_of_pruning {v w : State}
    (roles : ∀ id, u.lir id = s.lir id - (if x = id then 1 else 0) ∧ u.hir id = s.hir id ∧
      u.absent id = s.absent id)
    (queue : u.lruQ = s.lruQ) (roomed : Roomed b owed u v)
    (gone : v.lir x = 0 ∧ v.hir x = 0 ∧ v.absent x = 0) (pruning : Pruning owed w t)
    (stack : w.lruS = v.lruS) {id : Nat} (member : id ∈ t.kinds.map Prod.fst)
    (empty : s.lruQ.held id = 0) :
    t.lir id = s.lir id ∧ t.hir id = s.hir id ∧ t.absent id = s.absent id := by
  have same : ∀ i, w.lir i = v.lir i ∧ w.hir i = v.hir i ∧ w.absent i = v.absent i := by
    intro i
    rw [State.lir, State.hir, State.absent, stack]
    exact ⟨rfl, rfl, rfl⟩
  have inT := pruning.kept id member
  have lirT := pruning.lir id
  have inW := same id
  have inV := roomed.others id (by rw [queue]; exact empty)
  have lirV := roomed.lir id
  have inU := roles id
  -- nothing of the block is left in the stack
  have other : x ≠ id := by
    rintro rfl
    have count := mem_kinds_iff.mp member
    rw [held_eq] at count
    omega
  rw [if_neg other, sub_zero] at inU
  omega

theorem evictLIR_spec {z : Nat} {rest : List (Nat × Bool)} (core : Core owed s)
    (nonneg : ∀ id, 0 ≤ owed id) (shape : s.kinds = (z, true) :: rest)
    (bound : s.hirsCount ≤ b.hirsLimit) : ∃ t, evictLIR b s = .ok t ∧ Demoted b owed s z rest t := by
  obtain ⟨lirZ, hirZ, absentZ, away⟩ := core.alone (lir_of_tail shape)
  obtain ⟨o, os, objs, run, key, others⟩ := tail_of_kinds shape
  obtain ⟨rfl, low⟩ := Prod.mk.inj key
  have unit := core.unitS (o := o) (by rw [objs]; exact List.mem_cons_self)
  have bytes := bytes_of_odd unit
  -- the block leaves the stack
  let u : State := { s with
    lirsCount := s.lirsCount - o.bytes
    lruS := s.lruS.remove o.objId
    occupiedByte := s.occupiedByte - o.bytes }
  have coreU : Core owed u := core_dropLIR core objs low
  have rolesU : ∀ id, u.lir id = s.lir id - (if o.objId = id then 1 else 0) ∧ u.hir id = s.hir id ∧
      u.absent id = s.absent id := roles_dropLIR objs low
  have kindsU : u.kinds = rest := by
    show (s.lruS.remove o.objId).objs.map _ = rest
    rw [Fifo.objs_remove_oldest objs, others]
  -- room is made in `LRU_q`, where the block is not
  obtain ⟨v, makes, roomed⟩ := makeRoomQ_roomed (b := b) coreU nonneg bound
  have goneU := rolesU o.objId
  rw [if_pos rfl] at goneU
  obtain ⟨awayV, goneV⟩ := roomed.gone away (by omega)
  -- it comes to `LRU_q`, and the stack is pruned
  have coreW := core_enterQ (r := o.toRequest) roomed.core (by rw [createCacheObj_toRequest]; exact unit)
    bytes ⟨goneV.1, goneV.2.2⟩ awayV
  obtain ⟨t, prunes, pruning, based⟩ := lirsPrune_spec coreW
  refine ⟨t, ?_, ?_⟩
  · have fits : o.bytes ≤ b.hirsLimit := by
      have limit := hirsLimit_pos b
      omega
    rw [evictLIR, run]
    show (demoteToQ b u o >>= lirsPrune) = _
    rw [demoteToQ, if_pos fits, bytes, makes]
    rw [bytes] at prunes
    exact prunes
  · have kindsW : rest = v.kinds := by rw [roomed.kinds, kindsU]
    constructor
    · exact pruning.core
    · exact based
    · obtain ⟨dropped, split⟩ := pruning.split
      exact ⟨dropped, kindsW.trans split⟩
    · intro some
      refine pruning.nonempty ?_
      show v.kinds ≠ []
      rw [← kindsW]
      exact some
    · intro id member empty
      exact kept_of_pruning rolesU rfl roomed goneV pruning rfl member empty
    · intro id
      have came : ({ v with
          lruQ := v.lruQ.insert o.toRequest { isLIR := false, inCache := true }
          hirsCount := v.hirsCount + o.bytes
          occupiedByte := v.occupiedByte + o.bytes } : State).lruQ.held id =
          v.lruQ.held id + if o.objId = id then 1 else 0 := Fifo.held_insert _ _ _ _
      rw [pruning.lruQ, came, roomed.held]
      rfl
    · rw [pruning.lirs]
      show v.lirsCount = _
      rw [roomed.lirs]
      show s.lirsCount - o.bytes = s.lirsCount - 1
      rw [bytes]
    · have room := roomed.hirs
      rw [pruning.hirs]
      show 1 ≤ v.hirsCount + o.bytes ∧ v.hirsCount + o.bytes ≤ b.hirsLimit
      omega

theorem makeRoomS_spec (core : Core owed s) (nonneg : ∀ id, 0 ≤ owed id) (based : Based s)
    (bound : s.hirsCount ≤ b.hirsLimit) : (s.lirsCount < b.lirsLimit → makeRoomS b 1 s = .ok s) ∧
      (s.lirsCount = b.lirsLimit → ∃ z rest t, s.kinds = (z, true) :: rest ∧
        makeRoomS b 1 s = .ok t ∧ Demoted b owed s z rest t) := by
  constructor
  · intro free
    have stays : roomSRound b 1 s = .ok (.done s) := if_neg (by omega)
    exact loop_done stays _
  · intro full
    have positive := (limits b).2.1
    have some : 0 < total isLow s.lruS.objs := by
      rw [← core.lirs]
      omega
    obtain ⟨o, os, objs⟩ := exists_cons_of_total_pos some
    have shape : s.kinds = (o.objId, o.tag.isLIR) :: os.map fun o => (o.objId, o.tag.isLIR) := by
      rw [State.kinds, objs]
      rfl
    have low : o.tag.isLIR = true := based _ _ shape
    rw [low] at shape
    obtain ⟨t, run, demoted⟩ := evictLIR_spec core nonneg shape bound
    have first : roomSRound b 1 s = .ok (.again t) := by
      rw [roomSRound, if_pos (by omega), run]
      rfl
    have stays : roomSRound b 1 t = .ok (.done t) := by
      have fewer := demoted.lirs
      exact if_neg (by omega)
    refine ⟨o.objId, _, t, shape, ?_, demoted⟩
    rw [makeRoomS, objs, List.length_cons, loop_again first]
    exact loop_done stays _

/-! ## The bound of the stack -/

/-- What `limitStack` keeps: it takes entries without data out of the stack. -/
structure Limited (owed : Nat → Int) (s t : State) : Prop where
  core : Core owed t
  based : Based s → Based t
  lir : ∀ id, t.lir id = s.lir id
  hir : ∀ id, t.hir id = s.hir id
  lruQ : t.lruQ = s.lruQ
  lirs : t.lirsCount = s.lirsCount
  hirs : t.hirsCount = s.hirsCount

theorem Limited.trans (h : Limited owed s t) (k : Limited owed t u) : Limited owed s u where
  core := k.core
  based start := k.based (h.based start)
  lir id := (k.lir id).trans (h.lir id)
  hir id := (k.hir id).trans (h.hir id)
  lruQ := k.lruQ.trans h.lruQ
  lirs := k.lirs.trans h.lirs
  hirs := k.hirs.trans h.hirs

theorem limit_step {g : CacheObj Unit} (core : Core owed s) (oldest : s.lruNh.toEvict = some g) :
    Limited owed s { s with
      lruS := s.lruS.remove g.objId
      lruNh := s.lruNh.remove g.objId } := by
  have ghost := Fifo.held_remove_oldest oldest
  have own : 1 ≤ s.absent g.objId := by
    have after := ghost g.objId
    have positive := (s.lruNh.remove g.objId).held_nonneg g.objId
    have listed := core.ghosts g.objId
    simp only [if_true] at after
    omega
  cases found : s.lruS.find g.objId with
  | none =>
    have none := (Core.not_found found).2.2
    omega
  | some o =>
    have key := Fifo.find_objId found
    have roles := core.found found
    have high : o.tag.isLIR = false ∧ o.tag.inCache = false := by
      have mark : absentAt g.objId o ≠ 0 := by omega
      unfold absentAt at mark
      split at mark
      · rename_i facts
        exact facts.2
      · exact absurd rfl mark
    have marks := roles_of_absent high.1 high.2
    have removed : ∀ w, total w (s.lruS.remove g.objId).objs = total w s.lruS.objs - w o :=
      fun w => Fifo.total_remove_found w found
    have unit := core.unitS (Fifo.find_mem found)
    have low : isLow o = 0 := by simp [isLow, high.1]
    constructor
    · refine core.dropEntry removed unit ?_ rfl ?_ rfl ?_
      · intro id
        have after := ghost id
        rw [(marks id).2.2, key]
        exact after
      · rw [low, sub_zero]
      · rw [low, sub_zero]
    · intro based
      -- the tail is of low recency, so it is not the entry that goes
      obtain ⟨first, rest, objs, bottom⟩ := based.erase found high.1
      refine based_of_first fun o' os shape => ?_
      rw [Fifo.objs_remove, objs, List.cons.injEq] at shape
      rw [← shape.1]
      exact bottom
    · intro id
      simp only [State.lir, removed, (marks id).1, sub_zero]
    · intro id
      simp only [State.hir, removed, (marks id).2.1, sub_zero]
    · rfl
    · rfl
    · rfl

theorem limitStack_spec (b : Params) (core : Core owed s) :
    ∃ t, limitStack b s = .ok t ∧ Limited owed s t := by
  have start : Limited owed s s := ⟨core, fun h => h, fun _ => rfl, fun _ => rfl, rfl, rfl, rfl⟩
  refine loop_within (Limited owed s) (fun t => t.lruNh.objs.length) ?_ start (Nat.lt_succ_self _)
  intro t limited
  unfold limitRound
  split
  · cases oldest : t.lruNh.toEvict with
    | none => exact ⟨.done t, rfl, limited⟩
    | some g =>
      refine ⟨.again _, rfl, limited.trans (limit_step limited.core oldest), ?_⟩
      obtain ⟨rest, objs⟩ := Fifo.toEvict_eq_some oldest
      simp only [Fifo.objs_remove_oldest objs, objs]
      exact Nat.lt_succ_self _
  · exact ⟨.done t, rfl, limited⟩

end Lirs
