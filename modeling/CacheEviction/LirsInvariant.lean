import CacheEviction.LirsPolicy

/-!
# What the lists of LIRS keep

An id can be in the stack as a block of low recency, as one of high recency with its
data, or as one without. The invariant says for each id how often it is in each role
and in the two queues; every list operation changes these numbers by a weight of the
object it moves.

The order of the stack matters only through the kinds of its entries. Its tail is of
low recency, except while an eviction has taken the tail and not pruned yet.
-/
namespace Lirs

open FuelLoops FifoCache CacheGet WeightedLists

variable {o : CacheObj Flags} {s : State} {owed : Nat → Int}

/-! ## The roles of an id -/

def lirAt (id : Nat) (o : CacheObj Flags) : Int :=
  if o.objId = id ∧ o.tag.isLIR = true then 1 else 0

def hirAt (id : Nat) (o : CacheObj Flags) : Int :=
  if o.objId = id ∧ o.tag.isLIR = false ∧ o.tag.inCache = true then 1 else 0

def absentAt (id : Nat) (o : CacheObj Flags) : Int :=
  if o.objId = id ∧ o.tag.isLIR = false ∧ o.tag.inCache = false then 1 else 0

def isLow (o : CacheObj Flags) : Int := if o.tag.isLIR then 1 else 0

/-- Objects of another size than one byte, and objects of `LRU_q` without data. -/
def odd (o : CacheObj Flags) : Int := if o.objSize = 1 then 0 else 1

def lost (o : CacheObj Flags) : Int := if o.tag.inCache then 0 else 1

def one {M : Type} (_ : CacheObj M) : Int := 1

theorem total_one {M : Type} (l : List (CacheObj M)) : total one l = l.length := by
  induction l with
  | nil => rfl
  | cons o l ih =>
    rw [total_cons, ih, List.length_cons, one]
    omega

def State.lir (s : State) (id : Nat) : Int := total (lirAt id) s.lruS.objs

def State.hir (s : State) (id : Nat) : Int := total (hirAt id) s.lruS.objs

def State.absent (s : State) (id : Nat) : Int := total (absentAt id) s.lruS.objs

theorem lirAt_nonneg (id : Nat) (o : CacheObj Flags) : 0 ≤ lirAt id o := by
  unfold lirAt
  split <;> omega

theorem hirAt_nonneg (id : Nat) (o : CacheObj Flags) : 0 ≤ hirAt id o := by
  unfold hirAt
  split <;> omega

theorem absentAt_nonneg (id : Nat) (o : CacheObj Flags) : 0 ≤ absentAt id o := by
  unfold absentAt
  split <;> omega

theorem roles_nonneg (s : State) (id : Nat) : 0 ≤ s.lir id ∧ 0 ≤ s.hir id ∧ 0 ≤ s.absent id :=
  ⟨total_nonneg _ _ fun o _ => lirAt_nonneg id o, total_nonneg _ _ fun o _ => hirAt_nonneg id o,
    total_nonneg _ _ fun o _ => absentAt_nonneg id o⟩

theorem roles_of_low (low : o.tag.isLIR = true) (id : Nat) :
    lirAt id o = (if o.objId = id then 1 else 0) ∧ hirAt id o = 0 ∧ absentAt id o = 0 := by
  simp [lirAt, hirAt, absentAt, low]

theorem roles_of_high (high : o.tag.isLIR = false) (data : o.tag.inCache = true) (id : Nat) :
    lirAt id o = 0 ∧ hirAt id o = (if o.objId = id then 1 else 0) ∧ absentAt id o = 0 := by
  simp [lirAt, hirAt, absentAt, high, data]

theorem roles_of_absent (high : o.tag.isLIR = false) (data : o.tag.inCache = false) (id : Nat) :
    lirAt id o = 0 ∧ hirAt id o = 0 ∧ absentAt id o = if o.objId = id then 1 else 0 := by
  simp [lirAt, hirAt, absentAt, high, data]

theorem roles_of_other {id : Nat} (other : o.objId ≠ id) :
    lirAt id o = 0 ∧ hirAt id o = 0 ∧ absentAt id o = 0 := by
  simp [lirAt, hirAt, absentAt, other]

theorem roles_sum (id : Nat) (o : CacheObj Flags) :
    lirAt id o + hirAt id o + absentAt id o = copies CacheObj.objId id o := by
  rcases o with ⟨i, size, low, data⟩
  cases low <;> cases data <;> simp [lirAt, hirAt, absentAt, copies]

theorem held_eq (s : State) (id : Nat) : s.lruS.held id = s.lir id + s.hir id + s.absent id := by
  unfold Fifo.held State.lir State.hir State.absent
  induction s.lruS.objs with
  | nil => rfl
  | cons o rest ih =>
    have own := roles_sum id o
    simp only [total_cons]
    omega

/-! ## The invariant -/

/-- What the lists agree on. The function `owed` is zero but for a block that has
left `LRU_q` and not changed its role in the stack yet. -/
structure Core (owed : Nat → Int) (s : State) : Prop where
  single : ∀ id, s.lir id + s.hir id + s.absent id ≤ 1
  apart : ∀ id, s.lir id + s.absent id + s.lruQ.held id ≤ 1
  queued : ∀ id, s.hir id ≤ s.lruQ.held id + owed id
  ghosts : ∀ id, s.lruNh.held id = s.absent id
  sizesS : total odd s.lruS.objs = 0
  sizesQ : total odd s.lruQ.objs = 0
  cached : total lost s.lruQ.objs = 0
  lirs : s.lirsCount = total isLow s.lruS.objs
  hirs : s.hirsCount = total one s.lruQ.objs
  occupied : s.occupiedByte = s.lirsCount + s.hirsCount

theorem odd_nonneg (o : CacheObj Flags) : 0 ≤ odd o := by
  unfold odd
  split <;> omega

theorem lost_nonneg (o : CacheObj Flags) : 0 ≤ lost o := by
  unfold lost
  split <;> omega

theorem bytes_of_odd (h : odd o = 0) : o.bytes = 1 := by
  unfold odd at h
  split at h
  · rename_i size
    rw [CacheObj.bytes, size]
    rfl
  · omega

section Roles

variable {owed : Nat → Int} {s t : State} {id : Nat} {o : CacheObj Flags}

theorem Core.unitS (core : Core owed s) (member : o ∈ s.lruS.objs) : odd o = 0 :=
  (total_eq_zero_iff odd_nonneg _).mp core.sizesS o member

theorem Core.unitQ (core : Core owed s) (member : o ∈ s.lruQ.objs) : odd o = 0 ∧ o.tag.inCache = true := by
  refine ⟨(total_eq_zero_iff odd_nonneg _).mp core.sizesQ o member, ?_⟩
  have present := (total_eq_zero_iff lost_nonneg _).mp core.cached o member
  unfold lost at present
  split at present
  · assumption
  · omega

theorem roles_of_found (single : s.lir id + s.hir id + s.absent id ≤ 1) (found : s.lruS.find id = some o) :
    s.lir id = lirAt id o ∧ s.hir id = hirAt id o ∧ s.absent id = absentAt id o := by
  have lir := Fifo.total_remove_found (lirAt id) found
  have hir := Fifo.total_remove_found (hirAt id) found
  have absent := Fifo.total_remove_found (absentAt id) found
  have nonneg := roles_nonneg { s with lruS := s.lruS.remove id } id
  have own := roles_sum id o
  have key : copies CacheObj.objId id o = 1 := by
    rw [copies, if_pos (Fifo.find_objId found)]
  simp only [State.lir, State.hir, State.absent] at *
  omega

theorem Core.found (core : Core owed s) (found : s.lruS.find id = some o) :
    s.lir id = lirAt id o ∧ s.hir id = hirAt id o ∧ s.absent id = absentAt id o :=
  roles_of_found (core.single id) found

theorem Core.not_found (missing : s.lruS.find id = none) :
    s.lir id = 0 ∧ s.hir id = 0 ∧ s.absent id = 0 := by
  have held := (s.lruS.find_none_iff_held id).mp missing
  have nonneg := roles_nonneg s id
  rw [held_eq] at held
  omega

theorem Core.alone (core : Core owed s) (low : 1 ≤ s.lir id) :
    s.lir id = 1 ∧ s.hir id = 0 ∧ s.absent id = 0 ∧ s.lruQ.held id = 0 := by
  have single := core.single id
  have apart := core.apart id
  have nonneg := roles_nonneg s id
  have held := s.lruQ.held_nonneg id
  omega

theorem Core.retag_roles (core : Core owed s) {x : Nat} (found : s.lruS.find x = some o) (f : Flags → Flags)
    (id : Nat) :
    total (lirAt id) (s.lruS.retag x f).objs =
        (if x = id then lirAt x { o with tag := f o.tag } else s.lir id) ∧
      total (hirAt id) (s.lruS.retag x f).objs =
        (if x = id then hirAt x { o with tag := f o.tag } else s.hir id) ∧
      total (absentAt id) (s.lruS.retag x f).objs =
        if x = id then absentAt x { o with tag := f o.tag } else s.absent id := by
  have changed : ∀ w, total w (s.lruS.retag x f).objs =
      total w s.lruS.objs - w o + w { o with tag := f o.tag } := fun w => Fifo.total_retag w _ found
  by_cases here : x = id
  · subst here
    have roles := core.found found
    simp only [State.lir, State.hir, State.absent] at roles
    rw [changed, changed, changed, roles.1, roles.2.1, roles.2.2, if_pos rfl, if_pos rfl, if_pos rfl]
    omega
  · have key := Fifo.find_objId found
    have other : o.objId ≠ id := by
      rw [key]
      exact here
    have before := roles_of_other other
    have after := roles_of_other (o := { o with tag := f o.tag }) other
    rw [changed, changed, changed, before.1, before.2.1, before.2.2, after.1, after.2.1, after.2.2, if_neg here,
      if_neg here, if_neg here]
    simp only [State.lir, State.hir, State.absent]
    omega

theorem Core.of_totals (core : Core owed s) (stack : ∀ w, total w t.lruS.objs = total w s.lruS.objs)
    (queue : ∀ w, total w t.lruQ.objs = total w s.lruQ.objs) (ghosts : t.lruNh = s.lruNh)
    (lirs : t.lirsCount = s.lirsCount) (hirs : t.hirsCount = s.hirsCount)
    (occupied : t.occupiedByte = s.occupiedByte) : Core owed t := by
  have held : ∀ id, t.lruQ.held id = s.lruQ.held id := fun id => queue _
  constructor
  · intro id
    simpa only [State.lir, State.hir, State.absent, stack] using core.single id
  · intro id
    simpa only [State.lir, State.absent, stack, held] using core.apart id
  · intro id
    simpa only [State.hir, stack, held] using core.queued id
  · intro id
    simpa only [State.absent, stack, ghosts] using core.ghosts id
  · rw [stack]
    exact core.sizesS
  · rw [queue]
    exact core.sizesQ
  · rw [queue]
    exact core.cached
  · rw [stack, lirs]
    exact core.lirs
  · rw [queue, hirs]
    exact core.hirs
  · rw [occupied, lirs, hirs]
    exact core.occupied

theorem Core.dropEntry (core : Core owed s) (removed : ∀ w, total w t.lruS.objs = total w s.lruS.objs - w o)
    (unit : odd o = 0) (ghosts : ∀ id, t.lruNh.held id = s.lruNh.held id - absentAt id o)
    (queue : t.lruQ = s.lruQ) (lirs : t.lirsCount = s.lirsCount - isLow o) (hirs : t.hirsCount = s.hirsCount)
    (occupied : t.occupiedByte = s.occupiedByte - isLow o) : Core owed t := by
  constructor
  · intro id
    have before := core.single id
    have low := lirAt_nonneg id o
    have high := hirAt_nonneg id o
    have absent := absentAt_nonneg id o
    simp only [State.lir, State.hir, State.absent, removed] at before ⊢
    omega
  · intro id
    have before := core.apart id
    have low := lirAt_nonneg id o
    have absent := absentAt_nonneg id o
    simp only [State.lir, State.absent, removed, queue] at before ⊢
    omega
  · intro id
    have before := core.queued id
    have high := hirAt_nonneg id o
    simp only [State.hir, removed, queue] at before ⊢
    omega
  · intro id
    have before := core.ghosts id
    have after := ghosts id
    simp only [State.absent, removed] at before ⊢
    omega
  · rw [removed, core.sizesS, unit]
    rfl
  · rw [queue]
    exact core.sizesQ
  · rw [queue]
    exact core.cached
  · rw [removed, lirs, core.lirs]
  · rw [queue, hirs]
    exact core.hirs
  · rw [occupied, lirs, hirs, core.occupied]
    omega

/-- An entry for an id that the stack does not have comes to the stack. The debt may
change, as long as the entry's own id is covered if it has data. -/
theorem Core.addEntry {owed' : Nat → Int} (core : Core owed s)
    (added : ∀ w, total w t.lruS.objs = total w s.lruS.objs + w o) (unit : odd o = 0)
    (present : o.tag.inCache = true) (out : s.lruS.find o.objId = none)
    (low : o.tag.isLIR = true → s.lruQ.held o.objId = 0)
    (high : o.tag.isLIR = false → 1 ≤ s.lruQ.held o.objId + owed' o.objId)
    (debt : ∀ id, owed id ≤ owed' id) (ghosts : t.lruNh = s.lruNh) (queue : t.lruQ = s.lruQ)
    (lirs : t.lirsCount = s.lirsCount + isLow o) (hirs : t.hirsCount = s.hirsCount)
    (occupied : t.occupiedByte = s.occupiedByte + isLow o) : Core owed' t := by
  have nothing := Core.not_found out
  have none : ∀ id, absentAt id o = 0 := by
    intro id
    simp [absentAt, present]
  -- at another id the entry weighs nothing
  have other : ∀ id, o.objId ≠ id → lirAt id o = 0 ∧ hirAt id o = 0 :=
    fun id away => ⟨(roles_of_other away).1, (roles_of_other away).2.1⟩
  have own : (lirAt o.objId o = 1 ∧ hirAt o.objId o = 0 ∧ s.lruQ.held o.objId = 0) ∨
      (lirAt o.objId o = 0 ∧ hirAt o.objId o = 1 ∧ 1 ≤ s.lruQ.held o.objId + owed' o.objId) := by
    cases flag : o.tag.isLIR with
    | true =>
      have roles := roles_of_low flag o.objId
      rw [if_pos rfl] at roles
      exact .inl ⟨roles.1, roles.2.1, low flag⟩
    | false =>
      have roles := roles_of_high flag present o.objId
      rw [if_pos rfl] at roles
      exact .inr ⟨roles.1, roles.2.1, high flag⟩
  constructor
  · intro id
    have before := core.single id
    simp only [State.lir, State.hir, State.absent, added, none] at before nothing ⊢
    by_cases here : o.objId = id
    · subst here
      omega
    · have zero := other id here
      omega
  · intro id
    have before := core.apart id
    simp only [State.lir, State.hir, State.absent, added, none, queue] at before nothing ⊢
    by_cases here : o.objId = id
    · subst here
      omega
    · have zero := other id here
      omega
  · intro id
    have before := core.queued id
    have more := debt id
    simp only [State.lir, State.hir, State.absent, added, queue] at before nothing ⊢
    by_cases here : o.objId = id
    · subst here
      have nonneg := s.lruQ.held_nonneg o.objId
      omega
    · have zero := other id here
      omega
  · intro id
    have before := core.ghosts id
    simp only [State.absent, added, none, ghosts, add_zero] at before ⊢
    exact before
  · rw [added, core.sizesS, unit]
    rfl
  · rw [queue]
    exact core.sizesQ
  · rw [queue]
    exact core.cached
  · rw [added, lirs, core.lirs]
  · rw [queue, hirs]
    exact core.hirs
  · rw [occupied, lirs, hirs, core.occupied]
    omega

end Roles

/-! ## The order of the stack -/

/-- The entries of the stack, oldest first, and whether they are of low recency. -/
def State.kinds (s : State) : List (Nat × Bool) := s.lruS.objs.map fun o => (o.objId, o.tag.isLIR)

def Based (s : State) : Prop := ∀ k rest, s.kinds = k :: rest → k.2 = true

theorem Based.first {os : List (CacheObj Flags)} (based : Based s) (list : s.lruS.objs = o :: os) :
    o.tag.isLIR = true := by
  refine based (o.objId, o.tag.isLIR) (os.map fun o => (o.objId, o.tag.isLIR)) ?_
  rw [State.kinds, list]
  rfl

theorem based_of_first (first : ∀ o os, s.lruS.objs = o :: os → o.tag.isLIR = true) : Based s := by
  intro k rest shape
  obtain ⟨o, os, objs, key, _⟩ := List.map_eq_cons_iff.mp shape
  rw [← key]
  exact first o os objs

theorem Based.erase {x : Nat} (based : Based s) (found : s.lruS.find x = some o)
    (high : o.tag.isLIR = false) :
    ∃ first rest, s.lruS.objs.eraseP (hasId x) = first :: rest ∧ first.tag.isLIR = true := by
  cases list : s.lruS.objs with
  | nil =>
    rw [Fifo.find, list] at found
    cases found
  | cons first others =>
    have bottom := based.first list
    have other : ¬ hasId x first = true := by
      intro same
      rw [Fifo.find, list, List.find?_cons_of_pos same] at found
      cases found
      rw [bottom] at high
      cases high
    exact ⟨first, _, List.eraseP_cons_of_neg other, bottom⟩

theorem tail_of_kinds {k : Nat × Bool} {rest : List (Nat × Bool)} (shape : s.kinds = k :: rest) :
    ∃ o os, s.lruS.objs = o :: os ∧ tail s.lruS = .ok o ∧
      (o.objId, o.tag.isLIR) = k ∧ (os.map fun o => (o.objId, o.tag.isLIR)) = rest := by
  obtain ⟨o, os, objs, first, others⟩ := List.map_eq_cons_iff.mp shape
  exact ⟨o, os, objs, by rw [tail, Fifo.toEvict_of_objs objs], first, others⟩

theorem lir_of_tail {z : Nat} {rest : List (Nat × Bool)} (shape : s.kinds = (z, true) :: rest) :
    1 ≤ s.lir z := by
  obtain ⟨o, os, objs, _, key, _⟩ := tail_of_kinds shape
  obtain ⟨rfl, low⟩ := Prod.mk.inj key
  have own := (roles_of_low low o.objId).1
  have others := total_nonneg (lirAt o.objId) os fun o' _ => lirAt_nonneg _ o'
  rw [State.lir, objs, total_cons, own, if_pos rfl]
  omega

theorem mem_kinds_iff {id : Nat} : id ∈ s.kinds.map Prod.fst ↔ 0 < s.lruS.held id := by
  rw [Fifo.held, copies_pos_iff, State.kinds, List.map_map]
  rfl

/-! ## Pruning -/

/-- What pruning keeps. It drops entries of high recency from the tail and never
the last entry. -/
structure Pruning (owed : Nat → Int) (s t : State) : Prop where
  core : Core owed t
  split : ∃ dropped, s.kinds = dropped ++ t.kinds
  nonempty : s.kinds ≠ [] → t.kinds ≠ []
  lir : ∀ id, t.lir id = s.lir id
  kept : ∀ id ∈ t.kinds.map Prod.fst, t.hir id = s.hir id ∧ t.absent id = s.absent id
  lruQ : t.lruQ = s.lruQ
  lirs : t.lirsCount = s.lirsCount
  hirs : t.hirsCount = s.hirsCount

theorem Pruning.refl (core : Core owed s) : Pruning owed s s :=
  ⟨core, ⟨[], rfl⟩, fun h => h, fun _ => rfl, fun _ _ => ⟨rfl, rfl⟩, rfl, rfl, rfl⟩

theorem Pruning.trans {t u : State} (h : Pruning owed s t) (k : Pruning owed t u) :
    Pruning owed s u where
  core := k.core
  split := by
    obtain ⟨first, left⟩ := h.split
    obtain ⟨second, right⟩ := k.split
    exact ⟨first ++ second, by rw [left, right, List.append_assoc]⟩
  nonempty some := k.nonempty (h.nonempty some)
  lir id := (k.lir id).trans (h.lir id)
  kept id member := by
    obtain ⟨dropped, split⟩ := k.split
    have earlier : id ∈ t.kinds.map Prod.fst := by
      rw [split, List.map_append, List.mem_append]
      exact .inr member
    have first := h.kept id earlier
    have second := k.kept id member
    exact ⟨second.1.trans first.1, second.2.trans first.2⟩
  lruQ := k.lruQ.trans h.lruQ
  lirs := k.lirs.trans h.lirs
  hirs := k.hirs.trans h.hirs

theorem prune_step {o' : CacheObj Flags} {os : List (CacheObj Flags)} (core : Core owed s)
    (objs : s.lruS.objs = o :: o' :: os) (high : o.tag.isLIR = false) : Pruning owed s { s with
      lruNh := if o.tag.inCache then s.lruNh else s.lruNh.remove o.objId
      lruS := s.lruS.remove o.objId } := by
  have evict := Fifo.toEvict_of_objs objs
  have roles := core.found (Fifo.find_of_objs objs)
  have removed : ∀ w, total w (s.lruS.remove o.objId).objs = total w s.lruS.objs - w o :=
    fun w => Fifo.total_remove_oldest w evict
  have rest : (s.lruS.remove o.objId).objs = o' :: os := Fifo.objs_remove_oldest objs
  have unit := core.unitS (o := o) (by rw [objs]; exact List.mem_cons_self)
  have low : isLow o = 0 := by simp [isLow, high]
  -- the ghost list loses the entry if it had no data
  have ghost : ∀ id, (if o.tag.inCache then s.lruNh else s.lruNh.remove o.objId).held id =
      s.lruNh.held id - absentAt id o := by
    intro id
    cases data : o.tag.inCache with
    | true =>
      have none := (roles_of_high high data id).2.2
      simp only [if_true]
      omega
    | false =>
      have mark := (roles_of_absent high data id).2.2
      have own := (roles_of_absent high data o.objId).2.2
      have listed := core.ghosts o.objId
      simp only [if_true] at own
      simp only [Bool.false_eq_true, if_false, Fifo.held_remove, mark]
      rw [if_congr (show o.objId = id ∧ 0 < s.lruNh.held o.objId ↔ o.objId = id by omega) rfl rfl]
  constructor
  · refine core.dropEntry removed unit ghost rfl ?_ rfl ?_
    · rw [low, sub_zero]
    · rw [low, sub_zero]
  · refine ⟨[(o.objId, o.tag.isLIR)], ?_⟩
    simp only [State.kinds, rest, objs]
    rfl
  · intro _
    simp only [State.kinds, rest]
    simp
  · intro id
    have none : lirAt id o = 0 := by simp [lirAt, high]
    simp only [State.lir, removed, none, sub_zero]
  · intro id member
    -- the entry that goes is the only one of its id
    have other : o.objId ≠ id := by
      rintro rfl
      have positive := mem_kinds_iff.mp member
      have count := held_eq s o.objId
      have after := Fifo.held_remove_oldest evict o.objId
      have single := core.single o.objId
      simp only [if_true] at after
      simp only at positive
      omega
    have none := roles_of_other other
    simp only [State.hir, State.absent, removed, none.2.1, none.2.2, sub_zero, and_self]
  · rfl
  · rfl
  · rfl

theorem lirsPrune_spec (core : Core owed s) :
    ∃ t, lirsPrune s = .ok t ∧ Pruning owed s t ∧ (Based t ∨ t.kinds.length ≤ 1) := by
  refine loop_within (Pruning owed s) (fun t => t.lruS.objs.length) ?_ (.refl core) (Nat.lt_succ_self _)
  intro t pruning
  match objs : t.lruS.objs with
  | [] =>
    refine ⟨.done t, by rw [pruneRound, objs], pruning, .inr ?_⟩
    simp [State.kinds, objs]
  | [o] =>
    refine ⟨.done t, by rw [pruneRound, objs], pruning, .inr ?_⟩
    simp [State.kinds, objs]
  | o :: o' :: os =>
    cases low : o.tag.isLIR with
    | true =>
      refine ⟨.done t, by simp [pruneRound, objs, low], pruning, .inl ?_⟩
      intro k rest shape
      simp only [State.kinds, objs, List.map_cons, List.cons.injEq] at shape
      rw [← shape.1]
      exact low
    | false =>
      refine ⟨.again _, by simp only [pruneRound, objs, low]; rfl,
        pruning.trans (prune_step pruning.core objs low), ?_⟩
      have rest : (t.lruS.remove o.objId).objs = o' :: os := Fifo.objs_remove_oldest objs
      simp only [rest, objs]
      exact Nat.lt_succ_self _

end Lirs
