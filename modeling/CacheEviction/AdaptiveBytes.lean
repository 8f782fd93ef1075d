import CacheEviction.AdaptiveLists

/-!
# Objects of any size

What the calls of the adaptive policies do to the lists, whatever the sizes of the
objects are. An eviction takes one object out of the data, or moves all objects of
`L1_data` on to `L2_data`. From what a variant promises of its three functions it
follows that an eviction for an object that is not larger than the cache returns and
comes closer to its end.
-/
namespace AdaptiveLists

open FuelLoops FifoCache CacheGet Binary64 WeightedLists

variable {M : Type}
variable {s t u : State M} {src : Place} {id : Nat} {e : Entry M}

structure Sound (s : State M) : Prop where
  weighed : Weighed s
  occupied : s.occupiedByte = s.data

theorem Sound.init : Sound (State.init : State M) := ⟨.init, rfl⟩

theorem Sound.congr (h : Sound s) (table : t.table = s.table) (lists : t.lists = s.lists)
    (sizes : t.sizes = s.sizes) (occupied : t.occupiedByte = s.occupiedByte) : Sound t where
  weighed := h.weighed.congr table lists sizes
  occupied := by
    rw [occupied, State.data, sizes]
    exact h.occupied

/-- What an eviction leaves as it is. No id comes into the table. -/
structure Same (s t : State M) : Prop where
  absent : ∀ id, s.table id = none → t.table id = none
  p : t.p = s.p
  nReq : t.nReq = s.nReq
  vtime : t.vtimeLastReqInGhost = s.vtimeLastReqInGhost
  inL1 : t.currObjInL1Ghost = s.currObjInL1Ghost
  inL2 : t.currObjInL2Ghost = s.currObjInL2Ghost

theorem Same.refl (s : State M) : Same s s := ⟨fun _ h => h, rfl, rfl, rfl, rfl, rfl⟩

theorem Same.trans (h : Same s t) (k : Same t u) : Same s u where
  absent id missing := k.absent id (h.absent id missing)
  p := k.p.trans h.p
  nReq := k.nReq.trans h.nReq
  vtime := k.vtime.trans h.vtime
  inL1 := k.inL1.trans h.inL1
  inL2 := k.inL2.trans h.inL2

theorem Same.ghosted (h : Same s t) : t.ghosted = s.ghosted := by
  rw [State.ghosted, h.vtime, h.nReq, h.inL1, h.inL2]
  rfl

def Sized (s t : State M) : Prop :=
  ∀ id e', t.table id = some e' → ∃ e, s.table id = some e ∧ e'.bytes = e.bytes

structure Kept (s t : State M) : Prop where
  same : Same s t
  sized : Sized s t

theorem Kept.refl (s : State M) : Kept s s := ⟨.refl s, fun _ e found => ⟨e, found, rfl⟩⟩

theorem Kept.trans (h : Kept s t) (k : Kept t u) : Kept s u where
  same := h.same.trans k.same
  sized id e'' last := by
    obtain ⟨e', middle, second⟩ := k.sized id e'' last
    obtain ⟨e, first, size⟩ := h.sized id e' middle
    exact ⟨e, first, second.trans size⟩

/-! ## Single moves -/

section Moves

variable {s : State M} {src dst : Place} {id : Nat} {e e' : Entry M}

theorem relocate_sizes (s : State M) (src dst : Place) (id : Nat) (e e' : Entry M) (place : Place) :
    (s.relocate src dst id e e').sizes place =
      s.sizes place - (if place = src then e.bytes else 0) + if place = dst then e.bytes else 0 := by
  by_cases atDst : place = dst
  · subst atDst
    by_cases atSrc : place = src
    · subst atSrc
      simp [State.relocate, State.store, State.link, State.unlink]
    · simp [State.relocate, State.store, State.link, State.unlink, atSrc]
  · by_cases atSrc : place = src
    · subst atSrc
      simp [State.relocate, State.store, State.link, State.unlink, atDst]
    · simp [State.relocate, State.store, State.link, State.unlink, atSrc, atDst]

theorem discard_sizes (s : State M) (src : Place) (id : Nat) (e : Entry M) (place : Place) :
    (s.discard src id e).sizes place = s.sizes place - if place = src then e.bytes else 0 := by
  by_cases atSrc : place = src
  · subst atSrc
    simp [State.discard, State.store, State.unlink]
  · simp [State.discard, State.store, State.unlink, atSrc]

theorem absent_update {table : Nat → Option (Entry M)} {entry : Option (Entry M)}
    (found : table id = some e) (i : Nat) (missing : table i = none) :
    Function.update table id entry i = none := by
  have other : i ≠ id := by
    rintro rfl
    rw [found] at missing
    cases missing
  rw [Function.update_of_ne other]
  exact missing

theorem sized_of_update {entry : Option (Entry M)} (found : s.table id = some e)
    (table : t.table = Function.update s.table id entry)
    (size : ∀ e', entry = some e' → e'.bytes = e.bytes) : Sized s t := by
  intro i e' stored
  rw [table] at stored
  by_cases same : i = id
  · subst same
    rw [Function.update_self] at stored
    exact ⟨e, found, size e' stored⟩
  · rw [Function.update_of_ne same] at stored
    exact ⟨e', stored, rfl⟩

theorem kept_store (found : s.table id = some e) (size : e'.bytes = e.bytes) :
    Kept s (s.store id (some e')) := by
  refine ⟨⟨absent_update found, rfl, rfl, rfl, rfl, rfl⟩, sized_of_update found rfl ?_⟩
  rintro _ ⟨⟩
  exact size

theorem kept_relocate (found : s.table id = some e) (size : e'.bytes = e.bytes) :
    Kept s (s.relocate src dst id e e') := by
  refine ⟨⟨absent_update found, rfl, rfl, rfl, rfl, rfl⟩, sized_of_update found rfl ?_⟩
  rintro _ ⟨⟩
  exact size

theorem kept_discard (found : s.table id = some e) : Kept s (s.discard src id e) := by
  refine ⟨⟨absent_update found, rfl, rfl, rfl, rfl, rfl⟩, sized_of_update found rfl ?_⟩
  rintro _ ⟨⟩

theorem evictData_spec (dst : Place) (sound : Sound s) (nonempty : 0 < s.sizes src)
    (data : src = .l1Data ∨ src = .l2Data)
    (names : ∀ e : Entry M, e.place = src → { e with ghost := true }.place = dst) :
    ∃ t id e, evictData src dst s = .ok t ∧ s.table id = some e ∧ Sound t ∧ Kept s t ∧
      ∀ place, t.sizes place =
        s.sizes place - (if place = src then e.bytes else 0) + if place = dst then e.bytes else 0 := by
  obtain ⟨id, rest, e, _, tail, found, placed⟩ := sound.weighed.tail nonempty
  let u : State M := { s with occupiedByte := s.occupiedByte - e.bytes }
  have weighed : Weighed u := sound.weighed.congr rfl rfl rfl
  have sizes : ∀ place, (u.relocate src dst id e { e with ghost := true }).sizes place =
      s.sizes place - (if place = src then e.bytes else 0) + if place = dst then e.bytes else 0 :=
    relocate_sizes u src dst id e { e with ghost := true }
  refine ⟨u.relocate src dst id e { e with ghost := true }, id, e, ?_, found, ⟨?_, ?_⟩, ?_, sizes⟩
  · rw [evictData, tail]
    rfl
  · have moved : Weighed
        (u.relocate e.place { e with ghost := true }.place id e { e with ghost := true }) :=
      weighed.relocate found rfl
    rwa [names e placed, placed] at moved
  · have ghost : dst = .l1Ghost ∨ dst = .l2Ghost := by
      have target := names e placed
      rcases e with ⟨size, lru, ghost, tag⟩
      cases lru with
      | one => exact .inl target.symm
      | two => exact .inr target.symm
    have first := sizes .l1Data
    have second := sizes .l2Data
    have before := sound.occupied
    show s.occupiedByte - e.bytes = _
    rw [State.data] at before ⊢
    rcases data with rfl | rfl <;> rcases ghost with rfl | rfl <;>
      simp only [reduceCtorEq, if_true, if_false] at first second <;> omega
  · have moved : Kept u (u.relocate src dst id e { e with ghost := true }) := kept_relocate found rfl
    exact ⟨⟨moved.same.absent, rfl, rfl, rfl, rfl, rfl⟩, moved.sized⟩

theorem Sound.forget (sound : Sound s) (found : s.table id = some e) (ghost : e.ghost = true) :
    Sound (s.discard e.place id e) where
  weighed := sound.weighed.discard found
  occupied := by
    have first := discard_sizes s e.place id e .l1Data
    have second := discard_sizes s e.place id e .l2Data
    have before := sound.occupied
    show s.occupiedByte = _
    rw [State.data] at before ⊢
    rcases e with ⟨size, lru, isGhost, tag⟩
    cases ghost
    cases lru <;> simp only [Entry.place, reduceCtorEq, if_false] at first second ⊢ <;> omega

theorem Sound.release (sound : Sound s) (found : s.table id = some e) (data : e.ghost = false) :
    Sound ({ s with occupiedByte := s.occupiedByte - e.bytes }.discard e.place id e) where
  weighed := by
    have weighed : Weighed { s with occupiedByte := s.occupiedByte - e.bytes } :=
      sound.weighed.congr rfl rfl rfl
    exact weighed.discard found
  occupied := by
    have first := discard_sizes s e.place id e .l1Data
    have second := discard_sizes s e.place id e .l2Data
    have before := sound.occupied
    show s.occupiedByte - e.bytes = (s.discard e.place id e).data
    rw [State.data] at before ⊢
    rcases e with ⟨size, lru, isGhost, tag⟩
    cases data
    cases lru <;> simp only [Entry.place, reduceCtorEq, if_true, if_false] at first second ⊢ <;> omega

structure Forgot (src : Place) (s t : State M) : Prop where
  sound : Sound t
  kept : Kept s t
  sizes : ∃ id e, s.table id = some e ∧
    ∀ place, t.sizes place = s.sizes place - if place = src then e.bytes else 0

theorem evictGhost_forgot (sound : Sound s) (nonempty : 0 < s.sizes src)
    (ghost : src = .l1Ghost ∨ src = .l2Ghost) : ∃ t, evictGhost src s = .ok t ∧ Forgot src s t := by
  obtain ⟨id, rest, e, _, tail, found, placed⟩ := sound.weighed.tail nonempty
  have isGhost : e.ghost = true := by
    rcases e with ⟨size, lru, isGhost, tag⟩
    rcases ghost with rfl | rfl <;> cases lru <;> cases isGhost <;> first | rfl | cases placed
  subst placed
  refine ⟨s.discard e.place id e, ?_, sound.forget found isGhost, kept_discard found, id, e, found,
    discard_sizes s e.place id e⟩
  rw [evictGhost, tail]
  rfl

theorem evictNoGhost_spec (sound : Sound s) (nonempty : 0 < s.sizes .l1Data) :
    ∃ t id e, evictNoGhost s = .ok t ∧ s.table id = some e ∧ Sound t ∧ Kept s t ∧
      ∀ place, t.sizes place = s.sizes place - if place = .l1Data then e.bytes else 0 := by
  obtain ⟨id, rest, e, _, tail, found, placed⟩ := sound.weighed.tail nonempty
  have isData : e.ghost = false := by
    rcases e with ⟨size, lru, isGhost, tag⟩
    cases lru <;> cases isGhost <;> first | rfl | cases placed
  let u : State M := { s with occupiedByte := s.occupiedByte - e.bytes }
  refine ⟨u.discard .l1Data id e, id, e, ?_, found, ?_, ?_, discard_sizes u .l1Data id e⟩
  · rw [evictNoGhost, tail]
    rfl
  · have after := sound.release found isData
    rwa [placed] at after
  · have left : Kept u (u.discard .l1Data id e) := kept_discard found
    exact ⟨⟨left.same.absent, rfl, rfl, rfl, rfl, rfl⟩, left.sized⟩

end Moves

/-! ## What a variant has to do -/

/-- After `_ARC_replace` one object of the data is a ghost. -/
structure Demoted (s t : State M) : Prop where
  sound : Sound t
  kept : Kept s t
  data : ∃ id e, s.table id = some e ∧ t.data + e.bytes = s.data
  recent : t.recent ≤ s.recent
  all : t.all = s.all

/-- After `_ARC_evict_L1_data_no_ghost` an object has gone, or every object of
`L1_data` has moved on to `L2_data`. -/
structure Shed (s t : State M) : Prop where
  sound : Sound t
  kept : Kept s t
  all_data : t.all - t.data = s.all - s.data
  gone : (∃ id e, s.table id = some e ∧ t.data + e.bytes = s.data ∧ t.recent + e.bytes ≤ s.recent) ∨
    (t.data = s.data ∧ t.sizes .l1Data = 0 ∧ t.recent ≤ s.recent)

/-- A hit leaves the ghosts alone and takes nothing into `L1_data`. -/
structure Promoted (s t : State M) : Prop where
  sound : Sound t
  kept : Kept s t
  data : t.data = s.data
  l1Data : t.sizes .l1Data ≤ s.sizes .l1Data
  l1Ghost : t.sizes .l1Ghost = s.sizes .l1Ghost
  l2Ghost : t.sizes .l2Ghost = s.sizes .l2Ghost

/-- What a variant does with objects of any size. -/
structure Variant.Careful (v : Variant M) : Prop where
  onHit : ∀ {s id e}, Sound s → s.table id = some e → e.ghost = false → Promoted s (v.onHit s id e)
  replace : ∀ {s}, Sound s → 1 ≤ s.data → Ends (fun n => v.replace n s) (Demoted s)
  dropL1 : ∀ {s}, Sound s → 1 ≤ s.sizes .l1Data → Ends (fun n => v.dropL1 n s) (Shed s)

theorem Promoted.refl (sound : Sound s) : Promoted s s :=
  ⟨sound, .refl s, rfl, le_rfl, rfl, rfl⟩

theorem Promoted.trans (h : Promoted s t) (k : Promoted t u) : Promoted s u where
  sound := k.sound
  kept := h.kept.trans k.kept
  data := k.data.trans h.data
  l1Data := k.l1Data.trans h.l1Data
  l1Ghost := k.l1Ghost.trans h.l1Ghost
  l2Ghost := k.l2Ghost.trans h.l2Ghost

theorem Promoted.recent_le (h : Promoted s t) : t.recent ≤ s.recent := by
  have l1Data := h.l1Data
  have l1Ghost := h.l1Ghost
  rw [State.recent, State.recent]
  omega

theorem State.all_eq (s : State M) : s.all = s.data + (s.sizes .l1Ghost + s.sizes .l2Ghost) := by
  rw [State.all, State.data]
  omega

theorem Promoted.all_eq (h : Promoted s t) : t.all = s.all := by
  rw [State.all_eq, State.all_eq, h.data, h.l1Ghost, h.l2Ghost]

theorem Promoted.demoted (h : Promoted s t) (k : Demoted t u) : Demoted s u where
  sound := k.sound
  kept := h.kept.trans k.kept
  data := by
    obtain ⟨id, e', found', less⟩ := k.data
    obtain ⟨e, found, size⟩ := h.kept.sized id e' found'
    exact ⟨id, e, found, by rw [← size, less, h.data]⟩
  recent := k.recent.trans h.recent_le
  all := k.all.trans h.all_eq

theorem Promoted.emptied (h : Promoted s t) (empty : t.sizes .l1Data = 0) : Shed s t where
  sound := h.sound
  kept := h.kept
  all_data := by rw [h.all_eq, h.data]
  gone := .inr ⟨h.data, empty, h.recent_le⟩

theorem Promoted.shed (h : Promoted s t) (k : Shed t u) : Shed s u where
  sound := k.sound
  kept := h.kept.trans k.kept
  all_data := by rw [k.all_data, h.all_eq, h.data]
  gone := by
    have recent := h.recent_le
    rcases k.gone with ⟨id, e', found', less, fewer⟩ | ⟨data, empty, fewer⟩
    · obtain ⟨e, found, size⟩ := h.kept.sized id e' found'
      rw [size] at less fewer
      exact .inl ⟨id, e, found, by rw [less, h.data], fewer.trans recent⟩
    · exact .inr ⟨data.trans h.data, empty, fewer.trans recent⟩

theorem promoted_relocate {e' : Entry M} (sound : Sound s) (found : s.table id = some e)
    (here : e.place = src) (data : src = .l1Data ∨ src = .l2Data) (there : e'.place = .l2Data)
    (size : e'.objSize = e.objSize) : Promoted s (s.relocate src .l2Data id e e') := by
  have sizes := relocate_sizes s src .l2Data id e e'
  have weighed : Weighed (s.relocate e.place e'.place id e e') := sound.weighed.relocate found size
  rw [here, there] at weighed
  have kept : Kept s (s.relocate src .l2Data id e e') :=
    kept_relocate found (by rw [Entry.bytes, size, Entry.bytes])
  have bytes := e.bytes_nonneg
  have total : (s.relocate src .l2Data id e e').data = s.data := by
    rw [State.data, State.data, sizes, sizes]
    rcases data with rfl | rfl <;> simp only [reduceCtorEq, if_true, if_false] <;> omega
  refine ⟨⟨weighed, sound.occupied.trans total.symm⟩, kept, total, ?_, ?_, ?_⟩ <;> rw [sizes] <;>
    rcases data with rfl | rfl <;> simp only [reduceCtorEq, if_true, if_false] <;> omega

/-! The two evictions of a data list to its ghosts. -/

theorem demoted_of_sizes {dst : Place} (sound : Sound t) (kept : Kept s t)
    (found : s.table id = some e)
    (pair : (src = .l1Data ∧ dst = .l1Ghost) ∨ (src = .l2Data ∧ dst = .l2Ghost))
    (sizes : ∀ place, t.sizes place =
      s.sizes place - (if place = src then e.bytes else 0) + if place = dst then e.bytes else 0) :
    Demoted s t := by
  have a := sizes .l1Data
  have b := sizes .l2Data
  have d := sizes .l1Ghost
  have f := sizes .l2Ghost
  rcases pair with ⟨rfl, rfl⟩ | ⟨rfl, rfl⟩ <;>
    simp only [reduceCtorEq, if_true, if_false] at a b d f <;>
    refine ⟨sound, kept, ⟨id, e, found, ?_⟩, ?_, ?_⟩ <;>
    simp only [State.data, State.recent, State.all] <;>
    omega

theorem evictL1Data_demoted (sound : Sound s) (nonempty : 0 < s.sizes .l1Data) :
    ∃ t, evictData .l1Data .l1Ghost s = .ok t ∧ Demoted s t := by
  obtain ⟨t, id, e, run, found, sound', kept, sizes⟩ := evictData_spec .l1Ghost sound nonempty
    (.inl rfl) (by rintro ⟨_, _ | _, _ | _, _⟩ place <;> first | rfl | cases place)
  exact ⟨t, run, demoted_of_sizes sound' kept found (.inl ⟨rfl, rfl⟩) sizes⟩

theorem evictL2Data_demoted (sound : Sound s) (nonempty : 0 < s.sizes .l2Data) :
    ∃ t, evictData .l2Data .l2Ghost s = .ok t ∧ Demoted s t := by
  obtain ⟨t, id, e, run, found, sound', kept, sizes⟩ := evictData_spec .l2Ghost sound nonempty
    (.inr rfl) (by rintro ⟨_, _ | _, _ | _, _⟩ place <;> first | rfl | cases place)
  exact ⟨t, run, demoted_of_sizes sound' kept found (.inr ⟨rfl, rfl⟩) sizes⟩

theorem evictNoGhost_shed (sound : Sound s) (nonempty : 0 < s.sizes .l1Data) :
    ∃ t, evictNoGhost s = .ok t ∧ Shed s t := by
  obtain ⟨t, id, e, run, found, sound', kept, sizes⟩ := evictNoGhost_spec sound nonempty
  refine ⟨t, run, sound', kept, ?_, .inl ⟨id, e, found, ?_, ?_⟩⟩ <;>
    simp only [State.all, State.data, State.recent, sizes, reduceCtorEq, if_true, if_false] <;>
    omega

theorem prefersL1_spec (sound : Sound s) (some : 1 ≤ s.data) :
    if prefersL1 s then 0 < s.sizes .l1Data else 0 < s.sizes .l2Data := by
  have first := sound.weighed.size_nonneg .l1Data
  have second := sound.weighed.size_nonneg .l2Data
  rw [State.data] at some
  cases choice : prefersL1 s with
  | true =>
    simp only [prefersL1, Bool.or_eq_true, Bool.and_eq_true, decide_eq_true_iff, beq_iff_eq] at choice
    simp only [if_true]
    rcases choice with ⟨positive, _⟩ | empty
    · exact positive
    · omega
  | false =>
    simp only [prefersL1, Bool.or_eq_false_iff, beq_eq_false_iff_ne] at choice
    have nonempty := choice.2
    simp only [Bool.false_eq_true, if_false]
    omega

/-! ## Eviction -/

/-- An object leaves, or `L1_data` does. -/
def roomSize (s : State M) : Nat := (2 * s.data + if s.sizes .l1Data = 0 then 0 else 1).toNat

theorem roomSize_lt (positive : 0 ≤ t.data)
    (h : t.data < s.data ∨ (t.data = s.data ∧ t.sizes .l1Data = 0 ∧ s.sizes .l1Data ≠ 0)) :
    roomSize t < roomSize s := by
  unfold roomSize
  rcases h with less | ⟨same, empty, nonempty⟩
  · split <;> split <;> omega
  · rw [if_pos empty, if_neg nonempty]
    omega

theorem Sound.data_nonneg (sound : Sound s) : 0 ≤ s.data :=
  add_nonneg (sound.weighed.size_nonneg .l1Data) (sound.weighed.size_nonneg .l2Data)

theorem Demoted.less (sound : Sound s) (h : Demoted s t) : t.data < s.data := by
  obtain ⟨id, e, found, less⟩ := h.data
  have nonzero := sound.weighed.positive id e found
  omega

theorem Shed.roomSize_lt (sound : Sound s) (some : 1 ≤ s.sizes .l1Data) (h : Shed s t) :
    roomSize t < roomSize s := by
  refine AdaptiveLists.roomSize_lt h.sound.data_nonneg ?_
  rcases h.gone with ⟨id, e, found, less, _⟩ | ⟨data, empty, _⟩
  · have nonzero := sound.weighed.positive id e found
    exact .inl (by omega)
  · exact .inr ⟨data, empty, by omega⟩

theorem evict_ends {v : Variant M} {c : Nat} {r : Request} {Q : State M → Prop} (sound : Sound s)
    (revived : s.ghosted = true → Ends (fun n => v.replace n s) Q)
    (crowded : s.ghosted = false → (c : Int) < s.recent + r.objSize →
      (∀ u, Forgot .l1Ghost s u → Ends (fun n => v.replace n u) Q) ∧
      (s.sizes .l1Ghost = 0 → Ends (fun n => v.dropL1 n s) Q))
    (roomy : s.ghosted = false → s.recent + r.objSize ≤ c →
      (∀ u, Forgot .l2Ghost s u → Ends (fun n => v.replace n u) Q) ∧
      ((s.all < c * 2 ∨ s.sizes .l2Ghost = 0) → Ends (fun n => v.replace n s) Q)) :
    Ends (fun n => evict v c n s r) Q := by
  unfold evict
  cases ghosted : s.ghosted with
  | true =>
    simp only [if_true]
    exact revived ghosted
  | false =>
    simp only [Bool.false_eq_true, if_false]
    unfold evictMiss
    by_cases crowd : (c : Int) < s.recent + r.objSize
    · obtain ⟨forgets, drops⟩ := crowded ghosted crowd
      simp only [if_pos crowd]
      by_cases haunted : 0 < s.sizes .l1Ghost
      · obtain ⟨u, run, forgot⟩ := evictGhost_forgot sound haunted (.inl rfl)
        simp only [if_pos haunted, run]
        exact forgets u forgot
      · have nonneg := sound.weighed.size_nonneg .l1Ghost
        simp only [if_neg haunted]
        exact drops (by omega)
    · obtain ⟨forgets, replaces⟩ := roomy ghosted (Int.not_lt.mp crowd)
      simp only [if_neg crowd]
      by_cases crammed : (c : Int) * 2 ≤ s.all ∧ 0 < s.sizes .l2Ghost
      · obtain ⟨u, run, forgot⟩ := evictGhost_forgot sound crammed.2 (.inr rfl)
        simp only [if_pos crammed, run]
        exact forgets u forgot
      · have nonneg := sound.weighed.size_nonneg .l2Ghost
        simp only [if_neg crammed]
        exact replaces (by omega)

theorem Forgot.data_eq (ghost : src = .l1Ghost ∨ src = .l2Ghost) (h : Forgot src s t) :
    t.data = s.data := by
  obtain ⟨id, e, _, sizes⟩ := h.sizes
  rw [State.data, State.data, sizes, sizes]
  rcases ghost with rfl | rfl <;> simp only [reduceCtorEq, if_false] <;> omega

theorem evict_sound {v : Variant M} {c : Nat} {r : Request} (careful : v.Careful) (sound : Sound s)
    (small : r.objSize ≤ c) (full : (c : Int) < s.occupiedByte + r.objSize) :
    Ends (fun n => evict v c n s r) fun t => Sound t ∧ Kept s t ∧ roomSize t < roomSize s := by
  rw [sound.occupied] at full
  -- a replacement that starts at `u`, after at most one ghost has gone
  have replaces : ∀ u : State M, Sound u → Kept s u → u.data = s.data →
      Ends (fun n => v.replace n u) fun t => Sound t ∧ Kept s t ∧ roomSize t < roomSize s := by
    intro u sound' kept data
    refine (careful.replace sound' (by omega)).mono ?_
    intro t demoted
    have less := demoted.less sound'
    exact ⟨demoted.sound, kept.trans demoted.kept,
      roomSize_lt demoted.sound.data_nonneg (.inl (by omega))⟩
  refine evict_ends sound (fun _ => replaces s sound (.refl s) rfl) ?_ ?_
  · intro _ crowded
    refine ⟨fun u h => replaces u h.sound h.kept (h.data_eq (.inl rfl)), ?_⟩
    intro empty
    rw [State.recent] at crowded
    have nonempty : 1 ≤ s.sizes .l1Data := by omega
    refine (careful.dropL1 sound nonempty).mono ?_
    intro t shed
    exact ⟨shed.sound, shed.kept, shed.roomSize_lt sound nonempty⟩
  · intro _ _
    exact ⟨fun u h => replaces u h.sound h.kept (h.data_eq (.inr rfl)),
      fun _ => replaces s sound (.refl s) rfl⟩

/-! ## Lookup and insertion -/

section Calls

variable {v : Variant M} {c : Nat} {s : State M} {r : Request}

structure Revived (c : Nat) (s : State M) (id : Nat) (e : Entry M) (t : State M) : Prop where
  sound : Sound t
  sized : Sized s t
  absent : t.table id = none
  ghosted : t.ghosted = true
  sizes : ∀ place, t.sizes place = s.sizes place - if place = e.place then e.bytes else 0
  p : ∃ other own, t.p = min (double (s.p + delta other own)) (double c) ∨
    t.p = max (double (s.p - delta other own)) 0

theorem ghostHit_revived (sound : Sound s) (found : s.table id = some e) (ghost : e.ghost = true) :
    ∃ t, ghostHit c s id e = .ok t ∧ Revived c s id e t := by
  have some : 1 ≤ s.sizes e.place :=
    (sound.weighed.positive id e found).trans (sound.weighed.bytes_le found)
  -- whatever the flags and the target are
  have forgets : ∀ u : State M, u.table = s.table → u.lists = s.lists → u.sizes = s.sizes →
      u.occupiedByte = s.occupiedByte → Sound (u.discard e.place id e) := by
    intro u table lists sizes occupied
    exact (sound.congr table lists sizes occupied).forget (by rw [table]; exact found) ghost
  have sized : ∀ u : State M, u.table = s.table → Sized s (u.discard e.place id e) := by
    intro u table
    have erased : (u.discard e.place id e).table = Function.update s.table id none := by
      rw [← table]
      rfl
    refine sized_of_update found erased ?_
    rintro _ ⟨⟩
  have gone : ∀ u : State M, (u.discard e.place id e).table id = none := by
    intro u
    simp [State.discard, State.store]
  rcases e with ⟨size, lru, isGhost, tag⟩
  cases ghost
  cases lru with
  | one =>
    refine ⟨_, if_pos some, forgets _ rfl rfl rfl rfl, sized _ rfl, gone _, ?_,
      discard_sizes _ _ _ _, _, _, .inl rfl⟩
    simp [State.ghosted, State.discard, State.store, State.unlink]
  | two =>
    refine ⟨_, if_pos some, forgets _ rfl rfl rfl rfl, sized _ rfl, gone _, ?_,
      discard_sizes _ _ _ _, _, _, .inr rfl⟩
    simp [State.ghosted, State.discard, State.store, State.unlink]

def created (v : Variant M) (s : State M) (r : Request) : Entry M :=
  ⟨UInt32.ofNat r.objSize, if s.ghosted then .two else .one, false, v.fresh⟩

/-- The size field grows by the size of the request, the occupied bytes by the size of
the object. -/
structure Inserted (v : Variant M) (s : State M) (r : Request) (t : State M) : Prop where
  table : t.table = Function.update s.table r.objId (some (created v s r))
  lists : t.lists = Function.update s.lists (created v s r).place
    (s.lists (created v s r).place ++ [r.objId])
  sizes : t.sizes = Function.update s.sizes (created v s r).place
    (s.sizes (created v s r).place + r.objSize)
  occupied : t.occupiedByte = s.occupiedByte + (created v s r).bytes
  p : t.p = s.p
  inL1 : t.currObjInL1Ghost = (!s.ghosted && s.currObjInL1Ghost)
  inL2 : t.currObjInL2Ghost = (!s.ghosted && s.currObjInL2Ghost)

theorem insert_inserted (absent : s.table r.objId = none) :
    ∃ t, insert v s r = .ok t ∧ Inserted v s r t := by
  unfold insert
  rw [if_neg (by simp [absent])]
  cases ghosted : s.ghosted with
  | true =>
    refine ⟨_, if_pos ghosted, ?_⟩
    constructor <;> simp [created, ghosted, State.link, State.store, Entry.place, Entry.bytes]
  | false =>
    refine ⟨_, if_neg (by simpa [State.ghosted] using ghosted), ?_⟩
    constructor <;> simp [created, ghosted, State.link, State.store, Entry.place, Entry.bytes]

theorem created_data (v : Variant M) (s : State M) (r : Request) :
    (created v s r).place = .l1Data ∨ (created v s r).place = .l2Data := by
  rw [created]
  cases s.ghosted with
  | true => exact .inr rfl
  | false => exact .inl rfl

theorem created_bytes (v : Variant M) (s : State M) (narrow : r.objSize < 2 ^ 32) :
    (created v s r).bytes = r.objSize := by
  show ((UInt32.ofNat r.objSize).toNat : Int) = r.objSize
  rw [UInt32.toNat_ofNat', Nat.mod_eq_of_lt narrow]

theorem Inserted.sound (h : Inserted v s r t) (sound : Sound s) (absent : s.table r.objId = none)
    (positive : 1 ≤ r.objSize) (narrow : r.objSize < 2 ^ 32) : Sound t := by
  have bytes := created_bytes v s narrow
  have nonzero : 1 ≤ (created v s r).bytes := by omega
  have filed := sound.weighed.file absent nonzero
  refine ⟨filed.congr h.table h.lists ?_, ?_⟩
  · rw [h.sizes, ← bytes]
    rfl
  · have before := sound.occupied
    rw [h.occupied, bytes, State.data, h.sizes]
    rw [State.data] at before
    rcases created_data v s r with place | place <;> rw [place] <;> simp <;> omega

end Calls
end AdaptiveLists
