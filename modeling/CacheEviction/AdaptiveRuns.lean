import CacheEviction.AdaptiveBytes

/-!
# The bounds of the adaptive policies

With objects of one byte every request of a lawful variant is served, and the four
lists keep their bounds jointly, since ghosts exist only in a full cache: as long as
there is room nothing is evicted, and from then on every request leaves it full.

While a request makes room the lists are either full, or ready for the object; a
request that found a ghost has taken one entry out already.
-/
namespace AdaptiveLists

open FuelLoops FifoCache CacheGet Binary64 StepTraces

variable {M : Type}

structure Orderly (s : State M) : Prop where
  filed : Filed s
  occupied : s.occupiedByte = s.data

theorem orderly_iff {s : State M} :
    Orderly s ↔ Sound s ∧ ∀ id e, s.table id = some e → e.bytes = 1 := by
  constructor
  · intro h
    obtain ⟨weighed, unit⟩ := filed_iff.mp h.filed
    exact ⟨⟨weighed, h.occupied⟩, unit⟩
  · rintro ⟨sound, unit⟩
    exact ⟨filed_iff.mpr ⟨sound.weighed, unit⟩, sound.occupied⟩

theorem Orderly.sound {s : State M} (h : Orderly s) : Sound s := (orderly_iff.mp h).1

theorem Orderly.unit {s : State M} (h : Orderly s) {id : Nat} {e : Entry M}
    (found : s.table id = some e) : e.bytes = 1 := h.filed.unit id e found

theorem Orderly.size_nonneg {s : State M} (h : Orderly s) (place : Place) : 0 ≤ s.sizes place :=
  h.sound.weighed.size_nonneg place

theorem Orderly.of_sized {s t : State M} (h : Orderly s) (sound : Sound t) (sized : Sized s t) :
    Orderly t := by
  refine orderly_iff.mpr ⟨sound, ?_⟩
  intro id e' found'
  obtain ⟨e, found, size⟩ := sized id e' found'
  rw [size, h.unit found]

theorem Orderly.congr {s t : State M} (h : Orderly s) (table : t.table = s.table)
    (lists : t.lists = s.lists) (sizes : t.sizes = s.sizes)
    (occupied : t.occupiedByte = s.occupiedByte) : Orderly t := by
  refine h.of_sized (h.sound.congr table lists sizes occupied) ?_
  intro id e found
  rw [table] at found
  exact ⟨e, found, rfl⟩

/-! ## What a variant has to do -/

structure Replaced (s t : State M) : Prop where
  orderly : Orderly t
  same : Same s t
  data : t.data = s.data - 1
  recent : t.recent ≤ s.recent
  all : t.all = s.all

/-- After `_ARC_evict_L1_data_no_ghost` an object has gone, or every object of
`L1_data` has moved on to `L2_data`. -/
structure Dropped (s t : State M) : Prop where
  orderly : Orderly t
  same : Same s t
  all_data : t.all - t.data = s.all - s.data
  gone : (t.data = s.data - 1 ∧ t.recent ≤ s.recent - 1) ∨
    (t.data = s.data ∧ t.sizes .l1Data = 0 ∧ t.recent ≤ s.recent)

structure Touched (s t : State M) : Prop where
  orderly : Orderly t
  same : Same s t
  data : t.data = s.data
  l1Data : t.sizes .l1Data ≤ s.sizes .l1Data
  l1Ghost : t.sizes .l1Ghost = s.sizes .l1Ghost
  l2Ghost : t.sizes .l2Ghost = s.sizes .l2Ghost

structure Variant.Lawful (v : Variant M) : Prop where
  onHit : ∀ {s id e}, Orderly s → s.table id = some e → e.ghost = false →
    Touched s (v.onHit s id e)
  replace : ∀ {s}, Orderly s → 1 ≤ s.data → Ends (fun n => v.replace n s) (Replaced s)
  dropL1 : ∀ {s}, Orderly s → 1 ≤ s.sizes .l1Data → s.sizes .l2Data = 0 →
    Ends (fun n => v.dropL1 n s) (Dropped s)

theorem Variant.Careful.lawful {v : Variant M} (careful : v.Careful) : v.Lawful where
  onHit orderly found data := by
    obtain ⟨sound, kept, total, l1Data, l1Ghost, l2Ghost⟩ := careful.onHit orderly.sound found data
    exact ⟨orderly.of_sized sound kept.sized, kept.same, total, l1Data, l1Ghost, l2Ghost⟩
  replace orderly some := by
    refine (careful.replace orderly.sound some).mono ?_
    rintro t ⟨sound, kept, ⟨id, e, found, less⟩, recent, all⟩
    rw [orderly.unit found] at less
    exact ⟨orderly.of_sized sound kept.sized, kept.same, by omega, recent, all⟩
  dropL1 orderly some _ := by
    refine (careful.dropL1 orderly.sound some).mono ?_
    rintro t ⟨sound, kept, all_data, gone⟩
    refine ⟨orderly.of_sized sound kept.sized, kept.same, all_data, ?_⟩
    rcases gone with ⟨id, e, found, less, recent⟩ | moved
    · rw [orderly.unit found] at less recent
      exact .inl ⟨by omega, by omega⟩
    · exact .inr moved

/-! ## The invariant -/

structure Valid (c : Nat) (s : State M) : Prop where
  orderly : Orderly s
  data : s.data ≤ c
  recent : s.recent ≤ c
  all : s.all ≤ 2 * c
  filled : (s.sizes .l1Ghost = 0 ∧ s.sizes .l2Ghost = 0) ∨ s.data = c
  p_nonneg : 0 ≤ s.p
  p_le : s.p ≤ double c
  inL1 : s.currObjInL1Ghost = false
  inL2 : s.currObjInL2Ghost = false

def Full (c : Nat) (s : State M) : Prop :=
  s.data = c ∧ s.recent ≤ c ∧ s.all + (if s.ghosted then 1 else 0) ≤ 2 * c

def Ready (c : Nat) (s : State M) : Prop :=
  s.data + 1 ≤ c ∧ s.recent + (if s.ghosted then 0 else 1) ≤ c ∧ s.all + 1 ≤ 2 * c ∧
    ((s.sizes .l1Ghost = 0 ∧ s.sizes .l2Ghost = 0) ∨ s.data + 1 = c)

structure Room (c : Nat) (id : Nat) (s : State M) : Prop where
  orderly : Orderly s
  absent : s.table id = none
  stage : Full c s ∨ Ready c s
  p_nonneg : 0 ≤ s.p
  p_le : s.p ≤ double c
  idle : s.ghosted = false → s.currObjInL1Ghost = false ∧ s.currObjInL2Ghost = false

theorem Room.step {c id : Nat} {s t : State M} (room : Room c id s) (orderly : Orderly t)
    (same : Same s t) (stage : Full c t ∨ Ready c t) : Room c id t where
  orderly := orderly
  absent := same.absent id room.absent
  stage := stage
  p_nonneg := by
    rw [same.p]
    exact room.p_nonneg
  p_le := by
    rw [same.p]
    exact room.p_le
  idle := by
    rw [same.ghosted, same.inL1, same.inL2]
    exact room.idle

variable {v : Variant M} {c : Nat} {s : State M} {r : Request}

/-! ## Lookup -/

theorem delta_pos (other own : Int) : 0 ≤ delta other own :=
  zero_le_one.trans (le_max_right _ _)

theorem raised_target {p : ℚ} (nonneg : 0 ≤ p) (other own : Int) :
    0 ≤ min (double (p + delta other own)) (double c) ∧
      min (double (p + delta other own)) (double c) ≤ double c := by
  constructor
  · refine le_min (double_nonneg ?_) (double_nonneg (Nat.cast_nonneg c))
    have step := delta_pos other own
    linarith
  · exact min_le_right _ _

theorem lowered_target {p : ℚ} (le : p ≤ double c) (other own : Int) :
    0 ≤ max (double (p - delta other own)) 0 ∧
      max (double (p - delta other own)) 0 ≤ double c := by
  constructor
  · exact le_max_right _ _
  · refine max_le (double_le (representable_double (Nat.cast_nonneg c)) ?_)
      (double_nonneg (Nat.cast_nonneg c))
    have step := delta_pos other own
    linarith

theorem ghostHit_room {id : Nat} {e : Entry M} (valid : Valid c s) (found : s.table id = some e)
    (ghost : e.ghost = true) : ∃ t, ghostHit c s id e = .ok t ∧ Room c id t := by
  obtain ⟨t, run, sound, sized, absent, ghosted, sizes, other, own, target⟩ :=
    ghostHit_revived (c := c) valid.orderly.sound found ghost
  rw [valid.orderly.unit found] at sizes
  have range : 0 ≤ t.p ∧ t.p ≤ double c := by
    rcases target with target | target
    · rw [target]
      exact raised_target valid.p_nonneg other own
    · rw [target]
      exact lowered_target valid.p_le other own
  have isGhost : e.place = .l1Ghost ∨ e.place = .l2Ghost := by
    rcases e with ⟨size, lru, isGhost, tag⟩
    cases ghost
    cases lru with
    | one => exact .inl rfl
    | two => exact .inr rfl
  have stage : Full c t := by
    have positive := sound.weighed.size_nonneg e.place
    have l1Ghost := valid.orderly.size_nonneg .l1Ghost
    have l2Ghost := valid.orderly.size_nonneg .l2Ghost
    have filled := valid.filled
    have all := valid.all
    have recent := valid.recent
    simp only [State.data, State.recent, State.all] at filled all recent
    simp only [Full, ghosted, if_true, State.data, State.recent, State.all]
    rw [sizes] at positive
    simp only [sizes]
    rcases isGhost with place | place <;> rw [place] at positive ⊢ <;>
      simp only [reduceCtorEq, if_true, if_false] at positive ⊢ <;> omega
  refine ⟨t, run, valid.orderly.of_sized sound sized, absent, .inl stage, range.1, range.2, ?_⟩
  intro idle
  rw [ghosted] at idle
  cases idle

theorem Valid.tick (valid : Valid c s) : Valid c { s with nReq := s.nReq + 1 } :=
  ⟨valid.orderly.congr rfl rfl rfl rfl, valid.data, valid.recent, valid.all, valid.filled,
    valid.p_nonneg, valid.p_le, valid.inL1, valid.inL2⟩

theorem Valid.room (valid : Valid c s) {id : Nat} (absent : s.table id = none) : Room c id s where
  orderly := valid.orderly
  absent := absent
  stage := by
    have quiet : s.ghosted = false := by simp [State.ghosted, valid.inL1, valid.inL2]
    have data := valid.data
    have recent := valid.recent
    have all := valid.all
    have filled := valid.filled
    have l2Data := valid.orderly.size_nonneg .l2Data
    simp only [Full, Ready, quiet, Bool.false_eq_true, if_false, State.data, State.recent,
      State.all] at data recent all filled ⊢
    omega
  p_nonneg := valid.p_nonneg
  p_le := valid.p_le
  idle _ := ⟨valid.inL1, valid.inL2⟩

theorem find_spec (lawful : v.Lawful) (valid : Valid c s) (r : Request) :
    ∃ hit t, find v c s r = .ok (hit, t) ∧ if hit then Valid c t else Room c r.objId t := by
  cases found : s.table r.objId with
  | none =>
    refine ⟨false, s, ?_, valid.room found⟩
    rw [find, found]
  | some e =>
    let u : State M := { s with currObjInL1Ghost := false, currObjInL2Ghost := false }
    have clear : Valid c u := ⟨valid.orderly.congr rfl rfl rfl rfl, valid.data, valid.recent,
      valid.all, valid.filled, valid.p_nonneg, valid.p_le, rfl, rfl⟩
    cases ghost : e.ghost with
    | true =>
      obtain ⟨t, run, room⟩ := ghostHit_room clear found ghost
      refine ⟨false, t, ?_, room⟩
      rw [find, found]
      simp only [ghost, if_true]
      exact map_eq_ok.mpr ⟨t, run, rfl⟩
    | false =>
      have touched := lawful.onHit clear.orderly found ghost
      refine ⟨true, v.onHit u r.objId e, ?_, ?_⟩
      · rw [find, found]
        simp only [ghost, Bool.false_eq_true, if_false]
        rfl
      · have data := clear.data
        have recent := clear.recent
        have all := clear.all
        have filled := clear.filled
        obtain ⟨orderly, same, data', l1Data, l1Ghost, l2Ghost⟩ := touched
        simp only [State.data, State.recent, State.all] at data recent all filled data'
        refine ⟨orderly, ?_, ?_, ?_, ?_, ?_, ?_, same.inL1, same.inL2⟩
        · rw [State.data]
          omega
        · rw [State.recent]
          omega
        · rw [State.all]
          omega
        · rw [State.data]
          omega
        · rw [same.p]
          exact clear.p_nonneg
        · rw [same.p]
          exact clear.p_le

/-! ## Eviction -/

theorem ready_of_replaced {s t : State M} (replaced : Replaced s t) (full : s.data = c)
    (recent : s.recent + (if s.ghosted then 0 else 1) ≤ c) (all : s.all + 1 ≤ 2 * c) : Ready c t := by
  obtain ⟨_, same, data, recent', all'⟩ := replaced
  rw [Ready, same.ghosted]
  omega

theorem room_of_dropped {id : Nat} {s t : State M} (room : Room c id s) (quiet : s.ghosted = false)
    (stage : Full c s) (some : s.sizes .l1Data ≠ 0) (dropped : Dropped s t) :
    Room c id t ∧ roomSize t < roomSize s := by
  obtain ⟨data, recent, all⟩ := stage
  obtain ⟨orderly, same, others, gone⟩ := dropped
  have quiet' : t.ghosted = false := by rw [same.ghosted, quiet]
  have size := orderly.size_nonneg
  have l1Data := size .l1Data
  have l2Data := size .l2Data
  have remaining : 0 ≤ t.data := by
    rw [State.data]
    omega
  rw [quiet] at all
  simp only [Bool.false_eq_true, if_false] at all
  rcases gone with gone | gone
  · refine ⟨room.step orderly same (.inr ?_), roomSize_lt remaining (.inl (by omega))⟩
    simp only [Ready, quiet', Bool.false_eq_true, if_false]
    omega
  · refine ⟨room.step orderly same (.inl ?_), roomSize_lt remaining (.inr ⟨gone.1, gone.2.1, some⟩)⟩
    simp only [Full, quiet', Bool.false_eq_true, if_false]
    omega

theorem replace_room (lawful : v.Lawful) {id : Nat} {u : State M} (positive : 1 ≤ c)
    (room : Room c id s) (full : s.data = c) (orderly : Orderly u) (same : Same s u)
    (data : u.data = c) (recent : u.recent + (if s.ghosted then 0 else 1) ≤ c)
    (all : u.all + 1 ≤ 2 * c) :
    Ends (fun n => v.replace n u) fun t => Room c id t ∧ roomSize t < roomSize s := by
  refine (lawful.replace orderly (by omega)).mono ?_
  intro t replaced
  have ready : Ready c t := by
    refine ready_of_replaced replaced data ?_ all
    rw [same.ghosted]
    exact recent
  have remaining := replaced.data
  exact ⟨room.step replaced.orderly (same.trans replaced.same) (.inr ready),
    roomSize_lt (by omega) (.inl (by omega))⟩

theorem Orderly.forgot {u : State M} {place : Place} (orderly : Orderly s) (h : Forgot place s u) :
    Orderly u ∧ Same s u ∧ ∀ a, u.sizes a = s.sizes a - if a = place then 1 else 0 := by
  obtain ⟨i, e, found, sizes⟩ := h.sizes
  rw [orderly.unit found] at sizes
  exact ⟨orderly.of_sized h.sound h.kept.sized, h.kept.same, sizes⟩

theorem evict_spec (lawful : v.Lawful) {id : Nat} (positive : 1 ≤ c) (one : r.objSize = 1)
    (room : Room c id s) (full : (c : Int) < s.occupiedByte + r.objSize) :
    Ends (fun n => evict v c n s r) fun t => Room c id t ∧ roomSize t < roomSize s := by
  rw [room.orderly.occupied, one] at full
  have nonneg := room.orderly.size_nonneg
  have l1Data := nonneg .l1Data
  have l2Data := nonneg .l2Data
  have l1Ghost := nonneg .l1Ghost
  have l2Ghost := nonneg .l2Ghost
  obtain ⟨data, recent, all⟩ : Full c s := by
    rcases room.stage with stage | stage
    · exact stage
    · have some := stage.1
      push_cast at full
      omega
  have replaces : ∀ u : State M, Orderly u → Same s u → u.data = c →
      u.recent + (if s.ghosted then 0 else 1) ≤ c → u.all + 1 ≤ 2 * c →
      Ends (fun n => v.replace n u) fun t => Room c id t ∧ roomSize t < roomSize s :=
    fun u => replace_room lawful positive room data
  refine evict_ends room.orderly.sound ?_ ?_ ?_
  · intro ghosted
    rw [ghosted] at all replaces
    exact replaces s room.orderly (.refl s) data (by simpa using recent) (by simpa using all)
  · intro ghosted crowded
    rw [ghosted] at all replaces
    simp only [Bool.false_eq_true, if_false] at all replaces
    rw [one] at crowded
    constructor
    · intro u forgot
      obtain ⟨orderly, same, sizes⟩ := room.orderly.forgot forgot
      refine replaces u orderly same ?_ ?_ ?_ <;>
        simp only [State.data, State.recent, State.all, sizes] at * <;>
        simp only [reduceCtorEq, if_true, if_false] <;> omega
    · intro empty
      have crowd : s.sizes .l1Data = c ∧ s.sizes .l2Data = 0 := by
        simp only [State.data, State.recent] at data recent crowded
        omega
      refine (lawful.dropL1 room.orderly (by omega) crowd.2).mono ?_
      intro t dropped
      refine room_of_dropped room ghosted ⟨data, recent, ?_⟩ (by omega) dropped
      rw [ghosted]
      simpa using all
  · intro ghosted roomy
    rw [ghosted] at all replaces
    simp only [Bool.false_eq_true, if_false] at all replaces
    rw [one] at roomy
    push_cast at roomy
    constructor
    · intro u forgot
      obtain ⟨orderly, same, sizes⟩ := room.orderly.forgot forgot
      refine replaces u orderly same ?_ ?_ ?_ <;>
        simp only [State.data, State.recent, State.all, sizes] at * <;>
        simp only [reduceCtorEq, if_true, if_false] <;> omega
    · intro _
      refine replaces s room.orderly (.refl s) data (by omega) ?_
      simp only [State.data, State.recent, State.all] at *
      omega

/-! ## Insertion -/

theorem insert_spec (one : r.objSize = 1) (room : Room c r.objId s)
    (fits : s.occupiedByte + r.objSize ≤ c) : ∃ t, insert v s r = .ok t ∧ Valid c t := by
  rw [room.orderly.occupied, one] at fits
  push_cast at fits
  obtain ⟨data, recent, all, filled⟩ : Ready c s := by
    rcases room.stage with stage | stage
    · have full := stage.1
      omega
    · exact stage
  obtain ⟨t, run, inserted⟩ := insert_inserted (v := v) room.absent
  have bytes : (created v s r).bytes = 1 := by
    rw [created_bytes v s (by omega), one]
    rfl
  have sound := inserted.sound room.orderly.sound room.absent one.ge (by omega)
  have orderly : Orderly t := by
    refine orderly_iff.mpr ⟨sound, ?_⟩
    intro id e found
    rw [inserted.table] at found
    by_cases same : id = r.objId
    · subst same
      rw [Function.update_self] at found
      cases found
      exact bytes
    · rw [Function.update_of_ne same] at found
      exact room.orderly.unit found
  have idle : t.currObjInL1Ghost = false ∧ t.currObjInL2Ghost = false := by
    rw [inserted.inL1, inserted.inL2]
    cases ghosted : s.ghosted with
    | true => exact ⟨rfl, rfl⟩
    | false => exact room.idle ghosted
  have place : (created v s r).place = if s.ghosted then .l2Data else .l1Data := by
    rw [created]
    cases s.ghosted with
    | true => rfl
    | false => rfl
  have sizes := inserted.sizes
  rw [place, one] at sizes
  have counts : t.data = s.data + 1 ∧ t.recent = s.recent + (if s.ghosted then 0 else 1) ∧
      t.all = s.all + 1 ∧ t.sizes .l1Ghost = s.sizes .l1Ghost ∧ t.sizes .l2Ghost = s.sizes .l2Ghost := by
    cases ghosted : s.ghosted <;> rw [ghosted] at sizes <;>
      simp [State.data, State.recent, State.all, sizes] <;> omega
  obtain ⟨data', recent', all', l1Ghost, l2Ghost⟩ := counts
  refine ⟨t, run, orderly, by omega, by omega, by omega, by omega, ?_, ?_, idle.1, idle.2⟩
  · rw [inserted.p]
    exact room.p_nonneg
  · rw [inserted.p]
    exact room.p_le

/-! ## Requests -/

theorem serve_ends (lawful : v.Lawful) (positive : 1 ≤ c) (valid : Valid c s) (one : r.objSize = 1) :
    Ends (fun n => cacheGetBase (policy v c) n s r) fun a => Valid c a.2 := by
  refine cacheGetBase_ends (p := policy v c) (Q := fun _ t => Valid c t) (Room c r.objId)
    (Room c r.objId) roomSize (find_spec lawful valid.tick r) ?_ ?_ ?_
  · intro t room
    refine Ends.const ?_
    have admitted : decide (r.objSize ≤ c) = true := by
      rw [one]
      exact decide_eq_true positive
    simp only [admitted, if_true]
    exact room
  · intro u room full
    exact evict_spec lawful positive one room full
  · intro u room fits
    exact insert_spec one room fits

theorem valid_init (c : Nat) : Valid c (State.init : State M) where
  orderly := orderly_iff.mpr ⟨.init, fun _ _ found => by cases found⟩
  data := Int.natCast_nonneg c
  recent := Int.natCast_nonneg c
  all := by
    show (0 : Int) ≤ 2 * c
    omega
  filled := .inl ⟨rfl, rfl⟩
  p_nonneg := le_rfl
  p_le := double_nonneg (Nat.cast_nonneg c)
  inL1 := rfl
  inL2 := rfl

abbrev Requests (v : Variant M) (c : Nat) : State M → State M → Prop :=
  Requested (policy v c) fun r => r.objSize = 1

theorem requests_valid (lawful : v.Lawful) (positive : 1 ≤ c)
    (history : Reachable (Requests v c) State.init s) : Valid c s := by
  refine history.invariant (Valid c) (valid_init c) ?_
  rintro s t valid ⟨r, one, served⟩
  exact (serve_ends lawful positive valid one).result served

/-- What the two policies promise after each request, with objects of one byte. -/
structure Bounded (c : Nat) (s : State M) : Prop where
  data : (s.lists .l1Data).length + (s.lists .l2Data).length ≤ c
  recent : (s.lists .l1Data).length + (s.lists .l1Ghost).length ≤ c
  all : (s.lists .l1Data).length + (s.lists .l2Data).length + (s.lists .l1Ghost).length +
    (s.lists .l2Ghost).length ≤ 2 * c
  p_nonneg : 0 ≤ s.p
  /-- As C compares `p` with the cache size: the integer is converted. -/
  p_le : s.p ≤ double c
  p_le_exact : c ≤ 2 ^ 53 → s.p ≤ c
  sizes : ∀ place, s.sizes place = (s.lists place).length
  listed : ∀ id e, s.table id = some e → ∀ place,
    (s.lists place).count id = if place = e.place then 1 else 0
  stored : ∀ place, ∀ id ∈ s.lists place, ∃ e, s.table id = some e ∧ e.place = place

theorem Valid.bounded (valid : Valid c s) : Bounded c s := by
  have size := valid.orderly.filed.size
  have data := valid.data
  have recent := valid.recent
  have all := valid.all
  simp only [State.data, State.recent, State.all, size] at data recent all
  refine ⟨by omega, by omega, by omega, valid.p_nonneg, valid.p_le, ?_, size, ?_, ?_⟩
  · intro small
    rw [← double_of_representable (representable_natCast small)]
    exact valid.p_le
  · intro id e found place
    rw [valid.orderly.filed.listed, found]
    simp only [Option.map_some, Option.some.injEq]
    exact if_congr eq_comm rfl rfl
  · intro place id member
    exact valid.orderly.sound.weighed.listed.mem_iff.mp member

end AdaptiveLists
