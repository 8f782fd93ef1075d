import CacheEviction.LirsLookups

/-!
# What LIRS holds

With objects of one byte LIRS keeps its capacity as long as no request displaces its
own object. A request that does leaves a stack entry which says that the data are
cached when they are not: later lookups hit on it, and no counter has it.
-/
namespace Lirs

open FuelLoops FifoCache CacheGet WeightedLists StepTraces

variable {x : Nat} {s t : State} {b : Params}

/-! ## Misses -/

section Misses

variable {b : Params} {s : State} {r : Request}

/-- What `LIRS_can_insert` leaves. For an object with an entry in the stack, that entry
has already gone from `LRU_nh`. -/
inductive Room (b : Params) (x : Nat) : State → Prop where
  | fresh {s : State} (valid : Valid b s) (stack : s.lruS.find x = none) (queue : s.lruQ.find x = none)
      (space : s.lirsCount < b.lirsLimit ∨ s.hirsCount < b.hirsLimit) : Room b x s
  | returning {s : State} (core : Settled s) (shape : Based s ∨ s.kinds.length ≤ 1)
      (absent : s.absent x = 1) (away : s.lruQ.held x = 0) (lirs : s.lirsCount + 1 ≤ b.lirsLimit)
      (hirs : s.hirsCount ≤ b.hirsLimit)
      (filled : 0 < s.hirsCount → (b.lirsLimit : Int) ≤ s.lirsCount + 1 + if b.hirsLimit = 1 then 0 else 1) :
      Room b x { s with lruNh := s.lruNh.remove x }

theorem Room.fits (room : Room b x s) : s.occupiedByte + 1 ≤ b.cacheSize := by
  have sum := limits b
  cases room with
  | fresh valid _ _ space =>
    have lirs := valid.lirs
    have hirs := valid.hirs
    rw [valid.core.occupied]
    omega
  | returning core _ _ _ lirs hirs _ =>
    show _ + 1 ≤ _
    rw [core.occupied]
    omega

theorem find_absent {owed : Nat → Int} (core : Core owed s) (absent : 1 ≤ s.absent x) :
    ∃ o, s.lruS.find x = some o ∧ o.objId = x ∧ o.tag.isLIR = false ∧ o.tag.inCache = false ∧
      o.bytes = 1 := by
  have facts := find_of_roles (x := x) core
  cases found : s.lruS.find x with
  | none =>
    rw [found] at facts
    omega
  | some o =>
    rw [found] at facts
    obtain ⟨key, _, _, mark⟩ := facts
    by_cases flags : o.tag.isLIR = false ∧ o.tag.inCache = false
    · exact ⟨o, rfl, key, flags.1, flags.2, bytes_of_odd (core.unitS (Fifo.find_mem found))⟩
    · rw [if_neg flags] at mark
      omega

theorem room_of_outed {y : Nat} (valid : Valid b s) (away : s.lruQ.held x = 0)
    (gone : s.lruS.held x = 0) (lirs : s.lirsCount = b.lirsLimit) (hirs : s.hirsCount = b.hirsLimit)
    (outed : Outed (fun _ => 0) s y t) : Room b x t := by
  have limit := hirsLimit_pos b
  have fewer := outed.hirs
  have kept := outed.lirs
  have other : y ≠ x := by
    intro same
    have left := outed.held x
    have positive := t.lruQ.held_nonneg x
    rw [if_pos same, away] at left
    omega
  have away' : t.lruQ.held x = 0 := by
    rw [outed.held, if_neg other, away]
    rfl
  have gone' : t.lruS.held x = 0 := by
    have roles := outed.others x other
    rw [held_eq, outed.lir, roles.1, roles.2, ← held_eq]
    exact gone
  refine .fresh ?_ ((t.lruS.find_none_iff_held _).mpr gone') ((t.lruQ.find_none_iff_held _).mpr away')
    (.inr (by omega))
  refine ⟨outed.core, ?_, by omega, by omega, fun _ => ?_⟩
  · unfold Based
    rw [outed.kinds]
    exact valid.based
  · split <;> omega

theorem lirsCanInsert_spec (missed : Missed b r.objId s) (one : r.objSize = 1) :
    ∃ t, lirsCanInsert b s r = .ok (true, t) ∧ Room b r.objId t := by
  have valid := missed.valid
  have core := valid.core
  have sum := limits b
  have limit := hirsLimit_pos b
  have queue : s.lruQ.find r.objId = none := (s.lruQ.find_none_iff_held _).mpr missed.away
  have small : ¬ b.cacheSize < r.objSize := by omega
  rw [lirsCanInsert, if_neg small, queue]
  cases found : s.lruS.find r.objId with
  | some o =>
    -- the object comes back: the stack gives up a block for it
    have some : 1 ≤ s.absent r.objId := by
      have count := (s.lruS.find_isSome_iff r.objId).mp (by rw [found]; rfl)
      rw [held_eq, missed.lir, missed.hir] at count
      omega
    obtain ⟨o', entry, key, high, data, bytes⟩ := find_absent core some
    obtain rfl : o = o' := Option.some.inj (found.symm.trans entry)
    obtain ⟨init, top⟩ := missed.top some
    obtain ⟨t, run, topped⟩ := makeRoomS_top core (fun _ => le_rfl) valid.based valid.lirs valid.hirs top
      missed.lir missed.away
    refine ⟨{ t with lruNh := t.lruNh.remove r.objId }, ?_, ?_⟩
    · simp only [Flags.absent, high, data, bytes, run, key]
      rfl
    · have single := core.single r.objId
      have positive := roles_nonneg s r.objId
      refine .returning topped.core topped.shape (by rw [topped.absent]; omega) topped.away topped.lirs
        topped.hirs ?_
      intro used
      have before := valid.filled
      rcases topped.filled with ⟨sameL, sameH⟩ | full
      · rw [sameH] at used
        have enough := before used
        rw [sameL]
        omega
      · split <;> omega
  | none =>
    simp only [one, Nat.cast_one]
    rw [if_neg (by omega)]
    by_cases both : (b.lirsLimit : Int) < s.lirsCount + 1 ∧ (b.hirsLimit : Int) < s.hirsCount + 1
    · have full : s.lirsCount = b.lirsLimit ∧ s.hirsCount = b.hirsLimit := by
        have lirs := valid.lirs
        have hirs := valid.hirs
        omega
      obtain ⟨y, ys, t, list, run, outed⟩ := (makeRoomQ_spec (b := b) core fun _ => le_rfl).2 full.2
      have gone := (s.lruS.find_none_iff_held _).mp found
      exact ⟨t, by rw [if_pos both, run]; rfl,
        room_of_outed valid missed.away gone full.1 full.2 outed⟩
    · refine ⟨s, by rw [if_neg both], .fresh valid found queue ?_⟩
      omega

theorem enterLIR_spec (valid : Valid b s) (one : r.objSize = 1) (stack : s.lruS.find r.objId = none)
    (queue : s.lruQ.find r.objId = none) (space : s.lirsCount < b.lirsLimit) : Valid b (enterLIR s r) := by
  have bytes : (createCacheObj r ({} : Flags)).bytes = 1 := by
    rw [CacheObj.bytes, createCacheObj, one]
    rfl
  have unit : odd (createCacheObj r { isLIR := true, inCache := true }) = 0 := by
    rw [odd, createCacheObj, one]
    rfl
  have away := (s.lruQ.find_none_iff_held _).mp queue
  rw [enterLIR, bytes]
  refine ⟨core_pushLIR valid.core unit stack away,
    based_push valid.based (.inr rfl), ?_, valid.hirs, ?_⟩
  · show s.lirsCount + 1 ≤ _
    omega
  · intro used
    have before := valid.filled used
    show _ ≤ s.lirsCount + 1 + _
    omega

theorem enterHIR_spec (valid : Valid b s) (one : r.objSize = 1) (stack : s.lruS.find r.objId = none)
    (queue : s.lruQ.find r.objId = none) (full : s.lirsCount = b.lirsLimit)
    (space : s.hirsCount < b.hirsLimit) : Valid b (enterHIR s r) := by
  have bytes : (createCacheObj r ({} : Flags)).bytes = 1 := by
    rw [CacheObj.bytes, createCacheObj, one]
    rfl
  have unit : odd (createCacheObj r { isLIR := false, inCache := true }) = 0 := by
    rw [odd, createCacheObj, one]
    rfl
  have away := (s.lruQ.find_none_iff_held _).mp queue
  have roles := Core.not_found stack
  have limit := (limits b).2.1
  obtain ⟨nonempty, _⟩ := based_of_low valid.core (by omega) (.inl valid.based)
  have queued := core_enterQ valid.core unit rfl ⟨roles.1, roles.2.2⟩ away
  have both := core_pushHIR queued unit stack (fun _ => le_rfl) (by
    show 1 ≤ (s.lruQ.insert r { isLIR := false, inCache := true }).held r.objId + 0
    rw [Fifo.held_insert, if_pos rfl, away]
    rfl)
  rw [enterHIR, bytes]
  refine ⟨both, based_push valid.based (.inl nonempty), valid.lirs, ?_, fun _ => ?_⟩
  · show s.hirsCount + 1 ≤ _
    omega
  · show _ ≤ s.lirsCount + _
    split <;> omega

theorem lirsInsert_spec (room : Room b r.objId s) (one : r.objSize = 1) : Valid b (lirsInsert b s r) := by
  cases room with
  | fresh valid stack queue space =>
    rw [lirsInsert, stack, queue]
    simp only [one, Nat.cast_one]
    have lirs := valid.lirs
    split
    · exact enterLIR_spec valid one stack queue (by omega)
    · exact enterHIR_spec valid one stack queue (by omega) (by omega)
  | @returning s core shape absent away lirs hirs filled =>
    obtain ⟨o, found, key, high, data, bytes⟩ := find_absent core absent.ge
    have ghosts : ∀ id, (s.lruNh.remove r.objId).held id =
        s.lruNh.held id - if r.objId = id then s.absent r.objId else 0 := by
      intro id
      have listed := core.ghosts r.objId
      rw [Fifo.held_remove, absent]
      exact congrArg _ (if_congr (by omega) rfl rfl)
    have raised := core_raise (s.lruNh.remove r.objId) (fun _ => { isLIR := true, inCache := true }) core found
      high away (fun _ _ => rfl) ghosts fun _ => rfl
    rw [bytes] at raised
    have shape' : lirsInsert b { s with lruNh := s.lruNh.remove r.objId } r = { s with
        lruS := s.lruS.retag r.objId fun _ => { isLIR := true, inCache := true }
        lruNh := s.lruNh.remove r.objId
        lirsCount := s.lirsCount + 1
        occupiedByte := s.occupiedByte + 1 } := by
      simp only [lirsInsert, found, Flags.absent, high, data, bytes, key]
      rfl
    rw [shape']
    exact ⟨raised, based_raise found shape fun _ => rfl, lirs, hirs, filled⟩

end Misses

/-! ## Requests -/

theorem Valid.limited (valid : Valid b s) (limited : Limited (fun _ => 0) s t) : Valid b t := by
  refine ⟨limited.core, limited.based valid.based, ?_, ?_, ?_⟩
  · rw [limited.lirs]
    exact valid.lirs
  · rw [limited.hirs]
    exact valid.hirs
  · rw [limited.lirs, limited.hirs]
    exact valid.filled

theorem Displaced.limited (displaced : Displaced x s) (limited : Limited (owedTo x) s t) :
    Displaced x t := by
  refine ⟨limited.core, ?_, ?_⟩
  · rw [limited.hir]
    exact displaced.marked
  · rw [limited.lruQ]
    exact displaced.away

/-- A request for an object of one byte is served. `LIRS_evict` is never called: what
has to be evicted has been evicted when the eviction loop of the request starts. -/
theorem lirsGet_ends (valid : Valid b s) {r : Request} (one : r.objSize = 1) :
    Ends (fun n => lirsGet b n s r) fun a =>
      (¬ Displaces b s r → Valid b a.2) ∧ (Displaces b s r → Displaced r.objId a.2) := by
  have served : Ends (fun n => cacheGetBase (lirs b) n s r) fun a =>
      (¬ Displaces b s r → Valid b a.2) ∧ (Displaces b s r → Displaced r.objId a.2) := by
    refine cacheGetBase_ends (p := lirs b)
      (Q := fun _ t => (¬ Displaces b s r → Valid b t) ∧ (Displaces b s r → Displaced r.objId t))
      (fun t => ¬ Displaces b s r ∧ Missed b r.objId t) (fun t => ¬ Displaces b s r ∧ Room b r.objId t)
      (fun _ => 0) ?_ ?_ ?_ ?_
    · obtain ⟨hit, t, run, _, after⟩ := lirsFind_spec valid r
      exact ⟨hit, t, run, after⟩
    · rintro t ⟨fair, missed⟩
      obtain ⟨u, run, room⟩ := lirsCanInsert_spec missed one
      exact ⟨(true, u), .of_eq fun _ => run, fair, room⟩
    · rintro u ⟨_, room⟩ full
      have fits := room.fits
      rw [one] at full
      exact absurd full (not_lt.mpr fits)
    · rintro u ⟨fair, room⟩ _
      exact ⟨_, rfl, fun _ => lirsInsert_spec room one, fun bad => absurd bad fair⟩
  refine served.bind (g := fun _ a => do
    let t ← limitStack b a.2
    return (a.1, t)) ?_
  rintro ⟨hit, t⟩ ⟨good, bad⟩
  by_cases displaces : Displaces b s r
  · obtain ⟨u, run, limited⟩ := limitStack_spec b (bad displaces).core
    simp only [run]
    exact Ends.const ⟨fun fair => absurd displaces fair, fun _ => (bad displaces).limited limited⟩
  · obtain ⟨u, run, limited⟩ := limitStack_spec b (good displaces).core
    simp only [run]
    exact Ends.const ⟨fun _ => (good displaces).limited limited, fun bad => absurd bad displaces⟩

/-! ## Capacity -/

/-- The next `LIRS_find` of the id would be a hit. -/
def Hits (b : Params) (s : State) (id : Nat) : Prop := ∃ t, lirsFind b s ⟨id, 1⟩ = .ok (true, t)

/-- LIRS does not hold more than its capacity, and its counters and lists agree. -/
structure Capacity (b : Params) (s : State) : Prop where
  hits : ∃ ids : Finset Nat, (∀ id, id ∈ ids ↔ Hits b s id) ∧ (ids.card : Int) = s.occupiedByte ∧
    ids.card ≤ b.cacheSize
  occupied : s.occupiedByte = s.lirsCount + s.hirsCount
  lirs : s.lirsCount ≤ b.lirsLimit
  hirs : s.hirsCount ≤ b.hirsLimit
  queued : ∀ o ∈ s.lruS.objs, o.tag.inCache = true → o.tag.isLIR = false →
    (s.lruQ.find o.objId).isSome = true

def State.residents (s : State) : List (CacheObj Flags) :=
  s.lruS.objs.filter (fun o => o.tag.isLIR) ++ s.lruQ.objs

theorem total_residents (s : State) (id : Nat) :
    total (copies CacheObj.objId id) s.residents = s.resident id := by
  have low : total (copies CacheObj.objId id) (s.lruS.objs.filter fun o => o.tag.isLIR) = s.lir id := by
    unfold State.lir
    induction s.lruS.objs with
    | nil => rfl
    | cons o rest ih =>
      cases flag : o.tag.isLIR with
      | true =>
        rw [List.filter_cons, if_pos flag, total_cons, total_cons, ih, (roles_of_low flag id).1]
        rfl
      | false =>
        have none : lirAt id o = 0 := by simp [lirAt, flag]
        rw [List.filter_cons, if_neg (by simp [flag]), total_cons, ih, none, zero_add]
  rw [State.residents, total_append, low]
  rfl

theorem length_residents {owed : Nat → Int} (core : Core owed s) :
    (s.residents.length : Int) = s.occupiedByte := by
  have low : total isLow s.lruS.objs = (s.lruS.objs.filter fun o => o.tag.isLIR).length := by
    rw [← List.countP_eq_length_filter]
    exact total_eq_countP _ _
  rw [core.occupied, core.lirs, core.hirs, low, total_one, State.residents, List.length_append, Nat.cast_add]

theorem Valid.capacity (valid : Valid b s) : Capacity b s := by
  have core := valid.core
  have distinct : (s.residents.map CacheObj.objId).Nodup := by
    rw [nodup_iff_copies]
    intro id
    have apart := core.apart id
    have positive := roles_nonneg s id
    rw [total_residents, State.resident]
    omega
  have length : ((s.residents.map CacheObj.objId).length : Int) = s.occupiedByte := by
    rw [List.length_map]
    exact length_residents core
  constructor
  · refine ⟨⟨s.residents.map CacheObj.objId, distinct⟩, ?_, length, ?_⟩
    · intro id
      obtain ⟨hit, t, run, cached, _⟩ := lirsFind_spec valid ⟨id, 1⟩
      have member : id ∈ s.residents.map CacheObj.objId ↔ 0 < s.resident id := by
        rw [← total_residents, copies_pos_iff]
      show id ∈ s.residents.map CacheObj.objId ↔ Hits b s id
      rw [member, ← cached]
      constructor
      · rintro rfl
        exact ⟨t, run⟩
      · rintro ⟨u, hits⟩
        rw [run] at hits
        cases hits
        rfl
    · have lirs := valid.lirs
      have hirs := valid.hirs
      have sum := limits b
      rw [core.occupied] at length
      show (s.residents.map CacheObj.objId).length ≤ b.cacheSize
      omega
  · exact core.occupied
  · exact valid.lirs
  · exact valid.hirs
  · intro o member data high
    rw [Fifo.find_isSome_iff]
    have queued := core.queued o.objId
    have own : 1 ≤ s.hir o.objId := by
      have mark := (roles_of_high high data o.objId).2.1
      rw [if_pos rfl] at mark
      rw [State.hir, ← mark]
      exact le_total_of_mem (hirAt_nonneg o.objId) member
    omega

theorem Displaced.not_capacity (displaced : Displaced x t) : ¬ Capacity b t := by
  intro capacity
  have facts := find_of_roles (x := x) displaced.core
  have marked := displaced.marked
  cases found : t.lruS.find x with
  | none =>
    rw [found] at facts
    omega
  | some o =>
    rw [found] at facts
    obtain ⟨key, _, mark, _⟩ := facts
    by_cases flags : o.tag.isLIR = false ∧ o.tag.inCache = true
    · have queued := capacity.queued o (Fifo.find_mem found) flags.2 flags.1
      rw [key, Fifo.find_isSome_iff, displaced.away] at queued
      exact absurd queued (by decide)
    · rw [if_neg flags] at mark
      omega

/-! ## Runs -/

/-- `LIRS_get` requests for objects of one byte that do not displace their object. -/
inductive Gets (b : Params) : State → State → Prop where
  | get {s t : State} {hit : Bool} (r : Request) (one : r.objSize = 1) (fair : ¬ Displaces b s r)
      (served : Yields (fun n => lirsGet b n s r) (.ok (hit, t))) : Gets b s t

theorem lirsInit_valid (b : Params) : Valid b lirsInit := by
  refine ⟨?_, ?_, ?_, ?_, ?_⟩
  · exact ⟨fun _ => zero_le_one, fun _ => zero_le_one, fun _ => le_rfl, fun _ => rfl, rfl, rfl, rfl, rfl, rfl, rfl⟩
  · intro k rest shape
    cases shape
  · exact Int.natCast_nonneg _
  · exact Int.natCast_nonneg _
  · intro used
    exact absurd used (by decide)

theorem gets_valid (history : Reachable (Gets b) lirsInit s) : Valid b s := by
  refine history.invariant (Valid b) (lirsInit_valid b) ?_
  rintro s t valid ⟨r, one, fair, served⟩
  exact ((lirsGet_ends valid one).result served).1 fair

instance (b : Params) (s : State) (r : Request) : Decidable (Displaces b s r) :=
  inferInstanceAs (Decidable (_ ∧ _ ∧ _ ∧ _))

theorem lirsGet_mono (b : Params) (s : State) (r : Request) : FuelMono fun n => lirsGet b n s r :=
  (cacheGetBase_mono (p := lirs b) (fun _ => .const _) (fun _ => .const _) s).bind fun _ => .const _

theorem gets_next {fuel : Nat} {r : Request} {Q : Bool × State → Bool}
    (history : Reachable (Gets b) lirsInit s) (one : r.objSize = 1) (fair : ¬ Displaces b s r)
    (returns : Returns (lirsGet b fuel s r) Q = true) :
    ∃ t, Reachable (Gets b) lirsInit t ∧ ∃ hit, Q (hit, t) = true := by
  obtain ⟨⟨hit, t⟩, run, holds⟩ := exists_of_returns returns
  exact ⟨t, history.next (.get r one fair ((lirsGet_mono b s r).yields run)), hit, holds⟩

/-- A cache of two bytes: the stack and `LRU_q` have room for one object each. -/
def twoBytes : Params := ⟨2, le_rfl⟩

def lirsGets (b : Params) (fuel : Nat) : State → List Request → Except (Stop Fault) State
  | s, [] => .ok s
  | s, r :: rs => do
    let a ← lirsGet b fuel s r
    lirsGets b fuel a.2 rs

/-- In every run of requests for objects of one byte that never displace their object,
LIRS holds what its capacity allows, and every next request is served. It keeps the
capacity exactly if that request does not displace its object. -/
theorem capacity_iff_not_displaces {b : Params} {s : State} (history : Reachable (Gets b) lirsInit s)
    (r : Request) (one : r.objSize = 1) :
    Capacity b s ∧ ∃ hit t, Yields (fun n => lirsGet b n s r) (.ok (hit, t)) ∧
      (Capacity b t ↔ ¬ Displaces b s r) := by
  have valid := gets_valid history
  obtain ⟨⟨hit, t⟩, served, good, bad⟩ := lirsGet_ends valid one
  refine ⟨valid.capacity, hit, t, served, ?_, ?_⟩
  · intro capacity displaces
    exact (bad displaces).not_capacity capacity
  · intro fair
    exact (good fair).capacity

/-- After requests for the objects 1, 2 and 1 the next request breaks the capacity if it is
for object 2, and keeps it if it is for object 3. -/
theorem capacity_iff_not_displaces_two_bytes : ∃ s, Reachable (Gets twoBytes) lirsInit s ∧
    (∃ hit t, Yields (fun n => lirsGet twoBytes n s ⟨2, 1⟩) (.ok (hit, t)) ∧ ¬ Capacity twoBytes t) ∧
    ∃ hit t, Yields (fun n => lirsGet twoBytes n s ⟨3, 1⟩) (.ok (hit, t)) ∧ Capacity twoBytes t := by
  have returns : Returns (lirsGet twoBytes 5 lirsInit ⟨1, 1⟩) (fun a =>
      !decide (Displaces twoBytes a.2 ⟨2, 1⟩) && Returns (lirsGet twoBytes 5 a.2 ⟨2, 1⟩) fun a =>
      !decide (Displaces twoBytes a.2 ⟨1, 1⟩) && Returns (lirsGet twoBytes 5 a.2 ⟨1, 1⟩) fun a =>
      decide (Displaces twoBytes a.2 ⟨2, 1⟩) && !decide (Displaces twoBytes a.2 ⟨3, 1⟩)) = true := by
    decide +kernel
  obtain ⟨s₁, history, _, holds⟩ := gets_next .refl rfl (by decide +kernel) returns
  simp only [Bool.and_eq_true, Bool.not_eq_true', decide_eq_false_iff_not] at holds
  obtain ⟨s₂, history, _, holds⟩ := gets_next history rfl holds.1 holds.2
  simp only [Bool.and_eq_true, Bool.not_eq_true', decide_eq_false_iff_not] at holds
  obtain ⟨s, history, _, holds⟩ := gets_next history rfl holds.1 holds.2
  simp only [Bool.and_eq_true, Bool.not_eq_true', decide_eq_false_iff_not, decide_eq_true_eq] at holds
  obtain ⟨_, hit, t, served, breaks⟩ := capacity_iff_not_displaces history ⟨2, 1⟩ rfl
  obtain ⟨_, hit', t', served', keeps⟩ := capacity_iff_not_displaces history ⟨3, 1⟩ rfl
  exact ⟨s, history, ⟨hit, t, served, fun capacity => breaks.mp capacity holds.1⟩, hit', t', served',
    keeps.mpr holds.2⟩

/-- Object 2 is only in `LRU_q` when it is requested again, and that hit evicts it. Its
stack entry says that it is cached, so both objects would be hit and the cache counts
one. -/
theorem hit_evicts_its_object : ∃ s t, lirsGets twoBytes 5 lirsInit [⟨1, 1⟩, ⟨2, 1⟩, ⟨1, 1⟩] = .ok s ∧
    lirsGet twoBytes 5 s ⟨2, 1⟩ = .ok (true, t) ∧ t.occupiedByte = 1 ∧ Hits twoBytes t 1 ∧
    Hits twoBytes t 2 ∧ (t.lruQ.find 2).isSome = false ∧ ¬ Capacity twoBytes t := by
  have returns : Returns (lirsGets twoBytes 5 lirsInit [⟨1, 1⟩, ⟨2, 1⟩, ⟨1, 1⟩]) (fun s =>
      Returns (lirsGet twoBytes 5 s ⟨2, 1⟩) fun a => a.1 && decide (a.2.occupiedByte = 1) &&
        Returns (lirsFind twoBytes a.2 ⟨1, 1⟩) Prod.fst && Returns (lirsFind twoBytes a.2 ⟨2, 1⟩) Prod.fst &&
        !(a.2.lruQ.find 2).isSome) = true := by
    decide +kernel
  obtain ⟨s, run, next⟩ := exists_of_returns returns
  obtain ⟨⟨hit, t⟩, get, holds⟩ := exists_of_returns next
  simp only [Bool.and_eq_true, Bool.not_eq_true', decide_eq_true_eq] at holds
  obtain ⟨⟨⟨⟨rfl, counted⟩, first⟩, second⟩, gone⟩ := holds
  obtain ⟨⟨_, u⟩, find, rfl⟩ := exists_of_returns first
  obtain ⟨⟨_, v⟩, find', rfl⟩ := exists_of_returns second
  refine ⟨s, t, run, get, counted, ⟨u, find⟩, ⟨v, find'⟩, gone, ?_⟩
  intro capacity
  obtain ⟨ids, hits, card, _⟩ := capacity.hits
  have several : 1 < ids.card :=
    Finset.one_lt_card.mpr ⟨1, (hits 1).mpr ⟨u, find⟩, 2, (hits 2).mpr ⟨v, find'⟩, by decide⟩
  omega

end Lirs
