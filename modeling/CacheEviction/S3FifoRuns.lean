import CacheEviction.S3Fifo

/-!
# Requests to S3-FIFO

Every request is served, after it every id stands at most once in the three queues
together, and the two queues with data fit the cache. Along the way the byte counters
follow the objects that enter `main_cache`.

An eviction round takes an object from `fifo`, rotates `main_cache` with a lower
frequency, or takes an object from it. Counting objects of `fifo` twice, every call of
`S3FIFO_evict` on a full cache makes the cache smaller.
-/
namespace S3Fifo

open FuelLoops FifoCache CacheGet WeightedLists StepTraces

variable {b : Params} {s t : State} {r : Request}

def ghostHeld (ghost : Option (Fifo Unit)) (id : Nat) : Int :=
  match ghost with
  | none => 0
  | some g => g.held id

def State.held (s : State) (id : Nat) : Int :=
  s.fifo.held id + s.mainCache.held id + ghostHeld s.fifoGhost id

theorem ghostHeld_nonneg (ghost : Option (Fifo Unit)) (id : Nat) : 0 ≤ ghostHeld ghost id := by
  cases ghost with
  | none => exact le_refl 0
  | some g => exact g.held_nonneg id

def Entry.admittedBytes : Entry → Int
  | .admitted r => r.objSize
  | .moved _ => 0

def Entry.movedBytes : Entry → Int
  | .admitted _ => 0
  | .moved obj => obj.bytes

/-- The byte counters add up the entries. -/
structure Ledger (s : State) : Prop where
  admitted : s.nByteAdmitToMain = total Entry.admittedBytes s.entries
  moved : s.nByteMoveToMain = total Entry.movedBytes s.entries

/-! ## The ghost -/

theorem fifoEvict_ok {M : Type} {q : Fifo M} (occupied : 0 < q.occupiedByte) :
    ∃ o, q.toEvict = some o ∧ fifoEvict q = .ok (q.remove o.objId) := by
  obtain ⟨o, tail⟩ := Fifo.toEvict_of_occupied occupied
  exact ⟨o, tail, by rw [fifoEvict, tail]⟩

theorem length_remove_oldest {M : Type} {q : Fifo M} {o : CacheObj M} (tail : q.toEvict = some o) :
    (q.remove o.objId).objs.length + 1 = q.objs.length := by
  obtain ⟨rest, shape⟩ := Fifo.toEvict_eq_some tail
  rw [Fifo.objs_remove_oldest shape, shape, List.length_cons]

theorem fifoGet_ends (cacheSize : Nat) (q : Fifo Unit) (r : Request) :
    Ends (fun n => fifoGet cacheSize n q r)
      fun q' => ∀ id, q'.held id ≤ q.held id + if r.objId = id then 1 else 0 := by
  have served : Ends (fun n => cacheGetBase (fifoPolicy cacheSize) n q r)
      fun a => ∀ id, a.2.held id ≤ q.held id + if r.objId = id then 1 else 0 := by
    refine cacheGetBase_ends (Q := fun _ q' => ∀ id, q'.held id ≤
      q.held id + if r.objId = id then 1 else 0) (· = q)
      (fun u => r.objSize ≤ cacheSize ∧ ∀ id, u.held id ≤ q.held id) (fun u => u.objs.length)
      ?_ ?_ ?_ ?_
    · refine ⟨_, q, rfl, ?_⟩
      split
      · intro id
        split <;> omega
      · rfl
    · rintro u rfl
      refine Ends.const ?_
      by_cases small : r.objSize ≤ cacheSize
      · simp [small]
      · simp only [small, decide_false, Bool.false_eq_true, if_false]
        intro id
        split <;> omega
    · rintro u ⟨small, fewer⟩ full
      have occupied : 0 < u.occupiedByte := by
        simp only [fifoPolicy] at full
        omega
      obtain ⟨o, tail, evicted⟩ := fifoEvict_ok occupied
      refine ⟨u.remove o.objId, .of_eq fun _ => evicted, ⟨small, ?_⟩, ?_⟩
      · intro id
        have before := fewer id
        rw [Fifo.held_remove_oldest tail]
        split <;> omega
      · have shorter := length_remove_oldest tail
        omega
    · rintro u ⟨_, fewer⟩ _
      refine ⟨_, rfl, ?_⟩
      intro id
      have before := fewer id
      rw [Fifo.held_insert]
      omega
  obtain ⟨a, ⟨N, hN⟩, after⟩ := served
  refine ⟨a.2, ⟨N, fun n hn => ?_⟩, after⟩
  simp only [fifoGet, hN n hn]
  rfl

theorem ghostGet_ends (b : Params) (ghost : Option (Fifo Unit)) (r : Request) :
    Ends (fun n => ghostGet b n ghost r)
      fun ghost' => ∀ id, ghostHeld ghost' id ≤ ghostHeld ghost id + if r.objId = id then 1 else 0 := by
  cases ghost with
  | none =>
    refine Ends.const ?_
    intro id
    simp only [ghostHeld]
    split <;> omega
  | some g =>
    obtain ⟨q, ⟨N, hN⟩, after⟩ := fifoGet_ends b.ghostSize g r
    refine ⟨some q, ⟨N, fun n hn => ?_⟩, after⟩
    simp only [ghostGet, hN n hn]
    rfl

/-! ## Eviction -/

structure Evicted (s t : State) : Prop where
  held : ∀ id, t.held id ≤ s.held id
  flag : t.hitOnGhost = s.hitOnGhost
  ledger : Ledger s → Ledger t

theorem Evicted.refl (s : State) : Evicted s s := ⟨fun _ => le_refl _, rfl, id⟩

theorem Evicted.trans {u : State} (first : Evicted s t) (second : Evicted t u) : Evicted s u :=
  ⟨fun id => le_trans (second.held id) (first.held id), second.flag.trans first.flag,
    second.ledger ∘ first.ledger⟩

/-- Objects of `fifo` count twice: they may move to `main_cache` first. -/
def State.size (s : State) : Nat := 2 * s.fifo.objs.length + s.mainCache.objs.length

/-- The turns that an object of `main_cache` has left. -/
def heat (o : CacheObj Int) : Int := max 0 (min (intFreq o.tag) 3)

theorem heat_rotated {o : CacheObj Int} (hot : 1 ≤ intFreq o.tag) :
    heat { o with tag := min (intFreq o.tag) 3 - 1 } = heat o - 1 := by
  have small : intFreq (min (intFreq o.tag) 3 - 1) = min (intFreq o.tag) 3 - 1 := by
    have low : 0 ≤ min (intFreq o.tag) 3 - 1 := by omega
    have high : min (intFreq o.tag) 3 - 1 ≤ 2 := by omega
    generalize min (intFreq o.tag) 3 - 1 = f at low high
    rw [intFreq, Int.bmod_eq_of_le] <;> omega
  simp only [heat, small]
  omega

theorem evictMain_ends (occupied : 0 < s.mainCache.occupiedByte) :
    Ends (fun n => loop evictMainRound n s) fun t => Evicted s t ∧ t.size < s.size := by
  refine Ends.loop
    (fun u => Evicted s u ∧ u.size = s.size ∧ 0 < u.mainCache.occupiedByte)
    (fun u => (total heat u.mainCache.objs).toNat) ?_ ⟨.refl s, rfl, occupied⟩
  rintro u ⟨evicted, size, positive⟩
  obtain ⟨o, tail⟩ := Fifo.toEvict_of_occupied positive
  have shorter := length_remove_oldest tail
  by_cases hot : 1 ≤ intFreq o.tag
  · -- the object goes round with one turn less
    set main := (u.mainCache.remove o.objId).insert o.toRequest (min (intFreq o.tag) 3 - 1) with hm
    refine ⟨.again { u with mainCache := main }, .of_eq fun _ => ?_, ⟨?_, ?_, ?_⟩, ?_⟩
    · simp only [evictMainRound, if_pos positive, tail, if_pos hot, hm]
    · refine evicted.trans ⟨?_, rfl, fun ledger => ⟨ledger.admitted, ledger.moved⟩⟩
      intro id
      simp only [State.held, hm, Fifo.held_insert, Fifo.held_remove_oldest tail, CacheObj.toRequest]
      omega
    · rw [← size]
      simp only [State.size, hm, Fifo.objs_insert, List.length_append, List.length_singleton]
      omega
    · have bytes : main.occupiedByte = u.mainCache.occupiedByte := by
        rw [main.occupied_eq, hm, Fifo.objs_insert, total_append,
          Fifo.total_remove_oldest _ tail, u.mainCache.occupied_eq]
        simp [CacheObj.bytes]
      simp only [bytes]
      exact positive
    · have cooler : total heat main.objs = total heat u.mainCache.objs - 1 := by
        rw [hm, Fifo.objs_insert, total_append, Fifo.total_remove_oldest _ tail]
        have rotated := heat_rotated hot
        simp only [createCacheObj_toRequest, total_cons, total_nil]
        omega
      have nonneg : 0 ≤ total heat main.objs := total_nonneg _ _ fun a _ => by
        simp only [heat]
        omega
      simp only
      omega
  · refine ⟨.done { u with mainCache := u.mainCache.remove o.objId }, .of_eq fun _ => ?_, ?_, ?_⟩
    · simp only [evictMainRound, if_pos positive, tail, if_neg hot]
    · refine evicted.trans ⟨?_, rfl, fun ledger => ⟨ledger.admitted, ledger.moved⟩⟩
      intro id
      simp only [State.held, Fifo.held_remove_oldest tail]
      split <;> omega
    · rw [← size]
      simp only [State.size]
      omega

theorem dropFromFifo_ok {o : CacheObj Int} (tail : s.fifo.toEvict = some o) :
    dropFromFifo s o = .ok { s with fifo := s.fifo.remove o.objId } := by
  have present : (s.fifo.find o.objId).isSome = true := by
    rw [Fifo.find_isSome_iff, Fifo.held, copies_pos_iff]
    exact List.mem_map_of_mem (Fifo.toEvict_mem tail)
  rw [dropFromFifo, if_pos present]

theorem moveToMain_evicted {o : CacheObj Int} (tail : s.fifo.toEvict = some o) :
    Evicted s { moveToMain s o with fifo := s.fifo.remove o.objId } := by
  refine ⟨?_, rfl, fun ledger => ⟨?_, ?_⟩⟩
  · intro id
    simp only [State.held, moveToMain, Fifo.held_insert, Fifo.held_remove_oldest tail,
      CacheObj.toRequest]
    omega
  · simp only [moveToMain, total_cons, Entry.admittedBytes, ledger.admitted]
    omega
  · simp only [moveToMain, total_cons, Entry.movedBytes, ledger.moved]
    omega

theorem evictFifo_ends (b : Params) (occupied : 0 < s.fifo.occupiedByte) :
    Ends (fun n => loop (evictFifoRound b n) n s) fun t => Evicted s t ∧ t.size < s.size := by
  refine Ends.loop (fun u => Evicted s u ∧ (u.size < s.size ∨
    u.size = s.size ∧ 0 < u.fifo.occupiedByte)) (fun u => u.fifo.objs.length) ?_
    ⟨.refl s, .inr ⟨rfl, occupied⟩⟩
  rintro u ⟨evicted, progress⟩
  by_cases positive : 0 < u.fifo.occupiedByte
  · obtain ⟨o, tail⟩ := Fifo.toEvict_of_occupied positive
    have shorter := length_remove_oldest tail
    by_cases hot : b.moveToMainThreshold ≤ o.tag
    · have dropped := dropFromFifo_ok (s := moveToMain u o) tail
      refine ⟨.again { moveToMain u o with fifo := u.fifo.remove o.objId }, .of_eq fun n => ?_,
        ⟨evicted.trans (moveToMain_evicted tail), ?_⟩, ?_⟩
      · simp only [evictFifoRound, if_pos positive, tail, if_pos hot, dropped]
        rfl
      · refine .inl ?_
        simp only [State.size, moveToMain, Fifo.objs_insert, List.length_append,
          List.length_singleton] at progress ⊢
        omega
      · simp only
        omega
    · obtain ⟨ghost, ⟨N, hN⟩, fewer⟩ := ghostGet_ends b u.fifoGhost o.toRequest
      have dropped := dropFromFifo_ok (s := { u with fifoGhost := ghost }) tail
      refine ⟨.done { u with fifoGhost := ghost, fifo := u.fifo.remove o.objId },
        ⟨N, fun n hn => ?_⟩, ?_, ?_⟩
      · simp only [evictFifoRound, if_pos positive, tail, if_neg hot, hN n hn]
        exact congrArg (Except.map Round.done) dropped
      · refine evicted.trans ⟨?_, rfl, fun ledger => ⟨ledger.admitted, ledger.moved⟩⟩
        intro id
        have remembered := fewer id
        simp only [State.held, Fifo.held_remove_oldest tail, CacheObj.toRequest] at remembered ⊢
        omega
      · simp only [State.size] at progress ⊢
        omega
  · refine ⟨.done u, .of_eq fun n => ?_, evicted, ?_⟩
    · simp only [evictFifoRound, if_neg positive]
    · omega

theorem s3fifoEvict_ends (occupied : 0 < s.fifo.occupiedByte + s.mainCache.occupiedByte) :
    Ends (fun n => s3fifoEvict b n s) fun t => Evicted s t ∧ t.size < s.size := by
  have nonneg := s.fifo.occupied_nonneg
  simp only [s3fifoEvict]
  by_cases crowded : (b.mainSize : Int) < s.mainCache.occupiedByte ∨ s.fifo.occupiedByte = 0
  · simp only [if_pos crowded]
    exact evictMain_ends (by omega)
  · simp only [if_neg crowded]
    exact evictFifo_ends b (by omega)

/-! ## Lookup and insertion -/

theorem consumeGhost_cases (ghost : Option (Fifo Unit)) (id : Nat)
    (single : ghostHeld ghost id ≤ 1) :
    ((consumeGhost ghost id).1 = true ↔ 0 < ghostHeld ghost id) ∧
      ghostHeld (consumeGhost ghost id).2 id = 0 ∧
      ∀ other, ghostHeld (consumeGhost ghost id).2 other ≤ ghostHeld ghost other := by
  cases ghost with
  | none => simp [consumeGhost, ghostHeld]
  | some g =>
    have nonneg := g.held_nonneg id
    simp only [ghostHeld] at single
    refine ⟨g.find_isSome_iff id, ?_, ?_⟩
    · simp only [consumeGhost, ghostHeld, Fifo.held_remove, true_and]
      split <;> omega
    · intro other
      simp only [consumeGhost, ghostHeld, Fifo.held_remove]
      split <;> omega

structure Valid (b : Params) (s : State) : Prop where
  single : ∀ id, s.held id ≤ 1
  fits : s.fifo.occupiedByte + s.mainCache.occupiedByte ≤ b.cacheSize
  ledger : Ledger s

/-- The state while room is made for a request that missed: its id stands nowhere,
and the flag says whether the ghost had it. -/
structure Pending (id : Nat) (onGhost : Prop) (s : State) : Prop where
  single : ∀ other, s.held other ≤ 1
  absent : s.held id = 0
  flag : s.hitOnGhost = true ↔ onGhost
  ledger : Ledger s

theorem Pending.evicted {id : Nat} {onGhost : Prop} (pending : Pending id onGhost s)
    (evicted : Evicted s t) : Pending id onGhost t := by
  have held := evicted.held id
  have nonneg : 0 ≤ t.held id := by
    have fifo := t.fifo.held_nonneg id
    have main := t.mainCache.held_nonneg id
    have ghost := ghostHeld_nonneg t.fifoGhost id
    simp only [State.held]
    omega
  have absent := pending.absent
  refine ⟨fun other => le_trans (evicted.held other) (pending.single other), by omega, ?_,
    evicted.ledger pending.ledger⟩
  rw [evicted.flag]
  exact pending.flag

theorem s3fifoFind_cases (valid : Valid b s) (r : Request) :
    (∃ t, s3fifoFind s r = (true, t) ∧ Valid b t) ∨
      ∃ t, s3fifoFind s r = (false, t) ∧ Pending r.objId (0 < ghostHeld s.fifoGhost r.objId) t ∧
        t.fifo.occupiedByte + t.mainCache.occupiedByte ≤ b.cacheSize := by
  have single := valid.single r.objId
  have fifo := s.fifo.held_nonneg r.objId
  have main := s.mainCache.held_nonneg r.objId
  have alone : ghostHeld s.fifoGhost r.objId ≤ 1 := by
    simp only [State.held] at single
    omega
  obtain ⟨flag, gone, fewer⟩ := consumeGhost_cases s.fifoGhost r.objId alone
  have kept : ∀ id, s.fifo.held id + s.mainCache.held id +
      ghostHeld (consumeGhost s.fifoGhost r.objId).2 id ≤ 1 := by
    intro id
    have before := valid.single id
    have ghost := fewer id
    simp only [State.held] at before
    omega
  have fits := valid.fits
  by_cases inFifo : (s.fifo.find r.objId).isSome = true
  · refine .inl ⟨{ s with hitOnGhost := false, fifo := s.fifo.retag r.objId (· + 1) },
      by simp only [s3fifoFind, if_pos inFifo], ?_, fits, valid.ledger.admitted, valid.ledger.moved⟩
    intro id
    simp only [State.held, Fifo.held_retag]
    exact valid.single id
  · by_cases inMain : (s.mainCache.find r.objId).isSome = true
    · refine .inl ⟨{ s with
        hitOnGhost := (consumeGhost s.fifoGhost r.objId).1
        fifoGhost := (consumeGhost s.fifoGhost r.objId).2
        mainCache := s.mainCache.retag r.objId (· + 1) },
        by simp only [s3fifoFind, if_neg inFifo, if_pos inMain], ?_, fits,
        valid.ledger.admitted, valid.ledger.moved⟩
      intro id
      simp only [State.held, Fifo.held_retag]
      exact kept id
    · refine .inr ⟨{ s with
        hitOnGhost := (consumeGhost s.fifoGhost r.objId).1
        fifoGhost := (consumeGhost s.fifoGhost r.objId).2 },
        by simp only [s3fifoFind, if_neg inFifo, if_neg inMain], ⟨kept, ?_, flag,
        valid.ledger.admitted, valid.ledger.moved⟩, fits⟩
      rw [Fifo.find_isSome_iff] at inFifo inMain
      simp only [State.held, gone]
      omega

theorem s3fifoInsert_valid {onGhost : Prop} (pending : Pending r.objId onGhost s)
    (room : s.fifo.occupiedByte + s.mainCache.occupiedByte + r.objSize ≤ b.cacheSize) :
    Valid b (s3fifoInsert b s r) ∧ (0 < (s3fifoInsert b s r).mainCache.held r.objId ↔ onGhost) := by
  have absent := pending.absent
  have fifo := s.fifo.held_nonneg r.objId
  have main := s.mainCache.held_nonneg r.objId
  have ghost := ghostHeld_nonneg s.fifoGhost r.objId
  have bytes := createCacheObj_bytes_le r (0 : Int)
  simp only [State.held] at absent
  -- one more object with this id in either queue
  have grown : ∀ id, s.held id + (if r.objId = id then 1 else 0) ≤ 1 := by
    intro id
    have before := pending.single id
    split
    case isTrue same =>
      subst same
      simp only [State.held]
      omega
    case isFalse => omega
  rw [← pending.flag]
  by_cases flagged : s.hitOnGhost = true
  · refine ⟨⟨?_, ?_, ?_, ?_⟩, ?_⟩
    · intro id
      have after := grown id
      simp only [s3fifoInsert, if_pos flagged, State.held, Fifo.held_insert] at after ⊢
      omega
    · simp only [s3fifoInsert, if_pos flagged, Fifo.occupied_insert]
      omega
    · simp only [s3fifoInsert, if_pos flagged, total_cons, Entry.admittedBytes,
        pending.ledger.admitted]
      omega
    · simp only [s3fifoInsert, if_pos flagged, total_cons, Entry.movedBytes, pending.ledger.moved]
      omega
    · simp only [s3fifoInsert, Fifo.held_insert, if_true, flagged, iff_true]
      omega
  · have elsewhere : ¬ 0 < s.mainCache.held r.objId := by omega
    by_cases large : b.fifoSize ≤ r.objSize
    · simp only [s3fifoInsert, if_neg flagged, if_pos large]
      exact ⟨⟨pending.single, by omega, pending.ledger⟩, by simp [elsewhere, flagged]⟩
    · simp only [s3fifoInsert, if_neg flagged, if_neg large]
      refine ⟨⟨?_, ?_, pending.ledger.admitted, pending.ledger.moved⟩, by simp [elsewhere, flagged]⟩
      · intro id
        have after := grown id
        simp only [State.held, Fifo.held_insert] at after ⊢
        omega
      · simp only [Fifo.occupied_insert]
        omega

/-! ## Requests -/

def Settles (b : Params) (s : State) (r : Request) (hit : Bool) (t : State) : Prop :=
  Valid b t ∧ (hit = false → (0 < t.mainCache.held r.objId ↔
    0 < ghostHeld s.fifoGhost r.objId ∧ r.objSize ≤ b.fifoSize))

theorem s3fifoGet_outcome (valid : Valid b s) (r : Request) {Q : Bool → State → Prop}
    (found : ∀ t, s3fifoFind s r = (true, t) → Valid b t → Q true t)
    (refused : ∀ t, Pending r.objId (0 < ghostHeld s.fifoGhost r.objId) t →
      t.fifo.occupiedByte + t.mainCache.occupiedByte ≤ b.cacheSize → ¬ r.objSize ≤ b.fifoSize → Q false t)
    (inserted : ∀ u, Pending r.objId (0 < ghostHeld s.fifoGhost r.objId) u →
      u.fifo.occupiedByte + u.mainCache.occupiedByte + r.objSize ≤ b.cacheSize →
      r.objSize ≤ b.fifoSize → Q false (s3fifoInsert b u r)) :
    Ends (fun n => s3fifoGet b n s r) fun a => Q a.1 a.2 := by
  have le := b.fifo_le
  refine cacheGetBase_ends (p := s3fifo b)
    (fun t => Pending r.objId (0 < ghostHeld s.fifoGhost r.objId) t ∧
      t.fifo.occupiedByte + t.mainCache.occupiedByte ≤ b.cacheSize)
    (fun u => Pending r.objId (0 < ghostHeld s.fifoGhost r.objId) u ∧ r.objSize ≤ b.fifoSize)
    State.size ?_ ?_ ?_ ?_
  · rcases s3fifoFind_cases valid r with ⟨t, hit, after⟩ | ⟨t, missed, pending, fits⟩
    · exact ⟨true, t, congrArg Except.ok hit, found t hit after⟩
    · exact ⟨false, t, congrArg Except.ok missed, pending, fits⟩
  · rintro t ⟨pending, fits⟩
    refine Ends.const ?_
    by_cases small : r.objSize ≤ b.fifoSize
    · simp only [small, decide_true, if_true]
      exact ⟨pending, trivial⟩
    · simp only [small, decide_false, Bool.false_eq_true, if_false]
      exact refused t pending fits small
  · rintro u ⟨pending, small⟩ full
    have occupied : 0 < u.fifo.occupiedByte + u.mainCache.occupiedByte := by
      simp only [s3fifo] at full
      omega
    refine (s3fifoEvict_ends (b := b) occupied).mono ?_
    rintro v ⟨evicted, smaller⟩
    exact ⟨⟨pending.evicted evicted, small⟩, smaller⟩
  · rintro u ⟨pending, small⟩ room
    exact ⟨_, rfl, inserted u pending room small⟩

theorem s3fifoGet_ends (valid : Valid b s) (r : Request) :
    Ends (fun n => s3fifoGet b n s r) fun a => Settles b s r a.1 a.2 := by
  refine s3fifoGet_outcome valid r ?_ ?_ ?_
  · exact fun t _ after => ⟨after, nofun⟩
  · intro t pending fits large
    refine ⟨⟨pending.single, fits, pending.ledger⟩, fun _ => ?_⟩
    have absent := pending.absent
    have fifo := t.fifo.held_nonneg r.objId
    have ghost := ghostHeld_nonneg t.fifoGhost r.objId
    simp only [State.held] at absent
    constructor
    · intro positive
      omega
    · exact fun small => absurd small.2 large
  · intro u pending room small
    obtain ⟨valid', landed⟩ := s3fifoInsert_valid pending room
    refine ⟨valid', fun _ => ?_⟩
    rw [landed]
    exact ⟨fun ghost => ⟨ghost, small⟩, And.left⟩

abbrev Requests (b : Params) : State → State → Prop :=
  Requested (s3fifo b) fun r => 1 ≤ r.objSize

theorem init_valid (b : Params) : Valid b (s3fifoInit b) := by
  have vacant : ∀ id, ghostHeld (s3fifoInit b).fifoGhost id = 0 := by
    intro id
    simp only [s3fifoInit]
    split <;> rfl
  refine ⟨?_, ?_, rfl, rfl⟩
  · intro id
    rw [State.held, vacant id]
    exact Int.le_of_lt Int.one_pos
  · exact Int.natCast_nonneg b.cacheSize

theorem requests_valid {allowed : Request → Prop}
    (history : Reachable (Requested (s3fifo b) allowed) (s3fifoInit b) s) : Valid b s := by
  refine history.invariant (Valid b) (init_valid b) ?_
  rintro s t valid ⟨r, _, served⟩
  exact ((s3fifoGet_ends valid r).result served).1

def State.ids (s : State) : List Nat :=
  s.fifo.objs.map CacheObj.objId ++ s.mainCache.objs.map CacheObj.objId ++
    (s.fifoGhost.map fun g => g.objs.map CacheObj.objId).getD []

theorem count_ids (s : State) (id : Nat) : (s.ids.count id : Int) = s.held id := by
  have queue : ∀ {M : Type} (q : Fifo M), ((q.objs.map CacheObj.objId).count id : Int) = q.held id :=
    fun q => (total_copies_eq_count CacheObj.objId id q.objs).symm
  rw [State.ids, List.count_append, List.count_append, State.held, ← queue, ← queue]
  cases h : s.fifoGhost with
  | none => simp [ghostHeld]
  | some g =>
    simp only [Option.map_some, Option.getD_some, ghostHeld, ← queue]
    omega

def Counted {M : Type} (q : Fifo M) : Prop :=
  q.occupiedByte = total CacheObj.bytes q.objs ∧ q.nObj = q.objs.length

theorem counted {M : Type} (q : Fifo M) : Counted q := ⟨q.occupied_eq, q.nObj_eq⟩

/-- In every run every request is served. After it no id stands twice in the three
queues, the counters are right, the data fit the cache, and an object that missed
and may be admitted is in `main_cache` if and only if the ghost had its id. -/
theorem requests_keep_queues (history : Reachable (Requests b) (s3fifoInit b) s) (r : Request) :
    ∃ hit t, Serves (s3fifo b) s r hit t ∧
      t.ids.Nodup ∧ Counted t.fifo ∧ Counted t.mainCache ∧ (∀ g, t.fifoGhost = some g → Counted g) ∧
      t.fifo.occupiedByte + t.mainCache.occupiedByte ≤ b.cacheSize ∧
      (hit = false → r.objSize ≤ b.fifoSize →
        (r.objId ∈ t.mainCache.objs.map CacheObj.objId ↔ 0 < ghostHeld s.fifoGhost r.objId)) := by
  obtain ⟨⟨hit, t⟩, served, valid, landed⟩ := s3fifoGet_ends (requests_valid history) r
  refine ⟨hit, t, served, ?_, counted _, counted _, fun g _ => counted g, valid.fits, ?_⟩
  · rw [List.nodup_iff_count_le_one]
    intro id
    have single := valid.single id
    have count := count_ids t id
    dsimp only at single
    omega
  · intro missed small
    have main := landed missed
    rw [Fifo.held, copies_pos_iff] at main
    rw [main]
    exact ⟨And.left, fun ghost => ⟨ghost, small⟩⟩

/-! ## A small cache -/

theorem fifoGet_mono (cacheSize : Nat) (q : Fifo Unit) (r : Request) :
    FuelMono fun n => fifoGet cacheSize n q r :=
  (cacheGetBase_mono (fun _ => .const _) (fun _ => .const _) q).map _

theorem s3fifoGet_mono (b : Params) (s : State) (r : Request) :
    FuelMono fun n => s3fifoGet b n s r := by
  have ghosts : ∀ ghost r, FuelMono fun n => ghostGet b n ghost r := by
    intro ghost r
    cases ghost with
    | none => exact .const _
    | some g => exact (fifoGet_mono b.ghostSize g r).map _
  have rounds : ∀ s, FuelMono fun n => evictFifoRound b n s := by
    intro s
    refine FuelMono.ite _ ?_ (.const _)
    cases s.fifo.toEvict with
    | none => exact .const _
    | some obj => exact FuelMono.ite _ (.const _) ((ghosts _ _).bind fun _ => .const _)
  refine cacheGetBase_mono (fun _ => .const _) (fun s => ?_) s
  exact FuelMono.ite _ (loop_mono (fun _ => evictMainRound) (fun _ => .const _) s)
    (loop_mono _ rounds s)

def threeBytes : Params := ⟨3, 2, 2, 2, by decide⟩

/-- Objects 1 to 4, one byte each: object 1 is in the ghost after the last. -/
def fourObjects : List Request := [⟨1, 1⟩, ⟨2, 1⟩, ⟨3, 1⟩, ⟨4, 1⟩]

theorem fourObjects_serve : ∃ s, Reachable (Requests threeBytes) (s3fifoInit threeBytes) s ∧
    serveAll (s3fifo threeBytes) 5 (s3fifoInit threeBytes) fourObjects = .ok s ∧
    0 < ghostHeld s.fifoGhost 1 := by
  have returns : Returns (serveAll (s3fifo threeBytes) 5 (s3fifoInit threeBytes) fourObjects)
      (fun s => decide (0 < ghostHeld s.fifoGhost 1)) = true := by decide +kernel
  obtain ⟨s, run, found⟩ := exists_of_returns returns
  exact ⟨s, serveAll_reachable (s3fifoGet_mono threeBytes) (by decide) .refl run, run,
    of_decide_eq_true found⟩

/-- Object 1 comes back from the ghost and goes to `main_cache`. -/
theorem requests_keep_queues_return : ∃ s t, Reachable (Requests threeBytes) (s3fifoInit threeBytes) s ∧
    Serves (s3fifo threeBytes) s ⟨1, 1⟩ false t ∧ t.ids.Nodup ∧
    1 ∈ t.mainCache.objs.map CacheObj.objId := by
  obtain ⟨s, history, run, ghost⟩ := fourObjects_serve
  obtain ⟨hit, t, served, distinct, _, _, _, _, landed⟩ := requests_keep_queues history ⟨1, 1⟩
  have missed : Returns (serveAll (s3fifo threeBytes) 5 (s3fifoInit threeBytes) fourObjects >>=
      fun s => s3fifoGet threeBytes 5 s ⟨1, 1⟩) (fun a => a.1 == false) = true := by decide +kernel
  obtain ⟨⟨hit', t'⟩, last, first⟩ := exists_of_returns missed
  rw [run] at last
  have same := Yields.unique served ((s3fifoGet_mono threeBytes s ⟨1, 1⟩).yields last)
  cases same
  obtain rfl : hit = false := by simpa using first
  exact ⟨s, t, history, served, distinct, (landed rfl (by decide)).mpr ghost⟩

/-- Object 1 comes back from the ghost with three bytes, which may not be admitted:
the ghost forgets it and no queue takes it. -/
theorem ghost_hit_refused : ∃ s t, Reachable (Requests threeBytes) (s3fifoInit threeBytes) s ∧
    0 < ghostHeld s.fifoGhost 1 ∧ Serves (s3fifo threeBytes) s ⟨1, 3⟩ false t ∧ 1 ∉ t.ids := by
  obtain ⟨s, history, run, ghost⟩ := fourObjects_serve
  have missed : Returns (serveAll (s3fifo threeBytes) 5 (s3fifoInit threeBytes) fourObjects >>=
      fun s => s3fifoGet threeBytes 5 s ⟨1, 3⟩) (fun a => a.1 == false && !a.2.ids.contains 1) =
        true := by decide +kernel
  obtain ⟨⟨hit, t⟩, last, first⟩ := exists_of_returns missed
  rw [run] at last
  simp only [Bool.and_eq_true, beq_iff_eq, Bool.not_eq_true', List.contains_eq_mem,
    decide_eq_false_iff_not] at first
  obtain ⟨rfl, absent⟩ := first
  exact ⟨s, t, history, ghost, (s3fifoGet_mono threeBytes s ⟨1, 3⟩).yields last, absent⟩

/-! ## Admission -/

/-- `S3FIFO_find` with `update_cache` not set. -/
def s3fifoFindOnly (s : State) (r : Request) : Option (CacheObj Int) :=
  (s.fifo.find r.objId).or (s.mainCache.find r.objId)

theorem findOnly_isSome_iff (s : State) (r : Request) :
    (s3fifoFindOnly s r).isSome = true ↔ 0 < s.fifo.held r.objId + s.mainCache.held r.objId := by
  have fifo := s.fifo.held_nonneg r.objId
  have main := s.mainCache.held_nonneg r.objId
  rw [s3fifoFindOnly, Option.isSome_or, Bool.or_eq_true, Fifo.find_isSome_iff, Fifo.find_isSome_iff]
  omega

theorem s3fifoInsert_resident_iff {onGhost : Prop} (pending : Pending r.objId onGhost s) :
    (s3fifoFindOnly (s3fifoInsert b s r) r).isSome = true ↔ r.objSize < b.fifoSize ∨ onGhost := by
  have absent := pending.absent
  have fifo := s.fifo.held_nonneg r.objId
  have main := s.mainCache.held_nonneg r.objId
  have ghost := ghostHeld_nonneg s.fifoGhost r.objId
  simp only [State.held] at absent
  rw [findOnly_isSome_iff, ← pending.flag]
  by_cases flagged : s.hitOnGhost = true
  · rw [s3fifoInsert, if_pos flagged]
    simp only [Fifo.held_insert, if_true, flagged, or_true, iff_true]
    omega
  · rw [or_iff_left flagged]
    by_cases large : b.fifoSize ≤ r.objSize
    · rw [s3fifoInsert, if_neg flagged, if_pos large]
      omega
    · rw [s3fifoInsert, if_neg flagged, if_neg large]
      simp only [Fifo.held_insert, if_true]
      omega

/-- In every run: a request that misses and may be admitted is served, and its object is
then found if and only if it is smaller than `fifo` or the ghost had its id. -/
theorem admitted_resident_iff {allowed : Request → Prop}
    (history : Reachable (Requested (s3fifo b) allowed) (s3fifoInit b) s) (r : Request)
    (missed : (s3fifoFind s r).1 = false) (admitted : r.objSize ≤ b.fifoSize) :
    ∃ t, Serves (s3fifo b) s r false t ∧
      ((s3fifoFindOnly t r).isSome = true ↔
        r.objSize < b.fifoSize ∨ 0 < ghostHeld s.fifoGhost r.objId) := by
  have ends : Ends (fun n => s3fifoGet b n s r) fun a => a.1 = false ∧
      ((s3fifoFindOnly a.2 r).isSome = true ↔
        r.objSize < b.fifoSize ∨ 0 < ghostHeld s.fifoGhost r.objId) := by
    refine s3fifoGet_outcome (Q := fun hit t => hit = false ∧ ((s3fifoFindOnly t r).isSome = true ↔
      r.objSize < b.fifoSize ∨ 0 < ghostHeld s.fifoGhost r.objId)) (requests_valid history) r ?_ ?_ ?_
    · intro t hit _
      rw [hit] at missed
      cases missed
    · exact fun t _ _ large => absurd admitted large
    · exact fun u pending _ _ => ⟨rfl, s3fifoInsert_resident_iff pending⟩
  obtain ⟨⟨hit, t⟩, served, miss, resident⟩ := ends
  cases miss
  exact ⟨t, served, resident⟩

/-- An object of one byte is smaller than `fifo`. -/
theorem admitted_resident_iff_first : ∃ t, Serves (s3fifo threeBytes) (s3fifoInit threeBytes) ⟨1, 1⟩ false t ∧
    (s3fifoFindOnly t ⟨1, 1⟩).isSome = true := by
  have history : Reachable (Requests threeBytes) (s3fifoInit threeBytes) (s3fifoInit threeBytes) := .refl
  obtain ⟨t, served, resident⟩ := admitted_resident_iff history ⟨1, 1⟩ (by decide) (by decide)
  exact ⟨t, served, resident.mpr (.inl (by decide))⟩

/-- An object of two bytes may be admitted to a full cache. Room is made for it, and then
it is turned away. -/
theorem admitted_turned_away : ∃ s t, Reachable (Requests threeBytes) (s3fifoInit threeBytes) s ∧
    (s3fifoFind s ⟨5, 2⟩).1 = false ∧ 2 ≤ threeBytes.fifoSize ∧
    Serves (s3fifo threeBytes) s ⟨5, 2⟩ false t ∧ (s3fifoFindOnly t ⟨5, 2⟩).isSome = false ∧
    t.fifo.nObj + t.mainCache.nObj < s.fifo.nObj + s.mainCache.nObj := by
  obtain ⟨s, history, run, -⟩ := fourObjects_serve
  have missed : Returns (serveAll (s3fifo threeBytes) 5 (s3fifoInit threeBytes) fourObjects >>=
      fun s => (s3fifoGet threeBytes 5 s ⟨5, 2⟩).map fun a => (s, a)) (fun a =>
        !(s3fifoFind a.1 ⟨5, 2⟩).1 && !a.2.1 && !(s3fifoFindOnly a.2.2 ⟨5, 2⟩).isSome &&
          decide (a.2.2.fifo.nObj + a.2.2.mainCache.nObj < a.1.fifo.nObj + a.1.mainCache.nObj)) =
        true := by decide +kernel
  obtain ⟨⟨s', hit, t⟩, last, facts⟩ := exists_of_returns missed
  rw [run] at last
  obtain ⟨a, served, same⟩ := map_eq_ok.mp last
  cases same
  simp only [Bool.and_eq_true, Bool.not_eq_true', decide_eq_true_eq] at facts
  obtain ⟨⟨⟨miss, rfl⟩, absent⟩, fewer⟩ := facts
  exact ⟨s, t, history, miss, by decide, (s3fifoGet_mono threeBytes s ⟨5, 2⟩).yields served, absent,
    fewer⟩

end S3Fifo
