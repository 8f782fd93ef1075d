import CacheEviction.LecarInvariant

/-!
# Runs of LeCaR

`LeCaR_evict` overwrites the candidate that `LeCaR_to_evict` has announced.

A victim on which the experts agree becomes a ghost that is in no history, and nothing but a
request for it takes it out of the table. As long as there is no such victim, there are not
more ghosts than the cache has bytes.
-/
namespace Lecar

open FifoCache FuelLoops CacheGet RecordedCalls StepTraces WeightedLists

variable {b : Setup} {s t : State}

/-! ## Requests -/

theorem Sound.tick (sound : Sound b s) (nReq : Nat) : Sound b { s with nReq := nReq } :=
  ⟨sound.toResident.congr rfl rfl rfl rfl rfl, sound.lru, sound.lfu, sound.shortLru, sound.shortLfu⟩

/-- The cache after a failed lookup: a ghost of this id has gone. -/
structure Missed (b : Setup) (s : State) (id : Nat) (t : State) : Prop where
  sound : Sound b t
  absent : t.table.find id = none
  q : t.q = s.q
  index : t.index = s.index
  occupiedByte : t.occupiedByte = s.occupiedByte
  rest : ∀ x o, t.table.find x = some o → s.table.find x = some o

theorem lecarFind_ends (sound : Sound b s) (r : Request) :
    (∃ obj t, s.table.find r.objId = some obj ∧ kindOf obj = .cached ∧ touchObj s obj = .ok t ∧
      lecarFind b s r = .ok (true, t)) ∨
    (kinds s.table r.objId ≠ some .cached ∧
      ∃ t, lecarFind b s r = .ok (false, t) ∧ Missed b s r.objId t) := by
  cases held : s.table.find r.objId with
  | none =>
    refine .inr ⟨?_, s, ?_, sound, held, rfl, rfl, rfl, fun _ _ stored => stored⟩
    · rw [kinds, held]
      simp
    · simp only [lecarFind, held]
  | some obj =>
    by_cases ghost : obj.tag.isGhost = true
    · obtain ⟨t, run, forgotten⟩ := forgetGhost_ends sound held ghost
      have changed := Fifo.find_remove sound.distinct r.objId
      refine .inr ⟨?_, t, ?_, forgotten.sound, ?_, forgotten.q, forgotten.index, forgotten.occupiedByte, ?_⟩
      · rw [kinds, held, Option.map_some, kindOf, if_pos ghost]
        simp
      · simp only [lecarFind, held, if_pos ghost, run]
        rfl
      · rw [forgotten.table, changed, Function.update_self]
      · intro x o stored
        rw [forgotten.table, changed] at stored
        exact of_leave stored
    · have cached : kindOf obj = .cached := if_neg ghost
      obtain ⟨t, run, _⟩ := touchObj_keeps sound held cached
      refine .inl ⟨obj, t, rfl, cached, run, ?_⟩
      simp only [lecarFind, held, if_neg ghost, run]
      rfl

theorem lecarGet_keeps (sound : Sound b s) {r : Request} {hit : Bool} (served : Serves (lecar b) s r hit t) :
    Sound b t := by
  obtain ⟨n, run⟩ := served
  refine cacheGetBase_keeps (Q := fun _ => Sound b) (fun u => Sound b u ∧ u.table.find r.objId = none)
    (fun u => Sound b u ∧ u.table.find r.objId = none) ?_ ?_ ?_ ?_ (run n le_rfl)
  · intro hit u found
    rcases lecarFind_ends (sound.tick (s.nReq + 1)) r with ⟨obj, v, held, cached, touched, run⟩ | ⟨_, v, run, missed⟩
    · cases run.symm.trans found
      obtain ⟨w, touched', kept, _⟩ := touchObj_keeps (sound.tick (s.nReq + 1)) held cached
      cases touched.symm.trans touched'
      exact kept
    · cases run.symm.trans found
      exact ⟨missed.sound, missed.absent⟩
  · rintro u _ kept ⟨⟩
    cases decide (r.objSize + b.objMdSize ≤ b.cacheSize) with
    | true => exact kept
    | false => exact kept.1
  · intro u v kept _ evicted
    obtain ⟨first, id, obj, node, e, _, _, _, _, _, ghosted⟩ := lecarEvict_ok kept.1 evicted
    refine ⟨ghosted.sound, ?_⟩
    by_contra stored
    obtain ⟨o, there⟩ := Option.ne_none_iff_exists'.mp stored
    obtain ⟨old, before, _⟩ := ghosted.sizes _ o there
    rw [kept.2] at before
    cases before
  · intro u v kept fits inserted
    obtain ⟨node, one⟩ := kept.1.one
    cases (lecarInsert_eq one).symm.trans inserted
    simp only [lecar] at fits
    exact kept.1.insert one kept.2 (by omega)

inductive Stepped (b : Setup) : State → State → Prop where
  | get {s t : State} {hit : Bool} (r : Request) (served : Serves (lecar b) s r hit t) : Stepped b s t
  | toEvict {s t : State} {candidate : Option Nat} (announced : lecarToEvict b s = .ok (candidate, t)) :
      Stepped b s t
  | evict {s t : State} (evicted : lecarEvict b s = .ok t) : Stepped b s t
  | remove {s t : State} {found : Bool} (id : Nat) (alive : ∀ e, kinds s.table id ≠ some (.ghost e))
      (removed : lecarRemove b s id = .ok (found, t)) : Stepped b s t

theorem lecarToEvict_ok {candidate : Option Nat} (run : lecarToEvict b s = .ok (candidate, t)) :
    t = { s with
      toEvictCandidate := candidate
      toEvictCandidateGenVtime := s.nReq
      draws := s.draws + 1 } ∧
    if draw b s < s.wLru then candidate = s.q.head? else firstOfMinFreq s = .ok candidate := by
  simp only [lecarToEvict] at run
  by_cases lower : draw b s < s.wLru
  · simp only [if_pos lower] at run ⊢
    cases run
    exact ⟨rfl, rfl⟩
  · simp only [if_neg lower] at run ⊢
    obtain ⟨c, chosen, same⟩ := bind_eq_ok.mp run
    cases same
    exact ⟨rfl, chosen⟩

theorem Stepped.sound (sound : Sound b s) (step : Stepped b s t) : Sound b t := by
  cases step with
  | get r served => exact lecarGet_keeps sound served
  | toEvict announced =>
    obtain ⟨rfl, _⟩ := lecarToEvict_ok announced
    exact sound.chosen _ _ _
  | evict evicted =>
    obtain ⟨_, _, _, _, _, _, _, _, _, _, ghosted⟩ := lecarEvict_ok sound evicted
    exact ghosted.sound
  | remove id alive removed =>
    obtain ⟨found, u, run, kept⟩ := lecarRemove_keeps sound alive
    cases run.symm.trans removed
    exact kept

theorem sound_of_reachable (history : Reachable (Stepped b) (lecarInit b) s) : Sound b s :=
  history.invariant (Sound b) (sound_init b) fun _ _ kept step => step.sound kept

theorem lecarGet_mono (b : Setup) (s : State) (r : Request) :
    FuelMono fun n => cacheGetBase (lecar b) n s r :=
  cacheGetBase_mono (fun _ => .const _) (fun _ => .const _) s

theorem stepped_of_requested {allowed : Request → Prop} {origin : State}
    (history : Reachable (Requested (lecar b) allowed) origin s) : Reachable (Stepped b) origin s := by
  refine history.invariant (Reachable (Stepped b) origin) .refl ?_
  rintro u v reached ⟨r, _, served⟩
  exact reached.next (.get r served)

/-! ## The announced object -/

/-- `LeCaR_to_evict` and then `LeCaR_evict`: the announced object, which was cached, is not
cached any more and is in the history of the expert that chose it. -/
def Announces (b : Setup) (s : State) : Prop :=
  ∃ id u t, lecarToEvict b s = .ok (some id, u) ∧ lecarEvict b u = .ok t ∧
    kinds s.table id = some .cached ∧ kinds t.table id ≠ some .cached ∧
    id ∈ (if draw b s < s.wLru then t.ghostLru else t.ghostLfu).ids

theorem evict_announced (sound : Sound b s) {candidate : Option Nat} {u : State}
    (announced : lecarToEvict b s = .ok (candidate, u)) {tail : Nat} (last : s.q.head? = some tail)
    {first : Option Nat} (lowest : firstOfMinFreq s = .ok first) {obj : CacheObj Meta}
    (found : s.table.find tail = some obj) :
    ∃ node t, lecarEvict b u = .ok t ∧
      Ghosted b s tail obj node (if some tail = first then .both else .lru) t := by
  obtain ⟨rfl, _⟩ := lecarToEvict_ok announced
  have member : tail ∈ s.q := List.mem_of_head? last
  have chosen : ∀ c, chooseVictim b { s with
      toEvictCandidate := c
      toEvictCandidateGenVtime := s.nReq
      draws := s.draws + 1 } = .ok (some tail, if some tail = first then .both else .lru, { s with
        toEvictCandidate := some tail
        toEvictCandidateGenVtime := -1
        draws := s.draws + 1 }) := by
    intro c
    have lowest' : firstOfMinFreq { s with
        toEvictCandidate := some tail
        toEvictCandidateGenVtime := s.nReq
        draws := s.draws + 1 } = .ok first := lowest
    simp only [chooseVictim, last, lowest', bind, Except.bind, pure, Except.pure, if_true]
  have after := sound.chosen (some tail) (-1) (s.draws + 1)
  obtain ⟨o, node, there, cached, at_⟩ := after.entry_of member
  cases found.symm.trans there
  have real : (if some tail = first then Expert.both else .lru) ≠ .none := by
    split <;> simp
  obtain ⟨t, ghost, ghosted⟩ := makeGhost_ends after found cached at_ real
  refine ⟨node, t, ?_, { ghosted with }⟩
  simp only [lecarEvict, chosen, bind, Except.bind]
  exact ghost

def twoBytes (rand : Nat) : Setup where
  cacheSize := 2
  considerObjMetadata := false
  lruWeight := 1 / 2
  updateWeight := fun _ w v => (w, v)
  nextRand := fun _ => rand

/-- The table holds at most `cache_size` cached objects and as many ghosts, each ghost is in
one of the two histories, and the bytes of the histories are those of their ghosts. -/
structure Bounded (b : Setup) (s : State) : Prop where
  cached : (s.table.objs.filter fun o => !o.tag.isGhost).length ≤ b.cacheSize
  ghosts : (s.table.objs.filter fun o => o.tag.isGhost).length ≤ b.cacheSize
  linked : ∀ o ∈ s.table.objs, o.tag.isGhost = true →
    s.ghostLru.ids.count o.objId + s.ghostLfu.ids.count o.objId = 1
  lru : s.ghostLru.occupiedByte = total (costs b s.table) s.ghostLru.ids
  lfu : s.ghostLfu.occupiedByte = total (costs b s.table) s.ghostLfu.ids

/-- The objects have one byte, and there is no ghost on which the experts agreed. -/
structure Tidy (b : Setup) (s : State) : Prop extends Sound b s where
  unit : ∀ id o, s.table.find id = some o → o.objSize = 1
  clean : ∀ id, kinds s.table id ≠ some (.ghost .both)

theorem length_filter_le {table : Fifo Meta} (distinct : table.Distinct) (p : CacheObj Meta → Bool)
    {ids : List Nat} (listed : ∀ o, table.find o.objId = some o → p o = true → o.objId ∈ ids) :
    (table.objs.filter p).length ≤ ids.length := by
  have nodup : (table.objs.map CacheObj.objId).Nodup := (nodup_iff_copies _ _).mpr distinct
  have names : ((table.objs.filter p).map CacheObj.objId).Nodup :=
    nodup.sublist ((List.filter_sublist).map _)
  have subset : (table.objs.filter p).map CacheObj.objId ⊆ ids := by
    intro id member
    obtain ⟨o, stored, rfl⟩ := List.mem_map.mp member
    obtain ⟨there, yes⟩ := List.mem_filter.mp stored
    exact listed o (Fifo.find_of_mem distinct there) yes
  have bound := (List.subperm_of_subset names subset).length_le
  rwa [List.length_map] at bound

theorem Tidy.total_eq (tidy : Tidy b s) (plain : b.considerObjMetadata = false) {l : List Nat} {k : Kind}
    (lists : Lists (kinds s.table) l k) : total (costs b s.table) l = l.length := by
  have one : ∀ id ∈ l, costs b s.table id = 1 := by
    intro id member
    obtain ⟨o, found, _⟩ := Option.map_eq_some_iff.mp ((lists.mem id).mp member)
    have size := tidy.unit id o found
    rw [costs_found b found, objCost, CacheObj.bytes, size, Setup.objMdSize, plain]
    rfl
  rw [total_congr one]
  simp [total]

theorem Tidy.bounded (tidy : Tidy b s) (plain : b.considerObjMetadata = false) : Bounded b s := by
  have q := tidy.total_eq plain tidy.cached
  have lru := tidy.total_eq plain tidy.lru.lists
  have lfu := tidy.total_eq plain tidy.lfu.lists
  have fits := tidy.fits
  have shortLru := tidy.shortLru
  have shortLfu := tidy.shortLfu
  rw [tidy.bytes] at fits
  rw [tidy.lru.bytes] at shortLru
  rw [tidy.lfu.bytes] at shortLfu
  have ghost_kind : ∀ o, s.table.find o.objId = some o → o.tag.isGhost = true →
      kinds s.table o.objId = some (.ghost .lru) ∨ kinds s.table o.objId = some (.ghost .lfu) := by
    intro o found ghost
    have here : kinds s.table o.objId = some (.ghost o.tag.evictExpert) := by
      rw [kinds, found, Option.map_some, kindOf, if_pos ghost]
    have known := tidy.known o.objId
    have clean := tidy.clean o.objId
    rw [here] at known clean ⊢
    cases expert : o.tag.evictExpert <;> simp_all
  constructor
  · have bound : (s.table.objs.filter fun o => !o.tag.isGhost).length ≤ s.q.length := by
      refine length_filter_le tidy.distinct _ fun o found yes => ?_
      refine (tidy.mem_iff found).mpr (if_neg ?_)
      simpa using yes
    omega
  · have bound : (s.table.objs.filter fun o => o.tag.isGhost).length ≤
        (s.ghostLru.ids ++ s.ghostLfu.ids).length := by
      refine length_filter_le tidy.distinct _ fun o found yes => ?_
      rcases ghost_kind o found yes with kind | kind
      · exact List.mem_append_left _ ((tidy.lru.lists.mem _).mpr kind)
      · exact List.mem_append_right _ ((tidy.lfu.lists.mem _).mpr kind)
    rw [List.length_append] at bound
    omega
  · intro o member ghost
    rcases ghost_kind o (Fifo.find_of_mem tidy.distinct member) ghost with kind | kind
    · have here := (tidy.lru.lists.mem _).mpr kind
      have there : o.objId ∉ s.ghostLfu.ids := by
        rw [tidy.lfu.lists.mem, kind]
        simp
      rw [List.count_eq_one_of_mem tidy.lru.lists.nodup here, List.count_eq_zero_of_not_mem there]
    · have here := (tidy.lfu.lists.mem _).mpr kind
      have there : o.objId ∉ s.ghostLru.ids := by
        rw [tidy.lru.lists.mem, kind]
        simp
      rw [List.count_eq_one_of_mem tidy.lfu.lists.nodup here, List.count_eq_zero_of_not_mem there]
  · exact tidy.lru.bytes
  · exact tidy.lfu.bytes

def Agree (s : State) : Prop :=
  match firstOfMinFreq s with
  | .ok first => s.q.head? = first
  | .error _ => False

instance (s : State) : Decidable (Agree s) :=
  match lowest : firstOfMinFreq s with
  | .ok first => decidable_of_iff (s.q.head? = first) (by rw [Agree, lowest])
  | .error _ => .isFalse (by rw [Agree, lowest]; exact id)

theorem agree_iff {first : Option Nat} (lowest : firstOfMinFreq s = .ok first) :
    Agree s ↔ s.q.head? = first := by
  rw [Agree, lowest]

theorem agree_congr (index : t.index = s.index) (q : t.q = s.q) : Agree t ↔ Agree s := by
  have nodes : t.freqMap = s.freqMap := congrArg CrLfu.State.freqMap index
  have least : t.minFreq = s.minFreq := congrArg CrLfu.State.minFreq index
  have lowest : firstOfMinFreq t = firstOfMinFreq s := by
    rw [firstOfMinFreq, firstOfMinFreq, nodes, least]
  rw [Agree, Agree, lowest, q]

/-- The experts do not agree on a victim if one is needed: the object is cached or there is
room for it, or none is ever admitted. -/
def Gentle (b : Setup) (s : State) (r : Request) : Prop :=
  kinds s.table r.objId = some .cached ∨ s.occupiedByte + r.objSize ≤ b.cacheSize ∨ b.cacheSize = 0 ∨
    ¬ Agree s

instance (b : Setup) (s : State) (r : Request) : Decidable (Gentle b s r) :=
  inferInstanceAs (Decidable (_ ∨ _ ∨ _ ∨ _))

theorem Tidy.ghosted (tidy : Tidy b s) {id : Nat} {obj : CacheObj Meta} {node : CrLfu.FreqNode} {e : Expert}
    (ghosted : Ghosted b s id obj node e t) (apart : e ≠ .both) : Tidy b t where
  toSound := ghosted.sound
  unit x o stored := by
    obtain ⟨old, before, same⟩ := ghosted.sizes x o stored
    rw [← same]
    exact tidy.unit x old before
  clean x both := by
    by_cases own : x = id
    · subst own
      rcases ghosted.own with kind | none
      · rw [kind] at both
        exact apart (Kind.ghost.inj (Option.some.inj both))
      · rw [none] at both
        cases both
    · rcases ghosted.others x own with same | none
      · rw [same] at both
        exact tidy.clean x both
      · rw [none] at both
        cases both

theorem Tidy.insert (tidy : Tidy b s) {r : Request} {node : CrLfu.FreqNode}
    (one : s.freqMap 1 = some node) (absent : s.table.find r.objId = none) (unit : r.objSize = 1)
    (room : s.occupiedByte + r.objSize + b.objMdSize ≤ b.cacheSize) : Tidy b (inserted b s r node) where
  toSound := tidy.toSound.insert one absent room
  unit x o stored := by
    have changed := Fifo.find_insert_of_absent absent (⟨1, false, .none, 0⟩ : Meta)
    simp only [inserted, changed] at stored
    rcases of_enter stored with ⟨_, rfl⟩ | old
    · rw [createCacheObj, unit]
      rfl
    · exact tidy.unit x o old
  clean x both := by
    have changed := Fifo.find_insert_of_absent absent (⟨1, false, .none, 0⟩ : Meta)
    simp only [inserted, kinds_update changed] at both
    rcases CrLfu.update_eq_some both with ⟨_, new⟩ | ⟨_, old⟩
    · cases new
    · exact tidy.clean x old

theorem Tidy.touch (tidy : Tidy b s) {obj : CacheObj Meta} {id : Nat} (found : s.table.find id = some obj)
    (cached : kindOf obj = .cached) (touched : touchObj s obj = .ok t) : Tidy b t := by
  obtain ⟨u, run, sound, _, _, table⟩ := touchObj_keeps tidy.toSound found cached
  cases run.symm.trans touched
  refine ⟨sound, ?_, ?_⟩
  · intro x o stored
    rw [table, Fifo.find_retag _ found] at stored
    rcases of_enter stored with ⟨_, rfl⟩ | old
    · exact tidy.unit id obj found
    · exact tidy.unit x o old
  · rw [table, kinds_retag (fun m => { m with freq := obj.tag.freq + 1 }) found rfl]
    exact tidy.clean

theorem lecarGet_tidy (plain : b.considerObjMetadata = false) (tidy : Tidy b s) {r : Request}
    (unit : r.objSize = 1) (gentle : Gentle b s r) {hit : Bool} (served : Serves (lecar b) s r hit t) :
    Tidy b t := by
  obtain ⟨n, run⟩ := served
  have free : b.objMdSize = 0 := by
    rw [Setup.objMdSize, plain]
    rfl
  have start : Tidy b { s with nReq := s.nReq + 1 } := ⟨tidy.toSound.tick _, tidy.unit, tidy.clean⟩
  -- until the first eviction the experts choose as they would have done before the request
  refine cacheGetBase_keeps (Q := fun _ => Tidy b)
    (fun u => Tidy b u ∧ u.table.find r.objId = none ∧
      (u.occupiedByte + 1 ≤ b.cacheSize ∨ b.cacheSize = 0 ∨ ¬ Agree u))
    (fun u => Tidy b u ∧ u.table.find r.objId = none ∧ (u.occupiedByte + 1 ≤ b.cacheSize ∨ ¬ Agree u))
    ?_ ?_ ?_ ?_ (run n le_rfl)
  · intro hit u found
    rcases lecarFind_ends start.toSound r with ⟨obj, v, held, cached, touched, run⟩ | ⟨away, v, run, missed⟩
    · cases run.symm.trans found
      exact start.touch held cached touched
    · cases run.symm.trans found
      refine ⟨⟨missed.sound, ?_, ?_⟩, missed.absent, ?_⟩
      · exact fun x o stored => tidy.unit x o (missed.rest x o stored)
      · intro x both
        obtain ⟨o, stored, kind⟩ := Option.map_eq_some_iff.mp both
        refine tidy.clean x ?_
        rw [kinds, missed.rest x o stored, Option.map_some, kind]
      · rw [missed.occupiedByte, agree_congr missed.index missed.q]
        rw [Gentle, unit] at gentle
        exact gentle.resolve_left away
  · rintro u _ ⟨kept, absent, choice⟩ ⟨⟩
    by_cases admitted : r.objSize + b.objMdSize ≤ b.cacheSize
    · rw [decide_eq_true admitted]
      refine ⟨kept, absent, choice.imp_right fun small => small.resolve_left ?_⟩
      omega
    · rw [decide_eq_false admitted]
      exact kept
  · rintro u v ⟨kept, absent, choice⟩ full evicted
    obtain ⟨first, id, obj, node, e, lowest, _, agree, member, found, ghosted⟩ :=
      lecarEvict_ok kept.toSound evicted
    simp only [lecar, free, unit] at full
    have differ := choice.resolve_left (by omega)
    have fits := kept.fits
    have left := ghosted.occupiedByte
    have cost : objCost b obj = 1 := by
      rw [objCost, CacheObj.bytes, kept.unit id obj found, free]
      rfl
    refine ⟨kept.ghosted ghosted fun both => differ ((agree_iff lowest).mpr (agree.mp both)), ?_, .inl (by omega)⟩
    by_contra stored
    obtain ⟨o, there⟩ := Option.ne_none_iff_exists'.mp stored
    obtain ⟨old, before, _⟩ := ghosted.sizes _ o there
    rw [absent] at before
    cases before
  · rintro u v ⟨kept, absent, _⟩ fits inserted
    obtain ⟨node, one⟩ := kept.one
    cases (lecarInsert_eq one).symm.trans inserted
    simp only [lecar] at fits
    exact kept.insert one absent unit (by omega)

/-- A request for an object of one byte that needs no victim on which the experts agree. -/
def GentleGet (b : Setup) : State → State → Prop :=
  Called (lecar b) (lecarRemove b) (fun s r => r.objSize = 1 ∧ Gentle b s r) fun _ _ => False

theorem lecar_bounded (plain : b.considerObjMetadata = false)
    (history : Reachable (GentleGet b) (lecarInit b) s) : Bounded b s := by
  have tidy : Tidy b s := by
    refine history.invariant (Tidy b) ⟨sound_init b, ?_, ?_⟩ ?_
    · intro id o impossible
      cases impossible
    · intro id impossible
      cases impossible
    · intro u v kept call
      cases call with
      | get r fair served => exact lecarGet_tidy plain kept fair.1 fair.2 served
      | remove id never removed => exact never.elim
  exact tidy.bounded plain

/-- Object 1 becomes a ghost of the LRU expert. -/
theorem lecar_bounded_twoBytes : ∃ s, Reachable (GentleGet (twoBytes 0)) (lecarInit (twoBytes 0)) s ∧
    s.ghostLru.ids = [1] ∧ Bounded (twoBytes 0) s := by
  have run : (callAll (lecar (twoBytes 0)) (lecarRemove (twoBytes 0))
      (fun s r => decide (r.objSize = 1 ∧ Gentle (twoBytes 0) s r)) (fun _ _ => false) 5
      (lecarInit (twoBytes 0)) [.get ⟨1, 1⟩, .get ⟨1, 1⟩, .get ⟨2, 1⟩, .get ⟨3, 1⟩]).map
        (fun s => s.ghostLru.ids) = some [1] := by decide +kernel
  obtain ⟨s, reached, ghosts⟩ := Option.map_eq_some_iff.mp run
  have history : Reachable (GentleGet (twoBytes 0)) (lecarInit (twoBytes 0)) s :=
    callAll_reachable (lecarGet_mono (twoBytes 0)) (fun s r fair => of_decide_eq_true fair)
      (fun _ _ never => absurd never (by decide)) reached
  exact ⟨s, history, ghosts, lecar_bounded rfl history⟩

def oneByte : Setup := { twoBytes 0 with cacheSize := 1 }

/-- The experts agree on every victim; the ghosts of a cache of one byte add up, and are in no
history. -/
theorem lecar_keeps_ghosts : ∃ s, Reachable (Requested (lecar oneByte) fun r => r.objSize = 1)
    (lecarInit oneByte) s ∧ (s.table.objs.filter fun o => o.tag.isGhost).length = 2 ∧
    s.ghostLru.ids = [] ∧ s.ghostLfu.ids = [] ∧ ¬ Bounded oneByte s := by
  have returns : Returns (serveAll (lecar oneByte) 5 (lecarInit oneByte) [⟨1, 1⟩, ⟨2, 1⟩, ⟨3, 1⟩])
      (fun s => decide ((s.table.objs.filter fun o => o.tag.isGhost).length = 2 ∧ s.ghostLru.ids = [] ∧
        s.ghostLfu.ids = [])) = true := by decide +kernel
  obtain ⟨s, run, values⟩ := exists_of_returns returns
  obtain ⟨ghosts, lru, lfu⟩ := of_decide_eq_true values
  refine ⟨s, serveAll_reachable (lecarGet_mono oneByte) (by decide) .refl run, ghosts, lru, lfu, ?_⟩
  intro bounded
  have few := bounded.ghosts
  rw [ghosts] at few
  exact absurd few (by decide)

end Lecar
