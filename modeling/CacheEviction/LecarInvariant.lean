import CacheEviction.LecarIndex

/-!
# What the calls of LeCaR keep

Whatever the counters do, the LRU list and the nodes hold the cached objects, each history
the ghosts of its expert, and the bytes are those of the lists. Most calls need no more to
return; the choice of a victim relies on `min_freq`.
-/
namespace Lecar

open FifoCache FuelLoops CacheGet WeightedLists Function
open CrLfu (FreqNode)

variable {b : Setup} {s : State}
variable {id : Nat} {obj : CacheObj Meta} {table : Fifo Meta} {node : FreqNode} {e : Expert}

/-! ## The invariant -/

structure Resident (b : Setup) (s : State) : Prop where
  distinct : s.table.Distinct
  known : ∀ id, kinds s.table id ≠ some (.ghost .none)
  cached : Lists (kinds s.table) s.q .cached
  bytes : s.occupiedByte = total (costs b s.table) s.q
  count : s.nObj = s.q.length
  fits : s.occupiedByte ≤ b.cacheSize
  listed : Listed s.freqMap (freqs s.table)
  one : ∃ node, s.freqMap 1 = some node

/-- The histories are right as well, and not longer than half of the cache. -/
structure Sound (b : Setup) (s : State) : Prop extends Resident b s where
  lru : Kept b s.table s.ghostLru .lru
  lfu : Kept b s.table s.ghostLfu .lfu
  shortLru : s.ghostLru.occupiedByte ≤ (b.cacheSize / 2 : Nat)
  shortLfu : s.ghostLfu.occupiedByte ≤ (b.cacheSize / 2 : Nat)

theorem sound_init (b : Setup) : Sound b (lecarInit b) where
  distinct := Fifo.distinct_empty
  known _ impossible := by cases impossible
  cached := ⟨List.nodup_nil, fun _ => iff_of_false List.not_mem_nil fun impossible => by cases impossible⟩
  bytes := rfl
  count := rfl
  fits := Int.natCast_nonneg _
  listed := by
    constructor
    · intro freq node there
      simp only [lecarInit] at there
      split at there
      · cases there
        exact List.nodup_nil
      · cases there
    · intro freq id
      refine iff_of_false (fun ⟨node, there, member⟩ => ?_) fun impossible => by cases impossible
      simp only [lecarInit] at there
      split at there
      · cases there
        cases member
      · cases there
  one := ⟨_, rfl⟩
  lru := ⟨⟨List.nodup_nil, fun _ => iff_of_false List.not_mem_nil fun impossible => by cases impossible⟩, rfl⟩
  lfu := ⟨⟨List.nodup_nil, fun _ => iff_of_false List.not_mem_nil fun impossible => by cases impossible⟩, rfl⟩
  shortLru := Int.natCast_nonneg _
  shortLfu := Int.natCast_nonneg _

theorem Resident.mem_iff (resident : Resident b s) (found : s.table.find id = some obj) :
    id ∈ s.q ↔ kindOf obj = .cached := by
  rw [resident.cached.mem, kinds, found, Option.map_some, Option.some.injEq]

theorem Resident.entry_of (resident : Resident b s) (member : id ∈ s.q) :
    ∃ obj node, s.table.find id = some obj ∧ kindOf obj = .cached ∧
      s.freqMap (freqOf obj.tag.freq) = some node := by
  obtain ⟨obj, found, cached⟩ := Option.map_eq_some_iff.mp ((resident.cached.mem id).mp member)
  obtain ⟨node, there, _⟩ := (resident.listed.mem _ id).mpr (freqs_cached found cached)
  exact ⟨obj, node, found, cached, there⟩

/-! ## A request for a ghost -/

theorem Resident.forget (resident : Resident b s) (ghost : kinds s.table id ≠ some .cached) :
    Resident b { s with table := s.table.remove id } := by
  have changed := Fifo.find_remove resident.distinct id
  have absent : id ∉ s.q := fun member => ghost ((resident.cached.mem id).mp member)
  have nothing := freqs_absent ghost
  constructor
  · exact resident.distinct.remove id
  · intro x there
    simp only [kinds_update changed] at there
    rcases CrLfu.update_eq_some there with ⟨_, impossible⟩ | ⟨_, old⟩
    · cases impossible
    · exact resident.known x old
  · rw [kinds_update changed]
    exact resident.cached.other ghost (by simp)
  · rw [total_costs b changed absent]
    exact resident.bytes
  · exact resident.count
  · exact resident.fits
  · have same : freqs (s.table.remove id) = freqs s.table := by
      rw [freqs_update changed, Option.bind_none, ← nothing, update_eq_self]
    rw [same]
    exact resident.listed
  · exact resident.one

theorem Resident.congr {t : State} (resident : Resident b s) (table : t.table = s.table) (q : t.q = s.q)
    (freqMap : t.freqMap = s.freqMap) (occupiedByte : t.occupiedByte = s.occupiedByte)
    (nObj : t.nObj = s.nObj) : Resident b t := by
  obtain ⟨distinct, known, cached, bytes, count, fits, listed, one⟩ := resident
  constructor <;> simp only [table, q, freqMap, occupiedByte, nObj] <;> assumption

theorem index_forget (distinct : s.table.Distinct) (ghost : kinds s.table id ≠ some .cached) :
    (fun x => ((s.table.remove id).find x).bind indexEntry) = s.index.objs := by
  have nothing := index_absent ghost
  rw [index_update (Fifo.find_remove distinct id), Option.bind_none, ← index_objs s, ← nothing,
    update_eq_self]

/-- The ghost leaves the table and its history, and nothing else changes but the weights. -/
structure Forgotten (b : Setup) (s : State) (id : Nat) (t : State) : Prop where
  sound : Sound b t
  table : t.table = s.table.remove id
  q : t.q = s.q
  index : t.index = s.index
  occupiedByte : t.occupiedByte = s.occupiedByte

theorem forgetGhost_ends (sound : Sound b s) (found : s.table.find id = some obj)
    (ghost : obj.tag.isGhost = true) : ∃ t, forgetGhost b s obj = .ok t ∧ Forgotten b s id t := by
  have kind : kindOf obj = .ghost obj.tag.evictExpert := if_pos ghost
  have here : kinds s.table id = some (.ghost obj.tag.evictExpert) := by
    rw [kinds, found, Option.map_some, kind]
  have away : kinds s.table id ≠ some .cached := by
    rw [here]
    simp
  obtain rfl := Fifo.find_objId found
  have resident := sound.forget away
  have objs := index_forget sound.distinct away
  have cost := objCost_nonneg b obj
  have shortLru := sound.shortLru
  have shortLfu := sound.shortLfu
  have other : ∀ {h e}, Kept b s.table h e → e ≠ obj.tag.evictExpert →
      Kept b (s.table.remove obj.objId) h e := by
    intro h e kept apart
    refine kept.other (Fifo.find_remove sound.distinct obj.objId) ?_ (by simp)
    rw [here]
    exact fun same => apart (Kind.ghost.inj (Option.some.inj same)).symm
  unfold forgetGhost
  cases expert : obj.tag.evictExpert with
  | none =>
    rw [expert] at here
    exact absurd here (sound.known _)
  | lru =>
    rw [expert] at kind other
    refine ⟨_, rfl, ⟨resident.congr rfl rfl rfl rfl rfl, ?_, ?_, ?_, shortLfu⟩, rfl, rfl, ?_, rfl⟩
    · exact sound.lru.leave sound.distinct found kind
    · exact other sound.lfu (by simp)
    · simp only [History.leave]
      omega
    · exact congrArg (fun o => (⟨o, s.freqMap, s.minFreq, s.maxFreq⟩ : CrLfu.State)) objs
  | lfu =>
    rw [expert] at kind other
    refine ⟨_, rfl, ⟨resident.congr rfl rfl rfl rfl rfl, ?_, ?_, shortLru, ?_⟩, rfl, rfl, ?_, rfl⟩
    · exact other sound.lru (by simp)
    · exact sound.lfu.leave sound.distinct found kind
    · simp only [History.leave]
      omega
    · exact congrArg (fun o => (⟨o, s.freqMap, s.minFreq, s.maxFreq⟩ : CrLfu.State)) objs
  | both =>
    rw [expert] at other
    refine ⟨_, rfl, ⟨resident.congr rfl rfl rfl rfl rfl, ?_, ?_, shortLru, shortLfu⟩, rfl, rfl, ?_, rfl⟩
    · exact other sound.lru (by simp)
    · exact other sound.lfu (by simp)
    · exact congrArg (fun o => (⟨o, s.freqMap, s.minFreq, s.maxFreq⟩ : CrLfu.State)) objs

/-! ## A hit -/

theorem kinds_retag (f : Meta → Meta) (found : table.find id = some obj)
    (same : kindOf { obj with tag := f obj.tag } = kindOf obj) :
    kinds (table.retag id f) = kinds table := by
  have here : kinds table id = some (kindOf obj) := by rw [kinds, found, Option.map_some]
  rw [kinds_update (Fifo.find_retag f found), Option.map_some, same, ← here, update_eq_self]

theorem costs_retag (b : Setup) (f : Meta → Meta) (found : table.find id = some obj) :
    costs b (table.retag id f) = costs b table := by
  have here := costs_found b found
  have same : objCost b { obj with tag := f obj.tag } = costs b table id := here.symm
  rw [costs_update b (Fifo.find_retag f found), Option.map_some, Option.getD_some, same,
    update_eq_self]

theorem touchObj_keeps (sound : Sound b s) (found : s.table.find id = some obj)
    (cached : kindOf obj = .cached) :
    ∃ t, touchObj s obj = .ok t ∧ Sound b t ∧ t.q = s.q.erase id ++ [id] ∧
      t.occupiedByte = s.occupiedByte ∧
      t.table = s.table.retag id fun m => { m with freq := obj.tag.freq + 1 } := by
  obtain rfl := Fifo.find_objId found
  have frequency := freqs_cached found cached
  obtain ⟨node, there, _⟩ := (sound.listed.mem _ _).mpr frequency
  have kinds_eq := kinds_retag (fun m => { m with freq := obj.tag.freq + 1 }) found rfl
  have costs_eq := costs_retag b (fun m => { m with freq := obj.tag.freq + 1 }) found
  have here : kinds s.table obj.objId = some .cached := by rw [kinds, found, Option.map_some, cached]
  have member := (sound.cached.mem _).mpr here
  have kept : ∀ {h e}, Kept b s.table h e →
      Kept b (s.table.retag obj.objId fun m => { m with freq := obj.tag.freq + 1 }) h e := by
    intro h e old
    constructor
    · rw [kinds_eq]
      exact old.lists
    · rw [costs_eq]
      exact old.bytes
  have freqs_eq := freqs_update (Fifo.find_retag (fun m => { m with freq := obj.tag.freq + 1 }) found)
  have entry : freqEntry { obj with tag := { obj.tag with freq := obj.tag.freq + 1 } } =
      some (freqOf (obj.tag.freq + 1)) := if_neg (isGhost_of_cached cached)
  have gone : update (freqs s.table) obj.objId none obj.objId = none := update_self ..
  have moved := (sound.listed.drop frequency there).push gone (freqOf (obj.tag.freq + 1))
  rw [update_idem] at moved
  refine ⟨_, touchObj_eq there, ⟨?_, kept sound.lru, kept sound.lfu, sound.shortLru, sound.shortLfu⟩,
    rfl, rfl, rfl⟩
  constructor
  · exact sound.distinct.retag _ _
  · simp only [kinds_eq]
    exact sound.known
  · simp only [kinds_eq]
    exact sound.cached.touch here
  · simp only [costs_eq, total_append, total_cons, total_nil, total_erase _ member, sound.bytes]
    omega
  · have positive := List.length_pos_of_mem member
    simp only [List.length_append, List.length_erase_of_mem member, List.length_singleton, sound.count]
    omega
  · exact sound.fits
  · simp only [freqs_eq, Option.bind_some, entry]
    exact moved
  · obtain ⟨first, one⟩ := sound.one
    simp only [relink, CrLfu.State.link, CrLfu.State.setNode, update_apply]
    split
    · exact ⟨_, rfl⟩
    · split
      · exact ⟨_, rfl⟩
      · exact ⟨first, one⟩

/-! ## An insertion -/

def inserted (b : Setup) (s : State) (r : Request) (node : FreqNode) : State :=
  { s with
    table := s.table.insert r ⟨1, false, .none, 0⟩
    occupiedByte := s.occupiedByte + objCost b (createCacheObj r ⟨1, false, .none, 0⟩)
    nObj := s.nObj + 1
    q := s.q ++ [r.objId]
    minFreq := 1
    freqMap := Function.update s.freqMap 1 (some (node.push r.objId)) }

theorem lecarInsert_eq {r : Request} (one : s.freqMap 1 = some node) :
    lecarInsert b s r = .ok (inserted b s r node) := by
  simp only [lecarInsert, one]
  rfl

theorem Sound.insert (sound : Sound b s) {r : Request} (one : s.freqMap 1 = some node)
    (absent : s.table.find r.objId = none)
    (room : s.occupiedByte + r.objSize + b.objMdSize ≤ b.cacheSize) :
    Sound b (inserted b s r node) := by
  have changed := Fifo.find_insert_of_absent absent (⟨1, false, .none, 0⟩ : Meta)
  have nothing : kinds s.table r.objId = none := by rw [kinds, absent, Option.map_none]
  have missing : r.objId ∉ s.q := by
    rw [sound.cached.mem, nothing]
    simp
  have size := createCacheObj_bytes_le r (⟨1, false, .none, 0⟩ : Meta)
  have other : ∀ {h e}, Kept b s.table h e → Kept b (s.table.insert r ⟨1, false, .none, 0⟩) h e := by
    intro h e kept
    refine kept.other changed ?_ ?_
    · rw [nothing]
      simp
    · rw [Option.map_some]
      exact fun impossible => by cases impossible
  have unlisted : freqs s.table r.objId = none := freqs_absent (by rw [nothing]; simp)
  have entered := sound.listed.push unlisted 1
  rw [one] at entered
  refine ⟨?_, other sound.lru, other sound.lfu, sound.shortLru, sound.shortLfu⟩
  unfold inserted
  constructor
  · exact sound.distinct.insert absent _
  · intro x there
    simp only [kinds_update changed] at there
    rcases CrLfu.update_eq_some there with ⟨_, new⟩ | ⟨_, old⟩
    · cases new
    · exact sound.known x old
  · simp only [kinds_update changed]
    refine sound.cached.append ?_
    rw [nothing]
    simp
  · have own : costs b (s.table.insert r ⟨1, false, .none, 0⟩) r.objId =
        objCost b (createCacheObj r ⟨1, false, .none, 0⟩) := by
      rw [costs_update b changed, update_self]
      rfl
    simp only [total_append, total_cons, total_nil, total_costs b changed missing, own, sound.bytes]
    omega
  · simp only [List.length_append, List.length_singleton, sound.count]
    omega
  · simp only [objCost]
    omega
  · simp only [freqs_update changed]
    exact entered
  · exact ⟨node.push r.objId, update_self 1 _ s.freqMap⟩

/-! ## A cached object leaves -/

/-- The cache after a cached object has left both experts; its entry in the table becomes a
ghost or goes. -/
def parted (b : Setup) (s : State) (id : Nat) (obj : CacheObj Meta) (node : FreqNode)
    (table : Fifo Meta) : State :=
  { s with
    table := table
    q := s.q.erase id
    freqMap := Function.update s.freqMap (freqOf obj.tag.freq) (some (node.drop id))
    minFreq := (s.index.leave id ⟨obj.objSize, freqOf obj.tag.freq⟩ node).minFreq
    occupiedByte := s.occupiedByte - objCost b obj
    nObj := s.nObj - 1 }

theorem Resident.part (resident : Resident b s) (found : s.table.find id = some obj)
    (cached : kindOf obj = .cached) (there : s.freqMap (freqOf obj.tag.freq) = some node)
    {v : Option (CacheObj Meta)} (distinct : table.Distinct)
    (changed : table.find = update s.table.find id v)
    (out : ∀ o ∈ v, ∃ e, e ≠ Expert.none ∧ kindOf o = .ghost e) :
    Resident b (parted b s id obj node table) := by
  have member : id ∈ s.q := (resident.mem_iff found).mpr cached
  have gone : v.map kindOf ≠ some .cached := by
    intro impossible
    obtain ⟨o, own, kind⟩ := Option.map_eq_some_iff.mp impossible
    obtain ⟨e, _, ghost⟩ := out o own
    rw [ghost] at kind
    cases kind
  have unlisted : v.bind freqEntry = none := by
    refine Option.bind_eq_none_iff.mpr fun o own => ?_
    obtain ⟨e, _, ghost⟩ := out o own
    exact if_pos (isGhost_of_ghost ghost).1
  have cost := objCost_nonneg b obj
  have fits := resident.fits
  unfold parted
  constructor
  · exact distinct
  · intro x here
    simp only [kinds_update changed] at here
    rcases CrLfu.update_eq_some here with ⟨_, own⟩ | ⟨_, old⟩
    · obtain ⟨o, stays, kind⟩ := Option.map_eq_some_iff.mp own
      obtain ⟨e, real, ghost⟩ := out o stays
      rw [ghost] at kind
      exact real (Kind.ghost.inj kind)
    · exact resident.known x old
  · simp only [kinds_update changed]
    exact resident.cached.erase gone
  · have absent := resident.cached.nodup.not_mem_erase (a := id)
    simp only [total_costs b changed absent, total_erase _ member, costs_found b found, resident.bytes]
  · have positive := List.length_pos_of_mem member
    simp only [List.length_erase_of_mem member, resident.count]
    omega
  · simp only
    omega
  · simp only [freqs_update changed, unlisted]
    exact resident.listed.drop (freqs_cached found cached) there
  · obtain ⟨first, one⟩ := resident.one
    simp only [update_apply]
    split
    · exact ⟨_, rfl⟩
    · exact ⟨first, one⟩

theorem parted_index (obj : CacheObj Meta) (node : FreqNode) {v : Option (CacheObj Meta)}
    (changed : table.find = update s.table.find id v)
    (out : ∀ o ∈ v, ∃ e, e ≠ Expert.none ∧ kindOf o = .ghost e) :
    (parted b s id obj node table).index = s.index.leave id ⟨obj.objSize, freqOf obj.tag.freq⟩ node := by
  have unlisted : v.bind indexEntry = none := by
    refine Option.bind_eq_none_iff.mpr fun o own => ?_
    obtain ⟨e, _, ghost⟩ := out o own
    exact if_pos (isGhost_of_ghost ghost).1
  have objs := index_update changed
  rw [unlisted, ← index_objs s] at objs
  have shape : s.index.leave id ⟨obj.objSize, freqOf obj.tag.freq⟩ node =
      { (s.index.setNode (freqOf obj.tag.freq) (node.drop id)).store id none with
        minFreq := (s.index.leave id ⟨obj.objSize, freqOf obj.tag.freq⟩ node).minFreq } := by
    unfold CrLfu.State.leave
    split <;> rfl
  rw [shape]
  exact congrArg (fun o => (⟨o, _, _, _⟩ : CrLfu.State)) objs

/-! ## Histories that are shortened -/

section Trimmed

variable {e : Expert} {h : History} {table : Fifo Meta} {a : History × Fifo Meta}

theorem Trimming.kinds_iff (trimming : Trimming b e h table a) {k : Kind} (other : k ≠ .ghost e)
    (id : Nat) : kinds a.2 id = some k ↔ kinds table id = some k := by
  constructor
  · intro here
    rcases trimming.gone id with same | none
    · rwa [kinds, same] at here
    · rw [kinds, none] at here
      cases here
  · intro here
    have away : kinds table id ≠ some (.ghost e) := by
      rw [here]
      exact fun same => other (Option.some.inj same)
    rw [kinds, trimming.frame id away]
    exact here

theorem Trimming.lists (trimming : Trimming b e h table a) {k : Kind} (other : k ≠ .ghost e)
    {l : List Nat} (lists : Lists (kinds table) l k) :
    Lists (kinds a.2) l k ∧ total (costs b a.2) l = total (costs b table) l := by
  refine ⟨⟨lists.nodup, fun id => (lists.mem id).trans (trimming.kinds_iff other id).symm⟩, ?_⟩
  refine total_congr fun id member => ?_
  have away : kinds table id ≠ some (.ghost e) := by
    rw [(lists.mem id).mp member]
    exact fun same => other (Option.some.inj same)
  rw [costs, trimming.frame id away]
  rfl

theorem Trimming.bind_eq {β : Type} (g : CacheObj Meta → Option β)
    (ghosts : ∀ o, o.tag.isGhost = true → g o = none) (trimming : Trimming b e h table a) :
    (fun id => (a.2.find id).bind g) = fun id => (table.find id).bind g := by
  funext id
  by_cases own : kinds table id = some (.ghost e)
  · obtain ⟨o, found, kind⟩ := Option.map_eq_some_iff.mp own
    have nothing := ghosts o (isGhost_of_ghost kind).1
    rcases trimming.gone id with same | none
    · rw [same]
    · rw [none, found, Option.bind_some, nothing, Option.bind_none]
  · rw [trimming.frame id own]

theorem Trimming.freqs_eq (trimming : Trimming b e h table a) : freqs a.2 = freqs table :=
  trimming.bind_eq freqEntry fun _ ghost => if_pos ghost

theorem Trimming.index_eq (trimming : Trimming b e h table a) :
    (fun id => (a.2.find id).bind indexEntry) = fun id => (table.find id).bind indexEntry :=
  trimming.bind_eq indexEntry fun _ ghost => if_pos ghost

theorem Trimming.resident (trimming : Trimming b e h s.table a) (real : e ≠ .none)
    (resident : Resident b s) : Resident b { s with table := a.2 } := by
  obtain ⟨lists, costs⟩ := trimming.lists (by simp) resident.cached
  refine { resident with distinct := trimming.distinct, known := ?_, cached := lists, bytes := ?_, listed := ?_ }
  · intro id here
    exact resident.known id ((trimming.kinds_iff (fun same => real (Kind.ghost.inj same).symm) id).mp here)
  · rw [costs]
    exact resident.bytes
  · rw [trimming.freqs_eq]
    exact resident.listed

theorem Trimming.other (trimming : Trimming b e h table a) {k : History} {other : Expert}
    (apart : other ≠ e) (kept : Kept b table k other) : Kept b a.2 k other := by
  obtain ⟨lists, costs⟩ := trimming.lists (fun same => apart (Kind.ghost.inj same)) kept.lists
  exact ⟨lists, costs.symm ▸ kept.bytes⟩

end Trimmed

/-! ## An eviction -/

def marked (s : State) (id : Nat) (e : Expert) : Fifo Meta :=
  s.table.retag id fun m =>
    { m with isGhost := true, evictExpert := e, evictionVtime := BitVec.ofNat 40 s.nReq }

theorem marked_find (e : Expert) (found : s.table.find id = some obj) :
    ∃ ghost, (marked s id e).find = update s.table.find id (some ghost) ∧
      kindOf ghost = .ghost e ∧ ghost.objSize = obj.objSize :=
  ⟨_, Fifo.find_retag _ found, if_pos rfl, rfl⟩

theorem objCost_congr (b : Setup) {o o' : CacheObj Meta} (same : o.objSize = o'.objSize) :
    objCost b o = objCost b o' := by
  rw [objCost, objCost, CacheObj.bytes, CacheObj.bytes, same]

theorem makeGhost_eq (e : Expert) (found : s.table.find id = some obj)
    (there : s.freqMap (freqOf obj.tag.freq) = some node) :
    makeGhost b s id e = remember b (parted b s id obj node (marked s id e)) obj e := by
  have dropped := removeObjFromFreqNode_eq obj.objSize there id (marked s id e) (s.q.erase id)
  unfold marked at dropped
  simp only [makeGhost, found, dropped, bind, Except.bind]
  rfl

theorem record_ends {h : History} (distinct : s.table.Distinct) (kept : Kept b s.table h e)
    (found : s.table.find id = some obj) (cached : kindOf obj = .cached) :
    ∃ a, record b h (marked s id e) obj = .ok a ∧ Trimming b e (h.enter b obj) (marked s id e) a ∧
      a.1.occupiedByte ≤ (b.cacheSize / 2 : Nat) ∧
      (id ∈ a.1.ids ↔ objCost b obj ≤ (b.cacheSize / 2 : Nat)) := by
  obtain ⟨ghost, changed, kind, size⟩ := marked_find e found
  obtain rfl := Fifo.find_objId found
  have cost := objCost_congr b size
  have before : kinds s.table obj.objId ≠ some (.ghost e) := by
    rw [kinds, found, Option.map_some, cached]
    simp
  have entered := kept.enter changed before kind cost
  have there : (marked s obj.objId e).find obj.objId = some ghost := by
    rw [changed, update_self]
  have enough : (h.enter b obj).ids.length < h.ids.length + 2 := by
    simp only [History.enter, List.length_append, List.length_singleton]
    omega
  have ends := trim_ends entered (distinct.retag _ _) rfl there enough
  rwa [cost] at ends

/-- The object has become a ghost of this expert, unless the history is too short for it. -/
structure Ghosted (b : Setup) (s : State) (id : Nat) (obj : CacheObj Meta) (node : FreqNode) (e : Expert)
    (t : State) : Prop where
  sound : Sound b t
  q : t.q = s.q.erase id
  index : t.index = s.index.leave id ⟨obj.objSize, freqOf obj.tag.freq⟩ node
  occupiedByte : t.occupiedByte = s.occupiedByte - objCost b obj
  sizes : ∀ x o, t.table.find x = some o → ∃ old, s.table.find x = some old ∧ old.objSize = o.objSize
  others : ∀ x, x ≠ id → kinds t.table x = kinds s.table x ∨ kinds t.table x = none
  own : kinds t.table id = some (.ghost e) ∨ kinds t.table id = none
  recorded : e = .lru → (id ∈ t.ghostLru.ids ↔ objCost b obj ≤ (b.cacheSize / 2 : Nat))
  lost : e = .both → kinds t.table id = some (.ghost .both)

theorem marked_sizes (e : Expert) (found : s.table.find id = some obj) {x : Nat} {o : CacheObj Meta}
    (here : (marked s id e).find x = some o) :
    ∃ old, s.table.find x = some old ∧ old.objSize = o.objSize := by
  obtain ⟨ghost, changed, _, size⟩ := marked_find e found
  rw [changed] at here
  rcases CrLfu.update_eq_some here with ⟨rfl, new⟩ | ⟨_, old⟩
  · cases new
    exact ⟨obj, found, size.symm⟩
  · exact ⟨o, old, rfl⟩

theorem makeGhost_ends (sound : Sound b s) (found : s.table.find id = some obj)
    (cached : kindOf obj = .cached) (there : s.freqMap (freqOf obj.tag.freq) = some node)
    (real : e ≠ .none) : ∃ t, makeGhost b s id e = .ok t ∧ Ghosted b s id obj node e t := by
  obtain ⟨ghost, changed, kind, size⟩ := marked_find e found
  have out : ∀ o ∈ some ghost, ∃ e, e ≠ Expert.none ∧ kindOf o = .ghost e := by
    rintro _ ⟨⟩
    exact ⟨e, real, kind⟩
  have resident := sound.part found cached there (sound.distinct.retag _ _) changed out
  have index := parted_index (b := b) obj node changed out
  have here : kinds s.table id = some .cached := by rw [kinds, found, Option.map_some, cached]
  have marks : kinds (marked s id e) = update (kinds s.table) id (some (.ghost e)) := by
    rw [kinds_update changed, Option.map_some, kind]
  have others : ∀ x, x ≠ id → kinds (marked s id e) x = kinds s.table x := by
    intro x apart
    rw [marks, update_of_ne apart]
  have own : kinds (marked s id e) id = some (.ghost e) := by rw [marks, update_self]
  have stays : ∀ {h other}, Kept b s.table h other → other ≠ e → Kept b (marked s id e) h other := by
    intro h other kept apart
    refine kept.other changed ?_ ?_
    · rw [here]
      simp
    · rw [Option.map_some, kind]
      exact fun same => apart (Kind.ghost.inj (Option.some.inj same)).symm
  -- what is left of the table when a history has been shortened
  have left : ∀ {h : History} {a : History × Fifo Meta}, Trimming b e h (marked s id e) a →
      (∀ x o, a.2.find x = some o → ∃ old, s.table.find x = some old ∧ old.objSize = o.objSize) ∧
      ∀ x, kinds a.2 x = kinds (marked s id e) x ∨ kinds a.2 x = none := by
    intro h a trimming
    constructor
    · intro x o stored
      rcases trimming.gone x with same | none
      · rw [same] at stored
        exact marked_sizes e found stored
      · rw [none] at stored
        cases stored
    · intro x
      rcases trimming.gone x with same | none
      · exact .inl (congrArg _ same)
      · exact .inr (congrArg (Option.map kindOf) none)
  rw [makeGhost_eq e found there]
  cases e with
  | none => exact absurd rfl real
  | both =>
    refine ⟨_, rfl, ⟨resident, stays sound.lru (by simp), stays sound.lfu (by simp), sound.shortLru,
      sound.shortLfu⟩, rfl, index, rfl, ?_, ?_, .inl own, ?_, fun _ => own⟩
    · exact fun x o stored => marked_sizes .both found stored
    · exact fun x apart => .inl (others x apart)
    · intro impossible
      cases impossible
  | lru =>
    obtain ⟨a, run, trimming, short, recorded⟩ := record_ends sound.distinct sound.lru found cached
    obtain ⟨sizes, kinds⟩ := left trimming
    have final := trimming.resident (s := parted b s id obj node (marked s id .lru)) real resident
    refine ⟨_, congrArg (Except.map _) run, ⟨final.congr rfl rfl rfl rfl rfl, trimming.kept,
      trimming.other (by simp) (stays sound.lfu (by simp)), short, sound.shortLfu⟩, rfl, ?_, rfl, sizes,
      ?_, ?_, fun _ => recorded, ?_⟩
    · rw [← index]
      exact congrArg (fun o => (⟨o, _, _, _⟩ : CrLfu.State)) trimming.index_eq
    · intro x apart
      rw [← others x apart]
      exact kinds x
    · rw [← own]
      exact kinds id
    · intro impossible
      cases impossible
  | lfu =>
    obtain ⟨a, run, trimming, short, _⟩ := record_ends sound.distinct sound.lfu found cached
    obtain ⟨sizes, kinds⟩ := left trimming
    have final := trimming.resident (s := parted b s id obj node (marked s id .lfu)) real resident
    refine ⟨_, congrArg (Except.map _) run, ⟨final.congr rfl rfl rfl rfl rfl,
      trimming.other (by simp) (stays sound.lru (by simp)), trimming.kept, sound.shortLru, short⟩, rfl, ?_,
      rfl, sizes, ?_, ?_, ?_, ?_⟩
    · rw [← index]
      exact congrArg (fun o => (⟨o, _, _, _⟩ : CrLfu.State)) trimming.index_eq
    · intro x apart
      rw [← others x apart]
      exact kinds x
    · rw [← own]
      exact kinds id
    · intro impossible
      cases impossible
    · intro impossible
      cases impossible

/-! ## The choice of a victim -/

theorem Resident.mem_of_first (resident : Resident b s) (first : firstOfMinFreq s = .ok (some id)) :
    id ∈ s.q := by
  unfold firstOfMinFreq at first
  split at first
  · cases first
  · rename_i node there
    have head : node.objs.head? = some id := Except.ok.inj first
    have listed := (resident.listed.mem s.minFreq id).mp ⟨node, there, List.mem_of_head? head⟩
    exact (resident.cached.mem id).mpr (kinds_of_freqs listed)

theorem Sound.chosen (sound : Sound b s) (candidate : Option Nat) (genVtime : Int) (draws : Nat) :
    Sound b { s with
      toEvictCandidate := candidate
      toEvictCandidateGenVtime := genVtime
      draws := draws } :=
  ⟨sound.toResident.congr rfl rfl rfl rfl rfl, sound.lru, sound.lfu, sound.shortLru, sound.shortLfu⟩

theorem chooseVictim_ok {victim : Option Nat} {u : State}
    (run : chooseVictim b s = .ok (victim, e, u)) :
    ∃ first, firstOfMinFreq s = .ok first ∧ e ≠ .none ∧ (e = .both ↔ s.q.head? = first) ∧
      (victim = s.q.head? ∨ victim = first) ∧ ∃ candidate genVtime draws, u = { s with
        toEvictCandidate := candidate
        toEvictCandidateGenVtime := genVtime
        draws := draws } := by
  obtain ⟨first, found, run⟩ := bind_eq_ok.mp run
  have same : firstOfMinFreq s = .ok first := found
  refine ⟨first, same, ?_⟩
  by_cases timely : s.toEvictCandidateGenVtime = s.nReq
  · simp only [if_pos timely] at run
    cases run
    refine ⟨?_, ?_, .inl rfl, _, _, _, rfl⟩
    · split <;> simp
    · split
      · rename_i coincide
        exact iff_of_true rfl coincide
      · rename_i apart
        exact iff_of_false (by simp) apart
  · simp only [if_neg timely] at run
    by_cases coincide : s.q.head? = first
    · simp only [if_pos coincide] at run
      cases run
      exact ⟨by simp, iff_of_true rfl coincide, .inl rfl, _, _, _, rfl⟩
    · simp only [if_neg coincide] at run
      by_cases lower : draw b { s with toEvictCandidate := s.q.head? } < s.wLru
      · simp only [if_pos lower] at run
        cases run
        exact ⟨by simp, iff_of_false (by simp) coincide, .inl rfl, _, _, _, rfl⟩
      · simp only [if_neg lower] at run
        cases run
        exact ⟨by simp, iff_of_false (by simp) coincide, .inr rfl, _, _, _, rfl⟩

theorem lecarEvict_ok (sound : Sound b s) {t : State} (run : lecarEvict b s = .ok t) :
    ∃ first id obj node e, firstOfMinFreq s = .ok first ∧ e ≠ .none ∧ (e = .both ↔ s.q.head? = first) ∧
      id ∈ s.q ∧ s.table.find id = some obj ∧ Ghosted b s id obj node e t := by
  obtain ⟨⟨victim, e, u⟩, chosen, run⟩ := bind_eq_ok.mp run
  obtain ⟨first, candidate, real, coincide, who, choice, genVtime, draws, rfl⟩ := chooseVictim_ok chosen
  have after := sound.chosen choice genVtime draws
  cases victim with
  | none => cases run
  | some id =>
    have member : id ∈ s.q := by
      rcases who with tail | lowest
      · exact List.mem_of_head? tail.symm
      · rw [← lowest] at candidate
        exact sound.mem_of_first candidate
    obtain ⟨obj, node, found, cached, there⟩ := after.entry_of member
    obtain ⟨v, ghost, ghosted⟩ := makeGhost_ends after found cached there real
    have same : Except.ok v = Except.ok (ε := Stop Fault) t := ghost.symm.trans run
    cases same
    exact ⟨first, id, obj, node, e, candidate, real, coincide, member, found, { ghosted with }⟩

/-! ## A removal -/

theorem lecarRemove_keeps (sound : Sound b s) (alive : ∀ e, kinds s.table id ≠ some (.ghost e)) :
    ∃ found t, lecarRemove b s id = .ok (found, t) ∧ Sound b t := by
  cases held : s.table.find id with
  | none =>
    refine ⟨false, s, ?_, sound⟩
    simp only [lecarRemove, held]
  | some obj =>
    have here : kinds s.table id = some (kindOf obj) := by rw [kinds, held, Option.map_some]
    have cached : kindOf obj = .cached := by
      cases kind : kindOf obj with
      | cached => rfl
      | ghost e =>
        rw [kind] at here
        exact absurd here (alive e)
    rw [cached] at here
    obtain ⟨node, there, _⟩ := (sound.listed.mem _ id).mpr (freqs_cached held cached)
    have changed := Fifo.find_remove sound.distinct id
    have out : ∀ o ∈ (none : Option (CacheObj Meta)), ∃ e, e ≠ Expert.none ∧ kindOf o = .ghost e := by
      intro o impossible
      cases impossible
    have resident := sound.part held cached there (sound.distinct.remove id) changed out
    have stays : ∀ {h e}, Kept b s.table h e → Kept b (s.table.remove id) h e := by
      intro h e kept
      refine kept.other changed ?_ (by simp)
      rw [here]
      simp
    refine ⟨true, parted b s id obj node (s.table.remove id), ?_, resident, stays sound.lru,
      stays sound.lfu, sound.shortLru, sound.shortLfu⟩
    have dropped := removeObjFromFreqNode_eq obj.objSize there id s.table (s.q.erase id)
    simp only [lecarRemove, held, dropped, bind, Except.bind, pure, Except.pure]
    rfl

end Lecar
