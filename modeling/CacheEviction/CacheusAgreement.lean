import CacheEviction.CacheusExperts

/-!
# The experts of Cacheus describe one cache

With objects of one byte the two experts hold the same objects after every request, and
what they remember is apart from it. An object that comes back from `H_list` continues with
the frequency it left with, unless it is the oldest entry of a history of `cache_size - 1`:
the victim that makes room for it takes the place of that entry.
-/
namespace CacheusExperts

open FuelLoops FifoCache CacheGet Cacheus LruRuns LruStack StepTraces Binary64 Function

variable {c : Setup} {s t : Experts} {x : Nat}

/-! ## Ghost lists -/

theorem ghostSize_pos (large : 2 ≤ c.cacheSize) : 1 ≤ c.ghostSize := by
  have positive : (0 : ℚ) < c.cacheSize := by
    have : 0 < c.cacheSize := by omega
    exact_mod_cast this
  have exponent : 1 ≤ Int.log 2 (c.cacheSize : ℚ) := by
    rw [← Int.zpow_le_iff_le_log (by decide) positive]
    exact_mod_cast large
  have lower : (2 : ℚ) ≤ double c.cacheSize := by
    calc (2 : ℚ) = 2 ^ (1 : ℤ) := (zpow_one _).symm
      _ ≤ 2 ^ Int.log 2 (c.cacheSize : ℚ) := zpow_le_zpow_right₀ (by norm_num) exponent
      _ ≤ double c.cacheSize := zpow_log_le_double positive
  have half : (1 : ℤ) ≤ ⌊double (c.cacheSize : ℚ) / 2 * 1⌋ := by
    rw [Int.le_floor]
    push_cast
    linarith
  rw [Setup.ghostSize]
  omega

/-- A ghost list of units, apart from the ids that are held. -/
structure Ghost (g : Nat) (held : List Nat) (q : Fifo Unit) : Prop where
  ones : ∀ o ∈ q.objs, o.bytes = 1
  fits : (resident q).length ≤ g
  nodup : (resident q).Nodup
  apart : ∀ x ∈ held, x ∉ resident q

variable {g : Nat} {held : List Nat} {q : Fifo Unit}

theorem Ghost.empty (g : Nat) : Ghost g [] .empty where
  ones := by simp
  fits := by simp [resident]
  nodup := by simp [resident]
  apart := by simp

theorem Ghost.mono {held' : List Nat} (ghost : Ghost g held q) (fewer : held' ⊆ held) :
    Ghost g held' q :=
  { ghost with apart := fun x here => ghost.apart x (fewer here) }

theorem Ghost.cons (ghost : Ghost g held q) (new : x ∉ resident q) : Ghost g (x :: held) q :=
  { ghost with apart := List.forall_mem_cons.mpr ⟨new, ghost.apart⟩ }

theorem Ghost.remove (ghost : Ghost g held q) (x : Nat) :
    Ghost g (x :: held) (q.remove x) := by
  have ids := resident_remove q x
  refine Ghost.cons ⟨remove_units ghost.ones x, ?_, ?_, fun y here past => ?_⟩ ?_
  · rw [ids]
    exact List.length_erase_le.trans ghost.fits
  · rw [ids]
    exact ghost.nodup.erase x
  · rw [ids] at past
    exact ghost.apart y here (List.mem_of_mem_erase past)
  · rw [ids]
    exact ghost.nodup.not_mem_erase

theorem ghostGet_ends (large : 2 ≤ c.cacheSize) (ghost : Ghost c.ghostSize held q) (gone : x ∉ held) :
    Ends (fun n => ghostGet c n q ⟨x, 1⟩) fun t => Ghost c.ghostSize held t ∧
      ∀ y ∈ resident t, y = x ∨ y ∈ resident q := by
  have room := ghostSize_pos large
  obtain ⟨⟨hit, t⟩, ⟨N, run⟩, -, ids, ones⟩ := lruGet_step room ghost.ones ghost.fits x
  refine ⟨t, ⟨N, fun n enough => ?_⟩, ⟨ones, ?_, ?_, ?_⟩, ?_⟩
  · have done := run n enough
    simp only [ghostGet, done]
  · rw [ids]
    exact lruStep_length room ghost.fits
  · rw [ids]
    exact lruStep_nodup ghost.nodup
  · intro y here past
    rw [ids] at past
    rcases mem_lruStep past with rfl | old
    · exact gone here
    · exact ghost.apart y here old
  · intro y member
    rw [ids] at member
    exact mem_lruStep member

/-! ## The invariant -/

/-- The two experts hold the same units, and what is remembered is apart from them. -/
structure Agreed (c : Setup) (s : Experts) : Prop where
  lists : Units c.cacheSize s.lru
  sound : CrLfu.Sound s.lfu
  same : ∀ x, (s.lfu.objs x).isSome ↔ x ∈ s.lru.held
  sizes : ∀ {x o}, s.lfu.objs x = some o → o.objSize = 1
  fits : s.lru.held.length ≤ c.cacheSize
  recorded : ∀ x ∈ resident s.lru.hList, s.historyFreq x = s.evictedFreq x ∧ 1 ≤ s.evictedFreq x
  lruG : Ghost c.ghostSize s.lru.held s.lruG
  lfuG : Ghost c.ghostSize s.lru.held s.lfuG
  ghosts : ∀ x ∈ resident s.lruG, x ∉ resident s.lfuG

theorem init_agreed (large : 2 ≤ c.cacheSize) (left : BitVec 64) : Agreed c (cacheusInit c left) where
  lists := init_units large left
  sound := CrLfu.crLfuInit_sound
  same := by simp [cacheusInit, CrLfu.crLfuInit, srLruInit, State.held, resident]
  sizes := by simp [cacheusInit, CrLfu.crLfuInit]
  fits := by simp [cacheusInit, srLruInit, State.held, resident]
  recorded := by simp [cacheusInit, srLruInit, resident]
  lruG := .empty _
  lfuG := .empty _
  ghosts := by simp [cacheusInit, resident]

theorem Agreed.stored (agreed : Agreed c s) (here : x ∈ s.lru.held) : ∃ o, s.lfu.objs x = some o :=
  Option.isSome_iff_exists.mp ((agreed.same x).mpr here)

theorem Agreed.holds (agreed : Agreed c s) {o : CrLfu.Obj} (stored : s.lfu.objs x = some o) :
    x ∈ s.lru.held := (agreed.same x).mp (by rw [stored]; rfl)

theorem Agreed.absent (agreed : Agreed c s) (gone : x ∉ s.lru.held) : s.lfu.objs x = none :=
  Option.not_isSome_iff_eq_none.mp fun here => gone ((agreed.same x).mp here)

theorem Agreed.node_fits (agreed : Agreed c s) {freq : Int} {node : CrLfu.FreqNode}
    (here : s.lfu.freqMap freq = some node) : node.objs ⊆ s.lru.held ∧ node.objs.Nodup := by
  refine ⟨fun y member => ?_, agreed.sound.nodup here⟩
  obtain ⟨o, stored, -⟩ := agreed.sound.freq_of here member
  exact agreed.holds stored

/-! ## Lookup -/

/-- A lookup moves objects, and forgets an id that was missed. -/
structure Found (c : Setup) (s : Experts) (x : Nat) (t : Experts) : Prop extends Agreed c t where
  moved : Shuffled s.lru t.lru
  historyFreq : t.historyFreq = s.historyFreq
  evictedFreq : t.evictedFreq = s.evictedFreq
  forgotten : x ∉ s.lru.held → x ∉ resident t.lruG ∧ x ∉ resident t.lfuG

theorem crLfuFind_agreed (agreed : Agreed c s) (counted : c.cacheSize < 2 ^ 32) (x : Nat) :
    ∃ hit lfu, CrLfu.crLfuFind s.lfu x = some (hit, lfu) ∧ CrLfu.Sound lfu ∧
      (∀ y, (lfu.objs y).isSome ↔ (s.lfu.objs y).isSome) ∧
      ∀ {y o}, lfu.objs y = some o → o.objSize = 1 := by
  by_cases here : x ∈ s.lru.held
  · obtain ⟨o, stored⟩ := agreed.stored here
    obtain ⟨lfu, run, sound, objs⟩ := CrLfu.crLfuFind_hit agreed.sound stored (by
      -- the node of the next frequency does not have the object
      intro node next
      obtain ⟨fewer, nodup⟩ := agreed.node_fits next
      have apart : x ∉ node.objs := by
        intro member
        obtain ⟨p, same, higher⟩ := agreed.sound.freq_of next member
        rw [stored] at same
        cases same
        omega
      have length := (List.subperm_of_subset (List.nodup_cons.mpr ⟨apart, nodup⟩)
        (List.cons_subset.mpr ⟨here, fewer⟩)).length_le
      have fits := agreed.fits
      rw [List.length_cons] at length
      omega)
    refine ⟨true, lfu, run, sound, fun y => ?_, fun {y p} found => ?_⟩
    · rw [objs]
      by_cases same : y = x
      · subst same
        rw [update_self, stored]
        rfl
      · rw [update_of_ne same]
    · rw [objs] at found
      rcases CrLfu.update_eq_some found with ⟨-, ⟨⟩⟩ | ⟨-, old⟩
      · show o.objSize = 1
        exact agreed.sizes stored
      · exact agreed.sizes old
  · exact ⟨false, s.lfu, CrLfu.crLfuFind_absent (agreed.absent here), agreed.sound, fun _ => .rfl,
      agreed.sizes⟩

theorem cacheusFind_found (agreed : Agreed c s) (counted : c.cacheSize < 2 ^ 32) (r : Request) :
    ∃ t, cacheusFind c s r = .ok (decide (r.objId ∈ s.lru.held), t) ∧ Found c s r.objId t := by
  obtain ⟨lru, lruRun, units, moved⟩ := srLruFind_units agreed.lists r
  obtain ⟨hit, lfu, lfuRun, sound, same, sizes⟩ := crLfuFind_agreed agreed counted r.objId
  have run : cacheusFind c s r = .ok (decide (r.objId ∈ s.lru.held),
      if decide (r.objId ∈ s.lru.held) then { s with lru := lru, lfu := lfu }
      else checkAndUpdateHistory { s with lru := lru, lfu := lfu } r.objId) := by
    rw [cacheusFind, Setup.lists, lruRun, lfuRun]
    rfl
  refine ⟨_, run, ?_⟩
  have fewer : lru.held ⊆ s.lru.held := moved.held.subset
  have base : Agreed c { s with lru := lru, lfu := lfu } :=
    { lists := units
      sound := sound
      same := fun y => (same y).trans ((agreed.same y).trans moved.held.mem_iff.symm)
      sizes := sizes
      fits := moved.held.length_eq.trans_le agreed.fits
      recorded := by
        intro y past
        have past : y ∈ resident s.lru.hList := moved.hList ▸ past
        exact agreed.recorded y past
      lruG := agreed.lruG.mono fewer
      lfuG := agreed.lfuG.mono fewer
      ghosts := agreed.ghosts }
  by_cases here : r.objId ∈ s.lru.held
  · rw [decide_eq_true here, if_pos rfl]
    exact ⟨base, moved, rfl, rfl, fun gone => absurd here gone⟩
  · rw [decide_eq_false here, if_neg Bool.false_ne_true]
    have left := base.lruG.remove r.objId
    have right := base.lfuG.remove r.objId
    refine ⟨{ base with
      lruG := left.mono (List.subset_cons_self _ _)
      lfuG := right.mono (List.subset_cons_self _ _)
      ghosts := ?_ }, moved, rfl, rfl, fun _ => ?_⟩
    · intro y first second
      rw [checkAndUpdateHistory, resident_remove] at first second
      exact base.ghosts y (List.mem_of_mem_erase first) (List.mem_of_mem_erase second)
    · exact ⟨left.apart _ List.mem_cons_self, right.apart _ List.mem_cons_self⟩

/-! ## Insertion -/

/-- A missed object enters both experts, with the frequency of its entry in `H_list`. -/
structure Inserted (c : Setup) (s : Experts) (x : Nat) (t : Experts) : Prop extends Agreed c t where
  held : t.lru.held.Perm (x :: s.lru.held)
  history : resident t.lru.hList = (resident s.lru.hList).erase x
  freq : (t.lfu.objs x).map CrLfu.Obj.freq =
    some (if x ∈ resident s.lru.hList then s.evictedFreq x + 1 else 1)

theorem recalled_eq (agreed : Agreed c s) (x : Nat) :
    recalled s x = if x ∈ resident s.lru.hList then some (s.evictedFreq x) else none := by
  by_cases past : x ∈ resident s.lru.hList
  · obtain ⟨o, found, -⟩ := find_of_resident past
    rw [recalled, found, if_pos past, (agreed.recorded x past).1]
    rfl
  · rw [recalled, find_of_absent past, if_neg past]
    rfl

theorem canInsert_units (agreed : Agreed c s) (large : 2 ≤ c.cacheSize) (x : Nat) :
    srLruCanInsert c.lists s.lru ⟨x, 1⟩ = true := srLruCanInsert_units agreed.lists large x

theorem lruInsert_units (agreed : Agreed c s) (large : 2 ≤ c.cacheSize) (new : x ∉ s.lru.held)
    (fits : s.lru.held.length + 1 ≤ c.cacheSize) (lfu : CrLfu.State) :
    ∃ lru, lruInsert c { s with lfu := lfu } ⟨x, 1⟩ = .ok { s with lru := lru, lfu := lfu } ∧
      Entered c.cacheSize s.lru x lru := by
  obtain ⟨lru, run, entered⟩ := enter_units agreed.lists large (r := ⟨x, 1⟩) rfl new
  have length := entered.held.length_eq
  rw [List.length_cons] at length
  have idle : relieve c { s with lru := lru, lfu := lfu } = .ok { s with lru := lru, lfu := lfu } := by
    rw [relieve, Setup.lists, srLruOccupied_units entered.toPlain]
    exact if_neg (by omega)
  have trimmed : trimHistory (units c.cacheSize) lru = .ok lru := by
    refine trimHistory_idle ?_
    rw [occupied_units entered.hUnits]
    exact_mod_cast entered.hFits
  refine ⟨lru, ?_, entered⟩
  rw [lruInsert, Setup.lists, run]
  show (do let s ← relieve c { s with lru := lru, lfu := lfu }; _) = _
  rw [idle]
  show (do let lru ← trimHistory (units c.cacheSize) lru; _) = _
  rw [trimmed]
  rfl

theorem crLfuInsert_agreed (agreed : Agreed c s) (counted : c.cacheSize < 2 ^ 32) (new : x ∉ s.lru.held)
    (fits : s.lru.held.length + 1 ≤ c.cacheSize)
    (others : x ∈ resident s.lru.hList → s.lru.held ≠ []) :
    CrLfu.Sound (CrLfu.crLfuInsert s.lfu x 1 (recalled s x)) ∧
      (CrLfu.crLfuInsert s.lfu x 1 (recalled s x)).objs = update s.lfu.objs x
        (some ⟨1, if x ∈ resident s.lru.hList then s.evictedFreq x + 1 else 1⟩) := by
  have room : ∀ freq node, s.lfu.freqMap freq = some node → node.objs.length + 1 < 2 ^ 32 := by
    intro freq node here
    obtain ⟨fewer, nodup⟩ := agreed.node_fits here
    have length := (List.subperm_of_subset nodup fewer).length_le
    omega
  rw [recalled_eq agreed]
  by_cases past : x ∈ resident s.lru.hList
  · obtain ⟨y, here⟩ := List.exists_mem_of_ne_nil _ (others past)
    obtain ⟨o, stored⟩ := agreed.stored here
    simp only [if_pos past]
    refine CrLfu.crLfuInsert_new agreed.sound (agreed.absent new) 1 ?_ (Or.inr ⟨y, o, stored⟩) room
    rintro f ⟨⟩
    exact (agreed.recorded x past).2
  · simp only [if_neg past]
    exact CrLfu.crLfuInsert_new agreed.sound (agreed.absent new) 1 (fun _ unknown => by cases unknown)
      (Or.inl rfl) room

structure Incoming (c : Setup) (s : Experts) (x : Nat) : Prop extends Agreed c s where
  missing : x ∉ s.lru.held
  forgotten : x ∉ resident s.lruG ∧ x ∉ resident s.lfuG
  room : s.lru.held.length + 1 ≤ c.cacheSize

theorem cacheusInsert_run (incoming : Incoming c s x) (large : 2 ≤ c.cacheSize) :
    ∃ lru, cacheusInsert c s ⟨x, 1⟩ =
        .ok { s with lru := lru, lfu := CrLfu.crLfuInsert s.lfu x 1 (recalled s x) } ∧
      Entered c.cacheSize s.lru x lru := by
  obtain ⟨lru, entering, entered⟩ := lruInsert_units incoming.toAgreed large incoming.missing
    incoming.room (CrLfu.crLfuInsert s.lfu x 1 (recalled s x))
  exact ⟨lru, (if_pos (canInsert_units incoming.toAgreed large x)).trans entering, entered⟩

theorem Incoming.inserted (incoming : Incoming c s x) {lru : State}
    (entered : Entered c.cacheSize s.lru x lru) {lfu : CrLfu.State} (sound : CrLfu.Sound lfu)
    (objs : lfu.objs = update s.lfu.objs x
      (some ⟨1, if x ∈ resident s.lru.hList then s.evictedFreq x + 1 else 1⟩)) :
    Inserted c s x { s with lru := lru, lfu := lfu } := by
  have agreed := incoming.toAgreed
  have held : ∀ y, y ∈ lru.held ↔ y = x ∨ y ∈ s.lru.held := fun y =>
    entered.held.mem_iff.trans List.mem_cons
  refine { lists := entered.toUnits, sound := sound, same := fun y => ?_, sizes := fun {y o} stored => ?_,
           fits := entered.held.length_eq.trans_le incoming.room, recorded := fun y past => ?_,
           lruG := (agreed.lruG.cons incoming.forgotten.1).mono entered.held.subset,
           lfuG := (agreed.lfuG.cons incoming.forgotten.2).mono entered.held.subset,
           ghosts := agreed.ghosts,
           held := entered.held, history := entered.history, freq := ?_ }
  · rw [held y, objs]
    by_cases same : y = x
    · simp [same]
    · rw [update_of_ne same, agreed.same y, or_iff_right same]
  · rw [objs] at stored
    rcases CrLfu.update_eq_some stored with ⟨-, ⟨⟩⟩ | ⟨-, old⟩
    · rfl
    · exact agreed.sizes old
  · rw [entered.history] at past
    exact agreed.recorded y (List.mem_of_mem_erase past)
  · rw [objs, update_self]
    rfl

theorem cacheusInsert_inserted (incoming : Incoming c s x) (large : 2 ≤ c.cacheSize)
    (counted : c.cacheSize < 2 ^ 32) (others : x ∈ resident s.lru.hList → s.lru.held ≠ []) :
    ∃ t, cacheusInsert c s ⟨x, 1⟩ = .ok t ∧ Inserted c s x t := by
  obtain ⟨sound, objs⟩ :=
    crLfuInsert_agreed incoming.toAgreed counted incoming.missing incoming.room others
  obtain ⟨lru, run, entered⟩ := cacheusInsert_run incoming large
  exact ⟨_, run, incoming.inserted entered sound objs⟩

/-! ## Eviction -/

/-- One object leaves both experts for `H_list`, and perhaps for a ghost list. -/
structure Evicted (c : Setup) (s : Experts) (v : Nat) (t : Experts) : Prop extends Agreed c t where
  held : (v :: t.lru.held).Perm s.lru.held
  history : resident t.lru.hList = pushed c.cacheSize (resident s.lru.hList) v
  others : ∀ y, y ≠ v → t.evictedFreq y = s.evictedFreq y
  fromLru : ∀ y ∈ resident t.lruG, y = v ∨ y ∈ resident s.lruG
  fromLfu : ∀ y ∈ resident t.lfuG, y = v ∨ y ∈ resident s.lfuG

/-- The state after a victim has left both experts, before a ghost list takes its id. -/
def departed (s : Experts) (lru : State) (lfu : CrLfu.State) (v : Nat) (freq : Int) : Experts :=
  { s with
    lru := lru
    lfu := lfu
    historyFreq := Function.update s.historyFreq v freq
    evictedFreq := Function.update s.evictedFreq v freq }

variable {v : Nat} {o : CrLfu.Obj} {lru : State} {lfu : CrLfu.State}

theorem departed_evicted (agreed : Agreed c s) (left : Left c.cacheSize s.lru v lru)
    (sound : CrLfu.Sound lfu) (stored : s.lfu.objs v = some o)
    (objs : lfu.objs = update s.lfu.objs v none) :
    Evicted c s v (departed s lru lfu v o.freq) := by
  have gone : v ∉ lru.held := (List.nodup_cons.mp (left.held.nodup_iff.mpr agreed.lists.held_nodup)).1
  have fewer : lru.held ⊆ s.lru.held := fun y here => left.held.subset (List.mem_cons_of_mem v here)
  refine { lists := left.toUnits, sound := sound, same := fun y => ?_, sizes := fun {y p} kept => ?_,
           fits := ?_, recorded := fun y past => ?_, lruG := agreed.lruG.mono fewer,
           lfuG := agreed.lfuG.mono fewer, ghosts := agreed.ghosts, held := left.held,
           history := left.history, others := fun y other => update_of_ne other _ _,
           fromLru := fun _ => Or.inr, fromLfu := fun _ => Or.inr }
  · show (lfu.objs y).isSome ↔ y ∈ lru.held
    rw [objs]
    by_cases same : y = v
    · subst same
      simp [gone]
    · rw [update_of_ne same, agreed.same y, ← left.held.mem_iff, List.mem_cons]
      simp [same]
  · have kept : lfu.objs y = some p := kept
    rw [objs] at kept
    rcases CrLfu.update_eq_some kept with ⟨-, ⟨⟩⟩ | ⟨-, old⟩
    exact agreed.sizes old
  · have length := left.held.length_eq
    have fits := agreed.fits
    rw [List.length_cons] at length
    show lru.held.length ≤ c.cacheSize
    omega
  · show update s.historyFreq v o.freq y = update s.evictedFreq v o.freq y ∧
      1 ≤ update s.evictedFreq v o.freq y
    by_cases same : y = v
    · subst same
      simp only [update_self, true_and]
      exact (agreed.sound.bounds stored).1
    · simp only [update_of_ne same]
      have past : y ∈ resident s.lru.hList ++ [v] :=
        (pushed_sublist _ _ _).subset (left.history ▸ past)
      refine agreed.recorded y ((List.mem_append.mp past).resolve_right fun single => ?_)
      exact same (List.mem_singleton.mp single)

/-! What each call of an expert does to the state. -/

theorem lruEvict_run {obj : CacheObj Marks} (victim : srLruToEvict (units c.cacheSize) s.lru = .ok obj)
    (run : srLruEvict (units c.cacheSize) s.lru = .ok lru) :
    lruEvict c s = .ok { s with
      lru := lru, historyFreq := update s.historyFreq obj.objId 0 } := by
  rw [lruEvict, Setup.lists, victim, run]
  rfl

theorem lru_present (here : v ∈ s.lru.held) :
    ((s.lru.rList.find v).isSome || (s.lru.srList.find v).isSome) = true := by
  rcases List.mem_append.mp here with inSr | inR
  · obtain ⟨o, found, -⟩ := find_of_resident inSr
    simp [found]
  · obtain ⟨o, found, -⟩ := find_of_resident inR
    simp [found]

theorem lruRemove_run (here : v ∈ s.lru.held) (run : srLruRemove (units c.cacheSize) s.lru v = .ok lru) :
    lruRemove c s v = .ok { s with
      lru := lru, historyFreq := update s.historyFreq v 0 } := by
  rw [lruRemove, Setup.lists, run, lru_present here]
  rfl

theorem offload_run (past : v ∈ resident s.lru.hList) (o : CrLfu.Obj) :
    offload s v o = .ok { s with historyFreq := update s.historyFreq v o.freq } := by
  obtain ⟨entry, found, -⟩ := find_of_resident past
  rw [offload, found]
  rfl

theorem lfuEvict_run (run : CrLfu.crLfuEvict s.lfu = some ((v, o), lfu)) (past : v ∈ resident s.lru.hList) :
    lfuEvict s = .ok (departed s s.lru lfu v o.freq) := by
  rw [lfuEvict, run]
  exact offload_run (s := { s with lfu := lfu, evictedFreq := _ }) past o

theorem lfuRemove_run (run : CrLfu.crLfuRemove s.lfu v = some (some o, lfu))
    (past : v ∈ resident s.lru.hList) : lfuRemove s v = .ok (departed s s.lru lfu v o.freq) := by
  rw [lfuRemove, run]
  exact offload_run (s := { s with lfu := lfu, evictedFreq := _ }) past o

theorem departed_after (s : Experts) (lru : State) (lfu : CrLfu.State) (v : Nat) (freq : Int) :
    departed { s with lru := lru, historyFreq := update s.historyFreq v 0 } lru lfu v freq =
      departed s lru lfu v freq := by
  simp only [departed, update_idem]

/-! The three ways an eviction goes. -/

theorem evictBoth_evicted (agreed : Agreed c s) {obj : CacheObj Marks}
    (victim : srLruToEvict (units c.cacheSize) s.lru = .ok obj)
    (lruRun : srLruEvict (units c.cacheSize) s.lru = .ok lru) (left : Left c.cacheSize s.lru obj.objId lru)
    (stored : s.lfu.objs obj.objId = some o) (lfuRun : CrLfu.crLfuEvict s.lfu = some ((obj.objId, o), lfu))
    (sound : CrLfu.Sound lfu) (objs : lfu.objs = update s.lfu.objs obj.objId none) :
    ∃ t, evictBoth c s = .ok t ∧ Evicted c s obj.objId t := by
  refine ⟨_, ?_, departed_evicted agreed left sound stored objs⟩
  rw [evictBoth, lruEvict_run victim lruRun]
  refine (lfuEvict_run (s := { s with lru := lru, historyFreq := _ }) lfuRun left.entry).trans ?_
  rw [departed_after]

theorem Evicted.toLruG (evicted : Evicted c s v t) (apart : v ∉ resident t.lfuG)
    (ghost : Ghost c.ghostSize t.lru.held q) (ids : ∀ y ∈ resident q, y = v ∨ y ∈ resident t.lruG) :
    Evicted c s v { t with lruG := q } := by
  refine { evicted with lruG := ghost, ghosts := fun y member => ?_, fromLru := fun y member => ?_ }
  · rcases ids y member with rfl | old
    · exact apart
    · exact evicted.ghosts y old
  · rcases ids y member with same | old
    · exact Or.inl same
    · exact evicted.fromLru y old

theorem Evicted.toLfuG (evicted : Evicted c s v t) (apart : v ∉ resident t.lruG)
    (ghost : Ghost c.ghostSize t.lru.held q) (ids : ∀ y ∈ resident q, y = v ∨ y ∈ resident t.lfuG) :
    Evicted c s v { t with lfuG := q } := by
  refine { evicted with lfuG := ghost, ghosts := fun y first second => ?_, fromLfu := fun y member => ?_ }
  · rcases ids y second with rfl | old
    · exact apart first
    · exact evicted.ghosts y first old
  · rcases ids y member with same | old
    · exact Or.inl same
    · exact evicted.fromLfu y old

theorem Evicted.gone (evicted : Evicted c s v t) (agreed : Agreed c s) : v ∉ t.lru.held :=
  (List.nodup_cons.mp (evicted.held.nodup_iff.mpr agreed.lists.held_nodup)).1

theorem evictLru_evicted (agreed : Agreed c s) (large : 2 ≤ c.cacheSize) {obj : CacheObj Marks}
    (unit : obj.bytes = 1) (victim : srLruToEvict (units c.cacheSize) s.lru = .ok obj)
    (lruRun : srLruEvict (units c.cacheSize) s.lru = .ok lru)
    (left : Left c.cacheSize s.lru obj.objId lru) :
    Ends (fun n => evictLru c n s obj) fun t => Evicted c s obj.objId t := by
  have here : obj.objId ∈ s.lru.held := left.held.subset List.mem_cons_self
  obtain ⟨o, stored⟩ := agreed.stored here
  obtain ⟨lfu, lfuRun, sound, objs⟩ := CrLfu.crLfuRemove_takes agreed.sound stored
  have evicted := departed_evicted agreed left sound stored objs
  have request : obj.toRequest = ⟨obj.objId, 1⟩ := by
    rw [← toRequest_unit unit]
    rfl
  obtain ⟨q, ⟨N, ghostRun⟩, ghost, ids⟩ := ghostGet_ends large evicted.lruG (evicted.gone agreed)
  refine ⟨_, ⟨N, fun n enough => ?_⟩, evicted.toLruG (agreed.lfuG.apart _ here) ghost ids⟩
  have removed := (lfuRemove_run (s := { s with
    lru := lru, historyFreq := update s.historyFreq obj.objId 0 }) lfuRun left.entry).trans
    (congrArg _ (departed_after s lru lfu obj.objId o.freq))
  show evictLru c n s obj = _
  rw [evictLru, lruEvict_run victim lruRun]
  show (do let s ← lfuRemove _ obj.objId; _) = _
  rw [removed]
  show (do let ghost ← ghostGet c n s.lruG obj.toRequest; _) = _
  rw [request]
  have done := ghostRun n enough
  simp only [departed] at done
  rw [done]
  rfl

theorem evictLfu_evicted (agreed : Agreed c s) (large : 2 ≤ c.cacheSize)
    (stored : s.lfu.objs v = some o) (lfuRun : CrLfu.crLfuEvict s.lfu = some ((v, o), lfu))
    (sound : CrLfu.Sound lfu) (objs : lfu.objs = update s.lfu.objs v none) :
    Ends (fun n => evictLfu c n s v) fun t => Evicted c s v t := by
  have here := agreed.holds stored
  obtain ⟨lru, lruRun, left⟩ := srLruRemove_units agreed.lists large here
  have evicted := departed_evicted agreed left sound stored objs
  obtain ⟨q, ⟨N, ghostRun⟩, ghost, ids⟩ := ghostGet_ends large evicted.lfuG (evicted.gone agreed)
  refine ⟨_, ⟨N, fun n enough => ?_⟩, evicted.toLfuG (agreed.lruG.apart _ here) ghost ids⟩
  have handed := (lfuEvict_run (s := { s with
    lru := lru, historyFreq := update s.historyFreq v 0 }) lfuRun left.entry).trans
    (congrArg _ (departed_after s lru lfu v o.freq))
  have size : o.objSize.toNat = 1 := by
    rw [agreed.sizes stored]
    rfl
  show evictLfu c n s v = _
  rw [evictLfu, stored]
  show (do let s ← lruRemove c s v; _) = _
  rw [lruRemove_run here lruRun]
  show (do let s ← lfuEvict _; _) = _
  rw [handed]
  show (do let ghost ← ghostGet c n s.lfuG ⟨v, o.objSize.toNat⟩; _) = _
  rw [size]
  have done := ghostRun n enough
  simp only [departed] at done
  rw [done]
  rfl

theorem Agreed.drawn (agreed : Agreed c s) (k : Nat) :
    Agreed c { s with lru := { s.lru with nEvict := k } } :=
  { agreed with lists := { agreed.lists with } }

theorem cacheusEvict_evicted (agreed : Agreed c s) (large : 2 ≤ c.cacheSize)
    (full : s.lru.held.length = c.cacheSize) :
    Ends (fun n => cacheusEvict c n s) fun t => ∃ v, Evicted c s v t := by
  generalize state : ({ s with lru := { s.lru with nEvict := s.lru.nEvict + 1 } } : Experts) = next
  have ready : Agreed c next := by
    rw [← state]
    exact agreed.drawn _
  have back : ∀ {v t}, Evicted c next v t → ∃ v, Evicted c s v t := by
    intro v t evicted
    rw [← state] at evicted
    exact ⟨v, { evicted with }⟩
  have full : next.lru.held.length = c.cacheSize := by
    rw [← state]
    exact full
  obtain ⟨obj, lru, victim, lruRun, unit, left⟩ := srLruEvict_units ready.lists large full
  obtain ⟨o, stored⟩ := ready.stored (left.held.subset List.mem_cons_self)
  obtain ⟨v, p, lfu, lfuVictim, lfuStored, lfuRun, sound, objs⟩ := CrLfu.crLfuEvict_takes ready.sound stored
  have run : ∀ n, cacheusEvict c n s = if obj.objId = v then evictBoth c next
      else if c.drawsLru s.lru.nEvict then evictLru c n next obj else evictLfu c n next v := by
    intro n
    have first : srLruToEvict (units c.cacheSize) s.lru = .ok obj := by
      rw [← state] at victim
      exact victim
    have second : CrLfu.crLfuToEvict s.lfu = some v := by
      rw [← state] at lfuVictim
      exact lfuVictim
    rw [cacheusEvict, Setup.lists, first, second, ← state]
    rfl
  simp only [run]
  by_cases same : obj.objId = v
  · subst same
    obtain ⟨t, both, evicted⟩ := evictBoth_evicted ready victim lruRun left lfuStored lfuRun sound objs
    simp only [if_pos, both]
    exact Ends.const (back evicted)
  · simp only [if_neg same]
    by_cases draw : c.drawsLru s.lru.nEvict = true
    · simp only [if_pos draw]
      exact (evictLru_evicted ready large unit victim lruRun left).mono fun t evicted => back evicted
    · simp only [if_neg draw]
      exact (evictLfu_evicted ready large lfuStored lfuRun sound objs).mono fun t evicted => back evicted

/-! ## Requests -/

/-- What holds between requests: objects have only left a cache that was full. -/
structure Settled (c : Setup) (s : Experts) : Prop extends Agreed c s where
  full : resident s.lru.hList ≠ [] → s.lru.held.length = c.cacheSize

theorem init_settled (large : 2 ≤ c.cacheSize) (left : BitVec 64) : Settled c (cacheusInit c left) where
  toAgreed := init_agreed large left
  full := by simp [cacheusInit, srLruInit, resident]

/-- The id is the oldest entry of a history that has no room for another one. -/
def NextToGo (c : Setup) (s : Experts) (x : Nat) : Prop :=
  (resident s.lru.hList).length + 1 = c.cacheSize ∧ (resident s.lru.hList).head? = some x

instance : Decidable (NextToGo c s x) := inferInstanceAs (Decidable (_ ∧ _))

theorem mem_pushed_iff {n : Nat} {h : List Nat} (nodup : h.Nodup) (fits : h.length < n)
    (past : x ∈ h) {v : Nat} (other : x ≠ v) :
    x ∈ pushed n h v ↔ ¬ (h.length + 1 = n ∧ h.head? = some x) := by
  have single : x ∉ [v] := fun member => other (List.mem_singleton.mp member)
  rw [pushed, List.mem_append, or_iff_left single]
  by_cases room : h.length + 1 < n
  · rw [if_pos room]
    exact ⟨fun _ both => by omega, fun _ => past⟩
  · have full : h.length + 1 = n := by omega
    rw [if_neg room]
    cases h with
    | nil => cases past
    | cons y rest =>
      simp only [List.tail_cons, List.head?_cons, full, true_and, Option.some.injEq]
      constructor
      · rintro member rfl
        exact (List.nodup_cons.mp nodup).1 member
      · intro younger
        exact (List.mem_cons.mp past).resolve_left fun same => younger same.symm

/-- While room is made for an id that was missed, nothing has happened yet or one
object has left a full cache. -/
structure Making (c : Setup) (s : Experts) (x : Nat) (u : Experts) : Prop extends Agreed c u where
  missing : x ∉ u.lru.held
  forgotten : x ∉ resident u.lruG ∧ x ∉ resident u.lfuG
  known : u.evictedFreq x = s.evictedFreq x
  steps : (u.lru.held.length = s.lru.held.length ∧ resident u.lru.hList = resident s.lru.hList) ∨
    (s.lru.held.length = c.cacheSize ∧ u.lru.held.length + 1 = c.cacheSize ∧
      ∃ v, x ≠ v ∧ resident u.lru.hList = pushed c.cacheSize (resident s.lru.hList) v)

theorem Making.incoming {u : Experts} (making : Making c s x u)
    (room : u.lru.held.length + 1 ≤ c.cacheSize) : Incoming c u x :=
  { making.toAgreed with missing := making.missing, forgotten := making.forgotten, room := room }

theorem Making.evict {u : Experts} (making : Making c s x u) {v : Nat} (evicted : Evicted c u v t)
    (full : u.lru.held.length = c.cacheSize) : Making c s x t := by
  have here : v ∈ u.lru.held := evicted.held.subset List.mem_cons_self
  have apart : x ≠ v := fun same => making.missing (same ▸ here)
  have length := evicted.held.length_eq
  rw [List.length_cons] at length
  refine { evicted.toAgreed with
    missing := fun member => making.missing (evicted.held.subset (List.mem_cons_of_mem v member))
    forgotten := ⟨fun member => ?_, fun member => ?_⟩
    known := (evicted.others x apart).trans making.known
    steps := ?_ }
  · exact making.forgotten.1 ((evicted.fromLru x member).resolve_left apart)
  · exact making.forgotten.2 ((evicted.fromLfu x member).resolve_left apart)
  · rcases making.steps with ⟨same, history⟩ | ⟨-, less, -⟩
    · exact Or.inr ⟨by omega, by omega, v, apart, history ▸ evicted.history⟩
    · omega

theorem Making.insert {u : Experts} (making : Making c s x u) (settled : Settled c s)
    (inserted : Inserted c u x t) (fits : u.lru.held.length + 1 ≤ c.cacheSize) : Settled c t ∧
      (x ∈ resident s.lru.hList → ((t.lfu.objs x).map CrLfu.Obj.freq = some (s.evictedFreq x + 1) ↔
        ¬ NextToGo c s x)) := by
  have length := inserted.held.length_eq
  rw [List.length_cons] at length
  rcases making.steps with ⟨same, history⟩ | ⟨-, one, v, apart, history⟩
  · -- a cache with room has no history
    have empty : resident s.lru.hList = [] := by
      by_contra some_
      have := settled.full some_
      omega
    refine ⟨⟨inserted.toAgreed, fun some_ => absurd ?_ some_⟩, fun past => ?_⟩
    · rw [inserted.history, history, empty]
      rfl
    · rw [empty] at past
      cases past
  · refine ⟨⟨inserted.toAgreed, fun _ => length.trans one⟩, fun past => ?_⟩
    have nodup := (List.nodup_append.mp settled.lists.nodup).2.1
    have stays := mem_pushed_iff nodup settled.lists.hFits past apart
    have positive := (settled.recorded x past).2
    rw [inserted.freq, making.known, history, NextToGo, ← stays]
    by_cases still : x ∈ pushed c.cacheSize (resident s.lru.hList) v
    · rw [if_pos still]
      exact iff_of_true rfl still
    · rw [if_neg still]
      refine iff_of_false (fun same => ?_) still
      have := Option.some.inj same
      omega

theorem cacheusGet_ends (settled : Settled c s) (large : 2 ≤ c.cacheSize)
    (counted : c.cacheSize < 2 ^ 32) (x : Nat) :
    Ends (fun n => cacheGetBase (cacheus c) n s ⟨x, 1⟩) fun a => Settled c a.2 ∧
      (x ∈ resident s.lru.hList → ((a.2.lfu.objs x).map CrLfu.Obj.freq = some (s.evictedFreq x + 1) ↔
        ¬ NextToGo c s x)) := by
  refine cacheGetBase_ends (Q := fun _ t => Settled c t ∧ (x ∈ resident s.lru.hList →
      ((t.lfu.objs x).map CrLfu.Obj.freq = some (s.evictedFreq x + 1) ↔ ¬ NextToGo c s x)))
    (Making c s x) (Making c s x) (fun u => u.lru.held.length) ?_ ?_ ?_ ?_
  · obtain ⟨t, run, found⟩ := cacheusFind_found settled.toAgreed counted ⟨x, 1⟩
    refine ⟨_, t, run, ?_⟩
    have length := found.moved.held.length_eq
    by_cases here : x ∈ s.lru.held
    · rw [if_pos (decide_eq_true here)]
      refine ⟨⟨found.toAgreed, fun some_ => ?_⟩, fun past => ?_⟩
      · rw [found.moved.hList] at some_
        exact length.trans (settled.full some_)
      · exact absurd rfl ((List.nodup_append.mp settled.lists.nodup).2.2 x here x past)
    · rw [if_neg fun hit => here (of_decide_eq_true hit)]
      exact { found.toAgreed with
        missing := fun member => here (found.moved.held.subset member)
        forgotten := found.forgotten here
        known := congrFun found.evictedFreq x
        steps := Or.inl ⟨length, by rw [found.moved.hList]⟩ }
  · intro t making
    have small : 1 ≤ c.cacheSize := by omega
    simp only [cacheus, small, decide_true]
    exact Ends.const making
  · intro u making crowded
    have crowded : (c.cacheSize : Int) < srLruOccupied c.lists u.lru + 1 := crowded
    rw [Setup.lists, srLruOccupied_units making.lists.toPlain] at crowded
    have fits := making.fits
    have full : u.lru.held.length = c.cacheSize := by omega
    refine (cacheusEvict_evicted making.toAgreed large full).mono ?_
    rintro t ⟨v, evicted⟩
    have length := evicted.held.length_eq
    rw [List.length_cons] at length
    exact ⟨making.evict evicted full, by omega⟩
  · intro u making room
    have room : srLruOccupied c.lists u.lru + 1 ≤ (c.cacheSize : Int) := room
    rw [Setup.lists, srLruOccupied_units making.lists.toPlain] at room
    have fits : u.lru.held.length + 1 ≤ c.cacheSize := by omega
    have company : x ∈ resident u.lru.hList → u.lru.held ≠ [] := by
      intro past none
      have zero : u.lru.held.length = 0 := by rw [none]; rfl
      rcases making.steps with ⟨same, history⟩ | ⟨-, one, -⟩
      · have := settled.full (history ▸ List.ne_nil_of_mem past)
        omega
      · omega
    obtain ⟨t, run, inserted⟩ :=
      cacheusInsert_inserted (making.incoming fits) large counted company
    exact ⟨t, run, making.insert settled inserted fits⟩

theorem reached_settled (large : 2 ≤ c.cacheSize) (counted : c.cacheSize < 2 ^ 32) {left : BitVec 64}
    (history : Reachable (Requests c) (cacheusInit c left) s) : Settled c s := by
  refine history.invariant (Settled c) (init_settled large left) ?_
  rintro u t settled ⟨⟨x, size⟩, unit, served⟩
  have unit : size = 1 := unit
  subst unit
  exact ((cacheusGet_ends settled large counted x).result served).1

/-! ## One cache -/

/-- What the two experts hold is one set of objects, and the rest is apart from it. -/
structure OneCache (c : Setup) (s : Experts) : Prop where
  once : ∀ x ∈ resident s.lru.srList, x ∉ resident s.lru.rList
  same : ∀ x, (∃ o, s.lfu.objs x = some o) ↔ x ∈ resident s.lru.srList ∨ x ∈ resident s.lru.rList
  count : (resident s.lru.srList).length + (resident s.lru.rList).length ≤ c.cacheSize
  history : ∀ x o, s.lfu.objs x = some o → x ∉ resident s.lru.hList
  lruG : ∀ x o, s.lfu.objs x = some o → x ∉ resident s.lruG
  lfuG : ∀ x o, s.lfu.objs x = some o → x ∉ resident s.lfuG
  ghosts : ∀ x ∈ resident s.lruG, x ∉ resident s.lfuG

theorem Agreed.oneCache (agreed : Agreed c s) : OneCache c s where
  once := fun x here there =>
    (List.nodup_append.mp agreed.lists.held_nodup).2.2 x here x there rfl
  same := fun x => by
    rw [← List.mem_append, ← Option.isSome_iff_exists]
    exact agreed.same x
  count := by
    rw [← List.length_append]
    exact agreed.fits
  history := fun x o stored past =>
    (List.nodup_append.mp agreed.lists.nodup).2.2 x (agreed.holds stored) x past rfl
  lruG := fun x o stored => agreed.lruG.apart x (agreed.holds stored)
  lfuG := fun x o stored => agreed.lfuG.apart x (agreed.holds stored)
  ghosts := agreed.ghosts

/-- In every run the experts describe one cache and the next request is served; an id
that is requested while it is in `H_list` continues with its frequency unless its entry
is the one that the victim of the request replaces. -/
theorem experts_describe_one_cache {c : Setup} (large : 2 ≤ c.cacheSize)
    (counted : c.cacheSize < 2 ^ 32) {left : BitVec 64} {s : Experts}
    (history : Reachable (Requests c) (cacheusInit c left) s) :
    OneCache c s ∧ ∀ x, ∃ hit t, Serves (cacheus c) s ⟨x, 1⟩ hit t ∧ OneCache c t ∧
      (x ∈ resident s.lru.hList → ((t.lfu.objs x).map CrLfu.Obj.freq = some (s.evictedFreq x + 1) ↔
        ¬ NextToGo c s x)) := by
  have settled := reached_settled large counted history
  refine ⟨settled.oneCache, fun x => ?_⟩
  obtain ⟨⟨hit, t⟩, served, after, freq⟩ := cacheusGet_ends settled large counted x
  exact ⟨hit, t, served, after.oneCache, freq⟩

def units3 : Setup := ⟨3, fun _ => true⟩

/-- Object 1 has left a cache of three and comes back with frequency 2. -/
theorem experts_describe_one_cache_return : ∃ s hit t,
    Reachable (Requests units3) (cacheusInit units3 0) s ∧ resident s.lru.hList = [1] ∧
      s.evictedFreq 1 = 1 ∧ OneCache units3 s ∧ Serves (cacheus units3) s ⟨1, 1⟩ hit t ∧
      OneCache units3 t ∧ (t.lfu.objs 1).map CrLfu.Obj.freq = some 2 := by
  have returns : Returns (serveAll (cacheus units3) 5 (cacheusInit units3 0)
      [⟨1, 1⟩, ⟨2, 1⟩, ⟨3, 1⟩, ⟨4, 1⟩]) (fun s => decide (resident s.lru.hList = [1]) &&
        decide (s.evictedFreq 1 = 1)) = true := by decide +kernel
  obtain ⟨s, run, found⟩ := exists_of_returns returns
  simp only [Bool.and_eq_true, decide_eq_true_iff] at found
  have history : Reachable (Requests units3) (cacheusInit units3 0) s :=
    serveAll_reachable (cacheusGet_mono units3) (by decide) .refl run
  obtain ⟨one, next⟩ := experts_describe_one_cache (by decide) (by decide) history
  obtain ⟨hit, t, served, after, freq⟩ := next 1
  refine ⟨s, hit, t, history, found.1, found.2, one, served, after, ?_⟩
  rw [found.2] at freq
  refine (freq (by rw [found.1]; decide)).mpr ?_
  rw [NextToGo, found.1]
  decide

def units2 : Setup := ⟨2, fun _ => true⟩

/-- Object 1 is in the history with frequency 1 when it is requested, and comes back with
frequency 1. -/
theorem returning_object_forgotten : ∃ s hit t,
    Reachable (Requests units2) (cacheusInit units2 0) s ∧ 1 ∈ resident s.lru.hList ∧
      s.evictedFreq 1 = 1 ∧ Serves (cacheus units2) s ⟨1, 1⟩ hit t ∧
      (t.lfu.objs 1).map CrLfu.Obj.freq = some 1 := by
  have returns : Returns (serveAll (cacheus units2) 5 (cacheusInit units2 0)
      [⟨1, 1⟩, ⟨2, 1⟩, ⟨3, 1⟩]) (fun s => decide (1 ∈ resident s.lru.hList) &&
        decide (s.evictedFreq 1 = 1) && Returns (cacheGetBase (cacheus units2) 5 s ⟨1, 1⟩)
          (fun a => decide ((a.2.lfu.objs 1).map CrLfu.Obj.freq = some 1))) = true := by decide +kernel
  obtain ⟨s, run, found⟩ := exists_of_returns returns
  simp only [Bool.and_eq_true, decide_eq_true_iff] at found
  obtain ⟨⟨hit, t⟩, get, freq⟩ := exists_of_returns found.2
  exact ⟨s, hit, t, serveAll_reachable (cacheusGet_mono units2) (by decide) .refl run, found.1.1,
    found.1.2, (cacheusGet_mono units2 s ⟨1, 1⟩).yields get, of_decide_eq_true freq⟩

end CacheusExperts
