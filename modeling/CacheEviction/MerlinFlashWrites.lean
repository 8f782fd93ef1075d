import CacheEviction.MerlinStructure
import CacheEviction.MerlinGuard

/-!
# The flash-write accounting

Staging and core are the part of the cache on flash. `n_byte_admit_to_core` and
`n_byte_move_to_core` are meant to add up the bytes that enter it: the objects now in
staging or core whose id was in neither before the call. Two paths add nothing to the
counters: an insertion from ghost to core, and the promotion of hot filter objects.
-/
namespace MerlinPolicy

open FuelLoops FifoCache WeightedLists StepTraces Relation

variable {b : Budgets} {cbf : CountingFilter.Cbf} {s t u g : State} {r : Request} {fuel : Nat}
variable {o : Obj} {w : Obj → Int} {l : List Obj}

def State.onFlash (s : State) : List Obj := s.staging.objs ++ s.core.objs

def newBytes (s : State) (o : Obj) : Int :=
  if o.objId ∈ s.onFlash.map CacheObj.objId then 0 else o.bytes

def entered (s t : State) : Int := total (newBytes s) t.onFlash

/-- What `calWriteAmp` reports as `n_byte_write`. -/
def nByteWrite (s : State) : Int := s.nByteAdmitToCore + s.nByteMoveToCore

/-- The filter objects that `adjust_filter` promotes, given the guard in force. -/
def promotedBytes (s : State) : Int :=
  total CacheObj.bytes (s.filter.objs.takeWhile (fun o => s.guardFreq ≤ o.tag.freq))

/-- The bytes that the call made in this state brings to flash without counting. -/
def uncountedBytes (b : Budgets) (c : Config) : Int :=
  match c.point with
  | .idle => 0
  | .serving r =>
    if merlinCanInsert b r then
      if overfull b c.state r then
        match merlinAdjustguard (countEviction b c.state) with
        | .ok g => if filterFull b g r then promotedBytes g else 0
        | .error _ => 0
      else if !warmUp c.state && c.state.hitOnGhost && c.state.moveToCore then
        (createCacheObj r ()).bytes
      else 0
    else 0

/-! ## The flash load -/

def Load.flash (l : Load) : Int := l.staging + l.core

theorem entered_eq_load (s t : State) : entered s t = (t.load (newBytes s)).flash := by
  simp [entered, State.onFlash, State.load, Load.flash]

theorem newBytes_nonneg (s : State) (o : Obj) : 0 ≤ newBytes s o := by
  have := o.bytes_nonneg
  simp only [newBytes]
  split <;> omega

theorem newBytes_same (s : State) (o : Obj) (tag : Meta) :
    newBytes s { o with tag := tag } = newBytes s o := rfl

theorem newBytes_of_mem (h : o ∈ s.onFlash) : newBytes s o = 0 :=
  if_pos (List.mem_map_of_mem h)

theorem entered_self (s : State) : entered s s = 0 :=
  (total_eq_zero_iff (newBytes_nonneg s) s.onFlash).mpr (fun _ mem => newBytes_of_mem mem)

theorem flash_newBytes_self (s : State) : (s.load (newBytes s)).flash = 0 := by
  rw [← entered_eq_load]
  exact entered_self s

theorem newBytes_of_absent (h : (s.load (ofId o.objId)).flash = 0) : newBytes s o = o.bytes := by
  apply if_neg
  intro mem
  have pos : 0 < total (ofId o.objId) s.onFlash := (copies_pos_iff _ _ _).mpr mem
  simp only [State.onFlash, total_append] at pos
  simp only [Load.flash, State.load] at h
  omega

theorem newBytes_of_filter (once : ∀ id, Once s id) (h : o ∈ s.filter.objs) :
    newBytes s o = o.bytes := by
  apply newBytes_of_absent
  have pos : 0 < total (ofId o.objId) s.filter.objs :=
    (copies_pos_iff _ _ _).mpr (List.mem_map_of_mem h)
  have resident := (once o.objId).resident
  have nonneg := load_nonneg (ofId_nonneg o.objId) s
  simp only [Load.resident, Load.flash, State.load] at resident nonneg ⊢
  omega

/-! ## Cooling and promoting -/

theorem graduate_counters (b : Budgets) (s : State) (o : Obj) :
    nByteWrite (graduate b s o) = nByteWrite s := by
  obtain ⟨hot, q, frame⟩ := unshadowed_frame s o
  show (unshadowed s o).nByteAdmitToCore + (unshadowed s o).nByteMoveToCore = _
  rw [frame]
  rfl

theorem graduate_filter (b : Budgets) (s : State) (o : Obj) :
    (graduate b s o).filter = s.filter := by
  obtain ⟨hot, q, frame⟩ := unshadowed_frame s o
  show (unshadowed s o).filter = s.filter
  rw [frame]

theorem Cools.flash (same : ∀ (o : Obj) (tag : Meta), w { o with tag := tag } = w o)
    (h : Cools b s t) :
    (t.load w).flash = (s.load w).flash ∧ t.filter = s.filter ∧ nByteWrite t = nByteWrite s := by
  induction h with
  | refl => exact ⟨rfl, rfl, rfl⟩
  | tail _ cooling ih =>
    obtain ⟨flash, filter, counters⟩ := ih
    cases cooling with
    | demote tail =>
      rw [load_demote w tail]
      refine ⟨?_, filter, counters⟩
      simp only [Load.flash, same] at flash ⊢
      omega
    | graduate tail =>
      rw [load_graduate w tail, graduate_filter, graduate_counters]
      refine ⟨?_, filter, counters⟩
      simp only [Load.flash, same] at flash ⊢
      omega

theorem Promotes.flash (same : ∀ (o : Obj) (tag : Meta), w { o with tag := tag } = w o)
    (h : Promotes b s l t) :
    (t.load w).flash = (s.load w).flash + total w l ∧ s.filter.objs = l ++ t.filter.objs ∧
      t.staging = s.staging ∧ nByteWrite t = nByteWrite s := by
  induction h with
  | nil => simp
  | @snoc l u o _ _ tail _ ih =>
    obtain ⟨flash, filter, staging, counters⟩ := ih
    obtain ⟨rest, queue⟩ := Fifo.toEvict_eq_some tail
    have after : (promote b u o).filter.objs = rest := Fifo.objs_remove_oldest queue
    rw [load_promote w tail, after]
    refine ⟨?_, ?_, staging, counters⟩
    · simp only [Load.flash, same, total_append, total_cons, total_nil] at flash ⊢
      omega
    · rw [filter, queue]
      simp

theorem Promotes.hot (h : Promotes b s l t) : ∀ o ∈ l, s.guardFreq ≤ o.tag.freq := by
  induction h with
  | nil => simp
  | @snoc l u o before _ _ hot ih =>
    intro a mem
    rcases List.mem_append.mp mem with mem | mem
    · exact ih a mem
    · rw [List.mem_singleton.mp mem, ← before.guard]
      exact hot

theorem promoted_bytes (promoted : Promotes b s l u) (exit : FilterExit b u t) :
    total CacheObj.bytes l = promotedBytes s := by
  have queue := (promoted.flash (w := CacheObj.bytes) (fun _ _ => rfl)).2.1
  have hot : ∀ o ∈ l, decide (s.guardFreq ≤ o.tag.freq) = true := by
    intro o mem
    simpa using promoted.hot o mem
  rw [promotedBytes, queue, List.takeWhile_append_of_pos hot, total_append]
  have guard := promoted.guard
  have cold : ∀ {o : Obj}, u.filter.toEvict = some o → o.tag.freq < u.guardFreq →
      u.filter.objs.takeWhile (fun o => s.guardFreq ≤ o.tag.freq) = [] := by
    intro o tail below
    obtain ⟨rest, shape⟩ := Fifo.toEvict_eq_some tail
    rw [shape, List.takeWhile_cons_of_neg]
    simp only [decide_eq_true_eq]
    omega
  cases exit with
  | exhausted empty =>
    -- The loop stops at a filter without bytes; hot objects left there weigh nothing.
    have none : total CacheObj.bytes t.filter.objs = 0 := by
      have := t.filter.occupied_nonneg
      rw [t.filter.occupied_eq] at this empty
      omega
    have each := (total_eq_zero_iff CacheObj.bytes_nonneg _).mp none
    have left : total CacheObj.bytes
        (t.filter.objs.takeWhile (fun o => s.guardFreq ≤ o.tag.freq)) = 0 :=
      (total_eq_zero_iff CacheObj.bytes_nonneg _).mpr
        (fun o mem => each o ((List.takeWhile_sublist _).subset mem))
    exact (Int.add_zero _).symm.trans (congrArg _ left.symm)
  | swap tail below => rw [cold tail below]; simp
  | retire tail below => rw [cold tail below]; simp

theorem replaceStaging_counters (b : Budgets) (s : State) (o : Obj) :
    nByteWrite (replaceStaging b s o) = nByteWrite s + o.bytes := by
  show s.nByteAdmitToCore + (s.nByteMoveToCore + o.bytes) = _
  rw [nByteWrite]
  omega

theorem swap_flash (same : ∀ (o : Obj) (tag : Meta), w { o with tag := tag } = w o) {v : Obj}
    (tail : s.filter.toEvict = some o) (victim : s.staging.toEvict = some v) :
    ((dropStaging (replaceStaging b s o) v).load w).flash = (s.load w).flash + w o - w v ∧
      nByteWrite (dropStaging (replaceStaging b s o) v) = nByteWrite s + o.bytes := by
  constructor
  · rw [load_dropStaging w (replaceStaging_toEvict victim), load_replaceStaging w tail]
    simp only [Load.flash, same]
    omega
  · exact replaceStaging_counters b s o

theorem flash_member (nothing : (u.load (newBytes s)).flash = 0) (mem : o ∈ u.staging.objs) :
    newBytes s o = 0 := by
  rw [← entered_eq_load, entered, total_eq_zero_iff (newBytes_nonneg s)] at nothing
  exact nothing o (List.mem_append_left _ mem)

/-! ## One call -/

theorem total_newBytes (once : ∀ id, Once s id) (h : ∀ o ∈ l, o ∈ s.filter.objs) :
    total (newBytes s) l = total CacheObj.bytes l := by
  have same : l.map (newBytes s) = l.map CacheObj.bytes :=
    List.map_congr_left (fun o mem => newBytes_of_filter once (h o mem))
  rw [total, total, same]

theorem RoomMade.writes {cbf' : CountingFilter.Cbf} {epochCount evictobjNum guard : Int}
    (once : ∀ id, Once s id)
    (h : RoomMade b r (s.bookkeeping cbf' epochCount evictobjNum guard) t) :
    entered s t = nByteWrite t - nByteWrite s +
      if filterFull b (s.bookkeeping cbf' epochCount evictobjNum guard) r then
        promotedBytes (s.bookkeeping cbf' epochCount evictobjNum guard) else 0 := by
  have nothing := flash_newBytes_self s
  have books : nByteWrite (s.bookkeeping cbf' epochCount evictobjNum guard) = nByteWrite s := rfl
  rw [entered_eq_load]
  cases h with
  | @filter l u _ full promoted exit =>
    obtain ⟨flash, queue, staging, counters⟩ := promoted.flash (newBytes_same s)
    have bytes := promoted_bytes promoted exit
    have inFilter : ∀ o ∈ l, o ∈ s.filter.objs := by
      intro o mem
      have : o ∈ l ++ u.filter.objs := List.mem_append_left _ mem
      rwa [← queue] at this
    rw [load_bookkeeping, nothing, total_newBytes once inFilter, bytes] at flash
    rw [if_pos full]
    cases exit with
    | exhausted => omega
    | @swap o v tail _ victim =>
      obtain ⟨change, counted⟩ := swap_flash (b := b) (newBytes_same s) tail victim
      have fresh : newBytes s o = o.bytes := by
        apply newBytes_of_filter once
        have : o ∈ l ++ u.filter.objs := List.mem_append_right _ (Fifo.toEvict_mem tail)
        rwa [← queue] at this
      have old : newBytes s v = 0 := by
        apply newBytes_of_mem
        have mem := Fifo.toEvict_mem victim
        rw [staging] at mem
        exact List.mem_append_left _ mem
      omega
    | @retire o tail =>
      have counted : nByteWrite (MerlinPolicy.retire b u o) = nByteWrite u := rfl
      rw [load_retire _ tail, counted]
      simp only [Load.flash] at flash ⊢
      omega
  | @staging u v fits cooled victim =>
    obtain ⟨flash, _, counters⟩ := Cools.flash (newBytes_same s) cooled
    rw [load_bookkeeping, nothing] at flash
    have counted : nByteWrite (dropStaging u v) = nByteWrite u := rfl
    have old := flash_member flash (Fifo.toEvict_mem victim)
    rw [if_neg (by simp [fits]), load_dropStaging _ victim, counted]
    simp only [Load.flash] at flash ⊢
    omega
  | @replace u o v fits cooled tail victim =>
    obtain ⟨flash, filter, counters⟩ := Cools.flash (newBytes_same s) cooled
    rw [load_bookkeeping, nothing] at flash
    obtain ⟨change, counted⟩ := swap_flash (b := b) (newBytes_same s) tail victim
    have old := flash_member flash (Fifo.toEvict_mem victim)
    have fresh : newBytes s o = o.bytes := by
      apply newBytes_of_filter once
      have mem := Fifo.toEvict_mem tail
      rw [filter] at mem
      exact mem
    rw [if_neg (by simp [fits])]
    omega

theorem evict_writes (once : ∀ id, Once s id) (fits : merlinCanInsert b r = true)
    (full : overfull b s r = true) (evicted : merlinEvict b fuel s r = .ok t) :
    entered s t = nByteWrite t - nByteWrite s + uncountedBytes b ⟨.serving r, s⟩ := by
  obtain ⟨g, u, adjusted, room, trimmed⟩ := evict_cases evicted
  obtain ⟨hot, q, frame⟩ := adjustGhost_frame trimmed
  have uncounted : uncountedBytes b ⟨.serving r, s⟩ =
      if filterFull b g r then promotedBytes g else 0 := by
    simp only [uncountedBytes, fits, full, if_true, adjusted]
  have same : entered s t = entered s u ∧ nByteWrite t = nByteWrite u := by
    rw [frame]
    exact ⟨rfl, rfl⟩
  obtain ⟨cbf', epochCount, evictobjNum, guard, rfl⟩ := adjusted_frame adjusted
  rw [same.1, same.2, uncounted]
  exact room.writes once

theorem insert_writes (fits : merlinCanInsert b r = true) (room : overfull b s r = false)
    (awaits : Awaits s r) :
    entered s (merlinInsert b s r) =
      nByteWrite (merlinInsert b s r) - nByteWrite s + uncountedBytes b ⟨.serving r, s⟩ := by
  have nothing := flash_newBytes_self s
  have mine : ∀ tag : Meta, newBytes s (createCacheObj r tag) = (createCacheObj r ()).bytes := by
    intro tag
    apply newBytes_of_absent
    have absent := awaits.absent
    have nonneg := load_nonneg (ofId_nonneg r.objId) s
    simp only [Load.resident, Load.flash, createCacheObj_objId] at absent ⊢
    omega
  rw [entered_eq_load]
  have placed := insert_placement b s r
  generalize merlinInsert b s r = t at placed
  simp only [Load.flash, State.load] at nothing
  cases placed with
  | warmUp cold =>
    simp only [uncountedBytes, fits, room, cold, Load.flash, State.load, nByteWrite,
      Fifo.objs_insert, total_append, total_cons, total_nil, mine]
    simp
    omega
  | core warm ghost move =>
    simp only [uncountedBytes, fits, room, warm, ghost, move, Load.flash, State.load, nByteWrite,
      Fifo.objs_insert, total_append, total_cons, total_nil, mine]
    simp
    omega
  | staging warm ghost stay =>
    simp only [uncountedBytes, fits, room, warm, ghost, stay, Load.flash, State.load, nByteWrite,
      Fifo.objs_insert, total_append, total_cons, total_nil, mine]
    simp
    omega
  | filter warm fresh =>
    simp only [uncountedBytes, fits, room, warm, fresh, Load.flash, State.load, nByteWrite]
    simp
    omega

theorem Lookup.writes {hit : Bool} (h : Lookup s r hit t) :
    entered s t = 0 ∧ nByteWrite t = nByteWrite s := by
  constructor
  · rw [entered_eq_load, h.load_eq (newBytes_same s)]
    exact flash_newBytes_self s
  · cases h <;> rfl

theorem step_writes {x y : Config} (inv : Invariant b x) (step : Step b x y) :
    entered x.state y.state =
      nByteWrite y.state - nByteWrite x.state + uncountedBytes b x := by
  cases step with
  | @hit s t r _ find | @miss s t r _ find =>
    obtain ⟨nothing, counters⟩ := (find_lookup find).writes
    have none : uncountedBytes b ⟨.idle, s⟩ = 0 := rfl
    dsimp only
    omega
  | @reject s r large =>
    have none : uncountedBytes b ⟨.serving r, s⟩ = 0 := by simp [uncountedBytes, large]
    have nothing := entered_self s
    dsimp only
    omega
  | evict fits full evicted => exact evict_writes inv.once fits full evicted
  | insert fits room => exact insert_writes fits room (inv.awaits _ rfl)

/-! ## Runs -/

theorem uncountedBytes_nonneg (b : Budgets) (c : Config) : 0 ≤ uncountedBytes b c := by
  have promoted : ∀ g, 0 ≤ promotedBytes g :=
    fun g => total_nonneg _ _ (fun o _ => o.bytes_nonneg)
  simp only [uncountedBytes]
  split
  · exact le_refl _
  · rename_i r _
    have stored := (createCacheObj r ()).bytes_nonneg
    split
    · split
      · split
        · split
          · exact promoted _
          · exact le_refl _
        · exact le_refl _
      · split
        · exact stored
        · exact le_refl _
    · exact le_refl _

theorem run_writes {es : List (Config × Config)} {c : Config} (run : Run b cbf es c) :
    total (fun e => entered e.1.state e.2.state) es =
      nByteWrite c.state + total (fun e => uncountedBytes b e.1) es := by
  have change : ∀ x y, Reached b cbf x → Step b x y → nByteWrite y.state =
      nByteWrite x.state + (entered x.state y.state - uncountedBytes b x) := by
    intro x y reached step
    have := step_writes (reached_invariant reached) step
    omega
  have sum := run.sum (fun x => nByteWrite x.state)
    (fun e => entered e.1.state e.2.state - uncountedBytes b e.1) change
  have start : nByteWrite (boot cbf).state = 0 := rfl
  have split := total_sub (fun e => entered e.1.state e.2.state) (fun e => uncountedBytes b e.1) es
  rw [start] at sum
  simp only [total] at split ⊢
  omega

/-- The counters equal the bytes that entered staging and core in a run if and only
if every call of the run brought no byte there from ghost to core or from the filter
to core. -/
theorem flash_writes_complete_iff {es : List (Config × Config)} {c : Config}
    (run : Run b cbf es c) :
    c.state.nByteAdmitToCore + c.state.nByteMoveToCore =
        total (fun e => entered e.1.state e.2.state) es ↔
      ∀ e ∈ es, uncountedBytes b e.1 = 0 := by
  have counted : c.state.nByteAdmitToCore + c.state.nByteMoveToCore = nByteWrite c.state := rfl
  have zero := total_eq_zero_iff (w := fun e : Config × Config => uncountedBytes b e.1)
    (fun e => uncountedBytes_nonneg b e.1) es
  rw [run_writes run, counted, ← zero]
  omega

/-- A run that fills the cache through the warm-up path and the filter only. -/
theorem flash_writes_complete_iff_filter :
    ∃ es s, Run threeBytes sixteenCounters es ⟨.idle, s⟩ ∧
      s.nByteAdmitToCore + s.nByteMoveToCore = 3 ∧
      (total (fun e => entered e.1.state e.2.state) es = 3 ↔
        ∀ e ∈ es, uncountedBytes threeBytes e.1 = 0) := by
  obtain ⟨s, gets, passed⟩ := servesTo_gets threeBytes 20 sixteenCounters
    [⟨1, 1⟩, ⟨2, 1⟩, ⟨3, 1⟩, ⟨4, 1⟩, ⟨5, 1⟩]
    (fun s => s.nByteAdmitToCore + s.nByteMoveToCore = 3) (by decide +kernel)
  have three : s.nByteAdmitToCore + s.nByteMoveToCore = 3 := of_decide_eq_true passed
  obtain ⟨es, run⟩ := gets_reached gets
  have complete := flash_writes_complete_iff run
  rw [show (Config.mk .idle s).state = s from rfl, three] at complete
  refine ⟨es, s, run, three, ?_⟩
  rw [← complete]
  exact eq_comm

/-- Object 4 comes back from ghost and goes to core: its byte is not counted. -/
theorem flash_writes_miss_return :
    ∃ es s, Run threeBytes sixteenCounters es ⟨.idle, s⟩ ∧
      s.nByteAdmitToCore + s.nByteMoveToCore <
        total (fun e => entered e.1.state e.2.state) es := by
  obtain ⟨s, gets, passed⟩ := servesTo_gets threeBytes 20 sixteenCounters
    [⟨1, 1⟩, ⟨2, 1⟩, ⟨3, 1⟩, ⟨4, 1⟩, ⟨5, 1⟩]
    (fun s => (merlinFind s ⟨4, 1⟩).1 = false ∧
      (match evictLoop threeBytes 20 (merlinFind s ⟨4, 1⟩).2 ⟨4, 1⟩ with
        | .ok u => decide (entered u (merlinInsert threeBytes u ⟨4, 1⟩) = 1 ∧
            nByteWrite (merlinInsert threeBytes u ⟨4, 1⟩) = nByteWrite u)
        | .error _ => false) = true) (by decide +kernel)
  obtain ⟨missed, returned⟩ := of_decide_eq_true passed
  split at returned
  · rename_i u looped
    obtain ⟨byte, uncounted⟩ := of_decide_eq_true returned
    obtain ⟨evicts, room⟩ := evictLoop_evicts looped
    have found : merlinFind s ⟨4, 1⟩ = (false, (merlinFind s ⟨4, 1⟩).2) := Prod.ext missed rfl
    have fits : merlinCanInsert threeBytes ⟨4, 1⟩ = true := by decide
    obtain ⟨fs, trace, _⟩ := evicts_trace fits evicts
    obtain ⟨es, run⟩ := ((gets_reached gets).next (.miss (by decide) found)).trans ⟨fs, trace⟩
    refine ⟨_, _, run.snoc (.insert fits room), ?_⟩
    have before := run_writes run
    have least := total_nonneg (fun e : Config × Config => uncountedBytes threeBytes e.1) es
      (fun e _ => uncountedBytes_nonneg threeBytes e.1)
    rw [total_append, total_cons, total_nil, before]
    simp only [nByteWrite] at uncounted ⊢
    omega
  · cases returned

end MerlinPolicy
