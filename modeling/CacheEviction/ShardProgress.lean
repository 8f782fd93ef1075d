import CacheEviction.ShardRuns

/-!
# When an eviction returns

The eviction loop decides by cached sizes which queues it may look at. While one
of those queues has an item, and insertions land where they are meant to, every
round takes frequency off some item or finds the victim. When none has, a round
changes nothing and the loop goes on for ever. `add` does not update the cached
sizes, so this happens to shards that are not empty.
-/
namespace MerlinShards

open FuelLoops ItemRef MerlinFifo ShardQueues StepTraces WeightedLists
open MerlinGhost hiding getFreq

variable {Q P : Type} [DecidableEq P] {L : Layout P}

/-- Where the next call of `getEviction_fromqueue` for a thread works. -/
def siteOf (L : Layout P) (s : Shards Q P) (thread : Nat) : Site where
  thread := thread
  target := evictionTarget L s (L.targetQueue thread)
  ori := L.targetQueue thread
  cuckoo := L.targetQueue thread + L.totalThreads
  listSize := (s.queueInfo (evictionTarget L s (L.targetQueue thread))).totalSize

/-! ## Fuel -/

section Fuel

variable [FifoStore Q P]

theorem getEvictionFromqueue_mono (s : Shards Q P) (target thread ori cuckoo : Nat) :
    FuelMono (fun fuel => getEvictionFromqueue L fuel s target thread ori cuckoo) :=
  loop_mono (fun _ => evictionRound L _) (fun _ => .const _) (0, s)

theorem threadlocalRound_mono (thread : Nat) (s : Shards Q P) :
    FuelMono (fun fuel => threadlocalRound L thread fuel s) := by
  apply (getEvictionFromqueue_mono s _ thread _ _).bind
  rintro ⟨node, t⟩
  cases node with
  | none => exact .const _
  | some node => exact .const _

theorem getEvictionCandidate_mono (s : Shards Q P) (thread : Nat) :
    FuelMono (fun fuel => getEvictionCandidate L fuel s thread) :=
  loop_mono (threadlocalRound L thread) (threadlocalRound_mono thread) _

end Fuel

/-! ## The work left in a shard -/

variable {a b : Lists P} {e : Site} {src dst : Place} {n : P} {rest : List P}
variable {thread : Nat}

def shardPlaces (q : Nat) : List Place := [(q, .filter), (q, .staging), (q, .core)]

/-- What an item can still cost: a core item can be passed over once for each
unit of frequency, any other item can enter the core first. -/
def effort (a : Lists P) (place : Place) (x : P) : Int :=
  a.freq x + if place.2 = .core then 1 else 2

def work (a : Lists P) (q : Nat) : Int := census (effort a) (shardPlaces q) a.queues

theorem nodup_shardPlaces (q : Nat) : (shardPlaces q).Nodup := by
  simp [shardPlaces]

theorem mem_shardPlaces {q : Nat} {place : Place} : place ∈ shardPlaces q ↔ place.1 = q := by
  obtain ⟨p, kind⟩ := place
  cases kind <;> simp [shardPlaces]

omit [DecidableEq P] in
theorem work_nonneg (a : Lists P) (q : Nat) : 0 ≤ work a q := by
  apply total_nonneg
  intro place _
  apply total_nonneg
  intro x _
  rw [effort]
  split <;> omega

theorem work_decreases (separate : Separate a.queues) (move : Promoted L e n src dst rest a b)
    (here : src.1 = e.target) (there : dst.1 = e.target) : work b e.target < work a e.target := by
  have shape : a.queues src = [] ++ n :: rest := move.popped
  obtain ⟨_, members⟩ := separate.cut shape
  have same : census (effort b) (shardPlaces e.target) (Function.update a.queues src rest) =
      census (effort a) (shardPlaces e.target) (Function.update a.queues src rest) := by
    apply census_congr
    intro place x hx
    have kept : b.freq x = a.freq x := congrArg getFreq (move.others x (members.mp hx).1)
    rw [effort, effort, kept]
  have lighter : effort b dst n < effort a src n := by
    have cooler : b.freq n + (if src.2 = .core then 1 else 0) ≤ a.freq n := move.cooler
    rw [effort, effort, if_pos move.core]
    split at cooler
    case isTrue core =>
      rw [if_pos core]
      omega
    case isFalse outside =>
      rw [if_neg outside]
      omega
  calc work b e.target
      = census (effort b) (shardPlaces e.target) (Function.update a.queues src rest) +
          effort b dst n := by
        rw [work, move.queues]
        refine (census_push (nodup_shardPlaces _) (Function.update a.queues src rest) dst n).trans ?_
        rw [if_pos (mem_shardPlaces.mpr there)]
    _ = work a e.target - effort a src n + effort b dst n := by
        rw [same]
        have popped := census_cut (w := effort a) (nodup_shardPlaces e.target) shape
        rw [if_pos (mem_shardPlaces.mpr here)] at popped
        rw [List.nil_append] at popped
        rw [popped, work]
    _ < work a e.target := by omega

/-! ## An eligible queue gives a victim -/

/-- A state of the eviction loop in which the thread will find a victim. -/
structure Ready (L : Layout P) (thread : Nat) (a : Lists P) : Prop where
  sound : Sound L a
  started : a.initializedGs = true
  quiet : Quiet a
  eligible : Eligible (siteOf L a thread) a

omit [DecidableEq P] in
theorem siteOf_congr {Q' : Type} {s : Shards Q P} {t : Shards Q' P}
    (sizes : ∀ q, (t.queueInfo q).totalSize = (s.queueInfo q).totalSize) (thread : Nat) :
    siteOf L t thread = siteOf L s thread := by
  have target : evictionTarget L t (L.targetQueue thread) =
      evictionTarget L s (L.targetQueue thread) := by
    rw [evictionTarget, evictionTarget, sizes, sizes]
  rw [siteOf, siteOf, target, sizes]

omit [DecidableEq P] in
theorem siteOf_for (a : Lists P) (thread : Nat) : (siteOf L a thread).For L :=
  site_of_thread a thread _

theorem Promoted.stays (move : Promoted L (siteOf L a thread) n src dst rest a b) (quiet : Quiet a) :
    dst.1 = (siteOf L a thread).target := by
  have meant := move.uncontended (quiet 0)
  rw [meant, Site.cuckoofirst]
  rcases (siteOf_for (L := L) a thread).target with target | target
  · have other : (siteOf L a thread).ori ≠ (siteOf L a thread).cuckoo := by
      have positive := L.positive
      simp only [siteOf]
      omega
    rw [target]
    simp [other]
  · simp [target]

/-- The list is ready at the same site as before, with less work left there. -/
structure Shrunk (L : Layout P) (thread : Nat) (a b : Lists P) : Prop where
  ready : Ready L thread b
  site : siteOf L b thread = siteOf L a thread
  less : (work b (siteOf L a thread).target).toNat < (work a (siteOf L a thread).target).toNat

theorem Shrunk.trans {d : Lists P} (first : Shrunk L thread a b) (second : Shrunk L thread b d) :
    Shrunk L thread a d := by
  have less := second.less
  rw [first.site] at less
  exact ⟨second.ready, second.site.trans first.site, less.trans first.less⟩

theorem Ready.round {i : Nat} (h : Ready L thread a) (early : i < maxRetries) :
    (∃ n b, evictionRound L (siteOf L a thread) (i, a) = .ok (.done (some n, b))) ∨
    ∃ j b, evictionRound L (siteOf L a thread) (i, a) = .ok (.again (j, b)) ∧
      Shrunk L thread a b := by
  have outcome := filterStage_outcome (L := L) (e := siteOf L a thread) h.sound.separate i
  rw [evictionRound, if_pos early]
  cases shape : filterStage L (siteOf L a thread) i a with
  | done r =>
    rw [shape] at outcome
    cases outcome with
    | victim _ _ => exact .inl ⟨_, _, rfl⟩
  | again t =>
    rw [shape] at outcome
    cases outcome with
    | idle closed => exact absurd h.eligible closed
    | @moved j n src dst rest b here move _ =>
      have kept := h.sound.relocate h.started (siteOf_for a thread) here move.toRelocated move.near
      have there := move.stays h.quiet
      have same : siteOf L b thread = siteOf L a thread := siteOf_congr move.sizes thread
      -- the item that moved is now in the core of the target shard
      have core : dst = ((siteOf L a thread).target, .core) := Prod.ext there move.core
      have occupied : FifoStore.size b.queues ((siteOf L a thread).target, .core) ≠ 0 := by
        rw [Ne, size_eq_zero_iff, ← core, move.queues]
        simp [FifoStore.linkAtHead]
      have less := work_decreases h.sound.separate move here there
      have nonneg := work_nonneg b (siteOf L a thread).target
      refine .inr ⟨j, b, rfl, ⟨kept.sound, kept.started, kept.quiet h.quiet, ?_⟩, same, by omega⟩
      rw [same]
      exact .inr (.inr occupied)

theorem Ready.pass (h : Ready L thread a) :
    ∃ r, Yields (fun fuel => loop (evictionRound L (siteOf L a thread)) fuel (0, a)) (.ok r) ∧
      (r.1 = none → Shrunk L thread a r.2) := by
  have yields := loop_yields (fun _ => evictionRound L (siteOf L a thread))
    (fun s => s = (0, a) ∨ Shrunk L thread a s.2)
    (fun s => (work s.2 (siteOf L a thread).target).toNat)
    (fun x => ∃ r, x = .ok r ∧ (r.1 = none → Shrunk L thread a r.2))
    (by
      rintro ⟨i, s⟩ progress
      refine ⟨_, .const _, ?_⟩
      have ready : Ready L thread s ∧ siteOf L s thread = siteOf L a thread := by
        rcases progress with start | shrunk
        · cases start
          exact ⟨h, rfl⟩
        · exact ⟨shrunk.ready, shrunk.site⟩
      obtain ⟨ready, same⟩ := ready
      by_cases early : i < maxRetries
      · rw [← same]
        rcases ready.round early with ⟨n, b, found⟩ | ⟨j, b, moved, shrunk⟩
        · rw [found]
          exact ⟨_, rfl, fun none => by cases none⟩
        · rw [moved]
          refine ⟨.inr ?_, shrunk.less⟩
          rcases progress with start | before
          · cases start
            exact shrunk
          · exact before.trans shrunk
      · rw [evictionRound, if_neg early]
        refine ⟨_, rfl, fun _ => progress.resolve_left ?_⟩
        rintro ⟨rfl, rfl⟩
        exact early (by decide))
    (0, a) (.inl rfl)
  obtain ⟨_, returns, r, rfl, gaveUp⟩ := yields
  exact ⟨r, returns, gaveUp⟩

theorem Ready.returns (h : Ready L thread a) :
    ∃ n b, Yields (fun fuel => getEvictionThreadlocal L fuel a thread) (.ok (n, b)) := by
  have yields := loop_yields (threadlocalRound L thread) (Ready L thread)
    (fun s => (work s (siteOf L s thread).target).toNat) (fun x => ∃ n b, x = .ok (n, b))
    (by
      intro s ready
      obtain ⟨⟨v, t⟩, pass, gaveUp⟩ := ready.pass
      cases v with
      | some node => exact ⟨.ok (.done (node, t)), pass.bind (.const _), node, t, rfl⟩
      | none =>
        have shrunk : Shrunk L thread s t := gaveUp rfl
        refine ⟨.ok (.again t), pass.bind (.const _), shrunk.ready, ?_⟩
        dsimp only
        rw [shrunk.site]
        exact shrunk.less)
    a h
  obtain ⟨_, returns, n, b, rfl⟩ := yields
  exact ⟨n, b, returns⟩

/-! ## A closed shard is never left -/

theorem closed_hangs (separate : Separate a.queues) (closed : ¬ Eligible (siteOf L a thread) a)
    (fuel : Nat) : getEvictionThreadlocal L fuel a thread = .error .outOfFuel := by
  refine loop_diverges (threadlocalRound L thread fuel) (· = a) ?_ fuel a rfl
  rintro s rfl
  cases pass : getEvictionFromqueue L fuel s (evictionTarget L s (L.targetQueue thread)) thread
      (L.targetQueue thread) (L.targetQueue thread + L.totalThreads) with
  | error stop =>
    cases stop with
    | fault impossible => exact impossible.elim
    | outOfFuel =>
      left
      rw [threadlocalRound, pass]
      rfl
  | ok r =>
    have unchanged : r = (none, s) := by
      refine loop_invariant _ (fun t => t.2 = s) (· = (none, s)) ?_ ?_ fuel (0, s) rfl r pass
      · rintro ⟨i, t⟩ u rfl round
        rcases evictionRound_cases separate round with ⟨_, outcome⟩ | ⟨_, stop⟩
        · cases outcome with
          | idle => rfl
          | moved _ _ opened => exact absurd opened closed
        · cases stop
      · rintro ⟨i, t⟩ u rfl round
        rcases evictionRound_cases separate round with ⟨_, outcome⟩ | ⟨_, stop⟩
        · cases outcome with
          | victim _ opened => exact absurd opened closed
        · cases stop
          rfl
    right
    refine ⟨s, ?_, rfl⟩
    rw [threadlocalRound, pass, unchanged]
    rfl

/-! ## The state a call starts from -/

/-- The cached sizes that the choice of a queue reads. -/
def SameSizes {Q' : Type} (s : Shards Q P) (t : Shards Q' P) : Prop :=
  ∀ q, (t.queueInfo q).filterSize = (s.queueInfo q).filterSize ∧
    (t.queueInfo q).stagingSize = (s.queueInfo q).stagingSize ∧
    (t.queueInfo q).totalSize = (s.queueInfo q).totalSize

omit [DecidableEq P] in
theorem eligible_congr {Q' : Type} [FifoStore Q P] [FifoStore Q' P] {s : Shards Q P}
    {t : Shards Q' P} (same : SameSizes s t)
    (queues : ∀ place, FifoStore.size t.queues place = FifoStore.size s.queues place)
    (thread : Nat) : Eligible (siteOf L t thread) t ↔ Eligible (siteOf L s thread) s := by
  rw [siteOf_congr fun q => (same q).2.2]
  simp only [Eligible, filterOversized, stagingOversized, same _, queues]

theorem initializeGs_sizes (a : Lists P) : SameSizes a (initializeGs L a) := by
  intro q
  rw [initializeGs]
  split
  · exact ⟨rfl, rfl, rfl⟩
  · dsimp only
    split <;> exact ⟨rfl, rfl, rfl⟩

theorem initializeGs_threadInfo (a : Lists P) : (initializeGs L a).threadInfo = a.threadInfo := by
  rw [initializeGs]
  split <;> rfl

theorem initializeGs_queues (a : Lists P) : (initializeGs L a).queues = a.queues := by
  rw [initializeGs]
  split <;> rfl

theorem prepared_stale (stale : (a.threadInfo thread).numInserts % 1024 ≠ 0) :
    Eligible (siteOf L (prepareEviction L a thread) thread) (prepareEviction L a thread) ↔
      Eligible (siteOf L a thread) a := by
  have skip : ((initializeGs L a).threadInfo thread).numInserts % 1024 ≠ 0 := by
    rwa [initializeGs_threadInfo]
  apply eligible_congr
  · rw [prepareEviction, if_neg skip]
    exact initializeGs_sizes a
  · intro place
    rw [prepareEviction, if_neg skip]
    exact congrArg (FifoStore.size · place) (initializeGs_queues a)

def Exact (a : Lists P) (q : Nat) : Prop :=
  (a.queueInfo q).filterSize = (a.queues (q, .filter)).length ∧
  (a.queueInfo q).stagingSize = (a.queues (q, .staging)).length ∧
  (a.queueInfo q).totalSize = (a.queues (q, .filter)).length + (a.queues (q, .core)).length +
    (a.queues (q, .staging)).length

theorem refresh_exact (a : Lists P) (q : Nat) :
    Exact (a.refresh q) q ∧ ∀ q', Exact a q' → Exact (a.refresh q) q' := by
  have here : Exact (a.refresh q) q := by
    rw [Exact, Shards.refresh, updateInfo_queueInfo, if_pos rfl]
    exact ⟨rfl, rfl, rfl⟩
  refine ⟨here, ?_⟩
  intro q' before
  by_cases same : q' = q
  · exact same ▸ here
  · rw [Exact, Shards.refresh, updateInfo_queueInfo, if_neg same]
    exact before

/-- With exact sizes some queue of a pair that is not empty is eligible: the
larger shard has an item, and filter and staging cannot both be small in it. -/
theorem exact_eligible (primary : Exact a (L.targetQueue thread))
    (cuckoo : Exact a (L.targetQueue thread + L.totalThreads))
    (occupied : ∃ place ∈ L.pairPlaces (L.targetQueue thread), a.queues place ≠ []) :
    Eligible (siteOf L a thread) a := by
  have nonempty : 0 < (a.queueInfo (L.targetQueue thread)).totalSize +
      (a.queueInfo (L.targetQueue thread + L.totalThreads)).totalSize := by
    obtain ⟨⟨q, kind⟩, member, found⟩ := occupied
    have length := List.length_pos_iff.mpr found
    rw [primary.2.2, cuckoo.2.2]
    rcases mem_pairPlaces.mp member with here | here
    · obtain rfl : q = L.targetQueue thread := here
      cases kind <;> omega
    · obtain rfl : q = L.targetQueue thread + L.totalThreads := here
      cases kind <;> omega
  have larger : Exact a (siteOf L a thread).target ∧
      0 < (a.queueInfo (siteOf L a thread).target).totalSize := by
    simp only [siteOf, evictionTarget]
    split
    · exact ⟨primary, by omega⟩
    · exact ⟨cuckoo, by omega⟩
  obtain ⟨⟨filter, staging, total_⟩, positive⟩ := larger
  have listSize : (siteOf L a thread).listSize = (a.queueInfo (siteOf L a thread).target).totalSize :=
    rfl
  simp only [Eligible, filterOversized, stagingOversized, FifoStore.size, decide_eq_true_iff,
    Bool.or_eq_true]
  omega

theorem prepared_fresh (due : (a.threadInfo thread).numInserts % 1024 = 0)
    (occupied : ∃ place ∈ L.pairPlaces (L.targetQueue thread), a.queues place ≠ []) :
    Eligible (siteOf L (prepareEviction L a thread) thread) (prepareEviction L a thread) := by
  have refreshes : ((initializeGs L a).threadInfo thread).numInserts % 1024 = 0 := by
    rwa [initializeGs_threadInfo]
  obtain ⟨primary, _⟩ := refresh_exact (initializeGs L a) (L.targetQueue thread)
  obtain ⟨cuckoo, kept⟩ := refresh_exact ((initializeGs L a).refresh (L.targetQueue thread))
    (L.targetQueue thread + L.totalThreads)
  have queues : (prepareEviction L a thread).queues = a.queues := by
    rw [prepareEviction, if_pos refreshes]
    exact initializeGs_queues a
  apply exact_eligible
  · rw [prepareEviction, if_pos refreshes]
    exact kept _ primary
  · rw [prepareEviction, if_pos refreshes]
    exact cuckoo
  · rw [queues]
    exact occupied

/-! ## Evictions of a history -/

variable {s₀ s : Linkage P}

theorem add_quiet (quiet : Quiet s) (thread : Nat) : Quiet (add L s n thread) := by
  have kept : (lookupHist L s (getQueueID L s n % L.totalThreads) n).2.missed = s.missed := by
    rw [lookupHist]
    split <;> rfl
  rw [add]
  generalize lookupHist L s (getQueueID L s n % L.totalThreads) n = r at kept
  obtain ⟨histFreq, t⟩ := r
  have inserted : ∀ kind i, (cuckooInsert t n kind (getQueueID L s n)
      (getQueueID L s n + L.totalThreads) false).missed i = 0 := by
    intro kind i
    rw [cuckooInsert_missed]
    exact (congrFun kept (i + 1)).trans (quiet (i + 1))
  dsimp only
  split
  · split
    · exact inserted .core
    · exact inserted .staging
  · exact inserted .filter

theorem step_quiet {t : Linkage P} (inv : Invariant L s) (quiet : Quiet s) (step : Step L s t) :
    Quiet t := by
  cases step with
  | @add node thread word _ _ =>
    have allocated : Quiet (s.updateRef node fun _ => word) := quiet
    exact add_quiet allocated thread
  | access _ => exact quiet
  | evict run => exact (evict_effect inv run).2.2.2.2 quiet

theorem history_quiet (boot : Boot s₀) (quiet : Quiet s₀) (history : Reachable (Step L) s₀ s) :
    Quiet s := by
  have both : Invariant L s ∧ Quiet s :=
    history.invariant (fun s => Invariant L s ∧ Quiet s) ⟨boot_invariant boot, quiet⟩
      fun _ _ before step => ⟨step_invariant before.1 step, step_quiet before.1 before.2 step⟩
  exact both.2

theorem eligible_lists {c : Contents P} (holds : Holds s.queues c) (thread : Nat) :
    Eligible (siteOf L (s.withQueues c) thread) (s.withQueues c) ↔
      Eligible (siteOf L s thread) s := by
  have same : SameSizes s (s.withQueues c) := fun _ => ⟨rfl, rfl, rfl⟩
  exact eligible_congr same (fun place => (holds.size place).symm) thread

section Candidate

variable {c : Contents P} (holds : Holds s.queues c) (sound : Sound L (s.withQueues c))
  {thread : Nat}
include holds sound

theorem candidate_returns (quiet : Quiet s)
    (eligible : Eligible (siteOf L (prepareEviction L (s.withQueues c) thread) thread)
      (prepareEviction L (s.withQueues c) thread)) :
    ∃ n t, Yields (fun fuel => getEvictionCandidate L fuel s thread) (.ok (n, t)) := by
  have prepared := prepareEviction_kept sound thread
  have ready : Ready L thread (prepareEviction L (s.withQueues c) thread) :=
    ⟨prepared.sound, prepared.started, prepared.quiet quiet, eligible⟩
  obtain ⟨n, b, N, returns⟩ := ready.returns
  have agree := getEvictionCandidate_agree (L := L) ⟨c, holds, rfl⟩ N thread
  have lists : getEvictionCandidate L N (s.withQueues c) thread = .ok (n, b) := returns N le_rfl
  rw [lists] at agree
  cases run : getEvictionCandidate L N s thread with
  | error stop =>
    rw [run] at agree
    exact agree.elim
  | ok r => exact ⟨r.1, r.2, (getEvictionCandidate_mono s thread).yields run⟩

theorem candidate_hangs
    (closed : ¬ Eligible (siteOf L (prepareEviction L (s.withQueues c) thread) thread)
      (prepareEviction L (s.withQueues c) thread)) (fuel : Nat) :
    getEvictionCandidate L fuel s thread = .error .outOfFuel := by
  have agree := getEvictionCandidate_agree (L := L) ⟨c, holds, rfl⟩ fuel thread
  have lists : getEvictionCandidate L fuel (s.withQueues c) thread = .error .outOfFuel :=
    closed_hangs (prepareEviction_kept sound thread).sound.separate closed fuel
  rw [lists] at agree
  cases run : getEvictionCandidate L fuel s thread with
  | error stop =>
    rw [run] at agree
    exact congrArg Except.error agree
  | ok r =>
    rw [run] at agree
    exact agree.elim

end Candidate

theorem oneShard_pair {t : Linkage Nat} (history : Reachable (Step oneShard) (blank fun _ => 0) t) {x : Nat}
    (resident : Resident t x) : ∃ place ∈ oneShard.pairPlaces (oneShard.targetQueue 0),
      ∃ x, Stored t place x := by
  obtain ⟨place, stored⟩ := resident
  obtain ⟨c, holds, sound⟩ := history_invariant (blank_boot _) history
  have primary : oneShard.primary x = oneShard.targetQueue 0 := Nat.mod_one _
  exact ⟨place, primary ▸ (sound.inPlace holds stored).pair, x, stored⟩

end MerlinShards
