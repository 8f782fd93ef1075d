import CacheEviction.ShardRefinement

/-!
# Histories of a Merlin list

A history starts with empty queues and counters at zero. Fresh items are added,
resident items are accessed, and a candidate that an eviction returns has left
the list; the threads' calls come in any order and every lock attempt may fail.
-/
namespace MerlinShards

open FuelLoops ItemRef MerlinFifo ShardQueues StepTraces WeightedLists
open MerlinGhost hiding getFreq

variable {P : Type} [DecidableEq P] {L : Layout P} {s₀ s t : Linkage P} {n : P}

/-! ## Histories -/

/-- Following the links of a queue from its tail meets the item. -/
def Stored (s : Linkage P) (place : Place) (x : P) : Prop :=
  ∃ l, Represents s.queues.hooks (s.queues.fifo place) l ∧ x ∈ l

def Resident (s : Linkage P) (x : P) : Prop := ∃ place, Stored s place x

/-- A list before its first operation. The cached sizes, the links and the words
of the items are whatever the memory held. -/
structure Boot (s : Linkage P) : Prop where
  queues : ∀ place, s.queues.fifo place = {}
  counters : ∀ q level, s.counter q level = 0
  ghost : ∀ q, (s.queueInfo q).ghost = {}
  initialized : s.initializedGs = false

inductive Step (L : Layout P) : Linkage P → Linkage P → Prop where
  /-- A fresh item is in no queue and its word does not have the cuckoo mark. -/
  | add {s : Linkage P} {node : P} (thread : Nat) (word : Word) (unlinked : ¬ Resident s node)
      (fresh : (marks word).cuckoo = false) :
      Step L s (add L (s.updateRef node fun _ => word) node thread)
  | access {s : Linkage P} {node : P} (resident : Resident s node) : Step L s (incFreq L s node)
  | evict {s t : Linkage P} {node : P} {fuel thread : Nat}
      (run : getEvictionCandidate L fuel s thread = .ok (node, t)) : Step L s t

/-- The memory holds lists for which the invariant holds. -/
def Invariant (L : Layout P) (s : Linkage P) : Prop :=
  ∃ c, Holds s.queues c ∧ Sound L (s.withQueues c)

omit [DecidableEq P] in
theorem stored_iff {c : Contents P} (holds : Holds s.queues c) (place : Place) (x : P) :
    Stored s place x ↔ x ∈ c place := by
  constructor
  · rintro ⟨l, represents, member⟩
    rwa [(holds.represents place).unique represents]
  · intro member
    exact ⟨c place, holds.represents place, member⟩

omit [DecidableEq P] in
theorem resident_iff {c : Contents P} (holds : Holds s.queues c) (x : P) :
    Resident s x ↔ Linked (s.withQueues c) x :=
  exists_congr fun place => stored_iff holds place x

omit [DecidableEq P] in
theorem boot_holds (boot : Boot s) : Holds s.queues (fun _ => []) := by
  have empty : s.queues = ⟨s.queues.hooks, fun _ => {}⟩ := by
    have fifos := funext boot.queues
    rw [← fifos]
  rw [empty]
  exact holds_empty s.queues.hooks

omit [DecidableEq P] in
theorem boot_invariant (boot : Boot s) : Invariant L s := by
  have holds := boot_holds boot
  refine ⟨fun _ => [], holds, holds.separate, ?_, ?_, ?_, ?_, ?_⟩
  · intro place x hx
    cases hx
  · intro place x hx
    cases hx
  · intro p _ level _
    have counters : ∀ q, (s.withQueues (fun _ => [] : Contents P)).counter q level = 0 := fun q =>
      boot.counters q level
    rw [counters, counters]
    simp [population, census, Layout.pairPlaces]
  · intro q
    have blank : ((s.withQueues (fun _ => [] : Contents P)).queueInfo q).ghost = {} := boot.ghost q
    rw [blank]
    exact counted_blank (fun _ => rfl) (fun _ => rfl)
  · exact fun _ => boot.ghost

omit [DecidableEq P] in
theorem boot_vacant (boot : Boot s) (x : P) : ¬ Resident s x := by
  rw [resident_iff (boot_holds boot)]
  rintro ⟨place, hx⟩
  cases hx

theorem allocate_invariant (inv : Invariant L s) (unlinked : ¬ Resident s n) (word : Word) :
    Invariant L (s.updateRef n fun _ => word) := by
  obtain ⟨c, holds, sound⟩ := inv
  refine ⟨c, holds, sound.allocate ?_ fun _ => word⟩
  rwa [← resident_iff holds]

theorem add_effect (inv : Invariant L s) (unlinked : ¬ Resident s n)
    (fresh : (marks (s.ref n)).cuckoo = false) (thread : Nat) :
    Invariant L (add L s n thread) ∧ (∀ x, Resident (add L s n thread) x ↔ x = n ∨ Resident s x) ∧
      ∀ x, x ≠ n → (add L s n thread).ref x = s.ref x := by
  obtain ⟨c, holds, sound⟩ := inv
  have absent : ¬ Linked (s.withQueues c) n := fun there =>
    unlinked ((resident_iff holds n).mpr there)
  obtain ⟨d, holds', same⟩ := add_sim (L := L) ⟨c, holds, rfl⟩ absent thread
  have added := add_sound sound absent fresh thread
  obtain ⟨dst, admitted⟩ := add_admitted (L := L) sound.ghosts fresh thread
  have others := admitted.others
  rw [same] at added others
  refine ⟨⟨d, holds', added.1⟩, ?_, others⟩
  intro x
  rw [resident_iff holds', resident_iff holds]
  exact added.2 x

theorem incFreq_effect (inv : Invariant L s) (resident : Resident s n) :
    Invariant L (incFreq L s n) := by
  obtain ⟨c, holds, sound⟩ := inv
  obtain ⟨d, holds', same⟩ := incFreq_sim (L := L) ⟨c, holds, rfl⟩ n
  have accessed := (incFreq_sound sound ((resident_iff holds n).mp resident)).1
  rw [same] at accessed
  exact ⟨d, holds', accessed⟩

theorem evict_lost {c : Contents P} {fuel thread : Nat} (holds : Holds s.queues c)
    (sound : Sound L (s.withQueues c))
    (run : getEvictionCandidate L fuel s thread = .ok (n, t)) :
    ∃ d, Holds t.queues d ∧
      Lost L (L.targetQueue thread) n (s.withQueues c) (t.withQueues d) := by
  obtain ⟨⟨m, b⟩, lists, same, d, holds', rfl⟩ :=
    (getEvictionCandidate_agree (L := L) ⟨c, holds, rfl⟩ fuel thread).ok run
  obtain rfl : n = m := same
  exact ⟨d, holds', getEvictionCandidate_lost sound lists⟩

theorem evict_effect {fuel thread : Nat} (inv : Invariant L s)
    (run : getEvictionCandidate L fuel s thread = .ok (n, t)) :
    Invariant L t ∧ Resident s n ∧ (∀ x, Resident t x ↔ Resident s x ∧ x ≠ n) ∧
      (∀ x, (marks (t.ref x)).linked = (marks (s.ref x)).linked) ∧ (Quiet s → Quiet t) := by
  obtain ⟨c, holds, sound⟩ := inv
  obtain ⟨d, holds', lost⟩ := evict_lost holds sound run
  refine ⟨⟨d, holds', lost.sound⟩, (resident_iff holds n).mpr lost.linked, ?_, lost.marked,
    lost.quiet⟩
  intro x
  rw [resident_iff holds', resident_iff holds]
  exact lost.items x

theorem step_invariant (inv : Invariant L s) (step : Step L s t) : Invariant L t := by
  cases step with
  | @add node thread word unlinked fresh =>
    have marked : (marks ((s.updateRef node fun _ => word).ref node)).cuckoo = false := by
      rw [updateRef_same]
      exact fresh
    exact (add_effect (allocate_invariant inv unlinked word) unlinked marked thread).1
  | access resident => exact incFreq_effect inv resident
  | evict run => exact (evict_effect inv run).1

theorem history_invariant (boot : Boot s₀) (history : Reachable (Step L) s₀ s) : Invariant L s :=
  history.invariant (Invariant L) (boot_invariant boot) fun _ _ => step_invariant

/-! ## Counters -/

omit [DecidableEq P] in
theorem population_eq_count (c : Contents P) (freq : P → Nat) (p level : Nat) :
    population L c freq p level = (((L.pairPlaces p).map fun place =>
      (c place).countP fun x => decide (level ≤ freq x)).sum : Nat) := by
  have queue : ∀ l : List P, total (fun x => reaches level (freq x)) l =
      (l.countP fun x => decide (level ≤ freq x) : Nat) := by
    intro l
    rw [← total_eq_countP]
    apply total_congr
    intro x _
    simp [reaches]
  simp only [population, census, queue]
  induction L.pairPlaces p with
  | nil => rfl
  | cons place places ih => simp [ih]

theorem Sound.refresh {a : Lists P} (h : Sound L a) (q : Nat) : Sound L (a.refresh q) := by
  refine h.congr rfl rfl (fun q' => (refresh_queueInfo a q q').1) ?_ ?_
  · intro q'
    rw [(refresh_queueInfo a q q').2]
    exact h.ghosts q'
  · intro idle q'
    rw [(refresh_queueInfo a q q').2]
    exact h.pristine idle q'

omit [DecidableEq P] in
theorem Sound.pairFreq_nonneg {a : Lists P} (h : Sound L a) {p level : Nat}
    (below : p < L.totalThreads) (hl : level = 1 ∨ level = 2) : 0 ≤ pairFreq L a p level := by
  have counts := h.counts p below level hl
  have remembered := (h.ghosts p).nonneg hl
  rw [population_eq_count, Shards.counter, Shards.counter] at counts
  rw [pairFreq]
  omega

def oneShard : Layout Nat where
  totalThreads := 1
  hashNode := BitVec.ofNat 32
  positive := by decide
  fits := by decide

def blank (missed : Nat → Nat) : Linkage P where
  queues := ⟨fun _ => ⟨none, none⟩, fun _ => {}⟩
  ref := fun _ => 0
  queueInfo := fun _ => { filterSize := 0, stagingSize := 0, totalSize := 0 }
  missed := missed

omit [DecidableEq P] in
theorem blank_boot (missed : Nat → Nat) : Boot (blank missed : Linkage P) :=
  ⟨fun _ => rfl, fun _ _ => rfl, fun _ => rfl, rfl⟩

def allocate (L : Layout P) (s : Linkage P) (node : P) : Linkage P :=
  add L (s.updateRef node fun _ => 0) node 0

theorem allocate_steps (boot : Boot s₀) (history : Reachable (Step L) s₀ s)
    (unlinked : ¬ Resident s n) : Reachable (Step L) s₀ (allocate L s n) ∧
      ∀ x, Resident (allocate L s n) x ↔ x = n ∨ Resident s x := by
  have inv := allocate_invariant (history_invariant boot history) unlinked 0
  have fresh : (marks ((s.updateRef n fun _ => 0).ref n)).cuckoo = false := by
    rw [updateRef_same]
    decide
  exact ⟨history.next (.add 0 0 unlinked (by decide)), (add_effect inv unlinked fresh 0).2.1⟩

/-- Two items are added, the first is accessed in between. -/
def twoItems (missed : Nat → Nat) : Linkage Nat :=
  allocate oneShard (incFreq oneShard (allocate oneShard (blank missed) 0) 0) 1

theorem twoItems_reachable (missed : Nat → Nat) :
    Reachable (Step oneShard) (blank missed) (twoItems missed) ∧
      ∀ x, Resident (twoItems missed) x ↔ x = 1 ∨ x = 0 := by
  have boot : Boot (blank missed : Linkage Nat) := blank_boot missed
  obtain ⟨first, residents⟩ := allocate_steps (L := oneShard) (n := 0) boot .refl (boot_vacant boot 0)
  have accessed := first.next (.access ((residents 0).mpr (.inl rfl)))
  have same : ∀ x, Resident (incFreq oneShard (allocate oneShard (blank missed) 0) 0) x ↔ x = 0 := by
    intro x
    refine (residents x).trans ?_
    simp [boot_vacant boot x]
  obtain ⟨second, residents'⟩ := allocate_steps (n := 1) boot accessed (by simp [same])
  refine ⟨second, ?_⟩
  intro x
  rw [twoItems, residents', same]

/-- The item stands in this queue only, which is one of its pair and of the kind
that its marks name. -/
structure InPlace (L : Layout P) (s : Linkage P) (x : P) (place : Place) : Prop where
  pair : place ∈ L.pairPlaces (L.primary x)
  only : ∀ other, Stored s other x → other = place
  filter : place.2 = .filter ↔ isFlagSet (s.ref x) .kMMFlag0 = true
  core : place.2 = .core ↔ isFlagSet (s.ref x) .kMMFlag1 = true
  staging : place.2 = .staging ↔
    isFlagSet (s.ref x) .kMMFlag0 = false ∧ isFlagSet (s.ref x) .kMMFlag1 = false

omit [DecidableEq P] in
theorem Sound.inPlace {c : Contents P} (holds : Holds s.queues c) (sound : Sound L (s.withQueues c))
    {place : Place} {x : P} (stored : Stored s place x) : InPlace L s x place := by
  have member := (stored_iff holds place x).mp stored
  obtain ⟨filter, core⟩ := sound.fits place x member
  have filtered : isFlagSet (s.ref x) .kMMFlag0 = decide (place.2 = .filter) := filter
  have cored : isFlagSet (s.ref x) .kMMFlag1 = decide (place.2 = .core) := core
  constructor
  · exact mem_pairPlaces.mpr (sound.home place x member)
  · intro other there
    exact holds.separate.apart ((stored_iff holds other x).mp there) member
  · rw [filtered, decide_eq_true_iff]
  · rw [cored, decide_eq_true_iff]
  · rw [filtered, cored]
    cases place.2 <;> decide

/-- In every state of a history the queues are well formed and each item is in
place. An eviction that returns takes exactly the returned item, from the pair of
the calling thread, and every item that remains is in place again. -/
theorem evictions_conserve (boot : Boot s₀) (history : Reachable (Step L) s₀ s) :
    (∃ c, Holds s.queues c) ∧ (∀ place x, Stored s place x → InPlace L s x place) ∧
    ∀ fuel thread n t, getEvictionCandidate L fuel s thread = .ok (n, t) →
      (∃ place ∈ L.pairPlaces (L.targetQueue thread), Stored s place n) ∧
      (∀ x, Resident t x ↔ Resident s x ∧ x ≠ n) ∧
      ∀ place x, Stored t place x → InPlace L t x place := by
  have inv := history_invariant boot history
  obtain ⟨c, holds, sound⟩ := id inv
  refine ⟨⟨c, holds⟩, fun place x => sound.inPlace holds, ?_⟩
  intro fuel thread n t run
  obtain ⟨d, holds', lost⟩ := evict_lost holds sound run
  refine ⟨?_, (evict_effect inv run).2.2.1, fun place x => lost.sound.inPlace holds'⟩
  obtain ⟨place, member⟩ := lost.linked
  refine ⟨place, ?_, (stored_iff holds place n).mpr member⟩
  rw [mem_pairPlaces, ← lost.home]
  exact sound.home place n member

/-- The eviction of item 1, which item 0 survives in the core. -/
theorem evictions_conserve_two_items : ∃ t,
    getEvictionCandidate oneShard 5 (twoItems fun _ => 1) 0 = .ok (1, t) ∧
      (∀ x, Resident t x ↔ x = 0) ∧ ∀ place x, Stored t place x → InPlace oneShard t x place := by
  obtain ⟨history, residents⟩ := twoItems_reachable fun _ => 1
  have returns : Returns (getEvictionCandidate oneShard 5 (twoItems fun _ => 1) 0)
      (fun r => r.1 == 1) = true := by decide +kernel
  obtain ⟨⟨n, t⟩, run, found⟩ := exists_of_returns returns
  obtain rfl : n = 1 := by simpa using found
  obtain ⟨_, _, conserve⟩ := evictions_conserve (blank_boot fun _ => 1) history
  obtain ⟨_, items, placed⟩ := conserve 5 0 1 t run
  refine ⟨t, run, ?_, placed⟩
  intro x
  rw [items, residents]
  omega

/-! ## The lists behind the memory -/

/-- The operations on plain lists. -/
inductive ListStep (L : Layout P) : Lists P → Lists P → Prop where
  | add {a : Lists P} {node : P} (thread : Nat) (word : Word) (unlinked : ¬ Linked a node)
      (fresh : (marks word).cuckoo = false) :
      ListStep L a (add L (a.updateRef node fun _ => word) node thread)
  | access {a : Lists P} {node : P} (linked : Linked a node) : ListStep L a (incFreq L a node)
  | evict {a b : Lists P} {node : P} {fuel thread : Nat}
      (run : getEvictionCandidate L fuel a thread = .ok (node, b)) : ListStep L a b

theorem Sim.allocate {a : Lists P} (sim : Sim s a) (word : Word) :
    Sim (s.updateRef n fun _ => word) (a.updateRef n fun _ => word) := by
  obtain ⟨c, holds, rfl⟩ := sim
  exact ⟨c, holds, rfl⟩

omit [DecidableEq P] in
theorem Sim.linked {a : Lists P} (sim : Sim s a) : Resident s n ↔ Linked a n := by
  obtain ⟨c, holds, rfl⟩ := sim
  exact resident_iff holds n

/-- The histories on linked memory are those on plain lists: each has its counterpart, in any
order of the threads' calls and with any outcome of the lock attempts, and there an eviction
returns the same item or does not return either. -/
theorem linked_bisimulates_lists (boot : Boot s₀) :
    (∀ s, Reachable (Step L) s₀ s → ∃ a, Sim s a ∧ Reachable (ListStep L) (s₀.withQueues fun _ => []) a ∧
      ∀ fuel thread, Agree SameItem (getEvictionCandidate L fuel s thread)
        (getEvictionCandidate L fuel a thread)) ∧
    ∀ a, Reachable (ListStep L) (s₀.withQueues fun _ => []) a → ∃ s, Sim s a ∧ Reachable (Step L) s₀ s := by
  have start : Sim s₀ (s₀.withQueues fun _ => []) := ⟨_, boot_holds boot, rfl⟩
  constructor
  · intro s history
    suffices lists : ∃ a, Sim s a ∧ Reachable (ListStep L) (s₀.withQueues fun _ => []) a by
      obtain ⟨a, sim, lists⟩ := lists
      exact ⟨a, sim, lists, fun fuel thread => getEvictionCandidate_agree sim fuel thread⟩
    refine history.invariant (fun s => ∃ a, Sim s a ∧ Reachable (ListStep L) _ a) ⟨_, start, .refl⟩ ?_
    rintro s t ⟨a, sim, lists⟩ step
    cases step with
    | add thread word unlinked fresh =>
      rw [sim.linked] at unlinked
      exact ⟨_, add_sim (sim.allocate word) unlinked thread, lists.next (.add thread word unlinked fresh)⟩
    | access resident => exact ⟨_, incFreq_sim sim _, lists.next (.access (sim.linked.mp resident))⟩
    | evict run =>
      obtain ⟨⟨m, b⟩, same, -, after⟩ := (getEvictionCandidate_agree sim _ _).ok run
      exact ⟨b, after, lists.next (.evict same)⟩
  · intro a history
    refine history.invariant (fun a => ∃ s, Sim s a ∧ Reachable (Step L) s₀ s) ⟨_, start, .refl⟩ ?_
    rintro a b ⟨s, sim, runs⟩ step
    cases step with
    | add thread word unlinked fresh =>
      refine ⟨_, add_sim (sim.allocate word) unlinked thread, runs.next (.add thread word ?_ fresh)⟩
      rwa [sim.linked]
    | access member => exact ⟨_, incFreq_sim sim _, runs.next (.access (sim.linked.mpr member))⟩
    | @evict _ m fuel thread run =>
      have agree := getEvictionCandidate_agree (L := L) sim fuel thread
      cases memory : getEvictionCandidate L fuel s thread with
      | error e =>
        rw [memory, run] at agree
        cases agree
      | ok r =>
        rw [memory, run] at agree
        exact ⟨r.2, agree.2, runs.next (.evict memory)⟩

/-- The two items, and the lists they stand in. -/
theorem linked_bisimulates_lists_two_items : Boot (blank (fun _ => 1) : Linkage Nat) ∧
    ∃ a, Sim (twoItems fun _ => 1) a ∧
      Reachable (ListStep oneShard) ((blank fun _ => 1).withQueues fun _ => []) a := by
  have boot : Boot (blank (fun _ => 1) : Linkage Nat) := blank_boot _
  obtain ⟨a, sim, lists, -⟩ := (linked_bisimulates_lists boot).1 _ (twoItems_reachable fun _ => 1).1
  exact ⟨boot, a, sim, lists⟩

end MerlinShards
