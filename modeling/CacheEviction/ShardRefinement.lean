import CacheEviction.ShardAdmission
import CacheEviction.StepTraces

/-!
# The linked list refines the plain lists

The same text runs on linked memory and on plain lists. From related states the two
take the same branches, return the same items and end in related states; an item that
is inserted was in no queue before, because it was just popped or is new.
-/
namespace MerlinShards

open FuelLoops ItemRef MerlinFifo ShardQueues StepTraces WeightedLists
open MerlinGhost hiding getFreq

variable {P : Type} [DecidableEq P]

/-- A list of shards as it runs: the queues are linked through the items. -/
abbrev Linkage (P : Type) := Shards (Memory P) P

/-- The memory holds the lists, and everything else is the same. -/
def Sim (s : Linkage P) (a : Lists P) : Prop := ∃ c, Holds s.queues c ∧ a = s.withQueues c

variable {L : Layout P} {s : Linkage P} {a : Lists P} {c : Contents P} {n : P}

/-! ## Queue operations -/

theorem pop_cases (holds : Holds s.queues c) (place : Place) :
    (∃ s', popTail s place = (none, s') ∧ popTail (s.withQueues c) place = (none, s'.withQueues c) ∧
      Holds s'.queues c) ∨
    ∃ n s' d, popTail s place = (some n, s') ∧
      popTail (s.withQueues c) place = (some n, s'.withQueues d) ∧ Holds s'.queues d ∧
      (∀ p, n ∉ d p) ∧ ∀ p x, x ∈ d p → x ∈ c p := by
  obtain ⟨same, after⟩ := holds.removeTail place
  cases shape : c place with
  | nil =>
    rw [contents_removeTail_nil shape] at same after
    refine .inl ⟨_, Prod.ext same rfl, ?_, after⟩
    exact popTail_nil (a := s.withQueues c) shape
  | cons n rest =>
    rw [contents_removeTail_cons shape] at same after
    have members := fun {p x} => (holds.separate.pop shape).2 (p := p) (x := x)
    refine .inr ⟨n, _, _, Prod.ext same rfl, ?_, after, ?_, ?_⟩
    · exact popTail_cons (a := s.withQueues c) shape
    · intro p hp
      exact (members.mp hp).1 rfl
    · intro p x hx
      exact (members.mp hx).2

theorem insert_sim (holds : Holds s.queues c) (absent : ∀ p, n ∉ c p) (kind : Kind) (q q' : Nat)
    (first : Bool) :
    Sim (cuckooInsert s n kind q q' first) (cuckooInsert (s.withQueues c) n kind q q' first) := by
  rw [cuckooInsert, cuckooInsert]
  apply ite_agree Sim
  · exact ⟨_, holds.linkAtHead absent (q, kind), rfl⟩
  · exact ⟨_, holds.linkAtHead absent (q', kind), rfl⟩

theorem Sim.shardSize (h : Sim s a) (q : Nat) : shardSize s q = shardSize a q := by
  obtain ⟨c, holds, rfl⟩ := h
  simp only [MerlinShards.shardSize, holds.size]
  rfl

/-! ## Stages -/

def Turn.Agree : Turn (Memory P) P → Turn (Contents P) P → Prop
  | .moved s, .moved a => Sim s a
  | .victim n s, .victim m a => n = m ∧ Sim s a
  | .empty s, .empty a => Sim s a
  | _, _ => False

abbrev EvictionRound.Agree : EvictionRound (Memory P) P → EvictionRound (Contents P) P → Prop :=
  Round.Agree (fun s a => s.1 = a.1 ∧ Sim s.2 a.2) (fun r r' => r.1 = r'.1 ∧ Sim r.2 r'.2)

theorem coreTurn_agree (h : Sim s a) (e : Site) :
    Turn.Agree (coreTurn L s e) (coreTurn L a e) := by
  obtain ⟨c, holds, rfl⟩ := h
  rw [coreTurn, coreTurn]
  rcases pop_cases holds (e.target, .core) with
    ⟨s', memory, lists, after⟩ | ⟨n, s', d, memory, lists, after, absent, _⟩
  · rw [memory, lists]
    exact ⟨c, after, rfl⟩
  · rw [memory, lists]
    apply ite_agree Turn.Agree
    · exact ⟨rfl, d, after, rfl⟩
    · exact insert_sim (s := (decFreq L s' n).2) after absent _ _ _ _

theorem stagingTurn_agree (h : Sim s a) (e : Site) :
    Turn.Agree (stagingTurn L s e) (stagingTurn L a e) := by
  obtain ⟨c, holds, rfl⟩ := h
  rw [stagingTurn, stagingTurn]
  rcases pop_cases holds (e.target, .staging) with
    ⟨s', memory, lists, after⟩ | ⟨n, s', d, memory, lists, after, absent, _⟩
  · rw [memory, lists]
    exact ⟨c, after, rfl⟩
  · rw [memory, lists]
    apply ite_agree Turn.Agree
    · exact ⟨rfl, d, after, rfl⟩
    · obtain ⟨landed, final, same⟩ := insert_sim
        (s := (decFreq L (s'.shrinkStaging e.target) n).2) after absent .core e.ori e.cuckoo
        e.cuckoofirst
      exact ⟨landed, final, congrArg
        (fun b => (setCore b n).touchSketch e.ori (L.hashNode n)) same⟩

theorem contest_agree (holds : Holds s.queues c) (absent : ∀ p, n ∉ c p) (e : Site) :
    Turn.Agree (contest L s e n) (contest L (s.withQueues c) e n) := by
  have crowding : stagingOversized (s.withQueues c) e.target e.listSize =
      stagingOversized s e.target e.listSize := rfl
  rw [contest, contest, crowding]
  by_cases crowded : stagingOversized s e.target e.listSize = true
  · rw [if_pos crowded, if_pos crowded]
    rcases pop_cases holds (e.target, .staging) with
      ⟨s', memory, lists, after⟩ | ⟨tail, s', d, memory, lists, after, fresh, fewer⟩
    · rw [memory, lists]
      exact ⟨rfl, c, after, rfl⟩
    · rw [memory, lists]
      apply ite_agree Turn.Agree
      · -- the filter victim takes the place of the staging tail
        obtain ⟨landed, final, same⟩ := insert_sim (s := unSetFilter s' n) after
          (fun p hp => absent p (fewer p n hp)) .staging e.ori e.cuckoo e.cuckoofirst
        exact ⟨rfl, landed, final, congrArg
          (fun b => resetFreq (b.touchSketch e.ori (L.hashNode n)) n) same⟩
      · exact ⟨rfl, insert_sim after fresh .staging e.ori e.cuckoo e.cuckoofirst⟩
  · rw [if_neg crowded, if_neg crowded]
    exact ⟨rfl, c, holds, rfl⟩

theorem filterTurn_agree (h : Sim s a) (e : Site) :
    Turn.Agree (filterTurn L s e) (filterTurn L a e) := by
  obtain ⟨c, holds, rfl⟩ := h
  rw [filterTurn, filterTurn]
  rcases pop_cases holds (e.target, .filter) with
    ⟨s', memory, lists, after⟩ | ⟨n, s', d, memory, lists, after, absent, _⟩
  · rw [memory, lists]
    exact ⟨c, after, rfl⟩
  · rw [memory, lists]
    apply ite_agree Turn.Agree
    · obtain ⟨landed, final, same⟩ := insert_sim
        (s := unSetFilter ((s'.shrinkFilter e.target).touchSketch e.ori (L.hashNode n)) n) after
        absent .core e.ori e.cuckoo e.cuckoofirst
      exact ⟨landed, final, congrArg (fun b => clearFreq L (setCore b n) n) same⟩
    · exact contest_agree (s := ((((s'.shrinkFilter e.target).touchSketch e.ori
        (L.hashNode n)).count e.target (countFreq · (getFreq (s'.ref n)) (-1))).rememberGhost e.ori
          (L.hashNode n) (getFreq (s'.ref n)))) after absent e

omit [DecidableEq P] in
theorem Turn.Agree.round {x : Turn (Memory P) P} {y : Turn (Contents P) P} (h : Turn.Agree x y)
    (i : Nat) {f : Linkage P → EvictionRound (Memory P) P}
    {g : Lists P → EvictionRound (Contents P) P}
    (onEmpty : ∀ s a, Sim s a → EvictionRound.Agree (f s) (g a)) :
    EvictionRound.Agree (x.round i f) (y.round i g) := by
  match x, y, h with
  | .moved _, .moved _, h => exact ⟨rfl, h⟩
  | .victim _ _, .victim _ _, ⟨same, h⟩ => exact ⟨congrArg some same, h⟩
  | .empty s, .empty a, h => exact onEmpty s a h

theorem coreStage_agree (e : Site) (i : Nat) (s : Linkage P) (a : Lists P) (h : Sim s a) :
    EvictionRound.Agree (coreStage L e i s) (coreStage L e i a) :=
  (coreTurn_agree h e).round i fun _ _ h => ⟨rfl, h⟩

theorem stagingStage_agree (e : Site) (i : Nat) (s : Linkage P) (a : Lists P) (h : Sim s a) :
    EvictionRound.Agree (stagingStage L e i s) (stagingStage L e i a) := by
  obtain ⟨c, holds, rfl⟩ := h
  have sim : Sim s (s.withQueues c) := ⟨c, holds, rfl⟩
  apply ite_agree EvictionRound.Agree
  · exact (stagingTurn_agree sim e).round i (coreStage_agree e (i + 1))
  · exact coreStage_agree e i s _ sim

theorem filterStage_agree (e : Site) (i : Nat) (s : Linkage P) (a : Lists P) (h : Sim s a) :
    EvictionRound.Agree (filterStage L e i s) (filterStage L e i a) := by
  obtain ⟨c, holds, rfl⟩ := h
  have sim : Sim s (s.withQueues c) := ⟨c, holds, rfl⟩
  apply ite_agree EvictionRound.Agree
  · exact (filterTurn_agree sim e).round i (stagingStage_agree e (i + 1))
  · exact stagingStage_agree e i s _ sim

/-! ## Whole operations -/

abbrev SameItem {α : Type} (r : α × Linkage P) (r' : α × Lists P) : Prop :=
  r.1 = r'.1 ∧ Sim r.2 r'.2

theorem getEvictionFromqueue_agree (h : Sim s a) (fuel target thread ori cuckoo : Nat) :
    Agree SameItem (getEvictionFromqueue L fuel s target thread ori cuckoo)
      (getEvictionFromqueue L fuel a target thread ori cuckoo) := by
  obtain ⟨c, holds, rfl⟩ := h
  refine loop_agree SameItem SameItem ?_ fuel (0, s) (0, s.withQueues c) ⟨rfl, c, holds, rfl⟩
  rintro ⟨i, t⟩ ⟨j, b⟩ ⟨same, sim⟩
  obtain rfl : i = j := same
  exact ite_agree EvictionRound.Agree (filterStage_agree _ i t b sim) ⟨rfl, sim⟩

theorem getEvictionThreadlocal_agree (h : Sim s a) (fuel thread : Nat) :
    Agree SameItem (getEvictionThreadlocal L fuel s thread)
      (getEvictionThreadlocal L fuel a thread) := by
  refine loop_agree Sim SameItem ?_ fuel s a h
  rintro t b sim
  obtain ⟨c, holds, rfl⟩ := sim
  refine (getEvictionFromqueue_agree ⟨c, holds, rfl⟩ fuel _ _ _ _).bind ?_
  rintro ⟨v, t'⟩ ⟨w, b'⟩ ⟨same, sim'⟩
  obtain rfl : v = w := same
  cases v with
  | none => exact sim'
  | some node => exact ⟨rfl, sim'⟩

theorem refresh_sim (h : Sim s a) (q : Nat) : Sim (s.refresh q) (a.refresh q) := by
  obtain ⟨c, holds, rfl⟩ := h
  refine ⟨c, holds, ?_⟩
  simp only [Shards.refresh, shardSize, withQueues_queues, holds.size]
  rfl

theorem initializeGs_sim (h : Sim s a) : Sim (initializeGs L s) (initializeGs L a) := by
  have sizes : shardSize a = shardSize s := funext fun q => (h.shardSize q).symm
  obtain ⟨c, holds, rfl⟩ := h
  simp only [initializeGs, size, sizes]
  apply ite_agree Sim
  · exact ⟨c, holds, rfl⟩
  · exact ⟨c, holds, rfl⟩

theorem updateLocal_sim (h : Sim s a) (thread : Nat) :
    Sim (updateLocal L s thread) (updateLocal L a thread) := by
  obtain ⟨c, holds, same⟩ := refresh_sim (refresh_sim h (L.targetQueue thread))
    (L.targetQueue thread + L.totalThreads)
  rw [updateLocal, updateLocal, same]
  exact ⟨c, holds, rfl⟩

theorem prepareEviction_sim (h : Sim s a) (thread : Nat) :
    Sim (prepareEviction L s thread) (prepareEviction L a thread) := by
  obtain ⟨c, holds, same⟩ := initializeGs_sim (L := L) h
  have ready : Sim (initializeGs L s) ((initializeGs L s).withQueues c) := ⟨c, holds, rfl⟩
  have local_ : Sim (if ((initializeGs L s).threadInfo thread).numInserts % 1024 = 0 then
        updateLocal L (initializeGs L s) thread else initializeGs L s)
      (if ((initializeGs L s).threadInfo thread).numInserts % 1024 = 0 then
        updateLocal L ((initializeGs L s).withQueues c) thread else
          (initializeGs L s).withQueues c) :=
    ite_agree Sim (updateLocal_sim ready thread) ready
  obtain ⟨d, holds', same'⟩ := local_
  rw [prepareEviction, prepareEviction, same]
  exact ⟨d, holds', congrArg (fun b : Lists P => { b with
    threadInfo := Function.update b.threadInfo thread
      { b.threadInfo thread with numInserts := (b.threadInfo thread).numInserts + 1 } }) same'⟩

theorem getEvictionCandidate_agree (h : Sim s a) (fuel thread : Nat) :
    Agree SameItem (getEvictionCandidate L fuel s thread) (getEvictionCandidate L fuel a thread) :=
  getEvictionThreadlocal_agree (prepareEviction_sim h thread) fuel thread

omit [DecidableEq P] in
theorem lookupHist_withQueues (q : Nat) :
    lookupHist L (s.withQueues c) q n = ((lookupHist L s q n).1, (lookupHist L s q n).2.withQueues c) := by
  exact ite_agree (fun (x : Nat × Lists P) (y : Nat × Linkage P) => x = (y.1, y.2.withQueues c)) rfl rfl

theorem add_sim (h : Sim s a) (unlinked : ¬ Linked a n) (thread : Nat) :
    Sim (add L s n thread) (add L a n thread) := by
  obtain ⟨c, holds, rfl⟩ := h
  have absent : ∀ p, n ∉ c p := fun p hp => unlinked ⟨p, hp⟩
  have primary : getQueueID L (s.withQueues c) n = getQueueID L s n := rfl
  rw [add, add, primary, lookupHist_withQueues]
  have kept : (lookupHist L s (getQueueID L s n % L.totalThreads) n).2.queues = s.queues := by
    rw [lookupHist]
    split <;> rfl
  generalize lookupHist L s (getQueueID L s n % L.totalThreads) n = r at kept
  obtain ⟨histFreq, t⟩ := r
  have holds' : Holds t.queues c := kept ▸ holds
  have landed := fun kind => insert_sim holds' absent kind (getQueueID L s n)
    (getQueueID L s n + L.totalThreads) false
  apply ite_agree Sim
  · apply ite_agree Sim
    · obtain ⟨d, final, same⟩ := landed .core
      exact ⟨d, final, congrArg
        (fun b => setFreq L (unSetFilter (setCore b n) n) n histFreq) same⟩
    · obtain ⟨d, final, same⟩ := landed .staging
      exact ⟨d, final, congrArg (fun b => resetFreq (unSetFilter (unSetCore b n) n) n) same⟩
  · obtain ⟨d, final, same⟩ := landed .filter
    exact ⟨d, final, congrArg (fun b => resetFreq (unSetCore (setFilter b n) n) n) same⟩

theorem incFreq_sim (h : Sim s a) (x : P) : Sim (incFreq L s x) (incFreq L a x) := by
  obtain ⟨c, holds, rfl⟩ := h
  exact ⟨c, holds, rfl⟩

/-- A removal on linked memory is the removal on the lists if the item stands in
the queue that its marks name and is not the oldest there. -/
theorem remove_sim {older newer : List P} (holds : Holds s.queues c)
    (shape : c (getQueueID L s n, kindOf (marks (s.ref n))) = older ++ n :: newer)
    (behind : older ≠ []) : Sim (remove L s n) (remove L (s.withQueues c) n) :=
  ⟨_, holds.remove shape behind, rfl⟩

end MerlinShards
