import CacheEviction.ShardRuns

/-!
# The cuckoo mark

An insertion that lands in the cuckoo shard sets the item's cuckoo mark, and the
shard of an item is later computed from the mark. Nothing ever clears it, so an item
that is popped from the cuckoo shard and put back into the primary one keeps a mark
that names the wrong shard.

Each operation draws its own lock outcomes here, so that a condition on the
outcomes of one operation says nothing about the others.
-/
namespace MerlinShards

open FuelLoops ItemRef ShardQueues StepTraces WeightedLists
open MerlinGhost hiding getFreq

variable {Q P : Type} [DecidableEq P] {L : Layout P}

def Shards.cuckooBit (s : Shards Q P) (x : P) : Bool := (marks (s.ref x)).cuckoo

theorem cuckooBit_updateRef (s : Shards Q P) (node : P) {f : Word → Word}
    (keeps : ∀ w, (marks (f w)).cuckoo = (marks w).cuckoo) (x : P) :
    (s.updateRef node f).cuckooBit x = s.cuckooBit x := by
  by_cases here : x = node
  · subst here
    rw [Shards.cuckooBit, updateRef_same, keeps]
    rfl
  · rw [Shards.cuckooBit, updateRef_other s node f here]
    rfl

/-! ## One eviction on plain lists -/

/-- Linked items have the mark of the half they stand in. The items in `hand`
were popped and are not linked; they have the mark of the shard that is worked
on, which is the cuckoo shard if `first`. Then no insertion lands in the primary. -/
structure Tidy (L : Layout P) (first : Bool) (sizes : Nat → Nat) (hand : List P) (a : Lists P) :
    Prop where
  separate : Separate a.queues
  told : ∀ place, ∀ x ∈ a.queues place, a.cuckooBit x = decide (L.totalThreads ≤ place.1)
  absent : ∀ n ∈ hand, ∀ place, n ∉ a.queues place
  held : ∀ n ∈ hand, a.cuckooBit n = first
  fair : first = true → ∀ i, a.missed i % 2 = 0
  cached : ∀ q, (a.queueInfo q).totalSize = sizes q

variable {a b : Lists P} {e : Site} {n : P} {src : Place} {rest hand : List P} {first : Bool}
  {sizes : Nat → Nat}

omit [DecidableEq P] in
theorem Tidy.congr (tidy : Tidy L first sizes hand a) (queues : b.queues = a.queues)
    (bits : ∀ x, b.cuckooBit x = a.cuckooBit x) (missed : b.missed = a.missed)
    (info : ∀ q, (b.queueInfo q).totalSize = (a.queueInfo q).totalSize) :
    Tidy L first sizes hand b := by
  constructor
  · exact queues ▸ tidy.separate
  · intro place x hx
    rw [bits]
    exact tidy.told place x (queues ▸ hx)
  · exact queues ▸ tidy.absent
  · intro n hn
    rw [bits]
    exact tidy.held n hn
  · exact missed ▸ tidy.fair
  · intro q
    rw [info, tidy.cached]

theorem Tidy.updateRef (tidy : Tidy L first sizes hand a) (node : P) {f : Word → Word}
    (keeps : ∀ w, (marks (f w)).cuckoo = (marks w).cuckoo) :
    Tidy L first sizes hand (a.updateRef node f) :=
  tidy.congr rfl (cuckooBit_updateRef a node keeps) rfl fun _ => rfl

omit [DecidableEq P] in
theorem Tidy.updateInfo (tidy : Tidy L first sizes hand a) (q : Nat) {f : QueueInfo → QueueInfo}
    (keeps : ∀ i, (f i).totalSize = i.totalSize) :
    Tidy L first sizes hand (a.updateInfo q f) := by
  refine tidy.congr rfl (fun _ => rfl) rfl ?_
  intro q'
  rw [updateInfo_queueInfo]
  split
  · exact keeps _
  · rfl

omit [DecidableEq P] in
theorem Tidy.release (tidy : Tidy L first sizes hand a) : Tidy L first sizes [] a :=
  ⟨tidy.separate, tidy.told, by simp, by simp, tidy.fair, tidy.cached⟩

omit [DecidableEq P] in
theorem Site.For.half (hs : e.For L) : decide (L.totalThreads ≤ e.target) = e.cuckoofirst := by
  have below := hs.bound
  have cuckoo := hs.cuckoo
  have positive := L.positive
  rw [Site.cuckoofirst, decide_eq_decide]
  rcases hs.target with target | target <;> omega

omit [DecidableEq P] in
theorem Tidy.pop (tidy : Tidy L first sizes hand a) (shape : a.queues src = n :: rest)
    (half : decide (L.totalThreads ≤ src.1) = first) :
    Tidy L first sizes (n :: hand) (a.withQueues (Function.update a.queues src rest)) := by
  obtain ⟨separate, members⟩ := tidy.separate.pop shape
  constructor
  · exact separate
  · intro place x hx
    exact tidy.told place x (members.mp hx).2
  · intro m hm place there
    obtain ⟨other, old⟩ := members.mp there
    rcases List.mem_cons.mp hm with rfl | hm
    · exact other rfl
    · exact tidy.absent m hm place old
  · intro m hm
    rcases List.mem_cons.mp hm with rfl | hm
    · rw [← half]
      exact tidy.told src m (by simp [shape])
    · exact tidy.held m hm
  · exact tidy.fair
  · exact tidy.cached

theorem Tidy.reinsert (hs : e.For L) (tidy : Tidy L e.cuckoofirst sizes hand a) (hn : n ∈ hand)
    (kind : Kind) : Tidy L e.cuckoofirst sizes [] (reinsert a e n kind) := by
  have queues : (MerlinShards.reinsert a e n kind).queues =
      FifoStore.linkAtHead a.queues (landing a kind e.ori e.cuckoo e.cuckoofirst) n :=
    cuckooInsert_queues _ _ _ _ _ _
  have missed : (MerlinShards.reinsert a e n kind).missed = fun i => a.missed (i + 1) :=
    cuckooInsert_missed _ _ _ _ _ _
  constructor
  · rw [queues]
    exact tidy.separate.push (tidy.absent n hn) _
  · intro place x hx
    rw [queues] at hx
    by_cases same : x = n
    · subst same
      obtain ⟨_, rfl⟩ := (mem_push.mp hx).resolve_left (tidy.absent x hn place)
      have bit : (marks (a.ref x)).cuckoo = e.cuckoofirst := tidy.held x hn
      have below := hs.bound
      have cuckoo := hs.cuckoo
      rw [Shards.cuckooBit, MerlinShards.reinsert, cuckooInsert_marks, bit]
      simp only [landing, staysPrimary]
      by_cases preferred : e.cuckoofirst = true
      · -- an even number of failures leaves the item in the cuckoo shard
        have even := tidy.fair preferred 0
        simp [preferred, even, cuckoo]
      · simp only [Bool.not_eq_true] at preferred
        by_cases swapped : a.missed 0 % 2 = 1
        · simp [preferred, swapped, cuckoo]
        · simp [preferred, swapped, below]
    · have old := (mem_push.mp hx).resolve_right fun new => same new.1
      rw [Shards.cuckooBit, MerlinShards.reinsert, cuckooInsert_other _ _ _ _ _ _ same]
      exact tidy.told place x old
  · simp
  · simp
  · intro preferred i
    rw [missed]
    exact tidy.fair preferred (i + 1)
  · intro q
    rw [MerlinShards.reinsert, cuckooInsert_queueInfo]
    exact tidy.cached q

/-! The updates between a pop and the insertion leave the mark alone. -/

section Updates

variable (tidy : Tidy L first sizes hand a) (node : P) (q : Nat)
include tidy

omit [DecidableEq P] in
theorem Tidy.count (f : (Nat → Int) → Nat → Int) : Tidy L first sizes hand (a.count q f) :=
  tidy.updateInfo q fun _ => rfl

theorem Tidy.setCore : Tidy L first sizes hand (setCore a node) :=
  tidy.updateRef node fun w => by simp [Marks.put]

theorem Tidy.unSetCore : Tidy L first sizes hand (unSetCore a node) :=
  tidy.updateRef node fun w => by simp [Marks.put]

theorem Tidy.setFilter : Tidy L first sizes hand (setFilter a node) :=
  tidy.updateRef node fun w => by simp [Marks.put]

theorem Tidy.unSetFilter : Tidy L first sizes hand (unSetFilter a node) :=
  tidy.updateRef node fun w => by simp [Marks.put]

theorem Tidy.decFreq : Tidy L first sizes hand (decFreq L a node).2 := by
  have lowered := tidy.updateRef node (f := lowerFreq) fun w => by rw [marks_lowerFreq]
  exact lowered.count (getQueueID L a node) fun d => countStep d (getFreq (a.ref node)) (-1)

theorem Tidy.clearFreq : Tidy L first sizes hand (clearFreq L a node) := by
  have cleared := tidy.updateRef node (f := dropFreq) fun w => by rw [marks_dropFreq]
  exact cleared.count (getQueueID L a node) fun d => countFreq d (getFreq (a.ref node)) (-1)

theorem Tidy.setFreq {freq : Nat} (small : freq ≤ maxFreq) :
    Tidy L first sizes hand (setFreq L a node freq) := by
  have written := tidy.updateRef node (f := (writeFreq · freq)) fun w => by
    rw [marks_writeFreq w small]
  exact written.count (getQueueID L a node) fun d => countFreq d freq 1

theorem Tidy.resetFreq : Tidy L first sizes hand (resetFreq a node) :=
  tidy.updateRef node fun w => by rw [marks_wipeFreq]

omit [DecidableEq P]

theorem Tidy.touchSketch (key : Key) : Tidy L first sizes hand (a.touchSketch q key) :=
  tidy.updateInfo q fun _ => rfl

theorem Tidy.shrinkFilter : Tidy L first sizes hand (a.shrinkFilter q) :=
  tidy.updateInfo q fun _ => rfl

theorem Tidy.shrinkStaging : Tidy L first sizes hand (a.shrinkStaging q) :=
  tidy.updateInfo q fun _ => rfl

theorem Tidy.rememberGhost (key : Key) (freq : Nat) :
    Tidy L first sizes hand (a.rememberGhost q key freq) :=
  tidy.updateInfo q fun _ => rfl

end Updates

def Turn.state : Turn Q P → Shards Q P
  | .moved s => s
  | .victim _ s => s
  | .empty s => s

section Stages

variable (hs : e.For L) (tidy : Tidy L e.cuckoofirst sizes [] a)
include hs tidy

theorem coreTurn_tidy : Tidy L e.cuckoofirst sizes [] (coreTurn L a e).state := by
  rw [coreTurn]
  cases shape : a.queues (e.target, .core) with
  | nil =>
    rw [popTail_nil shape]
    exact tidy
  | cons n rest =>
    rw [popTail_cons shape]
    have popped := (tidy.pop shape hs.half).decFreq n
    dsimp only
    split
    · exact popped.release
    · exact popped.reinsert hs List.mem_cons_self .core

theorem stagingTurn_tidy : Tidy L e.cuckoofirst sizes [] (stagingTurn L a e).state := by
  rw [stagingTurn]
  cases shape : a.queues (e.target, .staging) with
  | nil =>
    rw [popTail_nil shape]
    exact tidy
  | cons n rest =>
    rw [popTail_cons shape]
    have popped := ((tidy.pop shape hs.half).shrinkStaging e.target).decFreq n
    dsimp only
    split
    · exact popped.release
    · exact ((popped.reinsert hs List.mem_cons_self .core).setCore n).touchSketch _ _

omit tidy in
theorem contest_tidy (tidy : Tidy L e.cuckoofirst sizes [n] a) :
    Tidy L e.cuckoofirst sizes [] (contest L a e n).state := by
  obtain same | ⟨tail, staged, behind, _, same⟩ | ⟨tail, staged, behind, same⟩ :=
    contest_cases (L := L) a e n
  · rw [same]
    exact tidy.release
  · rw [same]
    have popped := (tidy.pop behind hs.half).unSetFilter n
    exact ((popped.reinsert hs (by simp) .staging).touchSketch _ _).resetFreq n
  · rw [same]
    exact (tidy.pop behind hs.half).reinsert hs List.mem_cons_self .staging

theorem filterTurn_tidy : Tidy L e.cuckoofirst sizes [] (filterTurn L a e).state := by
  rw [filterTurn]
  cases shape : a.queues (e.target, .filter) with
  | nil =>
    rw [popTail_nil shape]
    exact tidy
  | cons n rest =>
    rw [popTail_cons shape]
    have popped := ((tidy.pop shape hs.half).shrinkFilter e.target).touchSketch e.ori (L.hashNode n)
    dsimp only
    split
    · have back := (popped.unSetFilter n).reinsert hs List.mem_cons_self .core
      exact (back.setCore n).clearFreq n
    · exact contest_tidy hs ((popped.count _ _).rememberGhost _ _ _)

end Stages

/-- The state a round leaves, whether or not the loop goes on. -/
def roundState : EvictionRound Q P → Shards Q P
  | .again (_, s) => s
  | .done (_, s) => s

omit [DecidableEq P] in
theorem Turn.round_tidy {turn : Turn (Contents P) P} (i : Nat)
    {onEmpty : Lists P → EvictionRound (Contents P) P} (tidy : Tidy L first sizes [] turn.state)
    (later : ∀ {s}, Tidy L first sizes [] s → Tidy L first sizes [] (roundState (onEmpty s))) :
    Tidy L first sizes [] (roundState (turn.round i onEmpty)) := by
  cases turn with
  | moved s => exact tidy
  | victim node s => exact tidy
  | empty s => exact later tidy

theorem filterStage_tidy (hs : e.For L) (tidy : Tidy L e.cuckoofirst sizes [] a) (i : Nat) :
    Tidy L e.cuckoofirst sizes [] (roundState (filterStage L e i a)) := by
  have core : ∀ {s : Lists P} (j : Nat), Tidy L e.cuckoofirst sizes [] s →
      Tidy L e.cuckoofirst sizes [] (roundState (coreStage L e j s)) := fun j tidy =>
    Turn.round_tidy j (coreTurn_tidy hs tidy) id
  have staging : ∀ {s : Lists P} (j : Nat), Tidy L e.cuckoofirst sizes [] s →
      Tidy L e.cuckoofirst sizes [] (roundState (stagingStage L e j s)) := by
    intro s j tidy
    rw [stagingStage]
    split
    · exact Turn.round_tidy j (stagingTurn_tidy hs tidy) (core (j + 1))
    · exact core j tidy
  rw [filterStage]
  split
  · exact Turn.round_tidy i (filterTurn_tidy hs tidy) (staging (i + 1))
  · exact staging i tidy

theorem evictionRound_tidy (hs : e.For L) (tidy : Tidy L e.cuckoofirst sizes [] a) (i : Nat)
    {r : EvictionRound (Contents P) P} (round : evictionRound L e (i, a) = .ok r) :
    Tidy L e.cuckoofirst sizes [] (roundState r) := by
  cases round
  split
  · exact filterStage_tidy hs tidy i
  · exact tidy

theorem getEvictionFromqueue_tidy {fuel target thread ori cuckoo : Nat} {r : Option P × Lists P}
    (hs : Site.For L ⟨thread, target, ori, cuckoo, (a.queueInfo target).totalSize⟩)
    (tidy : Tidy L (decide (target = cuckoo)) sizes [] a)
    (run : getEvictionFromqueue L fuel a target thread ori cuckoo = .ok r) :
    Tidy L (decide (target = cuckoo)) sizes [] r.2 := by
  refine loop_invariant _ (fun s => Tidy L (decide (target = cuckoo)) sizes [] s.2)
    (fun r => Tidy L (decide (target = cuckoo)) sizes [] r.2) ?_ ?_ fuel (0, a) tidy r run
  · rintro ⟨i, s⟩ ⟨j, t⟩ tidy round
    exact evictionRound_tidy hs tidy i round
  · rintro ⟨i, s⟩ ⟨v, t⟩ tidy round
    exact evictionRound_tidy hs tidy i round

theorem getEvictionThreadlocal_tidy {fuel thread : Nat} {r : P × Lists P}
    (tidy : Tidy L (decide (evictionTarget L a (L.targetQueue thread) =
      L.targetQueue thread + L.totalThreads)) sizes [] a)
    (run : getEvictionThreadlocal L fuel a thread = .ok r) :
    Tidy L (decide (evictionTarget L a (L.targetQueue thread) =
      L.targetQueue thread + L.totalThreads)) sizes [] r.2 := by
  set q := L.targetQueue thread with hq
  set preferred := decide (evictionTarget L a q = q + L.totalThreads) with hp
  have target : ∀ {s : Lists P}, Tidy L preferred sizes [] s →
      evictionTarget L s q = evictionTarget L a q := by
    intro s later
    rw [evictionTarget, evictionTarget, later.cached, later.cached, tidy.cached, tidy.cached]
  have inner : ∀ {s t : Lists P} {v : Option P}, Tidy L preferred sizes [] s →
      getEvictionFromqueue L fuel s (evictionTarget L s q) thread q (q + L.totalThreads) =
        .ok (v, t) → Tidy L preferred sizes [] t := by
    intro s t v later ran
    have here : preferred = decide (evictionTarget L s q = q + L.totalThreads) := by
      rw [target later]
    rw [here] at later ⊢
    exact getEvictionFromqueue_tidy (site_of_thread s thread _) later ran
  refine loop_invariant _ (fun s => Tidy L preferred sizes [] s)
    (fun r => Tidy L preferred sizes [] r.2) ?_ ?_ fuel a tidy r run
  · intro s t later round
    obtain ⟨⟨v, d⟩, ran, rest⟩ := bind_eq_ok.mp round
    cases v with
    | none =>
      cases rest
      exact inner later ran
    | some node => cases rest
  · intro s r later round
    obtain ⟨⟨v, d⟩, ran, rest⟩ := bind_eq_ok.mp round
    cases v with
    | none => cases rest
    | some node =>
      cases rest
      exact inner later ran

omit [DecidableEq P] in
theorem prepareEviction_same [FifoStore Q P] (s : Shards Q P) (thread : Nat) :
    (prepareEviction L s thread).queues = s.queues ∧ (prepareEviction L s thread).ref = s.ref ∧
      (prepareEviction L s thread).missed = s.missed := by
  have ready : (initializeGs L s).queues = s.queues ∧ (initializeGs L s).ref = s.ref ∧
      (initializeGs L s).missed = s.missed := by
    rw [initializeGs]
    split <;> exact ⟨rfl, rfl, rfl⟩
  rw [prepareEviction]
  dsimp only
  split <;> exact ready

theorem getEvictionCandidate_tidy {fuel thread : Nat} {r : P × Lists P}
    (separate : Separate a.queues)
    (told : ∀ place, ∀ x ∈ a.queues place, a.cuckooBit x = decide (L.totalThreads ≤ place.1))
    (fair : evictionTarget L (prepareEviction L a thread) (L.targetQueue thread) =
      L.targetQueue thread + L.totalThreads → ∀ i, a.missed i % 2 = 0)
    (run : getEvictionCandidate L fuel a thread = .ok r) :
    ∀ place, ∀ x ∈ r.2.queues place, r.2.cuckooBit x = decide (L.totalThreads ≤ place.1) := by
  obtain ⟨queues, ref, missed⟩ := prepareEviction_same (L := L) a thread
  have start : Tidy L (decide (evictionTarget L (prepareEviction L a thread)
      (L.targetQueue thread) = L.targetQueue thread + L.totalThreads))
      (fun q => ((prepareEviction L a thread).queueInfo q).totalSize) []
      (prepareEviction L a thread) := by
    constructor
    · exact queues ▸ separate
    · intro place x hx
      rw [Shards.cuckooBit, ref]
      exact told place x (queues ▸ hx)
    · simp
    · simp
    · rw [missed, decide_eq_true_iff]
      exact fair
    · exact fun _ => rfl
  exact (getEvictionThreadlocal_tidy start run).told

theorem add_tidy (ghosts : GhostsCounted a) (tidy : Tidy L false sizes [n] a) (thread : Nat) :
    Tidy L false sizes [] (add L a n thread) := by
  have unmarked : isFlagSet (a.ref n) .kMMFlag5 = false := tidy.held n (by simp)
  have primary : getQueueID L a n = L.primary n := by
    rw [getQueueID, unmarked]
    rfl
  set e : Site := ⟨thread, L.primary n, L.primary n, L.primary n + L.totalThreads, 0⟩ with he
  have hs : e.For L := ⟨primary_lt n, rfl, .inl rfl⟩
  have plain : e.cuckoofirst = false := by
    have positive := L.positive
    simp only [Site.cuckoofirst, he, decide_eq_false_iff_not]
    omega
  have small := (lookupHist_recalled (L := L) ghosts (L.primary n % L.totalThreads) n).small
  have looked : Tidy L false sizes [n] (lookupHist L a (L.primary n % L.totalThreads) n).2 := by
    rw [lookupHist]
    split
    · exact tidy.updateInfo (f := fun i => { i with ghost := _ }) _ fun _ => rfl
    · exact tidy
  have linked : ∀ kind, Tidy L false sizes []
      (cuckooInsert (lookupHist L a (L.primary n % L.totalThreads) n).2 n kind (L.primary n)
        (L.primary n + L.totalThreads) false) := by
    intro kind
    have landed := Tidy.reinsert hs (plain ▸ looked) List.mem_cons_self kind
    rw [reinsert, plain] at landed
    exact landed
  simp only [add, primary]
  split
  · split
    · exact (((linked .core).setCore n).unSetFilter n).setFreq n small
    · exact (((linked .staging).unSetCore n).unSetFilter n).resetFreq n
  · exact (((linked .filter).setFilter n).unSetCore n).resetFreq n

/-! ## Histories -/

/-- The same list with other lock outcomes to come. -/
def Shards.draw (s : Shards Q P) (outcomes : Nat → Nat) : Shards Q P := { s with missed := outcomes }

/-- Operations that draw their own lock outcomes; an eviction may only begin in a
state that is `allowed` for the calling thread. -/
inductive Operation (L : Layout P) (allowed : Linkage P → Nat → Prop) :
    Linkage P → Linkage P → Prop where
  | add {s : Linkage P} {node : P} (outcomes : Nat → Nat) (thread : Nat) (word : Word)
      (unlinked : ¬ Resident s node) (fresh : (marks word).cuckoo = false) :
      Operation L allowed s (add L ((s.draw outcomes).updateRef node fun _ => word) node thread)
  | access {s : Linkage P} {node : P} (resident : Resident s node) :
      Operation L allowed s (incFreq L s node)
  | evict {s t : Linkage P} {node : P} {fuel thread : Nat} (outcomes : Nat → Nat)
      (permitted : allowed (s.draw outcomes) thread)
      (run : getEvictionCandidate L fuel (s.draw outcomes) thread = .ok (node, t)) :
      Operation L allowed s t

/-- If the eviction is to work on the cuckoo shard, an even number of attempts
fails at each of its insertions, so that none lands in the primary. -/
def Settled (L : Layout P) (s : Linkage P) (thread : Nat) : Prop :=
  evictionTarget L (prepareEviction L s thread) (L.targetQueue thread) =
    L.targetQueue thread + L.totalThreads → ∀ i, s.missed i % 2 = 0

def Told (L : Layout P) (s : Linkage P) : Prop :=
  ∀ place x, Stored s place x → s.cuckooBit x = decide (L.totalThreads ≤ place.1)

variable {s s₀ t : Linkage P} {allowed : Linkage P → Nat → Prop}

omit [DecidableEq P] in
theorem draw_invariant (inv : Invariant L s) (outcomes : Nat → Nat) :
    Invariant L (s.draw outcomes) := by
  obtain ⟨c, holds, sound⟩ := inv
  exact ⟨c, holds, sound.congr rfl rfl (fun _ => rfl) sound.ghosts sound.pristine⟩

theorem Operation.step (h : Operation L allowed s t) :
    ∃ outcomes, Step L (s.draw outcomes) t := by
  cases h with
  | add outcomes thread word unlinked fresh => exact ⟨outcomes, .add thread word unlinked fresh⟩
  | access resident => exact ⟨s.missed, .access resident⟩
  | evict outcomes permitted run => exact ⟨outcomes, .evict run⟩

theorem operations_invariant (boot : Boot s₀) (history : Reachable (Operation L allowed) s₀ s) :
    Invariant L s := by
  refine history.invariant (Invariant L) (boot_invariant boot) ?_
  intro s t inv operation
  obtain ⟨outcomes, step⟩ := operation.step
  exact step_invariant (draw_invariant inv outcomes) step

omit [DecidableEq P] in
theorem told_iff {c : Contents P} (holds : Holds s.queues c) : Told L s ↔
    ∀ place, ∀ x ∈ c place, (s.withQueues c).cuckooBit x = decide (L.totalThreads ≤ place.1) :=
  forall₂_congr fun place x => imp_congr (stored_iff holds place x) Iff.rfl

theorem add_told {word : Word} (inv : Invariant L s) (told : Told L s) (unlinked : ¬ Resident s n)
    (fresh : (marks word).cuckoo = false) (outcomes : Nat → Nat) (thread : Nat) :
    Told L (add L ((s.draw outcomes).updateRef n fun _ => word) n thread) := by
  obtain ⟨c, holds, sound⟩ := inv
  have absent : ∀ place, n ∉ c place := fun place hn =>
    unlinked ((resident_iff holds n).mpr ⟨place, hn⟩)
  set u := (s.draw outcomes).updateRef n fun _ => word with hu
  have bits : ∀ x, (u.withQueues c).cuckooBit x = if x = n then false else s.cuckooBit x := by
    intro x
    by_cases same : x = n
    · subst same
      simp [Shards.cuckooBit, hu, fresh]
    · have kept : u.ref x = s.ref x := updateRef_other (s.draw outcomes) n (fun _ => word) same
      simp [Shards.cuckooBit, kept, same]
  have start : Tidy L false (fun q => (u.queueInfo q).totalSize) [n] (u.withQueues c) := by
    refine ⟨holds.separate, ?_, ?_, ?_, by simp, fun _ => rfl⟩
    · intro place x hx
      have other : x ≠ n := by
        rintro rfl
        exact absent place hx
      rw [bits, if_neg other]
      exact told place x ((stored_iff holds place x).mpr hx)
    · simpa using absent
    · simp [bits]
  obtain ⟨d, holds', same⟩ := add_sim (s := u) (L := L) (n := n) ⟨c, holds, rfl⟩
    (fun there => there.elim absent) thread
  have ghosts : GhostsCounted (u.withQueues c) := sound.ghosts
  have after := (add_tidy ghosts start thread).told
  rw [same] at after
  exact (told_iff holds').mpr after

theorem incFreq_told (inv : Invariant L s) (told : Told L s) (n : P) : Told L (incFreq L s n) := by
  obtain ⟨c, holds, -⟩ := inv
  have bits : ∀ x, (incFreq L s n).cuckooBit x = s.cuckooBit x :=
    cuckooBit_updateRef s n fun w => by rw [marks_raiseFreq]
  intro place x stored
  rw [bits]
  exact told place x stored

theorem evict_told {fuel thread : Nat} (inv : Invariant L s) (told : Told L s)
    (settled : Settled L s thread) (run : getEvictionCandidate L fuel s thread = .ok (n, t)) :
    Told L t := by
  obtain ⟨c, holds, sound⟩ := inv
  obtain ⟨⟨m, b⟩, lists, -, d, holds', rfl⟩ :=
    (getEvictionCandidate_agree (L := L) ⟨c, holds, rfl⟩ fuel thread).ok run
  have fair : evictionTarget L (prepareEviction L (s.withQueues c) thread) (L.targetQueue thread) =
      L.targetQueue thread + L.totalThreads → ∀ i, (s.withQueues c).missed i % 2 = 0 := by
    obtain ⟨_, _, same⟩ := prepareEviction_sim (L := L) (s := s) ⟨c, holds, rfl⟩ thread
    rw [same]
    exact settled
  exact (told_iff holds').mpr
    (getEvictionCandidate_tidy sound.separate ((told_iff holds).mp told) fair lists)

/-- In a history whose evictions are all settled, the mark is set for exactly the
items in the cuckoo half, and a removal looks in the queue that holds the item. -/
theorem cuckoo_mark_tells_queue (boot : Boot s₀) (history : Reachable (Operation L (Settled L)) s₀ s)
    {place : Place} {x : P} (stored : Stored s place x) :
    (isFlagSet (s.ref x) .kMMFlag5 = true ↔ L.totalThreads ≤ place.1) ∧
      (getQueueID L s x, kindOf (marks (s.ref x))) = place := by
  have both : Invariant L s ∧ Told L s := by
    refine history.invariant (fun s => Invariant L s ∧ Told L s) ⟨boot_invariant boot, ?_⟩ ?_
    · intro place x stored
      exact absurd ⟨place, stored⟩ (boot_vacant boot x)
    · rintro s t ⟨inv, told⟩ operation
      obtain ⟨outcomes, step⟩ := operation.step
      refine ⟨step_invariant (draw_invariant inv outcomes) step, ?_⟩
      cases operation with
      | add outcomes thread word unlinked fresh =>
        exact add_told inv told unlinked fresh outcomes thread
      | access resident => exact incFreq_told inv told _
      | evict outcomes permitted run =>
        exact evict_told (draw_invariant inv outcomes) told permitted run
  obtain ⟨⟨c, holds, sound⟩, told⟩ := both
  have member := (stored_iff holds place x).mp stored
  have bit : isFlagSet (s.ref x) .kMMFlag5 = decide (L.totalThreads ≤ place.1) :=
    told place x stored
  obtain ⟨filter, core⟩ : Fits place.2 (marks (s.ref x)) := sound.fits place x member
  have home := sound.home place x member
  have below := primary_lt (L := L) x
  refine ⟨by rw [bit, decide_eq_true_iff], Prod.ext ?_ ?_⟩
  · rw [getQueueID, bit]
    simp only [decide_eq_true_iff]
    split <;> omega
  · rw [kindOf, filter, core]
    cases place.2 <;> rfl

/-! A list of one shard. Two items are added and land in the cuckoo shard, the
first is accessed, and an eviction moves it to the core and takes the second. -/

/-- A new allocation with lock outcomes of its own. -/
def enroll (L : Layout P) (s : Linkage P) (outcomes : Nat → Nat) (node : P) : Linkage P :=
  add L ((s.draw outcomes).updateRef node fun _ => 0) node 0

theorem enroll_reachable (boot : Boot s₀) (history : Reachable (Operation L allowed) s₀ s)
    (unlinked : ¬ Resident s n) (outcomes : Nat → Nat) :
    Reachable (Operation L allowed) s₀ (enroll L s outcomes n) ∧
      ∀ x, Resident (enroll L s outcomes n) x ↔ x = n ∨ Resident s x := by
  have inv := allocate_invariant (draw_invariant (operations_invariant boot history) outcomes)
    unlinked 0
  have fresh : (marks (((s.draw outcomes).updateRef n fun _ => 0).ref n)).cuckoo = false := by
    rw [updateRef_same]
    decide
  exact ⟨history.next (.add outcomes 0 0 unlinked (by decide)), (add_effect inv unlinked fresh 0).2.1⟩

omit [DecidableEq P] in
theorem stored_of_tail (inv : Invariant L s) {place : Place} {x : P}
    (tail : (s.queues.fifo place).tail = some x) : Stored s place x := by
  obtain ⟨c, holds, -⟩ := inv
  refine ⟨c place, holds.represents place, List.mem_of_mem_head? ?_⟩
  rw [← (holds.represents place).tail]
  exact tail

def cuckooItems : Linkage Nat :=
  enroll oneShard (incFreq oneShard (enroll oneShard (blank fun _ => 0) (fun _ => 1) 0) 0) (fun _ => 1) 1

theorem cuckooItems_reachable (allowed : Linkage Nat → Nat → Prop) :
    Reachable (Operation oneShard allowed) (blank fun _ => 0) cuckooItems := by
  have boot : Boot (blank (fun _ => 0) : Linkage Nat) := blank_boot _
  obtain ⟨first, residents⟩ := enroll_reachable (n := 0) boot
    (.refl : Reachable (Operation oneShard allowed) _ _) (boot_vacant boot 0) fun _ => 1
  have accessed := first.next (.access ((residents 0).mpr (.inl rfl)))
  refine (enroll_reachable (n := 1) boot accessed ?_ fun _ => 1).1
  intro there
  rcases (residents 1).mp there with same | old
  · cases same
  · exact boot_vacant boot 1 old

/-- No attempt fails during the eviction: item 0 stays in the cuckoo shard. -/
theorem cuckoo_mark_tells_queue_settled : ∃ t,
    Reachable (Operation oneShard (Settled oneShard)) (blank fun _ => 0) t ∧
      Stored t (1, .core) 0 ∧ isFlagSet (t.ref 0) .kMMFlag5 = true ∧
      (getQueueID oneShard t 0, kindOf (marks (t.ref 0))) = (1, .core) := by
  have returns : Returns (getEvictionCandidate oneShard 5 (cuckooItems.draw fun _ => 0) 0)
      (fun r => (r.2.queues.fifo (1, .core)).tail == some 0) = true := by decide +kernel
  obtain ⟨⟨n, t⟩, run, found⟩ := exists_of_returns returns
  have boot : Boot (blank (fun _ => 0) : Linkage Nat) := blank_boot _
  have settled : Settled oneShard (cuckooItems.draw fun _ => 0) 0 := fun _ _ => rfl
  have history := (cuckooItems_reachable (Settled oneShard)).next (.evict (fun _ => 0) settled run)
  have stored := stored_of_tail (operations_invariant boot history) (by simpa using found)
  obtain ⟨mark, place⟩ := cuckoo_mark_tells_queue boot history stored
  exact ⟨t, history, stored, mark.mpr (by decide), place⟩

/-- One attempt fails when item 0 is put back: it lands in the primary shard, and
its mark still names the cuckoo shard. -/
theorem cuckoo_mark_outlives_move : ∃ t,
    Reachable (Operation oneShard fun _ _ => True) (blank fun _ => 0) t ∧
      Stored t (0, .core) 0 ∧ isFlagSet (t.ref 0) .kMMFlag5 = true ∧ getQueueID oneShard t 0 = 1 := by
  have returns : Returns (getEvictionCandidate oneShard 5 (cuckooItems.draw fun _ => 1) 0)
      (fun r => (r.2.queues.fifo (0, .core)).tail == some 0 && isFlagSet (r.2.ref 0) .kMMFlag5 &&
        getQueueID oneShard r.2 0 == 1) = true := by decide +kernel
  obtain ⟨⟨n, t⟩, run, found⟩ := exists_of_returns returns
  simp only [Bool.and_eq_true, beq_iff_eq] at found
  obtain ⟨⟨tail, mark⟩, shard⟩ := found
  have history := (cuckooItems_reachable fun _ _ => True).next (.evict (fun _ => 1) trivial run)
  exact ⟨t, history, stored_of_tail (operations_invariant (blank_boot _) history) tail, mark, shard⟩

end MerlinShards
