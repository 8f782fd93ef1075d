import CacheEviction.ShardUpdates

/-!
# What the eviction loop can do to the queues

Seen on plain lists, a stage of the eviction loop moves one item to the newest
end of a queue of the same pair, or lets one item go; a cold filter victim that
meets a staging tail does one of each. The two counters of the pair follow the
frequency of that item.
-/
namespace MerlinShards

open FuelLoops ItemRef MerlinSketch ShardQueues WeightedLists Function
open MerlinGhost hiding getFreq

variable {Q P : Type} [DecidableEq P]

abbrev Lists (P : Type) := Shards (Contents P) P

/-- The marks of an item say in which kind of queue it stands. -/
def Fits (kind : Kind) (m : Marks) : Prop :=
  m.filter = decide (kind = .filter) ∧ m.core = decide (kind = .core)

/-! ## The two moves -/

variable (L : Layout P)

/-- The counters of one shard, where the item belongs or where it stood, change. -/
def Accounts (node : P) (src : Place) (change : Nat → Int) (a b : Lists P) : Prop :=
  ∃ q, (q = L.primary node ∨ q = L.primary node + L.totalThreads ∨ q = src.1) ∧
    ∀ q' level, level = 1 ∨ level = 2 →
      b.counter q' level = a.counter q' level + if q' = q then change level else 0

structure Relocated (node : P) (src dst : Place) (rest : List P) (a b : Lists P) : Prop where
  popped : a.queues src = node :: rest
  queues : b.queues = FifoStore.linkAtHead (Function.update a.queues src rest) dst node
  others : ∀ x, x ≠ node → b.ref x = a.ref x
  linked : (marks (b.ref node)).linked = (marks (a.ref node)).linked
  fits : Fits src.2 (marks (a.ref node)) → Fits dst.2 (marks (b.ref node))
  accounts : Accounts L node src (fun level =>
    reaches level (getFreq (b.ref node)) - reaches level (getFreq (a.ref node))) a b
  ghosts : GhostsCounted a → GhostsCounted b
  initialized : b.initializedGs = a.initializedGs
  quiet : Quiet a → Quiet b

structure Dropped (node : P) (src : Place) (rest : List P) (a b : Lists P) : Prop where
  popped : a.queues src = node :: rest
  queues : b.queues = Function.update a.queues src rest
  others : ∀ x, x ≠ node → b.ref x = a.ref x
  linked : (marks (b.ref node)).linked = (marks (a.ref node)).linked
  accounts : Accounts L node src (fun level => -reaches level (getFreq (a.ref node))) a b
  ghosts : GhostsCounted a → GhostsCounted b
  initialized : b.initializedGs = a.initializedGs
  quiet : Quiet a → Quiet b

def Site.Near (e : Site) (q : Nat) : Prop := q = e.ori ∨ q = e.cuckoo

/-- The moves after which the loop goes on: into the core, with less frequency
left than the item had outside the core or, inside it, strictly less. -/
structure Promoted (e : Site) (node : P) (src dst : Place) (rest : List P) (a b : Lists P) :
    Prop extends Relocated L node src dst rest a b where
  core : dst.2 = .core
  near : e.Near dst.1
  uncontended : a.missed 0 = 0 → dst.1 = if e.cuckoofirst then e.cuckoo else e.ori
  cooler : getFreq (b.ref node) + (if src.2 = .core then 1 else 0) ≤ getFreq (a.ref node)
  sizes : ∀ q, (b.queueInfo q).totalSize = (a.queueInfo q).totalSize

/-- How an item becomes the victim: it is dropped, alone or after another item
was moved, or before one is. -/
inductive Evicts (e : Site) : P → Lists P → Lists P → Prop where
  | alone {n : P} {src : Place} {rest : List P} {a b : Lists P} (here : src.1 = e.target)
      (drop : Dropped L n src rest a b) : Evicts e n a b
  | swapped {curr tail : P} {dst : Place} {rest staged : List P} {a mid b : Lists P}
      (drop : Dropped L tail (e.target, .staging) staged a mid)
      (move : Relocated L curr (e.target, .filter) dst rest mid b) (near : e.Near dst.1) :
      Evicts e tail a b
  | restored {curr tail : P} {dst : Place} {rest staged : List P} {a mid b : Lists P}
      (move : Relocated L tail (e.target, .staging) dst staged a mid) (near : e.Near dst.1)
      (drop : Dropped L curr (e.target, .filter) rest mid b) : Evicts e curr a b

inductive Outcome (e : Site) (src : Place) (a : Lists P) : Turn (Contents P) P → Prop where
  | empty (shape : a.queues src = []) : Outcome e src a (.empty a)
  | moved {n : P} {dst : Place} {rest : List P} {b : Lists P}
      (promotion : Promoted L e n src dst rest a b) : Outcome e src a (.moved b)
  | victim {n : P} {b : Lists P} (occupied : a.queues src ≠ []) (eviction : Evicts L e n a b) :
      Outcome e src a (.victim n b)

variable {L} {a b : Lists P} {e : Site} {src place : Place} {n : P} {rest : List P}

theorem popTail_nil (shape : a.queues place = []) : popTail a place = (none, a) := by
  simp only [popTail, contents_removeTail_nil shape]
  rfl

theorem popTail_cons (shape : a.queues place = n :: rest) :
    popTail a place = (some n, a.withQueues (update a.queues place rest)) := by
  simp only [popTail, contents_removeTail_cons shape]

omit [DecidableEq P] in
theorem getQueueID_cases (s : Shards Q P) (node : P) : getQueueID L s node = L.primary node ∨
    getQueueID L s node = L.primary node + L.totalThreads := by
  rw [getQueueID]
  split
  · exact .inr rfl
  · exact .inl rfl

omit [DecidableEq P] in
theorem getQueueID_near (s : Shards Q P) (node : P) (src : Place) :
    getQueueID L s node = L.primary node ∨ getQueueID L s node = L.primary node + L.totalThreads ∨
      getQueueID L s node = src.1 := by
  rcases getQueueID_cases (L := L) s node with h | h
  · exact .inl h
  · exact .inr (.inl h)

omit [DecidableEq P] in
theorem landing_near (s : Shards Q P) (k : Kind) :
    e.Near (landing s k e.ori e.cuckoo e.cuckoofirst).1 := by
  simp only [landing]
  split
  · exact .inl rfl
  · exact .inr rfl

omit [DecidableEq P] in
theorem landing_uncontended (s : Shards Q P) (k : Kind) (free : s.missed 0 = 0) :
    (landing s k e.ori e.cuckoo e.cuckoofirst).1 = if e.cuckoofirst then e.cuckoo else e.ori := by
  simp only [landing, staysPrimary, free]
  cases e.cuckoofirst <;> rfl

theorem relocated_of_reinsert {s : Lists P} {k : Kind} (popped : a.queues src = n :: rest)
    (before : s.queues = update a.queues src rest)
    (after : b.queues = (reinsert s e n k).queues)
    (others : ∀ x, x ≠ n → s.ref x = a.ref x ∧ b.ref x = (reinsert s e n k).ref x)
    (linked : (marks (b.ref n)).linked = (marks (a.ref n)).linked)
    (fits : Fits src.2 (marks (a.ref n)) → Fits k (marks (b.ref n)))
    (accounts : Accounts L n src (fun level =>
      reaches level (getFreq (b.ref n)) - reaches level (getFreq (a.ref n))) a b)
    (ghosts : GhostsCounted a → GhostsCounted b)
    (initialized : b.initializedGs = (reinsert s e n k).initializedGs)
    (initially : s.initializedGs = a.initializedGs)
    (missed : b.missed = (reinsert s e n k).missed) (free : s.missed = a.missed) :
    Relocated L n src (landing s k e.ori e.cuckoo e.cuckoofirst) rest a b := by
  refine ⟨popped, ?_, ?_, linked, fits, accounts, ghosts,
    initialized.trans ((cuckooInsert_initializedGs _ _ _ _ _ _).trans initially), ?_⟩
  · rw [after, reinsert, cuckooInsert_queues, before]
  · intro x hx
    obtain ⟨first, second⟩ := others x hx
    rw [second, reinsert, cuckooInsert_other _ _ _ _ _ _ hx, first]
  · intro quiet i
    rw [missed, reinsert, cuckooInsert_missed, free]
    exact quiet (i + 1)

theorem decFreq_spent (s : Shards Q P) (node : P) :
    (decFreq L s node).1 = -1 ↔ getFreq (s.ref node) = 0 := by
  rw [decFreq]
  dsimp only
  omega

theorem decFreq_dropped {s : Lists P} (popped : a.queues src = n :: rest)
    (queues : s.queues = update a.queues src rest) (ref : s.ref = a.ref)
    (missed : s.missed = a.missed) (initially : s.initializedGs = a.initializedGs)
    (counters : ∀ q level, s.counter q level = a.counter q level)
    (counted : GhostsCounted a → GhostsCounted (decFreq L s n).2)
    (spent : (decFreq L s n).1 = -1) : Dropped L n src rest a (decFreq L s n).2 := by
  have zero : getFreq (a.ref n) = 0 := by
    rw [← ref]
    exact (decFreq_spent s n).mp spent
  refine ⟨popped, queues, ?_, ?_, ?_, counted, initially, ?_⟩
  · intro x hx
    rw [← ref]
    exact updateRef_other _ _ _ hx
  · rw [decFreq_marks, ref]
  · refine ⟨getQueueID L s n, getQueueID_near _ _ _, ?_⟩
    intro q level hl
    rw [counter_decFreq _ _ _ hl, counters, ref, zero]
    simp [reaches_zero hl]
  · intro quiet i
    exact (congrFun missed i).trans (quiet i)

/-- The outcome of a stage that decrements: an item without frequency leaves, an
item with some left is linked into the core. `s` is the state after the pop, `b`
the one after the link. -/
theorem decrement_outcome {s b : Lists P} (popped : a.queues src = n :: rest)
    (here : src.1 = e.target) (queues : s.queues = update a.queues src rest)
    (ref : s.ref = a.ref) (missed : s.missed = a.missed)
    (initially : s.initializedGs = a.initializedGs)
    (info : ∀ q, (s.queueInfo q).freqDistribution = (a.queueInfo q).freqDistribution ∧
      (s.queueInfo q).ghost = (a.queueInfo q).ghost ∧
      (s.queueInfo q).totalSize = (a.queueInfo q).totalSize)
    (after : b.queues = (reinsert (decFreq L s n).2 e n .core).queues)
    (others : ∀ x, x ≠ n → b.ref x = (reinsert (decFreq L s n).2 e n .core).ref x)
    (fits : Fits src.2 (marks (a.ref n)) → Fits .core (marks (b.ref n)))
    (freq : getFreq (b.ref n) = getFreq ((reinsert (decFreq L s n).2 e n .core).ref n))
    (linked : (marks (b.ref n)).linked = (marks (a.ref n)).linked)
    (missed' : b.missed = (reinsert (decFreq L s n).2 e n .core).missed)
    (initialized : b.initializedGs = (reinsert (decFreq L s n).2 e n .core).initializedGs)
    (info' : ∀ q, (b.queueInfo q).freqDistribution = ((decFreq L s n).2.queueInfo q).freqDistribution ∧
      (b.queueInfo q).ghost = ((decFreq L s n).2.queueInfo q).ghost ∧
      (b.queueInfo q).totalSize = ((decFreq L s n).2.queueInfo q).totalSize) :
    Outcome L e src a
      (if (decFreq L s n).1 = -1 then .victim n (decFreq L s n).2 else .moved b) := by
  have counters : ∀ q level, s.counter q level = a.counter q level := fun q level =>
    congrFun (info q).1 level
  have counted : GhostsCounted a → GhostsCounted (decFreq L s n).2 := by
    intro h q
    have same : ((decFreq L s n).2.queueInfo q).ghost = (a.queueInfo q).ghost := by
      simp [decFreq, (info q).2.1]
    rw [same]
    exact h q
  have others' : ∀ x, x ≠ n → (decFreq L s n).2.ref x = a.ref x := by
    intro x hx
    rw [← ref]
    exact updateRef_other _ _ _ hx
  split
  case isTrue spent =>
    exact .victim (by simp [popped]) (.alone here
      (decFreq_dropped popped queues ref missed initially counters counted spent))
  case isFalse left =>
    have positive : getFreq (a.ref n) ≠ 0 := by
      rw [← ref]
      exact fun zero => left ((decFreq_spent s n).mpr zero)
    have lowered : getFreq (b.ref n) = getFreq (a.ref n) - 1 := by
      rw [freq, reinsert]
      have landed := congrArg Marks.freq
        (cuckooInsert_marks (decFreq L s n).2 n .core e.ori e.cuckoo e.cuckoofirst)
      rw [decFreq_marks, ref] at landed
      exact landed
    refine .moved ⟨relocated_of_reinsert (s := (decFreq L s n).2) (k := .core) popped queues after
      (fun x hx => ⟨others' x hx, others x hx⟩) linked fits ?_ ?_ initialized initially missed'
      missed, rfl, landing_near _ _, ?_, ?_, ?_⟩
    · refine ⟨getQueueID L s n, getQueueID_near _ _ _, ?_⟩
      intro q level hl
      have same : b.counter q level = (decFreq L s n).2.counter q level :=
        congrFun (info' q).1 level
      rw [same, counter_decFreq _ _ _ hl, counters, ref, lowered]
    · intro h q
      rw [(info' q).2.1]
      exact counted h q
    · intro free
      apply landing_uncontended
      exact (congrFun missed 0).trans free
    · rw [lowered]
      split <;> omega
    · intro q
      rw [(info' q).2.2, ← (info q).2.2]
      simp [decFreq]

theorem coreTurn_outcome (a : Lists P) (e : Site) :
    Outcome L e (e.target, .core) a (coreTurn L a e) := by
  rw [coreTurn]
  cases shape : a.queues (e.target, .core) with
  | nil =>
    rw [popTail_nil shape]
    exact .empty shape
  | cons n rest =>
    rw [popTail_cons shape]
    refine decrement_outcome shape rfl rfl rfl rfl rfl (fun q => ⟨rfl, rfl, rfl⟩) rfl
      (fun _ _ => rfl) ?_ rfl ?_ rfl rfl (fun q => ?_)
    · intro old
      rw [reinsert, cuckooInsert_marks, decFreq_marks]
      exact old
    · rw [reinsert, cuckooInsert_marks, decFreq_marks]
      rfl
    · rw [reinsert, cuckooInsert_queueInfo]
      exact ⟨rfl, rfl, rfl⟩

theorem stagingTurn_outcome (a : Lists P) (e : Site) :
    Outcome L e (e.target, .staging) a (stagingTurn L a e) := by
  rw [stagingTurn]
  cases shape : a.queues (e.target, .staging) with
  | nil =>
    rw [popTail_nil shape]
    exact .empty shape
  | cons n rest =>
    rw [popTail_cons shape]
    dsimp only
    set s := (a.withQueues (update a.queues (e.target, .staging) rest)).shrinkStaging
      e.target with hs
    set r := reinsert (decFreq L s n).2 e n .core with hr
    have final : marks ((setCore r n).ref n) = { marks (r.ref n) with core := true } :=
      setCore_marks r n
    have landed : marks (r.ref n) = { marks ((decFreq L s n).2.ref n) with
        cuckoo := (marks (r.ref n)).cuckoo } := by
      rw [hr, reinsert, cuckooInsert_marks]
    refine decrement_outcome shape rfl rfl rfl rfl rfl (fun q => by simp [hs]) rfl ?_ ?_ ?_ ?_ rfl rfl
      (fun q => by simp [setCore, hr, reinsert])
    · intro x hx
      exact updateRef_other r n (setFlag · .kMMFlag1) hx
    · rintro ⟨unfiltered, _⟩
      refine ⟨?_, congrArg Marks.core final⟩
      calc (marks ((setCore r n).ref n)).filter
          = (marks ((decFreq L s n).2.ref n)).filter := by rw [final, landed]
        _ = (marks (a.ref n)).filter := by rw [decFreq_marks]; rfl
        _ = false := unfiltered
    · exact congrArg Marks.freq final
    · calc (marks ((setCore r n).ref n)).linked
          = (marks ((decFreq L s n).2.ref n)).linked := by rw [final, landed]
        _ = (marks (a.ref n)).linked := by rw [decFreq_marks]; rfl

theorem contest_cases (s : Lists P) (e : Site) (curr : P) :
    contest L s e curr = .victim curr s ∨
    (∃ tail staged, s.queues (e.target, .staging) = tail :: staged ∧ getFreq (s.ref tail) = 0 ∧
      contest L s e curr = .victim tail (resetFreq ((reinsert (unSetFilter (s.withQueues
        (update s.queues (e.target, .staging) staged)) curr) e curr .staging).touchSketch
          e.ori (L.hashNode curr)) curr)) ∨
    (∃ tail staged, s.queues (e.target, .staging) = tail :: staged ∧
      contest L s e curr = .victim curr (reinsert (s.withQueues
        (update s.queues (e.target, .staging) staged)) e tail .staging)) := by
  rw [contest]
  by_cases crowded : stagingOversized s e.target e.listSize = true
  · rw [if_pos crowded]
    cases shape : s.queues (e.target, .staging) with
    | nil =>
      rw [popTail_nil shape]
      exact .inl rfl
    | cons tail staged =>
      rw [popTail_cons shape]
      dsimp only
      split
      case isTrue wins => exact .inr (.inl ⟨tail, staged, rfl, wins.1, rfl⟩)
      case isFalse => exact .inr (.inr ⟨tail, staged, rfl, rfl⟩)
  · rw [if_neg crowded]
    exact .inl rfl

/-- The state in which a cold filter victim meets the staging queue. -/
def coldState (L : Layout P) (a : Lists P) (e : Site) (curr : P) (rest : List P) : Lists P :=
  ((((a.withQueues (Function.update a.queues (e.target, .filter) rest)).shrinkFilter
    e.target).touchSketch e.ori (L.hashNode curr)).count e.target
      (countFreq · (getFreq (a.ref curr)) (-1))).rememberGhost e.ori (L.hashNode curr)
        (getFreq (a.ref curr))

omit [DecidableEq P] in
theorem coldState_counter (q : Nat) {level : Nat} (hl : level = 1 ∨ level = 2) :
    (coldState L a e n rest).counter q level =
      a.counter q level + if q = e.target then -reaches level (getFreq (a.ref n)) else 0 := by
  simp only [coldState, Shards.counter, rememberGhost_queueInfo, count_queueInfo,
    touchSketch_queueInfo, shrinkFilter_queueInfo, withQueues_queueInfo]
  split
  · rw [countFreq_apply _ _ _ hl]
    ring
  · ring

omit [DecidableEq P] in
theorem coldState_ghosts (h : GhostsCounted a) : GhostsCounted (coldState L a e n rest) := by
  apply ghosts_rememberGhost _ _ _ _ (getFreq_le _)
  intro q
  simpa using h q

theorem filter_ne_staging (q : Nat) : ((q, .filter) : Place) ≠ (q, .staging) := by
  intro h
  cases h

theorem swap_evicts {tail : P} {staged : List P}
    (shape : a.queues (e.target, .filter) = n :: rest)
    (behind : a.queues (e.target, .staging) = tail :: staged) (cold : getFreq (a.ref tail) = 0) :
    Evicts L e tail a (resetFreq ((reinsert (unSetFilter ((coldState L a e n rest).withQueues
      (update (update a.queues (e.target, .filter) rest) (e.target, .staging)
        staged)) n) e n .staging).touchSketch e.ori (L.hashNode n)) n) := by
  set u := (coldState L a e n rest).withQueues (update
    (update a.queues (e.target, .filter) rest) (e.target, .staging) staged) with hu
  set r := reinsert (unSetFilter u n) e n .staging with hr
  have distinct := filter_ne_staging e.target
  have drop : Dropped L tail (e.target, .staging) staged a
      (a.withQueues (update a.queues (e.target, .staging) staged)) := by
    refine ⟨behind, rfl, fun _ _ => rfl, rfl, ⟨L.primary tail, .inl rfl, ?_⟩, id, rfl, id⟩
    intro q level hl
    simp [Shards.counter, cold, reaches_zero hl]
  have landed : marks (r.ref n) = { marks (a.ref n) with
      filter := false
      cuckoo := (marks (r.ref n)).cuckoo } := by
    rw [hr, reinsert, cuckooInsert_marks, unSetFilter_marks]
    rfl
  have final : marks ((resetFreq (r.touchSketch e.ori (L.hashNode n)) n).ref n) =
      { marks (r.ref n) with freq := 0 } := resetFreq_marks _ n
  have counters : ∀ q level, (resetFreq (r.touchSketch e.ori (L.hashNode n)) n).counter q level =
      (coldState L a e n rest).counter q level := by
    intro q level
    simp [Shards.counter, resetFreq, hr, reinsert, unSetFilter, hu]
  have move : Relocated L n (e.target, .filter) (landing (unSetFilter u n) .staging e.ori e.cuckoo
      e.cuckoofirst) rest (a.withQueues (update a.queues (e.target, .staging) staged))
      (resetFreq (r.touchSketch e.ori (L.hashNode n)) n) := by
    refine relocated_of_reinsert (s := unSetFilter u n) (k := .staging) ?_ ?_ rfl ?_ ?_ ?_ ?_ ?_
      rfl rfl rfl rfl
    · rw [withQueues_queues, update_of_ne distinct, shape]
    · rw [withQueues_queues, update_comm distinct.symm]
      rfl
    · intro x hx
      exact ⟨updateRef_other _ _ _ hx, updateRef_other _ _ _ hx⟩
    · rw [final, landed]
      rfl
    · rintro ⟨_, uncored⟩
      constructor
      · rw [final, landed]
        rfl
      · rw [final, landed]
        exact uncored
    · refine ⟨e.target, .inr (.inr rfl), ?_⟩
      intro q level hl
      have spent : getFreq ((resetFreq (r.touchSketch e.ori (L.hashNode n)) n).ref n) = 0 :=
        congrArg Marks.freq final
      dsimp only
      rw [counters, coldState_counter q hl, spent, reaches_zero hl, zero_sub]
      rfl
    · intro counted q
      have before : GhostsCounted a := counted
      have same : ((resetFreq (r.touchSketch e.ori (L.hashNode n)) n).queueInfo q).ghost =
          ((coldState L a e n rest).queueInfo q).ghost := by
        simp [resetFreq, hr, reinsert, unSetFilter, hu]
      rw [same]
      exact coldState_ghosts before q
  exact .swapped drop move (landing_near _ _)

theorem putBack_relocated (popped : a.queues src = n :: rest) :
    Relocated L n src (landing (a.withQueues (update a.queues src rest)) src.2 e.ori
      e.cuckoo e.cuckoofirst) rest a
      (reinsert (a.withQueues (update a.queues src rest)) e n src.2) := by
  set v := a.withQueues (update a.queues src rest) with hv
  have landed : marks ((reinsert v e n src.2).ref n) = { marks (a.ref n) with
      cuckoo := (marks ((reinsert v e n src.2).ref n)).cuckoo } := by
    rw [reinsert, cuckooInsert_marks]
    rfl
  refine relocated_of_reinsert (s := v) (k := src.2) popped rfl rfl (fun x _ => ⟨rfl, rfl⟩)
    (by rw [landed]) ?_ ?_ ?_ rfl rfl rfl rfl
  · rintro ⟨filter, core⟩
    rw [landed]
    exact ⟨filter, core⟩
  · refine ⟨L.primary n, .inl rfl, ?_⟩
    intro q level hl
    have same : getFreq ((reinsert v e n src.2).ref n) = getFreq (a.ref n) :=
      congrArg Marks.freq landed
    dsimp only
    rw [same, sub_self]
    simp [Shards.counter, reinsert, hv]
  · intro counted q
    simpa [reinsert, hv] using counted q

theorem restore_evicts {tail : P} {staged : List P} (separate : Separate a.queues)
    (shape : a.queues (e.target, .filter) = n :: rest)
    (behind : a.queues (e.target, .staging) = tail :: staged) :
    Evicts L e n a (reinsert ((coldState L a e n rest).withQueues (update
      (update a.queues (e.target, .filter) rest) (e.target, .staging) staged))
        e tail .staging) := by
  set u := (coldState L a e n rest).withQueues (update
    (update a.queues (e.target, .filter) rest) (e.target, .staging) staged) with hu
  set v := a.withQueues (update a.queues (e.target, .staging) staged) with hv
  have distinct := filter_ne_staging e.target
  have apart : n ≠ tail := by
    rintro rfl
    exact distinct (separate.apart (by rw [shape]; exact List.mem_cons_self)
      (by rw [behind]; exact List.mem_cons_self))
  have place : (e.target, Kind.filter) ≠ landing v .staging e.ori e.cuckoo e.cuckoofirst := by
    intro h
    cases congrArg Prod.snd h
  have queuesV : (reinsert v e tail .staging).queues =
      FifoStore.linkAtHead v.queues (landing v .staging e.ori e.cuckoo e.cuckoofirst) tail :=
    cuckooInsert_queues _ _ _ _ _ _
  have info : ∀ q, ((reinsert u e tail .staging).queueInfo q) =
      (coldState L a e n rest).queueInfo q := by
    intro q
    rw [reinsert, cuckooInsert_queueInfo]
    rfl
  have move : Relocated L tail (e.target, .staging)
      (landing v .staging e.ori e.cuckoo e.cuckoofirst) staged a (reinsert v e tail .staging) :=
    putBack_relocated behind
  have drop : Dropped L n (e.target, .filter) rest (reinsert v e tail .staging)
      (reinsert u e tail .staging) := by
    have same : (reinsert u e tail .staging).ref = (reinsert v e tail .staging).ref := by
      rw [reinsert, reinsert, cuckooInsert_ref, cuckooInsert_ref]
      rfl
    refine ⟨?_, ?_, fun x _ => by rw [same], by rw [same], ?_, ?_, ?_, ?_⟩
    · rw [queuesV]
      simp only [FifoStore.linkAtHead]
      rw [update_of_ne place, hv, withQueues_queues, update_of_ne distinct, shape]
    · -- both sides link the tail after the two pops, in either order
      have queuesU : (reinsert u e tail .staging).queues = FifoStore.linkAtHead u.queues
          (landing v .staging e.ori e.cuckoo e.cuckoofirst) tail := cuckooInsert_queues _ _ _ _ _ _
      have pops : u.queues = update v.queues (e.target, .filter) rest :=
        (update_comm distinct.symm _ _ _).symm
      rw [queuesU, queuesV, pops]
      simp only [FifoStore.linkAtHead]
      rw [update_of_ne place.symm, update_comm place]
    · refine ⟨e.target, .inr (.inr rfl), ?_⟩
      intro q level hl
      have kept : (reinsert v e tail .staging).ref n = a.ref n :=
        cuckooInsert_other _ _ _ _ _ _ apart
      have counters : (reinsert v e tail .staging).counter q level = a.counter q level := by
        simp [Shards.counter, reinsert, hv]
      dsimp only
      rw [counters, kept, Shards.counter, info]
      exact coldState_counter q hl
    · intro counted q
      have before : GhostsCounted a := fun q => by simpa [reinsert, hv] using counted q
      rw [info]
      exact coldState_ghosts before q
    · exact (cuckooInsert_initializedGs _ _ _ _ _ _).trans
        (cuckooInsert_initializedGs v _ _ _ _ _).symm
    · have shifted : (reinsert u e tail .staging).missed = (reinsert v e tail .staging).missed :=
        (cuckooInsert_missed _ _ _ _ _ _).trans (cuckooInsert_missed v _ _ _ _ _).symm
      intro quiet i
      rw [shifted]
      exact quiet i
  exact .restored move (landing_near _ _) drop

theorem contest_evicts (separate : Separate a.queues)
    (shape : a.queues (e.target, .filter) = n :: rest) :
    ∃ v b, contest L (coldState L a e n rest) e n = .victim v b ∧ Evicts L e v a b := by
  have staging : (coldState L a e n rest).queues (e.target, .staging) =
      a.queues (e.target, .staging) := update_of_ne (filter_ne_staging e.target).symm _ _
  obtain same | ⟨tail, staged, behind, cold, same⟩ | ⟨tail, staged, behind, same⟩ :=
    contest_cases (L := L) (coldState L a e n rest) e n
  · have drop : Dropped L n (e.target, .filter) rest a (coldState L a e n rest) :=
      ⟨shape, rfl, fun _ _ => rfl, rfl,
        ⟨e.target, .inr (.inr rfl), fun q level hl => coldState_counter q hl⟩, coldState_ghosts, rfl,
        id⟩
    exact ⟨n, _, same, .alone rfl drop⟩
  · rw [staging] at behind
    exact ⟨tail, _, same, swap_evicts shape behind cold⟩
  · rw [staging] at behind
    exact ⟨n, _, same, restore_evicts separate shape behind⟩

/-- A hot filter victim goes to the core with its frequency cleared; a cold one
is remembered in the ghost and contests a place in staging. -/
theorem filterTurn_outcome (separate : Separate a.queues) (e : Site) :
    Outcome L e (e.target, .filter) a (filterTurn L a e) := by
  rw [filterTurn]
  cases shape : a.queues (e.target, .filter) with
  | nil =>
    rw [popTail_nil shape]
    exact .empty shape
  | cons n rest =>
    rw [popTail_cons shape]
    dsimp only
    split
    case isFalse =>
      obtain ⟨v, b, same, evicts⟩ := contest_evicts (L := L) separate shape
      exact same ▸ .victim (by simp [shape]) evicts
    case isTrue =>
      set s := ((a.withQueues (update a.queues (e.target, .filter) rest)).shrinkFilter
        e.target).touchSketch e.ori (L.hashNode n) with hs
      set r := reinsert (unSetFilter s n) e n .core with hr
      have before : marks ((setCore r n).ref n) = { marks (a.ref n) with
          filter := false
          core := true
          cuckoo := (marks (r.ref n)).cuckoo } := by
        rw [setCore_marks, hr, reinsert, cuckooInsert_marks, unSetFilter_marks]
        rfl
      have kept : getFreq ((setCore r n).ref n) = getFreq (a.ref n) := congrArg Marks.freq before
      have gone : getFreq ((clearFreq L (setCore r n) n).ref n) = 0 :=
        congrArg Marks.freq (clearFreq_marks (setCore r n) n L)
      refine .moved ⟨relocated_of_reinsert (s := unSetFilter s n) (k := .core) shape rfl rfl ?_ ?_
        ?_ ?_ ?_ rfl rfl rfl rfl, rfl, landing_near _ _, landing_uncontended _ _, ?_, ?_⟩
      · intro x hx
        exact ⟨updateRef_other _ _ _ hx,
          (updateRef_other _ _ _ hx).trans (updateRef_other _ _ _ hx)⟩
      · rw [clearFreq_marks, before]
      · intro _
        rw [clearFreq_marks, before]
        exact ⟨rfl, rfl⟩
      · refine ⟨getQueueID L (setCore r n) n, getQueueID_near _ _ _, ?_⟩
        intro q level hl
        dsimp only
        rw [counter_clearFreq _ _ _ hl, kept, gone, reaches_zero hl, zero_sub]
        simp [Shards.counter, setCore, hr, reinsert, unSetFilter, hs]
      · intro counted q
        simpa [clearFreq, setCore, hr, reinsert, unSetFilter, hs] using counted q
      · rw [gone]
        exact Nat.zero_le _
      · intro q
        simp [clearFreq, setCore, hr, reinsert, unSetFilter, hs]

/-! ## One round -/

/-- Some queue of the target shard is open to the eviction loop and has an item. -/
def Eligible [FifoStore Q P] (e : Site) (s : Shards Q P) : Prop :=
  filterOversized s e.target e.listSize = true ∧ FifoStore.size s.queues (e.target, .filter) ≠ 0 ∨
  stagingOversized s e.target e.listSize = true ∧ FifoStore.size s.queues (e.target, .staging) ≠ 0 ∨
  FifoStore.size s.queues (e.target, .core) ≠ 0

instance [FifoStore Q P] (e : Site) (s : Shards Q P) : Decidable (Eligible e s) :=
  inferInstanceAs (Decidable (_ ∨ _ ∨ _))

theorem size_eq_zero_iff (a : Lists P) (place : Place) :
    FifoStore.size a.queues place = 0 ↔ a.queues place = [] := List.length_eq_zero_iff

/-- What one round of the loop can do before it gives up. -/
inductive RoundOutcome (L : Layout P) (e : Site) (i : Nat) (a : Lists P) :
    EvictionRound (Contents P) P → Prop where
  | idle {j : Nat} (closed : ¬ Eligible e a) (later : i < j) : RoundOutcome L e i a (.again (j, a))
  | moved {j : Nat} {n : P} {src dst : Place} {rest : List P} {b : Lists P} (here : src.1 = e.target)
      (promotion : Promoted L e n src dst rest a b) (opened : Eligible e a) :
      RoundOutcome L e i a (.again (j, b))
  | victim {n : P} {b : Lists P} (eviction : Evicts L e n a b) (opened : Eligible e a) :
      RoundOutcome L e i a (.done (some n, b))

theorem Outcome.round {turn : Turn (Contents P) P} (h : Outcome L e src a turn)
    (here : src.1 = e.target) (opened : FifoStore.size a.queues src ≠ 0 → Eligible e a) (i j : Nat)
    {onEmpty : Lists P → EvictionRound (Contents P) P}
    (otherwise : a.queues src = [] → RoundOutcome L e i a (onEmpty a)) :
    RoundOutcome L e i a (turn.round j onEmpty) := by
  cases h with
  | empty shape => exact otherwise shape
  | moved promotion =>
    refine .moved here promotion (opened ?_)
    simp [size_eq_zero_iff, promotion.popped]
  | victim occupied eviction =>
    refine .victim eviction (opened ?_)
    simpa [size_eq_zero_iff] using occupied

theorem coreStage_outcome {i j : Nat} (later : i ≤ j)
    (filtered : filterOversized a e.target e.listSize = true → a.queues (e.target, .filter) = [])
    (staged : stagingOversized a e.target e.listSize = true → a.queues (e.target, .staging) = []) :
    RoundOutcome L e i a (coreStage L e j a) := by
  apply (coreTurn_outcome a e).round rfl (fun found => .inr (.inr found)) i j
  intro unfilled
  refine .idle ?_ (Nat.lt_succ_of_le later)
  rintro (⟨crowded, found⟩ | ⟨crowded, found⟩ | found)
  · exact found ((size_eq_zero_iff a _).mpr (filtered crowded))
  · exact found ((size_eq_zero_iff a _).mpr (staged crowded))
  · exact found ((size_eq_zero_iff a _).mpr unfilled)

theorem stagingStage_outcome {i j : Nat} (later : i ≤ j)
    (filtered : filterOversized a e.target e.listSize = true → a.queues (e.target, .filter) = []) :
    RoundOutcome L e i a (stagingStage L e j a) := by
  rw [stagingStage]
  split
  case isTrue crowded =>
    apply (stagingTurn_outcome a e).round rfl (fun found => .inr (.inl ⟨crowded, found⟩)) i j
    intro unfilled
    exact coreStage_outcome (Nat.le_succ_of_le later) filtered fun _ => unfilled
  case isFalse uncrowded =>
    exact coreStage_outcome later filtered fun crowded => absurd crowded uncrowded

theorem filterStage_outcome (separate : Separate a.queues) (i : Nat) :
    RoundOutcome L e i a (filterStage L e i a) := by
  rw [filterStage]
  split
  case isTrue crowded =>
    apply (filterTurn_outcome separate e).round rfl (fun found => .inl ⟨crowded, found⟩) i i
    intro unfilled
    exact stagingStage_outcome (Nat.le_succ i) fun _ => unfilled
  case isFalse uncrowded =>
    exact stagingStage_outcome le_rfl fun crowded => absurd crowded uncrowded

theorem evictionRound_cases (separate : Separate a.queues) {i : Nat}
    {round : EvictionRound (Contents P) P} (h : evictionRound L e (i, a) = .ok round) :
    i < maxRetries ∧ RoundOutcome L e i a round ∨ maxRetries ≤ i ∧ round = .done (none, a) := by
  rw [evictionRound, Except.ok.injEq] at h
  subst h
  split
  case isTrue early => exact .inl ⟨early, filterStage_outcome separate i⟩
  case isFalse late => exact .inr ⟨Nat.le_of_not_lt late, rfl⟩

end MerlinShards
