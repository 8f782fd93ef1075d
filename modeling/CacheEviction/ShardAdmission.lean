import CacheEviction.ShardInvariant

/-!
# Admission, accesses and removal keep the invariant

The operations that are not evictions, on plain lists: a fresh item is admitted
to the kind of queue that its history earns it, an access raises the frequency
of a resident item, and a removal takes an item out of the queue its marks name.
-/
namespace MerlinShards

open ItemRef ShardQueues WeightedLists Function
open MerlinGhost hiding getFreq

variable {P : Type} [DecidableEq P] {L : Layout P} {a b : Lists P} {n : P}

/-! ## Admission -/

/-- Looking up the history of an item changes nothing but the ghosts. -/
structure Recalled (a : Lists P) (freq : Nat) (s : Lists P) : Prop where
  queues : s.queues = a.queues
  ref : s.ref = a.ref
  counters : ∀ q level, s.counter q level = a.counter q level
  ghosts : GhostsCounted s
  small : freq ≤ maxFreq
  initialized : s.initializedGs = a.initializedGs
  blank : (∀ q, (a.queueInfo q).ghost = {}) → ∀ q, (s.queueInfo q).ghost = {}

omit [DecidableEq P] in
theorem lookupHist_recalled (h : GhostsCounted a) (q : Nat) (x : P) :
    Recalled a (lookupHist L a q x).1 (lookupHist L a q x).2 := by
  rw [lookupHist]
  split
  case isFalse => exact ⟨rfl, rfl, fun _ _ => rfl, h, Nat.zero_le _, rfl, id⟩
  case isTrue alive =>
    obtain ⟨counted, small⟩ := contains_counted (h q) (L.hashNode x)
    refine ⟨rfl, rfl, ?_, ?_, small, rfl, ?_⟩
    · intro q' level
      rw [Shards.counter, updateInfo_queueInfo, Shards.counter]
      split <;> rfl
    · intro q'
      rw [updateInfo_queueInfo]
      split
      · exact counted
      · exact h q'
    · intro blank
      rw [blank q] at alive
      cases alive

/-- What `add` does to a list that does not have the item: the history found in
the ghost decides the kind of queue, and only an admission to the core keeps it. -/
structure Admitted (L : Layout P) (n : P) (dst : Place) (a b : Lists P) : Prop where
  queues : b.queues = FifoStore.linkAtHead a.queues dst n
  home : dst.1 = L.primary n ∨ dst.1 = L.primary n + L.totalThreads
  others : ∀ x, x ≠ n → b.ref x = a.ref x
  fits : Fits dst.2 (marks (b.ref n))
  accounts : Accounts L n dst (fun level => reaches level (getFreq (b.ref n))) a b
  ghosts : GhostsCounted b
  initialized : b.initializedGs = a.initializedGs
  blank : (∀ q, (a.queueInfo q).ghost = {}) → ∀ q, (b.queueInfo q).ghost = {}

theorem admitted_of_insert {s : Lists P} {k : Kind} {f : Nat} (recalled : Recalled a f s)
    (after : b.queues = (cuckooInsert s n k (L.primary n) (L.primary n + L.totalThreads) false).queues)
    (others : ∀ x, x ≠ n → b.ref x =
      (cuckooInsert s n k (L.primary n) (L.primary n + L.totalThreads) false).ref x)
    (initialized : b.initializedGs =
      (cuckooInsert s n k (L.primary n) (L.primary n + L.totalThreads) false).initializedGs)
    (ghosts : ∀ q, (b.queueInfo q).ghost = (s.queueInfo q).ghost)
    (fits : Fits k (marks (b.ref n))) {q : Nat}
    (near : q = L.primary n ∨ q = L.primary n + L.totalThreads)
    (counters : ∀ q' level, level = 1 ∨ level = 2 → b.counter q' level =
      s.counter q' level + if q' = q then reaches level (getFreq (b.ref n)) else 0) :
    ∃ dst, Admitted L n dst a b := by
  refine ⟨landing s k (L.primary n) (L.primary n + L.totalThreads) false, ?_⟩
  constructor
  case queues => rw [after, cuckooInsert_queues, recalled.queues]
  case home =>
    simp only [landing]
    split
    · exact .inl rfl
    · exact .inr rfl
  case others =>
    intro x hx
    rw [others x hx, cuckooInsert_other _ _ _ _ _ _ hx, recalled.ref]
  case fits => exact fits
  case accounts =>
    refine ⟨q, near.imp id .inl, ?_⟩
    intro q' level hl
    rw [counters q' level hl, recalled.counters]
  case ghosts =>
    intro q
    exact ghosts q ▸ recalled.ghosts q
  case initialized => rw [initialized, cuckooInsert_initializedGs, recalled.initialized]
  case blank =>
    intro blank q
    rw [ghosts q]
    exact recalled.blank blank q

theorem add_admitted (h : GhostsCounted a) (fresh : (marks (a.ref n)).cuckoo = false)
    (thread : Nat) : ∃ dst, Admitted L n dst a (add L a n thread) := by
  have primary : getQueueID L a n = L.primary n := by
    have unset : isFlagSet (a.ref n) .kMMFlag5 = false := fresh
    rw [getQueueID, unset]
    rfl
  have recalled := lookupHist_recalled (L := L) h (L.primary n % L.totalThreads) n
  simp only [add, primary]
  generalize lookupHist L a (L.primary n % L.totalThreads) n = r at recalled
  obtain ⟨histFreq, s⟩ := r
  dsimp only at recalled ⊢
  split
  · split
    · set t := cuckooInsert s n .core (L.primary n) (L.primary n + L.totalThreads) false with ht
      have final := setFreq_marks (unSetFilter (setCore t n) n) n L recalled.small
      refine admitted_of_insert (q := getQueueID L (unSetFilter (setCore t n) n) n) recalled rfl ?_
        rfl ?_ ?_ (getQueueID_cases _ n) ?_
      · intro x hx
        exact (updateRef_other (unSetFilter (setCore t n) n) n (writeFreq · histFreq) hx).trans
          ((updateRef_other _ _ _ hx).trans (updateRef_other _ _ _ hx))
      · intro q
        simp [setFreq, unSetFilter, setCore, ht]
      · rw [final, unSetFilter_marks, setCore_marks]
        exact ⟨rfl, rfl⟩
      · intro q level hl
        have kept : getFreq ((setFreq L (unSetFilter (setCore t n) n) n histFreq).ref n) = histFreq :=
          congrArg Marks.freq final
        rw [counter_setFreq _ _ _ hl, kept]
        simp [Shards.counter, unSetFilter, setCore, ht]
    · set t := cuckooInsert s n .staging (L.primary n) (L.primary n + L.totalThreads) false with ht
      refine admitted_of_insert (q := L.primary n) recalled rfl ?_ rfl ?_ ?_ (.inl rfl) ?_
      · intro x hx
        exact (updateRef_other _ _ _ hx).trans
          ((updateRef_other _ _ _ hx).trans (updateRef_other _ _ _ hx))
      · intro q
        simp [resetFreq, unSetFilter, unSetCore, ht]
      · rw [resetFreq_marks, unSetFilter_marks, unSetCore_marks]
        exact ⟨rfl, rfl⟩
      · intro q level hl
        have gone : getFreq ((resetFreq (unSetFilter (unSetCore t n) n) n).ref n) = 0 :=
          congrArg Marks.freq (resetFreq_marks _ n)
        rw [gone, reaches_zero hl]
        simp [Shards.counter, resetFreq, unSetFilter, unSetCore, ht]
  · set t := cuckooInsert s n .filter (L.primary n) (L.primary n + L.totalThreads) false with ht
    refine admitted_of_insert (q := L.primary n) recalled rfl ?_ rfl ?_ ?_ (.inl rfl) ?_
    · intro x hx
      exact (updateRef_other _ _ _ hx).trans
        ((updateRef_other _ _ _ hx).trans (updateRef_other _ _ _ hx))
    · intro q
      simp [resetFreq, setFilter, unSetCore, ht]
    · rw [resetFreq_marks, unSetCore_marks, setFilter_marks]
      exact ⟨rfl, rfl⟩
    · intro q level hl
      have gone : getFreq ((resetFreq (unSetCore (setFilter t n) n) n).ref n) = 0 :=
        congrArg Marks.freq (resetFreq_marks _ n)
      rw [gone, reaches_zero hl]
      simp [Shards.counter, resetFreq, setFilter, unSetCore, ht]

theorem add_sound (h : Sound L a) (unlinked : ¬ Linked a n)
    (fresh : (marks (a.ref n)).cuckoo = false) (thread : Nat) :
    Sound L (add L a n thread) ∧ ∀ x, Linked (add L a n thread) x ↔ x = n ∨ Linked a x := by
  obtain ⟨dst, admitted⟩ := add_admitted (L := L) h.ghosts fresh thread
  have remaining := h.rest_of_fresh unlinked
  constructor
  · refine h.enter remaining admitted.others admitted.ghosts ?_ admitted.queues admitted.home
      admitted.fits ?_ admitted.home
    · intro idle q
      exact admitted.blank (h.pristine (admitted.initialized.symm.trans idle)) q
    · simp only [sub_zero]
      exact admitted.accounts
  · exact linked_push remaining admitted.queues

theorem Sound.allocate (h : Sound L a) (unlinked : ¬ Linked a n) (f : Word → Word) :
    Sound L (a.updateRef n f) := by
  have accounts : Accounts L n (L.primary n, .filter) (fun _ => -0) a (a.updateRef n f) := by
    refine ⟨L.primary n, .inl rfl, ?_⟩
    intro q level _
    simp [Shards.counter]
  exact h.leave (h.rest_of_fresh unlinked) (fun x hx => updateRef_other a n f hx) h.ghosts
    h.pristine rfl (.inl rfl) accounts

/-! ## Accesses -/

theorem population_touch {c : Contents P} (separate : Separate c) (freq : P → Nat) {place : Place}
    (member : n ∈ c place) (f p level : Nat) :
    population L c (update freq n f) p level = population L c freq p level +
      if place ∈ L.pairPlaces p then reaches level f - reaches level (freq n) else 0 := by
  have changed : (fun q => total (fun x => reaches level (update freq n f x)) (c q)) =
      update (fun q => total (fun x => reaches level (freq x)) (c q)) place
        (total (fun x => reaches level (freq x)) (c place) - reaches level (freq n) +
          reaches level f) := by
    funext q
    by_cases here : q = place
    · subst here
      rw [update_self]
      exact total_update (reaches level) freq n f (separate.nodup q) member
    · rw [update_of_ne here]
      apply total_update_of_not_mem (reaches level)
      exact fun there => here (separate.apart there member)
  rw [population, census, changed, population, census]
  split
  case isTrue inside =>
    refine (total_update id _ place _ (nodup_pairPlaces p) inside).trans ?_
    simp only [id]
    ring
  case isFalse outside =>
    exact (total_update_of_not_mem id _ _ outside).trans (add_zero _).symm

theorem incFreq_sound (h : Sound L a) (linked : Linked a n) :
    Sound L (incFreq L a n) ∧ ∀ x, Linked (incFreq L a n) x ↔ Linked a x := by
  obtain ⟨place, member⟩ := linked
  refine ⟨?_, fun _ => Iff.rfl⟩
  have others : ∀ x, x ≠ n → (incFreq L a n).ref x = a.ref x := fun x hx =>
    updateRef_other a n raiseFreq hx
  have raised : (incFreq L a n).freq n = min (a.freq n + 1) maxFreq :=
    congrArg Marks.freq (incFreq_marks a n L)
  have ghost : ∀ q, ((incFreq L a n).queueInfo q).ghost = (a.queueInfo q).ghost := by
    intro q
    simp [incFreq]
  constructor
  case separate => exact h.separate
  case home => exact h.home
  case fits =>
    intro q x hx
    by_cases here : x = n
    · subst here
      rw [incFreq_marks]
      exact h.fits q x hx
    · rw [others x here]
      exact h.fits q x hx
  case counts =>
    intro p below level hl
    have home := h.home place n member
    have freq : (incFreq L a n).freq = update a.freq n ((incFreq L a n).freq n) := by
      funext x
      by_cases here : x = n
      · rw [here, update_self]
      · rw [update_of_ne here]
        exact congrArg getFreq (others x here)
    -- the frequency saturates far above the two levels that are counted
    have saturated : reaches level ((incFreq L a n).freq n) = reaches level (a.freq n + 1) := by
      rw [raised]
      simp only [reaches, maxFreq]
      congr 1
      rw [eq_iff_iff]
      omega
    have accounts : Accounts L n place (fun level =>
        reaches level (a.freq n + 1) - reaches level (a.freq n)) a (incFreq L a n) :=
      ⟨getQueueID L a n, getQueueID_near a n place, fun q level hl => counter_incFreq a n L hl q⟩
    rw [accounts.pair home below hl, h.counts p below level hl, freq]
    refine Eq.trans ?_ (population_touch h.separate a.freq member _ p level).symm
    simp only [home_pair below home, saturated]
  case ghosts =>
    intro q
    rw [ghost]
    exact h.ghosts q
  case pristine =>
    intro idle q
    rw [ghost]
    exact h.pristine idle q

theorem Sound.remark (h : Sound L a) (n : P) {f : Word → Word}
    (same : ∀ w, marks (f w) = { marks w with linked := (marks (f w)).linked }) :
    Sound L (a.updateRef n f) := by
  have marked : ∀ x, marks ((a.updateRef n f).ref x) =
      { marks (a.ref x) with linked := (marks ((a.updateRef n f).ref x)).linked } := by
    intro x
    by_cases here : x = n
    · subst here
      rw [updateRef_same]
      exact same _
    · rw [updateRef_other a n f here]
  constructor
  case separate => exact h.separate
  case home => exact h.home
  case fits =>
    intro place x hx
    rw [marked]
    exact h.fits place x hx
  case counts =>
    intro p below level hl
    have freq : (a.updateRef n f).freq = a.freq := funext fun x => congrArg Marks.freq (marked x)
    rw [freq]
    exact h.counts p below level hl
  case ghosts => exact h.ghosts
  case pristine => exact h.pristine

/-! ## Removal -/

theorem remove_sound (h : Sound L a)
    (member : n ∈ a.queues (getQueueID L a n, kindOf (marks (a.ref n)))) :
    Sound L (remove L a n) ∧ ∀ x, Linked (remove L a n) x ↔ Linked a x ∧ x ≠ n := by
  obtain ⟨older, newer, shape⟩ := List.append_of_mem member
  have nodup := h.separate.nodup (getQueueID L a n, kindOf (marks (a.ref n)))
  rw [shape, List.nodup_middle] at nodup
  have absent : n ∉ older := fun hn =>
    (List.nodup_cons.mp nodup).1 (List.mem_append_left newer hn)
  have erased : (remove L a n).queues = update a.queues
      (getQueueID L a n, kindOf (marks (a.ref n))) (older ++ newer) := by
    have erase : (a.queues (getQueueID L a n, kindOf (marks (a.ref n)))).erase n =
        older ++ newer := by
      rw [shape, List.erase_append_right _ absent, List.erase_cons_head]
    rw [← erase]
    rfl
  have remaining := h.rest_of_cut shape
  have ghost : ∀ q, ((remove L a n).queueInfo q).ghost = (a.queueInfo q).ghost := by
    intro q
    simp [remove]
  have accounts : Accounts L n (getQueueID L a n, kindOf (marks (a.ref n)))
      (fun level => -reaches level (a.freq n)) a (remove L a n) := by
    refine ⟨getQueueID L a n, getQueueID_near a n _, ?_⟩
    intro q level hl
    have change : ∀ d : Nat → Int, countFreq d (a.freq n) (-1) level =
        d level + -reaches level (a.freq n) := by
      intro d
      rw [countFreq_apply d _ _ hl]
      ring
    exact counter_count (f := fun d => countFreq d _ _) (a.withQueues _) _ q change
  constructor
  · refine h.leave remaining (fun _ _ => rfl) ?_ ?_ erased (getQueueID_cases a n) accounts
    · intro q
      rw [ghost]
      exact h.ghosts q
    · intro idle q
      rw [ghost]
      exact h.pristine idle q
  · intro x
    simp only [Linked, erased, remaining.members]
    constructor
    · rintro ⟨place, other, old⟩
      exact ⟨⟨place, old⟩, other⟩
    · rintro ⟨⟨place, old⟩, other⟩
      exact ⟨place, other, old⟩

end MerlinShards
