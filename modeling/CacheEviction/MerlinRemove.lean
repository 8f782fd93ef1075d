import CacheEviction.MerlinHistogram

/-!
# Removal from a Merlin cache

`merlin_remove` tries the four queues in turn and stops at the first that held the
id. It leaves the histogram alone, a second copy of the id where it is, and reports
a ghost entry as removed although a lookup does not find one. Removals take objects
out and bring none in, so the structural invariant survives them.
-/
namespace MerlinPolicy

open FuelLoops FifoCache WeightedLists StepTraces

variable {b : Budgets} {cbf : CountingFilter.Cbf} {s t : State} {id : Nat}

/-- `merlin_find` with `update_cache` unset. -/
def merlinFindOnly (s : State) (id : Nat) : Option Obj :=
  match s.filter.find id with
  | some obj => some obj
  | none => match s.staging.find id with
    | some obj => some obj
    | none => s.core.find id

/-- `merlin_remove`: whether something was removed, and the state. -/
def merlinRemove (s : State) (id : Nat) : Bool × State :=
  if (s.filter.find id).isSome then (true, { s with filter := s.filter.remove id })
  else if (s.staging.find id).isSome then (true, { s with staging := s.staging.remove id })
  else if (s.core.find id).isSome then (true, { s with core := s.core.remove id })
  else if (s.ghost.find id).isSome then (true, { s with ghost := s.ghost.remove id })
  else (false, s)

/-- The steps of a cache whose user also removes objects between requests. -/
inductive Call (b : Budgets) : Config → Config → Prop where
  | step {x y : Config} (h : Step b x y) : Call b x y
  | remove {s : State} (id : Nat) : Call b ⟨.idle, s⟩ ⟨.idle, (merlinRemove s id).2⟩

abbrev Operated (b : Budgets) (cbf : CountingFilter.Cbf) : Config → Prop :=
  Reachable (Call b) (boot cbf)

/-- The histogram counts the entries of the four queues at every level it has. -/
def Exact (s : State) : Prop :=
  ∀ f, 0 ≤ f → f ≤ maxFreq → s.hotdistribution f = population s f

/-! ## The cases of a removal -/

inductive Removal (s : State) (id : Nat) : Bool → State → Prop where
  | filter {o : Obj} (found : s.filter.find id = some o) :
      Removal s id true { s with filter := s.filter.remove id }
  | staging {o : Obj} (noFilter : s.filter.find id = none) (found : s.staging.find id = some o) :
      Removal s id true { s with staging := s.staging.remove id }
  | core {o : Obj} (noFilter : s.filter.find id = none) (noStaging : s.staging.find id = none)
      (found : s.core.find id = some o) : Removal s id true { s with core := s.core.remove id }
  | ghost {o : Obj} (noFilter : s.filter.find id = none) (noStaging : s.staging.find id = none)
      (noCore : s.core.find id = none) (found : s.ghost.find id = some o) :
      Removal s id true { s with ghost := s.ghost.remove id }
  | absent (noFilter : s.filter.find id = none) (noStaging : s.staging.find id = none)
      (noCore : s.core.find id = none) (noGhost : s.ghost.find id = none) : Removal s id false s

theorem remove_removal (s : State) (id : Nat) :
    Removal s id (merlinRemove s id).1 (merlinRemove s id).2 := by
  unfold merlinRemove
  cases hf : s.filter.find id with
  | some o => exact .filter hf
  | none =>
    cases hs : s.staging.find id with
    | some o => exact .staging hf hs
    | none =>
      cases hc : s.core.find id with
      | some o => exact .core hf hs hc
      | none =>
        cases hg : s.ghost.find id with
        | some o => exact .ghost hf hs hc hg
        | none => exact .absent hf hs hc hg

theorem Removal.load_le {removed : Bool} {w : Obj → Int} (nonneg : ∀ o, 0 ≤ w o)
    (h : Removal s id removed t) :
    (t.load w).filter ≤ (s.load w).filter ∧ (t.load w).staging ≤ (s.load w).staging ∧
      (t.load w).core ≤ (s.load w).core ∧ (t.load w).ghost ≤ (s.load w).ghost := by
  have fewer : ∀ {q : Fifo Meta} {o : Obj}, q.find id = some o →
      total w (q.remove id).objs ≤ total w q.objs := by
    intro q o found
    have := nonneg o
    rw [Fifo.total_remove_found w found]
    omega
  cases h with
  | filter found => exact ⟨fewer found, le_refl _, le_refl _, le_refl _⟩
  | staging _ found => exact ⟨le_refl _, fewer found, le_refl _, le_refl _⟩
  | core _ _ found => exact ⟨le_refl _, le_refl _, fewer found, le_refl _⟩
  | ghost _ _ _ found => exact ⟨le_refl _, le_refl _, le_refl _, fewer found⟩
  | absent => exact ⟨le_refl _, le_refl _, le_refl _, le_refl _⟩

theorem Removal.invariant {removed : Bool} (h : Removal s id removed t)
    (inv : Invariant b ⟨.idle, s⟩) : Invariant b ⟨.idle, t⟩ where
  once := by
    intro k
    obtain ⟨resident, ghost, apart⟩ := inv.once k
    have le := h.load_le (ofId_nonneg k)
    simp only [Load.resident] at resident
    dsimp only at ghost apart
    constructor <;> simp only [Load.resident] <;> omega
  freqs := by
    have none := freqsInRange_iff.mp inv.freqs
    have le := h.load_le stray_nonneg
    have nonneg := load_nonneg stray_nonneg t
    rw [freqsInRange_iff]
    rw [total_entries] at none ⊢
    simp only [Load.resident] at none ⊢
    omega
  ghostFreq := by
    cases h <;> exact inv.ghostFreq
  ghostBytes := by
    have le := (h.load_le CacheObj.bytes_nonneg).2.2.2
    have before := inv.ghostBytes
    simp only [State.load] at le
    rw [Fifo.occupied_eq] at before ⊢
    exact le.trans before
  occupied := by
    have le := h.load_le CacheObj.bytes_nonneg
    have before := inv.occupied
    rw [occupied_eq_load] at before ⊢
    simp only [Load.resident] at before ⊢
    omega
  awaits := by
    intro q serving
    cases serving

theorem operated_invariant {c : Config} (h : Operated b cbf c) : Invariant b c := by
  refine Reachable.invariant (Invariant b) (boot_invariant b cbf) (fun x y inv call => ?_) h
  cases call with
  | step step => exact step_invariant inv step
  | remove id => exact (remove_removal _ id).invariant inv

/-! ## What is left of the id -/

theorem findOnly_isSome_iff (s : State) (id : Nat) : (merlinFindOnly s id).isSome = true ↔
    0 < (s.load (ofId id)).resident := by
  have filter : total (ofId id) s.filter.objs = s.filter.held id := rfl
  have staging : total (ofId id) s.staging.objs = s.staging.held id := rfl
  have core : total (ofId id) s.core.objs = s.core.held id := rfl
  have hf := s.filter.held_nonneg id
  have hs := s.staging.held_nonneg id
  have hc := s.core.held_nonneg id
  simp only [Load.resident, State.load, filter, staging, core, merlinFindOnly]
  cases inFilter : s.filter.find id with
  | some o =>
    have present := (s.filter.find_isSome_iff id).mp (by rw [inFilter]; rfl)
    simp only [Option.isSome_some, true_iff]
    omega
  | none =>
    rw [Fifo.find_none_iff_held] at inFilter
    cases inStaging : s.staging.find id with
    | some o =>
      have present := (s.staging.find_isSome_iff id).mp (by rw [inStaging]; rfl)
      simp only [Option.isSome_some, true_iff]
      omega
    | none =>
      rw [Fifo.find_none_iff_held] at inStaging
      rw [Fifo.find_isSome_iff]
      omega

def Gone (s : State) (id : Nat) : Prop :=
  s.filter.find id = none ∧ s.staging.find id = none ∧ s.core.find id = none ∧
    s.ghost.find id = none

theorem gone_iff_copies (s : State) (id : Nat) :
    Gone s id ↔ (s.load (ofId id)).resident = 0 ∧ (s.load (ofId id)).ghost = 0 := by
  have nonneg := load_nonneg (ofId_nonneg id) s
  simp only [Gone, find_none_iff_copies, Load.resident, State.load] at nonneg ⊢
  omega

theorem Removal.copies_left {removed : Bool} (h : Removal s id removed t) (once : Once s id) :
    (t.load (ofId id)).resident = 0 ∧ (removed = true ↔ ¬ Gone s id) ∧
      ((s.load (ofId id)).resident = 0 → (t.load (ofId id)).ghost = 0) ∧
      (0 < (s.load (ofId id)).resident → (t.load (ofId id)).ghost = (s.load (ofId id)).ghost) := by
  obtain ⟨resident, ghost, _⟩ := once
  have nonneg := load_nonneg (ofId_nonneg id) s
  have one_ : ∀ {q : Fifo Meta} {o : Obj}, q.find id = some o →
      total (ofId id) (q.remove id).objs = total (ofId id) q.objs - 1 ∧
        0 < total (ofId id) q.objs := by
    intro q o found
    have mine : ofId id o = 1 := by simp [ofId, copies, Fifo.find_objId found]
    have present := (q.find_isSome_iff id).mp (by rw [found]; rfl)
    rw [Fifo.total_remove_found _ found, mine]
    exact ⟨rfl, present⟩
  rw [gone_iff_copies]
  simp only [Load.resident, State.load] at resident ghost nonneg ⊢
  cases h with
  | filter found | staging _ found | core _ _ found =>
    obtain ⟨left_, present⟩ := one_ found
    simp only [left_, true_iff]
    exact ⟨by omega, by omega, fun none => by omega, fun _ => trivial⟩
  | ghost noFilter noStaging noCore found =>
    obtain ⟨left_, present⟩ := one_ found
    rw [find_none_iff_copies] at noFilter noStaging noCore
    simp only [left_, true_iff]
    omega
  | absent noFilter noStaging noCore noGhost =>
    rw [find_none_iff_copies] at noFilter noStaging noCore noGhost
    simp only [Bool.false_eq_true, false_iff]
    omega

theorem Removal.population {removed : Bool} (h : Removal s id removed t) (range : FreqsInRange s) :
    t.hotdistribution = s.hotdistribution ∧
      population t 0 = population s 0 - if removed then 1 else 0 := by
  have counted : ∀ {o : Obj}, InRange o.tag.freq → atLeast 0 o = 1 := fun inRange => if_pos inRange.1
  constructor
  · cases h <;> rfl
  · rw [population_eq_load, population_eq_load]
    cases h with
    | filter found =>
      have freq := counted (range.filter (Fifo.find_mem found))
      simp only [Load.resident, State.load, Fifo.total_remove_found _ found, freq, if_true]
      omega
    | staging _ found =>
      have freq := counted (range.staging (Fifo.find_mem found))
      simp only [Load.resident, State.load, Fifo.total_remove_found _ found, freq, if_true]
      omega
    | core _ _ found =>
      have freq := counted (range.core (Fifo.find_mem found))
      simp only [Load.resident, State.load, Fifo.total_remove_found _ found, freq, if_true]
      omega
    | ghost _ _ _ found =>
      have freq := counted (range.ghost (Fifo.find_mem found))
      simp only [Load.resident, State.load, Fifo.total_remove_found _ found, freq, if_true]
      omega
    | absent => simp

theorem reached_operated {c : Config} (h : Reached b cbf c) : Operated b cbf c := by
  refine Reachable.invariant (Operated b cbf) .refl (fun x y operated step => ?_) h
  exact operated.next (.step step)

/-- In every state that requests and removals reach, a removal reports what a
lookup would have found, leaves no entry of the id and keeps the histogram exact if
and only if the id is in none of the four queues, or it is resident without a ghost
entry and the histogram was not exact before. -/
theorem remove_erases_iff (reached : Operated b cbf ⟨.idle, s⟩) (id : Nat) :
    (((merlinRemove s id).1 = true ↔ (merlinFindOnly s id).isSome = true) ∧
      Gone (merlinRemove s id).2 id ∧ (Exact s → Exact (merlinRemove s id).2)) ↔
    (Gone s id ∨
      ((merlinFindOnly s id).isSome = true ∧ s.ghost.find id = none ∧ ¬ Exact s)) := by
  have inv := operated_invariant reached
  have removal := remove_removal s id
  have nonneg := load_nonneg (ofId_nonneg id) s
  obtain ⟨left_, reported, ghostTaken, ghostKept⟩ := removal.copies_left (inv.once id)
  obtain ⟨hot, level⟩ := removal.population inv.freqs
  have broken : ¬ Gone s id → Exact s → ¬ Exact (merlinRemove s id).2 := by
    intro present before after
    have low := before 0 (le_refl 0) (by decide)
    have lowAfter := after 0 (le_refl 0) (by decide)
    rw [hot, level, if_pos (reported.mpr present)] at lowAfter
    omega
  have kept : Gone s id → (merlinRemove s id).2 = s := by
    rintro ⟨noFilter, noStaging, noCore, noGhost⟩
    simp [merlinRemove, noFilter, noStaging, noCore, noGhost]
  rw [findOnly_isSome_iff, reported, gone_iff_copies (merlinRemove s id).2,
    find_none_iff_copies s.ghost id]
  simp only [left_, true_and]
  have ghostCopies : (s.load (ofId id)).ghost = total (ofId id) s.ghost.objs := rfl
  have here := gone_iff_copies s id
  constructor
  · rintro ⟨agree, empty, exactness⟩
    by_cases gone : Gone s id
    · exact Or.inl gone
    · have resident := agree.mp gone
      have same := ghostKept resident
      exact Or.inr ⟨resident, by omega, fun exact_ => broken gone exact_ (exactness exact_)⟩
  · rintro (gone | ⟨resident, noGhost, inexact⟩)
    · obtain ⟨none, noGhost⟩ := here.mp gone
      refine ⟨⟨fun present => absurd gone present, fun present => by omega⟩, ghostTaken none, ?_⟩
      rw [kept gone]
      exact fun h => h
    · have present : ¬ Gone s id := fun gone => by
        have := (here.mp gone).1
        omega
      have same := ghostKept resident
      refine ⟨⟨fun _ => resident, fun _ => present⟩, by omega, ?_⟩
      exact fun exact_ => absurd exact_ inexact

/-- Removing an id that was never requested. -/
theorem remove_erases_iff_absent :
    ∃ s, Operated threeBytes sixteenCounters ⟨.idle, s⟩ ∧ s.core.nObj = 1 ∧
      ((merlinRemove s 2).1 = true ↔ (merlinFindOnly s 2).isSome = true) ∧
      Gone (merlinRemove s 2).2 2 ∧ (Exact s → Exact (merlinRemove s 2).2) := by
  obtain ⟨s, gets, passed⟩ := servesTo_gets threeBytes 20 sixteenCounters [⟨1, 1⟩]
    (fun s => s.core.nObj = 1 ∧ s.filter.find 2 = none ∧ s.staging.find 2 = none ∧
      s.core.find 2 = none ∧ s.ghost.find 2 = none) (by decide +kernel)
  obtain ⟨held, absent⟩ := of_decide_eq_true passed
  have operated := reached_operated (gets_reached gets)
  exact ⟨s, operated, held, (remove_erases_iff operated 2).mpr (Or.inl absent)⟩

/-- After the removal of the only object the histogram still counts it. -/
theorem remove_leaves_histogram :
    ∃ s, Operated threeBytes sixteenCounters ⟨.idle, s⟩ ∧ (merlinRemove s 1).1 = true ∧
      Exact s ∧ ¬ Exact (merlinRemove s 1).2 := by
  obtain ⟨s, gets, passed⟩ := servesTo_gets threeBytes 20 sixteenCounters [⟨1, 1⟩]
    (fun s => (merlinRemove s 1).1 = true ∧
      (∀ f ∈ List.range 8, s.hotdistribution f = population s f) ∧
      (merlinRemove s 1).2.hotdistribution 0 ≠ population (merlinRemove s 1).2 0)
    (by decide +kernel)
  obtain ⟨removed, counted, uncounted_⟩ := of_decide_eq_true passed
  have exact_ : Exact s := by
    intro f low high
    have top : maxFreq = 7 := rfl
    have level := counted f.toNat (List.mem_range.mpr (by omega))
    rwa [Int.toNat_of_nonneg low] at level
  exact ⟨s, reached_operated (gets_reached gets), removed, exact_,
    fun after => uncounted_ (after 0 (le_refl 0) (by decide))⟩

end MerlinPolicy
