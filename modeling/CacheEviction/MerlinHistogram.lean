import CacheEviction.MerlinStructure

/-!
# The cumulative frequency histogram

`hotdistribution[f]` is meant to be the number of entries, over the four queues,
of frequency at least `f`. The difference between the two is the deficit. Only one
call changes it: a request that goes from ghost straight to core relies on the counts
of its ghost entry. When that entry is not there any more, because another request has
set the ghost state or because an eviction has dropped the entry since the lookup, the
new object is missing from the histogram for good.
-/
namespace MerlinPolicy

open FuelLoops FifoCache WeightedLists StepTraces Relation

variable {b : Budgets} {cbf : CountingFilter.Cbf} {s t : State} {r : Request}
variable {f : Int}

def atLeast (f : Int) (o : Obj) : Int := if f ≤ o.tag.freq then 1 else 0

def population (s : State) (f : Int) : Int := s.entries.countP (fun o => f ≤ o.tag.freq)

def deficit (f : Int) (s : State) : Int := population s f - s.hotdistribution f

theorem population_eq_load (s : State) (f : Int) :
    population s f = (s.load (atLeast f)).resident + (s.load (atLeast f)).ghost := by
  rw [← total_entries, population, ← total_eq_countP]
  simp only [decide_eq_true_eq]
  rfl

theorem atLeast_retagged (f freq : Int) (g : Bool) (o : Obj) :
    atLeast f { o with tag := ⟨freq, g⟩ } = if f ≤ freq then 1 else 0 := rfl

theorem decreasepop_dropped (level : 0 ≤ f) (hot : Int → Int) (o : Obj) :
    decreasepop hot o.tag.freq (-1) f = hot f - atLeast f o := by
  rw [decreasepop_apply]
  have same : (-1 < f ∧ f ≤ o.tag.freq) ↔ f ≤ o.tag.freq := by omega
  simp only [atLeast, same]

theorem removefromghost_hot (level : 0 ≤ f) (s : State) (id : Nat) :
    (removefromghost s id).hotdistribution f =
      s.hotdistribution f - s.shadow (atLeast f) id := by
  simp only [removefromghost, State.shadow]
  cases found : s.ghost.find id with
  | none => simp
  | some g => simpa using decreasepop_dropped level s.hotdistribution g

theorem graduate_hot (level : 0 ≤ f) (s : State) (o : Obj) : (graduate b s o).hotdistribution f =
      s.hotdistribution f - droppedShadow (atLeast f) s o -
        if o.tag.freq - 1 < f ∧ f ≤ o.tag.freq then 1 else 0 := by
  have unshadow : (unshadowed s o).hotdistribution f =
      s.hotdistribution f - droppedShadow (atLeast f) s o := by
    by_cases h : o.tag.inghost
    · simp only [unshadowed, droppedShadow, h, if_true]
      exact removefromghost_hot level s o.objId
    · simp [unshadowed, droppedShadow, h]
  rw [← unshadow]
  exact decreasepop_apply (unshadowed s o).hotdistribution o.tag.freq (o.tag.freq - 1) f

theorem Move.deficit_eq (level : 0 ≤ f) (h : Move b s t) (range : FreqsInRange s) :
    deficit f t = deficit f s := by
  simp only [deficit, population_eq_load]
  cases h with
  | bookkeeping => rfl
  | demote tail =>
    rw [load_demote _ tail, demote_hot]
    simp only [Load.resident, atLeast]
    omega
  | graduate tail =>
    rw [load_graduate _ tail, graduate_hot level]
    simp only [Load.resident, atLeast_retagged]
    simp only [atLeast]
    split_ifs <;> omega
  | promote tail =>
    have nonneg := (range.filter (Fifo.toEvict_mem tail)).1
    rw [load_promote _ tail, promote_hot, decreasepop_apply]
    simp only [Load.resident, atLeast_retagged]
    simp only [atLeast]
    split_ifs <;> omega
  | retire tail =>
    rw [load_retire _ tail, retire_hot]
    simp only [Load.resident, atLeast]
    omega
  | replaceStaging tail =>
    rw [load_replaceStaging _ tail, replaceStaging_hot, countUp_apply]
    simp only [Load.resident, atLeast_retagged]
    simp only [atLeast]
    split_ifs <;> omega
  | dropStaging tail =>
    rw [load_dropStaging _ tail, dropStaging_hot, decreasepop_dropped level]
    simp only [Load.resident]
    omega
  | dropGhost tail =>
    rw [load_dropGhost _ tail, dropGhost_hot, decreasepop_dropped level]
    simp only [Load.resident]
    omega

theorem Moves.deficit_eq (level : 0 ≤ f) (h : Moves b s t) (range : FreqsInRange s) :
    deficit f t = deficit f s := by
  induction h with
  | refl => rfl
  | tail moves move ih => exact (move.deficit_eq level (Moves.freqs moves range)).trans ih

theorem atLeast_bumped (f : Int) (hot : Int → Int) (o : Obj) :
    atLeast f { o with tag := bumped o.tag } - atLeast f o = bumpedHot hot o.tag f - hot f := by
  by_cases below : o.tag.freq < maxFreq
  · simp only [bumped, bumpedHot, below, if_true, countUp_apply, atLeast]
    split_ifs <;> omega
  · simp [bumped, bumpedHot, below]

theorem Lookup.deficit_eq {hit : Bool} (h : Lookup s r hit t) : deficit f t = deficit f s := by
  simp only [deficit, population_eq_load]
  cases h with
  | @filter o found | @staging o found | @core o found =>
    have hot := atLeast_bumped f s.hotdistribution o
    simp only [Load.resident, State.load, Fifo.total_retag _ _ found]
    omega
  | @ghost o _ _ _ found =>
    have hot := atLeast_bumped f s.hotdistribution o
    simp only [Load.resident, State.load, Fifo.total_retag _ _ found]
    omega
  | absent => rfl

/-- The insertion goes from ghost to core while ghost has no entry of the id. -/
def insertsUnbacked (b : Budgets) (c : Config) : Bool :=
  match c.point with
  | .idle => false
  | .serving r =>
    merlinCanInsert b r && !overfull b c.state r && !warmUp c.state && c.state.hitOnGhost &&
      c.state.moveToCore && (c.state.ghost.find r.objId).isNone

def uncounted (b : Budgets) (f : Int) (c : Config) : Int :=
  if insertsUnbacked b c = true ∧ f ≤ c.state.ghostFreq then 1 else 0

theorem uncounted_nonneg (b : Budgets) (f : Int) (c : Config) : 0 ≤ uncounted b f c := by
  simp only [uncounted]
  split <;> omega

theorem uncounted_of_backed {c : Config} (h : insertsUnbacked b c = false) :
    uncounted b f c = 0 := by
  simp [uncounted, h]

theorem recorded_shadow (awaits : Awaits s r) {g : Obj} (found : s.ghost.find r.objId = some g) :
    atLeast f g = if f ≤ s.ghostFreq then 1 else 0 := by
  have none : total (misfit r.objId s.ghostFreq) s.ghost.objs = 0 := awaits.recorded
  rw [total_eq_zero_iff (misfit_nonneg r.objId s.ghostFreq)] at none
  have fits := none g (Fifo.find_mem found)
  have same : g.tag.freq = s.ghostFreq := by
    by_contra ne
    simp [misfit, Fifo.find_objId found, ne] at fits
  rw [atLeast, same]

theorem insert_deficit (level : 0 ≤ f) (fits : merlinCanInsert b r = true)
    (room : overfull b s r = false) (awaits : Awaits s r) :
    deficit f (merlinInsert b s r) = deficit f s + uncounted b f ⟨.serving r, s⟩ := by
  have placed := insert_placement b s r
  generalize merlinInsert b s r = t at placed
  have mine : ∀ freq g, atLeast f (createCacheObj r ⟨freq, g⟩) = if f ≤ freq then 1 else 0 :=
    fun _ _ => rfl
  simp only [deficit, population_eq_load]
  cases placed with
  | warmUp cold =>
    rw [uncounted_of_backed (by simp [insertsUnbacked, cold])]
    simp only [Load.resident, State.load, Fifo.objs_insert, total_append, total_cons, total_nil,
      mine, countUp_apply]
    split_ifs <;> omega
  | staging _ _ stay =>
    rw [uncounted_of_backed (by simp [insertsUnbacked, stay])]
    simp only [Load.resident, State.load, Fifo.objs_insert, total_append, total_cons, total_nil,
      mine, countUp_apply]
    split_ifs <;> omega
  | filter _ fresh =>
    rw [uncounted_of_backed (by simp [insertsUnbacked, fresh])]
    simp only [Load.resident, State.load, Fifo.objs_insert, total_append, total_cons, total_nil,
      mine, countUp_apply]
    split_ifs <;> omega
  | core warm ghost move =>
    simp only [Load.resident, State.load, Fifo.objs_insert, total_append, total_cons, total_nil,
      mine, total_remove_shadow]
    cases found : s.ghost.find r.objId with
    | none =>
      -- Nothing stands for the new object: it is the whole change.
      have shadow : s.shadow (atLeast f) r.objId = 0 := by simp [State.shadow, found]
      have unbacked : insertsUnbacked b ⟨.serving r, s⟩ = true := by
        simp [insertsUnbacked, fits, room, warm, ghost, move, found]
      rw [shadow]
      simp only [uncounted, unbacked, true_and]
      omega
    | some g =>
      -- The entry that leaves ghost was counted at the frequency now given to core.
      have shadow : s.shadow (atLeast f) r.objId = if f ≤ s.ghostFreq then 1 else 0 := by
        simp [State.shadow, found, recorded_shadow awaits found]
      rw [shadow, uncounted_of_backed (by simp [insertsUnbacked, found])]
      omega

theorem step_deficit (level : 0 ≤ f) {x y : Config} (inv : Invariant b x) (step : Step b x y) :
    deficit f y.state = deficit f x.state + uncounted b f x := by
  cases step with
  | hit _ find | miss _ find =>
    rw [(find_lookup find).deficit_eq, uncounted_of_backed rfl, Int.add_zero]
  | reject large =>
    rw [uncounted_of_backed (by simp [insertsUnbacked, large]), Int.add_zero]
  | evict _ full evicted =>
    rw [uncounted_of_backed (by simp [insertsUnbacked, full]), Int.add_zero]
    exact (evict_moves evicted).deficit_eq level inv.freqs
  | insert fits room => exact insert_deficit level fits room (inv.awaits _ rfl)

theorem run_deficit (level : 0 ≤ f) {es : List (Config × Config)} {c : Config}
    (run : Run b cbf es c) : deficit f c.state = total (fun e => uncounted b f e.1) es := by
  have change : ∀ x y, Reached b cbf x → Step b x y →
      deficit f y.state = deficit f x.state + uncounted b f x := by
    intro x y reached step
    exact step_deficit level (reached_invariant reached) step
  have sum := run.sum (fun x => deficit f x.state) (fun e => uncounted b f e.1) change
  have start : deficit f (boot cbf).state = 0 := by
    simp [deficit, population, State.entries, State.residents, boot, merlinInit]
  rw [start, Int.zero_add] at sum
  exact sum

end MerlinPolicy
