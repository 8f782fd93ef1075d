import CacheEviction.MerlinRuns

/-!
# The load of Merlin's queues

For any weight on objects, the load of a state is the weight each of the four
queues carries; bytes, copies of an id and the cumulative histogram are such weights.
Beside it stand the cases of a lookup and of an insertion, and what the histogram
operations do at one frequency.
-/
namespace MerlinPolicy

open FifoCache WeightedLists

variable {b : Budgets} {s t : State} {r : Request} {o : Obj}

structure Load where
  filter : Int
  staging : Int
  core : Int
  ghost : Int

def State.load (w : Obj → Int) (s : State) : Load where
  filter := total w s.filter.objs
  staging := total w s.staging.objs
  core := total w s.core.objs
  ghost := total w s.ghost.objs

/-- The weight of the ghost entry of an id, if there is one. -/
def State.shadow (w : Obj → Int) (s : State) (id : Nat) : Int := ((s.ghost.find id).map w).getD 0

theorem total_remove_shadow (w : Obj → Int) (s : State) (id : Nat) :
    total w (s.ghost.remove id).objs = total w s.ghost.objs - s.shadow w id := by
  cases h : s.ghost.find id with
  | none => simp [State.shadow, h, Fifo.remove_of_absent h]
  | some g => simp [State.shadow, h, Fifo.total_remove_found w h]

/-! ## Moves -/

@[simp] theorem load_bookkeeping (w : Obj → Int) (s : State) (cbf : CountingFilter.Cbf)
    (epochCount evictobjNum guard : Int) :
    (s.bookkeeping cbf epochCount evictobjNum guard).load w = s.load w := rfl

theorem load_demote (w : Obj → Int) (tail : s.core.toEvict = some o) :
    (demote s o).load w = { s.load w with
      staging := (s.load w).staging + w { o with tag := ⟨o.tag.freq, false⟩ }
      core := (s.load w).core - w o } := by
  simp [State.load, demote, Fifo.total_remove_oldest w tail]

theorem removefromghost_ghost (s : State) (id : Nat) :
    (removefromghost s id).ghost = s.ghost.remove id := by
  simp only [removefromghost]
  split
  · rfl
  · rename_i absent
    exact (Fifo.remove_of_absent absent).symm

/-- The state whose ghost entry `adjust_staging` has already dropped. -/
def unshadowed (s : State) (o : Obj) : State :=
  if o.tag.inghost then removefromghost s o.objId else s

theorem unshadowed_frame (s : State) (o : Obj) :
    ∃ hot q, unshadowed s o = { s with hotdistribution := hot, ghost := q } := by
  by_cases shadowed : o.tag.inghost
  · cases found : s.ghost.find o.objId with
    | none =>
      exact ⟨s.hotdistribution, s.ghost, by simp [unshadowed, shadowed, removefromghost, found]⟩
    | some g =>
      exact ⟨decreasepop s.hotdistribution g.tag.freq (-1), s.ghost.remove o.objId,
        by simp [unshadowed, shadowed, removefromghost, found]⟩
  · exact ⟨s.hotdistribution, s.ghost, by simp [unshadowed, shadowed]⟩

def droppedShadow (w : Obj → Int) (s : State) (o : Obj) : Int :=
  if o.tag.inghost then s.shadow w o.objId else 0

theorem total_unshadowed (w : Obj → Int) (s : State) (o : Obj) :
    total w (unshadowed s o).ghost.objs = total w s.ghost.objs - droppedShadow w s o := by
  by_cases h : o.tag.inghost
  · simp [unshadowed, droppedShadow, h, removefromghost_ghost, total_remove_shadow]
  · simp [unshadowed, droppedShadow, h]

theorem load_graduate (w : Obj → Int) (tail : s.staging.toEvict = some o) :
    (graduate b s o).load w = { s.load w with
      staging := (s.load w).staging - w o
      core := (s.load w).core + w { o with tag := ⟨o.tag.freq - 1, false⟩ }
      ghost := (s.load w).ghost - droppedShadow w s o } := by
  obtain ⟨hot, q, frame⟩ := unshadowed_frame s o
  have hf : (graduate b s o).filter = s.filter := by
    show (unshadowed s o).filter = s.filter
    rw [frame]
  have hs : (graduate b s o).staging = s.staging.remove o.objId := by
    show (unshadowed s o).staging.remove o.objId = _
    rw [frame]
  have hc : (graduate b s o).core = s.core.insert o.toRequest ⟨o.tag.freq - 1, false⟩ := by
    show (unshadowed s o).core.insert o.toRequest _ = _
    rw [frame]
  have hg : total w (graduate b s o).ghost.objs = total w s.ghost.objs - droppedShadow w s o :=
    total_unshadowed w s o
  simp [State.load, hf, hs, hc, hg, Fifo.total_remove_oldest w tail]

theorem load_promote (w : Obj → Int) (tail : s.filter.toEvict = some o) :
    (promote b s o).load w = { s.load w with
      filter := (s.load w).filter - w o
      core := (s.load w).core + w { o with tag := ⟨0, false⟩ } } := by
  simp [State.load, promote, cbfAdd, Fifo.total_remove_oldest w tail]

theorem load_retire (w : Obj → Int) (tail : s.filter.toEvict = some o) :
    (retire b s o).load w = { s.load w with
      filter := (s.load w).filter - w o
      ghost := (s.load w).ghost + w { o with tag := ⟨o.tag.freq, false⟩ } } := by
  simp [State.load, retire, cbfAdd, addtoghost, Fifo.total_remove_oldest w tail]

theorem load_replaceStaging (w : Obj → Int) (tail : s.filter.toEvict = some o) :
    (replaceStaging b s o).load w = { s.load w with
      filter := (s.load w).filter - w o
      staging := (s.load w).staging + w { o with tag := ⟨0, true⟩ }
      ghost := (s.load w).ghost + w { o with tag := ⟨o.tag.freq, false⟩ } } := by
  simp [State.load, replaceStaging, cbfAdd, Fifo.total_remove_oldest w tail]

theorem load_dropStaging (w : Obj → Int) (tail : s.staging.toEvict = some o) :
    (dropStaging s o).load w = { s.load w with staging := (s.load w).staging - w o } := by
  simp [State.load, dropStaging, Fifo.total_remove_oldest w tail]

theorem load_dropGhost (w : Obj → Int) (tail : s.ghost.toEvict = some o) :
    (dropGhost s o).load w = { s.load w with ghost := (s.load w).ghost - w o } := by
  simp [State.load, dropGhost, Fifo.total_remove_oldest w tail]

/-! ## Lookup and insertion -/

inductive Lookup (s : State) (r : Request) : Bool → State → Prop where
  | filter {o : Obj} (found : s.filter.find r.objId = some o) :
      Lookup s r true { s with
        filter := s.filter.retag r.objId bumped
        hotdistribution := bumpedHot s.hotdistribution o.tag }
  | staging {o : Obj} (found : s.staging.find r.objId = some o) :
      Lookup s r true { s with
        staging := s.staging.retag r.objId bumped
        hotdistribution := bumpedHot s.hotdistribution o.tag }
  | core {o : Obj} (found : s.core.find r.objId = some o) :
      Lookup s r true { s with
        core := s.core.retag r.objId bumped
        hotdistribution := bumpedHot s.hotdistribution o.tag }
  | ghost {o : Obj} (noFilter : s.filter.find r.objId = none)
      (noStaging : s.staging.find r.objId = none) (noCore : s.core.find r.objId = none)
      (found : s.ghost.find r.objId = some o) :
      Lookup s r false { s with
        ghost := s.ghost.retag r.objId bumped
        hotdistribution := bumpedHot s.hotdistribution o.tag
        hitOnGhost := true
        ghostFreq := (bumped o.tag).freq
        moveToCore := if (bumped o.tag).freq ≥ s.guardFreq then true else s.moveToCore }
  | absent (noFilter : s.filter.find r.objId = none) (noStaging : s.staging.find r.objId = none)
      (noCore : s.core.find r.objId = none) (noGhost : s.ghost.find r.objId = none) :
      Lookup s r false s

theorem find_lookup {hit : Bool} (h : merlinFind s r = (hit, t)) : Lookup s r hit t := by
  simp only [merlinFind] at h
  cases hf : s.filter.find r.objId with
  | some o => simp only [hf] at h; cases h; exact .filter hf
  | none =>
    cases hs : s.staging.find r.objId with
    | some o => simp only [hf, hs] at h; cases h; exact .staging hs
    | none =>
      cases hc : s.core.find r.objId with
      | some o => simp only [hf, hs, hc] at h; cases h; exact .core hc
      | none =>
        cases hg : s.ghost.find r.objId with
        | some o => simp only [hf, hs, hc, hg] at h; cases h; exact .ghost hf hs hc hg
        | none => simp only [hf, hs, hc, hg] at h; cases h; exact .absent hf hs hc hg

inductive Placement (b : Budgets) (s : State) (r : Request) : State → Prop where
  | warmUp (cold : MerlinPolicy.warmUp s = true) :
      Placement b s r { s with
        core := s.core.insert r ⟨0, false⟩
        nByteAdmitToCore := s.nByteAdmitToCore + (createCacheObj r ()).bytes
        hotdistribution := countUp s.hotdistribution 0 }
  | core (warm : MerlinPolicy.warmUp s = false) (ghost : s.hitOnGhost = true)
      (move : s.moveToCore = true) :
      Placement b s r { s with
        hitOnGhost := false
        moveToCore := false
        core := s.core.insert r ⟨s.ghostFreq, false⟩
        ghost := s.ghost.remove r.objId }
  | staging (warm : MerlinPolicy.warmUp s = false) (ghost : s.hitOnGhost = true)
      (stay : s.moveToCore = false) :
      Placement b s r { s with
        hitOnGhost := false
        cbf := CountingFilter.add s.cbf (b.hash r.objId).1 (b.hash r.objId).2
        staging := s.staging.insert r ⟨0, true⟩
        nByteAdmitToCore := s.nByteAdmitToCore + (createCacheObj r ()).bytes
        hotdistribution := countUp s.hotdistribution 0 }
  | filter (warm : MerlinPolicy.warmUp s = false) (fresh : s.hitOnGhost = false) :
      Placement b s r { s with
        filter := s.filter.insert r ⟨0, false⟩
        hotdistribution := countUp s.hotdistribution 0 }

theorem insert_placement (b : Budgets) (s : State) (r : Request) :
    Placement b s r (merlinInsert b s r) := by
  simp only [merlinInsert]
  split
  · rename_i cold
    exact .warmUp cold
  · rename_i warm
    have warm : warmUp s = false := by simpa using warm
    split
    · rename_i ghost
      split
      · rename_i move
        exact .core warm ghost move
      · rename_i stay
        exact .staging warm ghost (by simpa using stay)
    · rename_i fresh
      exact .filter warm (by simpa using fresh)

/-! ## The histogram at one frequency -/

theorem countUp_apply (hot : Int → Int) (i f : Int) :
    countUp hot i f = hot f + if f = i then 1 else 0 := by
  by_cases h : f = i
  · subst h
    simp [countUp]
  · simp [countUp, h]

theorem decreaseFrom_apply (n : Nat) (hot : Int → Int) (i f : Int) :
    decreaseFrom hot n i f = hot f - if i - n < f ∧ f ≤ i then 1 else 0 := by
  induction n generalizing hot i with
  | zero =>
    rw [decreaseFrom, if_neg (by omega)]
    omega
  | succ n ih =>
    rw [decreaseFrom, ih]
    by_cases h : f = i
    · subst h
      rw [Function.update_self, if_neg (by omega), if_pos (by omega)]
      omega
    · rw [Function.update_of_ne h]
      have same : (i - 1 - (n : Int) < f ∧ f ≤ i - 1) ↔
          (i - ((n + 1 : Nat) : Int) < f ∧ f ≤ i) := by omega
      simp only [same]

theorem decreasepop_apply (hot : Int → Int) (ori dest f : Int) :
    decreasepop hot ori dest f = hot f - if dest < f ∧ f ≤ ori then 1 else 0 := by
  rw [decreasepop, decreaseFrom_apply]
  by_cases h : dest ≤ ori
  · have : ori - ((ori - dest).toNat : Int) = dest := by omega
    rw [this]
  · rw [if_neg (by omega), if_neg (by omega)]

theorem demote_hot (s : State) (o : Obj) : (demote s o).hotdistribution = s.hotdistribution := rfl

theorem promote_hot (b : Budgets) (s : State) (o : Obj) :
    (promote b s o).hotdistribution = decreasepop s.hotdistribution o.tag.freq 0 := rfl

theorem retire_hot (b : Budgets) (s : State) (o : Obj) :
    (retire b s o).hotdistribution = s.hotdistribution := rfl

theorem replaceStaging_hot (b : Budgets) (s : State) (o : Obj) :
    (replaceStaging b s o).hotdistribution = countUp s.hotdistribution 0 := rfl

theorem dropStaging_hot (s : State) (o : Obj) :
    (dropStaging s o).hotdistribution = decreasepop s.hotdistribution o.tag.freq (-1) := rfl

theorem dropGhost_hot (s : State) (o : Obj) :
    (dropGhost s o).hotdistribution = decreasepop s.hotdistribution o.tag.freq (-1) := rfl

end MerlinPolicy
