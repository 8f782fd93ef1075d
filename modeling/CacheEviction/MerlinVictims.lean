import CacheEviction.MerlinFlashWrites
import Mathlib.Data.Multiset.Count

/-!
# What one Merlin eviction drops

The count of any pair of an id and a size is a weight that ignores metadata. Moves
between the queues keep every such weight, so the change of a whole eviction is the
weight of the one object that `retire` or `evict_staging` takes out.
-/
namespace MerlinPolicy

open FuelLoops FifoCache WeightedLists Relation

variable {b : Budgets} {cbf : CountingFilter.Cbf} {s t u g : State} {r : Request} {fuel : Nat}

/-- What an object is in whichever queue it stands: its id and its size. -/
def identity (o : Obj) : Nat × UInt32 := (o.objId, o.objSize)

/-- The ids with their sizes over filter, staging and core. -/
def State.contents (s : State) : Multiset (Nat × UInt32) := ↑(s.residents.map identity)

def sketchValue (b : Budgets) (s : State) (o : Obj) : Int :=
  CountingFilter.estimate s.cbf (b.hash o.objId).1 (b.hash o.objId).2

/-- A weight that no move between the queues can change. -/
def Blind (w : Obj → Int) : Prop := ∀ (o : Obj) (tag : Meta), w { o with tag := tag } = w o

theorem count_contents (s : State) (k : Nat × UInt32) :
    (s.contents.count k : Int) = (s.load (copies identity k)).resident := by
  rw [State.contents, Multiset.coe_count, ← total_copies_eq_count, total_residents]

theorem copies_blind (k : Nat × UInt32) : Blind (copies identity k) := fun _ _ => rfl

theorem contents_eq (h : ∀ w, Blind w → (s.load w).resident = (t.load w).resident) :
    t.contents = s.contents := by
  ext k
  have same := h _ (copies_blind k)
  rw [← count_contents, ← count_contents] at same
  omega

theorem contents_cons {v : Obj}
    (h : ∀ w, Blind w → (s.load w).resident = (t.load w).resident + w v) :
    s.contents = identity v ::ₘ t.contents := by
  ext k
  have change := h _ (copies_blind k)
  rw [← count_contents, ← count_contents] at change
  rw [Multiset.count_cons]
  by_cases own : k = identity v
  · rw [copies, if_pos own.symm] at change
    rw [if_pos own]
    omega
  · rw [copies, if_neg (Ne.symm own)] at change
    rw [if_neg own]
    omega

/-! ## The comparison -/

theorem compare_won (h : (compare b s).1 = 1) :
    ∃ o v, s.filter.toEvict = some o ∧ s.staging.toEvict = some v ∧ v.tag.freq ≤ 0 ∧
      sketchValue b s v < sketchValue b s o ∧ compare b s = (1, replaceStaging b s o) := by
  unfold compare at h ⊢
  cases hf : s.filter.toEvict with
  | none => simp [hf] at h
  | some o =>
    cases hv : s.staging.toEvict with
    | none => simp [hf, hv] at h
    | some v =>
      simp only [hf, hv] at h
      dsimp only
      split at h
      · cases h
      · rename_i cold
        split at h
        · cases h
        · rename_i credible
          split at h
          · rename_i stronger
            rw [if_neg cold, if_neg credible, if_pos stronger]
            exact ⟨o, v, rfl, rfl, by omega, stronger, rfl⟩
          · cases h

theorem compare_lost (h : (compare b s).1 ≠ 1) : (compare b s).2 = s := by
  rcases compare_cases b s with ⟨_, same⟩ | ⟨_, _, _, _, won⟩
  · exact same
  · rw [won] at h
    exact absurd rfl h

/-! ## The way through the filter -/

/-- How the loop of `adjust_filter` ends, and the object it drops. -/
inductive Ejects (b : Budgets) (s : State) : Option Obj → State → Prop where
  | nothing (empty : s.filter.occupiedByte ≤ 0) : Ejects b s none s
  | loser {o : Obj} (tail : s.filter.toEvict = some o) (cold : o.tag.freq < s.guardFreq)
      (lost : (compare b s).1 ≠ 1) : Ejects b s (some o) (retire b s o)
  | weaker {o v : Obj} (tail : s.filter.toEvict = some o) (cold : o.tag.freq < s.guardFreq)
      (won : (compare b s).1 = 1) (victim : s.staging.toEvict = some v) (unused : v.tag.freq ≤ 0)
      (less : sketchValue b s v < sketchValue b s o) :
      Ejects b s (some v) (dropStaging (replaceStaging b s o) v)

theorem adjustFilterRound_ejects {k : Bool} (h : adjustFilterRound b s = .ok (.done (k, t))) :
    ∃ x, Ejects b s x t := by
  unfold adjustFilterRound at h
  split at h
  · cases htail : s.filter.toEvict with
    | none => simp [htail] at h
    | some o =>
      simp only [htail] at h
      split at h
      · cases h
      · rename_i cold
        by_cases won : (compare b s).1 = 1
        · obtain ⟨o', v, tail, victim, unused, less, replaced⟩ := compare_won won
          have same : o' = o := Option.some.inj (tail.symm.trans htail)
          subst same
          rw [replaced] at h
          obtain ⟨u, evicted, finished⟩ := bind_eq_ok.mp h
          cases finished
          obtain ⟨v', victim', rfl⟩ := evictStaging_ok evicted
          have same : v' = v := Option.some.inj (victim'.symm.trans (replaceStaging_toEvict victim))
          subst same
          exact ⟨some v', .weaker tail (by omega) won victim unused less⟩
        · have pair : compare b s = ((compare b s).1, s) := Prod.ext rfl (compare_lost won)
          rw [pair] at h
          split at h
          · rename_i heq
            exact absurd (congrArg Prod.fst heq) won
          · rename_i heq
            cases heq
            cases h
            exact ⟨some o, .loser htail (by omega) won⟩
  · rename_i empty
    cases h
    exact ⟨none, .nothing (by omega)⟩

theorem adjustFilter_ejects {k : Bool} (h : adjustFilter b fuel s = .ok (k, t)) :
    ∃ l u x, Promotes b s l u ∧ Ejects b u x t := by
  refine loop_invariant (adjustFilterRound b) (fun u => ∃ l, Promotes b s l u)
    (fun p => ∃ l u x, Promotes b s l u ∧ Ejects b u x p.2) ?_ ?_ fuel s ⟨[], .nil⟩ (k, t) h
  · rintro u v ⟨l, promoted⟩ again
    obtain ⟨o, held, tail, hot, rfl⟩ := adjustFilterRound_again again
    exact ⟨l ++ [o], .snoc promoted held tail hot⟩
  · rintro u ⟨k, v⟩ ⟨l, promoted⟩ finished
    obtain ⟨x, ejects⟩ := adjustFilterRound_ejects finished
    exact ⟨l, u, x, promoted, ejects⟩

/-! ## Resident loads -/

theorem swap_resident {w : Obj → Int} (blind : Blind w) {o v : Obj}
    (tail : s.filter.toEvict = some o) (victim : s.staging.toEvict = some v) :
    (s.load w).resident = ((dropStaging (replaceStaging b s o) v).load w).resident + w v := by
  rw [load_dropStaging w (replaceStaging_toEvict victim), load_replaceStaging w tail]
  simp only [Load.resident, blind o]
  omega

theorem Ejects.resident {w : Obj → Int} (blind : Blind w) {x : Option Obj} (h : Ejects b s x t) :
    (s.load w).resident = (t.load w).resident + (x.map w).getD 0 := by
  cases h with
  | nothing => simp
  | loser tail =>
    rw [load_retire w tail]
    simp only [Load.resident, Option.map_some, Option.getD_some]
    omega
  | weaker tail _ _ victim => exact swap_resident blind tail victim

theorem Promotes.resident {w : Obj → Int} (blind : Blind w) {l : List Obj}
    (h : Promotes b s l t) : (t.load w).resident = (s.load w).resident := by
  obtain ⟨flash, queue, _, _⟩ := h.flash blind
  have filter : (s.load w).filter = total w l + (t.load w).filter := by
    simp only [State.load, queue, total_append]
  simp only [Load.resident, Load.flash] at flash ⊢
  omega

theorem Cools.resident {w : Obj → Int} (blind : Blind w) (h : Cools b s t) :
    (t.load w).resident = (s.load w).resident := by
  obtain ⟨flash, queue, _⟩ := Cools.flash blind h
  have filter : (t.load w).filter = (s.load w).filter := by simp only [State.load, queue]
  simp only [Load.resident, Load.flash] at flash ⊢
  omega

theorem adjustGhost_resident {w : Obj → Int} (h : adjustGhost b fuel s = .ok t) :
    (t.load w).resident = (s.load w).resident := by
  obtain ⟨hot, q, rfl⟩ := adjustGhost_frame h
  rfl

theorem Promotes.first_cold {l : List Obj} {o : Obj} (h : Promotes b s l u)
    (tail : u.filter.toEvict = some o) (cold : o.tag.freq < u.guardFreq) :
    s.filter.objs.find? (fun a => a.tag.freq < s.guardFreq) = some o := by
  have queue := (h.flash (w := CacheObj.bytes) (fun _ _ => rfl)).2.1
  obtain ⟨rest, shape⟩ := Fifo.toEvict_eq_some tail
  have hot : l.find? (fun a => decide (a.tag.freq < s.guardFreq)) = none := by
    rw [List.find?_eq_none]
    intro a mem
    have := h.hot a mem
    simp only [decide_eq_true_eq]
    omega
  rw [h.guard] at cold
  rw [queue, List.find?_append, hot, shape, Option.none_or]
  exact List.find?_cons_of_pos (by simpa using cold)

/-! ## The victim -/

theorem makeRoom_staging (fits : filterFull b s r = false) (h : makeRoom b fuel s r = .ok t) :
    ∃ u v, coolStaging b fuel s = .ok u ∧ u.staging.toEvict = some v ∧ v.tag.freq = 0 ∧
      ∀ w, Blind w → (s.load w).resident = (t.load w).resident + w v := by
  simp only [makeRoom, fits, Bool.false_eq_true, if_false] at h
  obtain ⟨u, cooled, dropped⟩ := bind_eq_ok.mp h
  obtain ⟨cools, v, victim, cold⟩ := coolStaging_cools cooled
  obtain ⟨v', victim', rfl⟩ := evictStaging_ok dropped
  refine ⟨u, v, cooled, victim, cold, fun w blind => ?_⟩
  rw [← Cools.resident blind cools]
  rcases compare_cases b u with ⟨_, same⟩ | ⟨o, v₁, tail, _, won⟩
  · rw [same] at victim' ⊢
    have own : v' = v := Option.some.inj (victim'.symm.trans victim)
    subst own
    rw [load_dropStaging w victim]
    simp only [Load.resident]
    omega
  · rw [won] at victim' ⊢
    have own : v' = v := Option.some.inj (victim'.symm.trans (replaceStaging_toEvict victim))
    subst own
    exact swap_resident blind tail victim

theorem makeRoom_filter (full : filterFull b s r = true) (h : makeRoom b fuel s r = .ok t) :
    ∃ l u x, Promotes b s l u ∧ Ejects b u x t := by
  simp only [makeRoom, full, if_true] at h
  obtain ⟨⟨k, u⟩, adjusted, finished⟩ := bind_eq_ok.mp h
  cases finished
  exact adjustFilter_ejects adjusted

theorem evict_change (h : merlinEvict b fuel s r = .ok t) :
    ∃ x : Option Obj, ∀ w, Blind w →
      (s.load w).resident = (t.load w).resident + (x.map w).getD 0 := by
  obtain ⟨g, adjusted, rest⟩ := bind_eq_ok.mp h
  obtain ⟨m, room, trimmed⟩ := bind_eq_ok.mp rest
  obtain ⟨cbf', epochCount, evictobjNum, guard, rfl⟩ := adjusted_frame adjusted
  cases full : filterFull b (s.bookkeeping cbf' epochCount evictobjNum guard) r with
  | false =>
    obtain ⟨u, v, _, _, _, change⟩ := makeRoom_staging full room
    refine ⟨some v, fun w blind => ?_⟩
    rw [adjustGhost_resident trimmed]
    exact change w blind
  | true =>
    obtain ⟨l, u, x, promoted, ejects⟩ := makeRoom_filter full room
    refine ⟨x, fun w blind => ?_⟩
    rw [adjustGhost_resident trimmed, ← ejects.resident blind, promoted.resident blind]
    rfl

/-- One call of `merlin_evict`, in any state a run passes through. Without room in
the filter it drops at most one object, the first filter tail below the guard or,
where `compare` let that one win, the cold staging tail of the smaller estimate;
otherwise it drops the cold staging tail and nothing else. -/
theorem evict_drops {c : Config} (reached : Reached b cbf c)
    (evicted : merlinEvict b fuel c.state r = .ok t) :
    ∃ g, merlinAdjustguard (countEviction b c.state) = .ok g ∧
      (filterFull b c.state r = false →
        ∃ u v, coolStaging b fuel g = .ok u ∧ u.staging.toEvict = some v ∧ v.tag.freq = 0 ∧
          c.state.contents = identity v ::ₘ t.contents) ∧
      (filterFull b c.state r = true →
        t.contents = c.state.contents ∨
        ∃ l u o, Promotes b g l u ∧ u.filter.toEvict = some o ∧
          c.state.filter.objs.find? (fun a => a.tag.freq < g.guardFreq) = some o ∧
          (((compare b u).1 ≠ 1 ∧ c.state.contents = identity o ::ₘ t.contents) ∨
            ((compare b u).1 = 1 ∧ ∃ v, c.state.staging.toEvict = some v ∧ v.tag.freq = 0 ∧
              sketchValue b u v < sketchValue b u o ∧
              c.state.contents = identity v ::ₘ t.contents))) := by
  obtain ⟨g, adjusted, rest⟩ := bind_eq_ok.mp evicted
  obtain ⟨m, room, trimmed⟩ := bind_eq_ok.mp rest
  obtain ⟨cbf', epochCount, evictobjNum, guard, frame⟩ := adjusted_frame adjusted
  have load : ∀ w, g.load w = c.state.load w := fun w => by rw [frame, load_bookkeeping]
  have filter : g.filter = c.state.filter := by rw [frame]; rfl
  have staging : g.staging = c.state.staging := by rw [frame]; rfl
  have branch : filterFull b g r = filterFull b c.state r := by rw [filterFull, filter]; rfl
  refine ⟨g, adjusted, fun fits => ?_, fun full => ?_⟩
  · rw [← branch] at fits
    obtain ⟨u, v, cooled, victim, cold, change⟩ := makeRoom_staging fits room
    refine ⟨u, v, cooled, victim, cold, contents_cons fun w blind => ?_⟩
    rw [adjustGhost_resident trimmed, ← load, change w blind]
  · rw [← branch] at full
    obtain ⟨l, u, x, promoted, ejects⟩ := makeRoom_filter full room
    have change : ∀ w, Blind w →
        (c.state.load w).resident = (t.load w).resident + (x.map w).getD 0 := by
      intro w blind
      rw [adjustGhost_resident trimmed, ← ejects.resident blind, promoted.resident blind, load]
    cases ejects with
    | nothing => exact Or.inl (contents_eq fun w blind => by simpa using change w blind)
    | @loser o tail cold lost =>
      have first := promoted.first_cold tail cold
      rw [filter] at first
      exact Or.inr ⟨l, u, o, promoted, tail, first, Or.inl ⟨lost, contents_cons change⟩⟩
    | @weaker o v tail cold won victim unused less =>
      have first := promoted.first_cold tail cold
      have unmoved := (promoted.flash (w := CacheObj.bytes) (fun _ _ => rfl)).2.2.1
      rw [unmoved, staging] at victim
      have nonneg := ((reached_invariant reached).freqs.staging (Fifo.toEvict_mem victim)).1
      rw [filter] at first
      exact Or.inr ⟨l, u, o, promoted, tail, first,
        Or.inr ⟨won, v, victim, by omega, less, contents_cons change⟩⟩

/-- The first request that finds a cache of three objects full drops one of them. -/
theorem evict_drops_first :
    ∃ s t v, Reached threeBytes sixteenCounters ⟨.idle, s⟩ ∧
      merlinEvict threeBytes 20 s ⟨4, 1⟩ = .ok t ∧ v.tag.freq = 0 ∧
      s.contents = identity v ::ₘ t.contents := by
  obtain ⟨s, gets, passed⟩ := servesTo_gets threeBytes 20 sixteenCounters
    [⟨1, 1⟩, ⟨2, 1⟩, ⟨3, 1⟩]
    (fun s => filterFull threeBytes s ⟨4, 1⟩ = false ∧
      Returns (merlinEvict threeBytes 20 s ⟨4, 1⟩) (fun _ => true)) (by decide +kernel)
  obtain ⟨fits, returned⟩ := of_decide_eq_true passed
  obtain ⟨t, evicted, _⟩ := exists_of_returns returned
  obtain ⟨g, _, staging, _⟩ := evict_drops (gets_reached gets) evicted
  obtain ⟨u, v, _, _, cold, dropped⟩ := staging fits
  exact ⟨s, t, v, gets_reached gets, evicted, cold, dropped⟩

end MerlinPolicy
