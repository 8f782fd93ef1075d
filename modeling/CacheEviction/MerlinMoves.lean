import CacheEviction.MerlinPolicy
import Mathlib.Logic.Relation

/-!
# What one Merlin eviction can do

Each loop of `merlin_evict` is a run of single moves of an object between two queues,
and `Move` lists every such move with the test that guards it; an invariant of Merlin
is then a fact about eight moves. `makeRoom_cases` keeps the order in which the moves
of one call can come.
-/
namespace MerlinPolicy

open FuelLoops FifoCache Relation

variable {b : Budgets} {s t : State} {r : Request} {fuel : Nat}

/-- The fields that no queue move and no histogram update depends on. -/
def State.bookkeeping (s : State) (cbf : CountingFilter.Cbf) (epochCount evictobjNum guard : Int) :
    State :=
  { s with
    cbf := cbf
    epochCount := epochCount
    evictobjNum := evictobjNum
    guardFreq := guard }

inductive Move (b : Budgets) : State → State → Prop where
  | bookkeeping {s : State} (cbf : CountingFilter.Cbf) (epochCount evictobjNum guard : Int) :
      Move b s (s.bookkeeping cbf epochCount evictobjNum guard)
  | demote {s : State} {o : Obj} (tail : s.core.toEvict = some o) : Move b s (demote s o)
  | graduate {s : State} {o : Obj} (tail : s.staging.toEvict = some o) (hot : o.tag.freq ≠ 0) :
      Move b s (graduate b s o)
  | promote {s : State} {o : Obj} (tail : s.filter.toEvict = some o)
      (hot : s.guardFreq ≤ o.tag.freq) : Move b s (promote b s o)
  | retire {s : State} {o : Obj} (tail : s.filter.toEvict = some o) : Move b s (retire b s o)
  | replaceStaging {s : State} {o : Obj} (tail : s.filter.toEvict = some o) :
      Move b s (replaceStaging b s o)
  | dropStaging {s : State} {o : Obj} (tail : s.staging.toEvict = some o) :
      Move b s (dropStaging s o)
  | dropGhost {s : State} {o : Obj} (tail : s.ghost.toEvict = some o) : Move b s (dropGhost s o)

abbrev Moves (b : Budgets) : State → State → Prop := ReflTransGen (Move b)

/-! ## Rounds -/

theorem adjustCoreRound_again (h : adjustCoreRound b s = .ok (.again t)) :
    ∃ o, b.coreLimit < s.core.occupiedByte ∧ s.core.toEvict = some o ∧ t = demote s o := by
  unfold adjustCoreRound at h
  split at h
  · rename_i exceeds
    cases htail : s.core.toEvict with
    | none => simp [htail] at h
    | some o =>
      simp only [htail] at h
      split at h
      · cases h
        exact ⟨o, exceeds, rfl, rfl⟩
      · cases h
  · cases h

theorem adjustCoreRound_done (h : adjustCoreRound b s = .ok (.done t)) :
    t = s ∧ s.core.occupiedByte ≤ b.coreLimit := by
  unfold adjustCoreRound at h
  split at h
  · cases htail : s.core.toEvict with
    | none => simp [htail] at h
    | some o =>
      simp only [htail] at h
      split at h <;> cases h
  · rename_i fits
    cases h
    exact ⟨rfl, by omega⟩

theorem adjustStagingRound_again (h : adjustStagingRound b s = .ok (.again t)) :
    ∃ o, s.staging.toEvict = some o ∧ o.tag.freq ≠ 0 ∧ t = graduate b s o := by
  unfold adjustStagingRound at h
  split at h
  · cases htail : s.staging.toEvict with
    | none => simp [htail] at h
    | some o =>
      simp only [htail] at h
      split at h
      · cases h
      · rename_i hot
        cases h
        exact ⟨o, rfl, hot, rfl⟩
  · cases h

theorem adjustStagingRound_done {k : Nat} (h : adjustStagingRound b s = .ok (.done (k, t))) :
    t = s ∧ ((k = 1 ∧ ∃ o, s.staging.toEvict = some o ∧ o.tag.freq = 0) ∨
      (k = 0 ∧ s.staging.occupiedByte ≤ 0)) := by
  unfold adjustStagingRound at h
  split at h
  · cases htail : s.staging.toEvict with
    | none => simp [htail] at h
    | some o =>
      simp only [htail] at h
      split at h
      · rename_i cold
        cases h
        exact ⟨rfl, Or.inl ⟨rfl, o, rfl, cold⟩⟩
      · cases h
  · rename_i empty
    cases h
    exact ⟨rfl, Or.inr ⟨rfl, by omega⟩⟩

theorem adjustGhostRound_again (h : adjustGhostRound b s = .ok (.again t)) :
    ∃ o, s.ghost.toEvict = some o ∧ t = dropGhost s o := by
  unfold adjustGhostRound at h
  split at h
  · cases htail : s.ghost.toEvict with
    | none => simp [htail] at h
    | some o =>
      simp only [htail] at h
      cases h
      exact ⟨o, rfl, rfl⟩
  · cases h

theorem adjustGhostRound_done (h : adjustGhostRound b s = .ok (.done t)) :
    t = s ∧ s.ghost.occupiedByte ≤ b.ghostLimit := by
  unfold adjustGhostRound at h
  split at h
  · cases htail : s.ghost.toEvict with
    | none => simp [htail] at h
    | some o => simp [htail] at h
  · rename_i fits
    cases h
    exact ⟨rfl, by omega⟩

theorem compare_cases (b : Budgets) (s : State) :
    ((compare b s).1 ≠ 1 ∧ (compare b s).2 = s) ∨
    ∃ o v, s.filter.toEvict = some o ∧ s.staging.toEvict = some v ∧
      compare b s = (1, replaceStaging b s o) := by
  unfold compare
  cases hf : s.filter.toEvict with
  | none => exact Or.inl (by simp)
  | some o =>
    cases hv : s.staging.toEvict with
    | none => exact Or.inl (by simp)
    | some v =>
      dsimp only
      split
      · exact Or.inl (by simp)
      · split
        · exact Or.inl (by simp)
        · split
          · exact Or.inr ⟨o, v, rfl, rfl, rfl⟩
          · exact Or.inl (by simp)

theorem evictStaging_ok (h : evictStaging s = .ok t) :
    ∃ v, s.staging.toEvict = some v ∧ t = dropStaging s v := by
  unfold evictStaging at h
  cases htail : s.staging.toEvict with
  | none => simp [htail] at h
  | some v =>
    simp only [htail] at h
    cases h
    exact ⟨v, rfl, rfl⟩

theorem adjustFilterRound_again (h : adjustFilterRound b s = .ok (.again t)) :
    ∃ o, 0 < s.filter.occupiedByte ∧ s.filter.toEvict = some o ∧ s.guardFreq ≤ o.tag.freq ∧
      t = promote b s o := by
  unfold adjustFilterRound at h
  split at h
  · rename_i held
    cases htail : s.filter.toEvict with
    | none => simp [htail] at h
    | some o =>
      simp only [htail] at h
      split at h
      · rename_i hot
        cases h
        exact ⟨o, held, rfl, hot, rfl⟩
      · split at h
        · obtain ⟨u, _, hr⟩ := bind_eq_ok.mp h
          cases hr
        · cases h
  · cases h

/-- How the loop of `adjust_filter` is left: with nothing left to look at, by
swapping the cold filter tail with a staging tail, or by retiring it. -/
inductive FilterExit (b : Budgets) (s : State) : State → Prop where
  | exhausted (empty : s.filter.occupiedByte ≤ 0) : FilterExit b s s
  | swap {o v : Obj} (tail : s.filter.toEvict = some o) (cold : o.tag.freq < s.guardFreq)
      (victim : s.staging.toEvict = some v) :
      FilterExit b s (dropStaging (replaceStaging b s o) v)
  | retire {o : Obj} (tail : s.filter.toEvict = some o) (cold : o.tag.freq < s.guardFreq) :
      FilterExit b s (MerlinPolicy.retire b s o)

theorem replaceStaging_toEvict {o v : Obj} (h : s.staging.toEvict = some v) :
    (replaceStaging b s o).staging.toEvict = some v := by
  obtain ⟨rest, hq⟩ := Fifo.toEvict_eq_some h
  simp [replaceStaging, Fifo.toEvict, hq]

theorem adjustFilterRound_done {k : Bool} (h : adjustFilterRound b s = .ok (.done (k, t))) :
    FilterExit b s t := by
  unfold adjustFilterRound at h
  split at h
  · cases htail : s.filter.toEvict with
    | none => simp [htail] at h
    | some o =>
      simp only [htail] at h
      split at h
      · cases h
      · rename_i cold
        rcases compare_cases b s with ⟨hne, hsame⟩ | ⟨o', v, ho', hv, hc⟩
        · have hpair : compare b s = ((compare b s).1, s) := Prod.ext rfl hsame
          rw [hpair] at h
          split at h
          · rename_i heq
            exact absurd (congrArg Prod.fst heq) hne
          · rename_i heq
            cases heq
            cases h
            exact .retire htail (by omega)
        · have heq : o' = o := Option.some.inj (ho'.symm.trans htail)
          subst heq
          rw [hc] at h
          obtain ⟨u, hu, hr⟩ := bind_eq_ok.mp h
          cases hr
          obtain ⟨v', hv', rfl⟩ := evictStaging_ok hu
          have hsame : v' = v :=
            Option.some.inj (hv'.symm.trans (replaceStaging_toEvict hv))
          subst hsame
          exact .swap htail (by omega) hv
  · rename_i empty
    cases h
    exact .exhausted (by omega)

/-! ## Runs -/

/-- The moves of the loop around `adjust_core` and `adjust_staging`. -/
inductive Cooling (b : Budgets) : State → State → Prop where
  | demote {s : State} {o : Obj} (tail : s.core.toEvict = some o) : Cooling b s (demote s o)
  | graduate {s : State} {o : Obj} (tail : s.staging.toEvict = some o) (hot : o.tag.freq ≠ 0) :
      Cooling b s (graduate b s o)

abbrev Cools (b : Budgets) : State → State → Prop := ReflTransGen (Cooling b)

theorem Cooling.move (h : Cooling b s t) : Move b s t := by
  cases h with
  | demote tail => exact .demote tail
  | graduate tail hot => exact .graduate tail hot

theorem adjustCore_cools (h : adjustCore b fuel s = .ok t) :
    Cools b s t ∧ t.core.occupiedByte ≤ b.coreLimit := by
  refine loop_invariant (adjustCoreRound b) (fun u => Cools b s u)
    (fun u => Cools b s u ∧ u.core.occupiedByte ≤ b.coreLimit) ?_ ?_ fuel s .refl t h
  · intro u v hu hv
    obtain ⟨o, _, tail, rfl⟩ := adjustCoreRound_again hv
    exact hu.tail (.demote tail)
  · intro u v hu hv
    obtain ⟨rfl, fits⟩ := adjustCoreRound_done hv
    exact ⟨hu, fits⟩

theorem adjustStaging_cools {k : Nat} (h : adjustStaging b fuel s = .ok (k, t)) :
    Cools b s t ∧ ((k = 1 ∧ ∃ o, t.staging.toEvict = some o ∧ o.tag.freq = 0) ∨
      (k = 0 ∧ t.staging.occupiedByte ≤ 0)) := by
  refine loop_invariant (adjustStagingRound b) (fun u => Cools b s u)
    (fun p => Cools b s p.2 ∧ ((p.1 = 1 ∧ ∃ o, p.2.staging.toEvict = some o ∧ o.tag.freq = 0) ∨
      (p.1 = 0 ∧ p.2.staging.occupiedByte ≤ 0))) ?_ ?_ fuel s .refl (k, t) h
  · intro u v hu hv
    obtain ⟨o, tail, hot, rfl⟩ := adjustStagingRound_again hv
    exact hu.tail (.graduate tail hot)
  · rintro u ⟨k, v⟩ hu hv
    obtain ⟨rfl, exit⟩ := adjustStagingRound_done hv
    exact ⟨hu, exit⟩

theorem coolStaging_cools (h : coolStaging b fuel s = .ok t) :
    Cools b s t ∧ ∃ o, t.staging.toEvict = some o ∧ o.tag.freq = 0 := by
  have round : ∀ u x, coolStagingRound b fuel u = .ok x → ∃ v w k,
      Cools b u v ∧ Cools b v w ∧ x = (if k = 0 then .again w else .done w) ∧
      ((k = 1 ∧ ∃ o, w.staging.toEvict = some o ∧ o.tag.freq = 0) ∨
        (k = 0 ∧ w.staging.occupiedByte ≤ 0)) := by
    intro u x hx
    obtain ⟨v, hv, hx⟩ := bind_eq_ok.mp hx
    obtain ⟨⟨k, w⟩, hw, hx⟩ := bind_eq_ok.mp hx
    obtain ⟨cools, exit⟩ := adjustStaging_cools hw
    cases hx
    exact ⟨v, w, k, (adjustCore_cools hv).1, cools, rfl, exit⟩
  refine loop_invariant (coolStagingRound b fuel) (fun u => Cools b s u)
    (fun u => Cools b s u ∧ ∃ o, u.staging.toEvict = some o ∧ o.tag.freq = 0) ?_ ?_
    fuel s .refl t h
  · intro u v hu hv
    obtain ⟨u', w, k, h₁, h₂, hx, _⟩ := round u _ hv
    by_cases hk : k = 0
    · rw [if_pos hk] at hx
      cases hx
      exact (hu.trans h₁).trans h₂
    · rw [if_neg hk] at hx
      cases hx
  · intro u v hu hv
    obtain ⟨u', w, k, h₁, h₂, hx, exit⟩ := round u _ hv
    by_cases hk : k = 0
    · rw [if_pos hk] at hx
      cases hx
    · rw [if_neg hk] at hx
      cases hx
      rcases exit with ⟨_, cold⟩ | ⟨hk', _⟩
      · exact ⟨(hu.trans h₁).trans h₂, cold⟩
      · exact absurd hk' hk

/-- `adjust_filter` promotes the objects of `l`, in queue order, while the filter
holds bytes and its tail reaches the guard. -/
inductive Promotes (b : Budgets) (s : State) : List Obj → State → Prop where
  | nil : Promotes b s [] s
  | snoc {l : List Obj} {u : State} {o : Obj} : Promotes b s l u → 0 < u.filter.occupiedByte →
      u.filter.toEvict = some o → u.guardFreq ≤ o.tag.freq →
      Promotes b s (l ++ [o]) (promote b u o)

theorem adjustFilter_cases {k : Bool} (h : adjustFilter b fuel s = .ok (k, t)) :
    ∃ l u, Promotes b s l u ∧ FilterExit b u t := by
  refine loop_invariant (adjustFilterRound b) (fun u => ∃ l, Promotes b s l u)
    (fun p => ∃ l u, Promotes b s l u ∧ FilterExit b u p.2) ?_ ?_ fuel s ⟨[], .nil⟩ (k, t) h
  · rintro u v ⟨l, hl⟩ hv
    obtain ⟨o, held, tail, hot, rfl⟩ := adjustFilterRound_again hv
    exact ⟨l ++ [o], .snoc hl held tail hot⟩
  · rintro u ⟨k, v⟩ ⟨l, hl⟩ hv
    exact ⟨l, u, hl, adjustFilterRound_done hv⟩

/-- How one call of `merlin_evict` makes room: through the filter, or by dropping
a cold staging tail after giving the filter tail its chance. -/
inductive RoomMade (b : Budgets) (r : Request) (s : State) : State → Prop where
  | filter {l : List Obj} {u t : State} (full : filterFull b s r = true)
      (promoted : Promotes b s l u) (exit : FilterExit b u t) : RoomMade b r s t
  | staging {u : State} {v : Obj} (fits : filterFull b s r = false) (cooled : Cools b s u)
      (victim : u.staging.toEvict = some v) (cold : v.tag.freq = 0) :
      RoomMade b r s (dropStaging u v)
  | replace {u : State} {o v : Obj} (fits : filterFull b s r = false) (cooled : Cools b s u)
      (tail : u.filter.toEvict = some o) (victim : u.staging.toEvict = some v)
      (cold : v.tag.freq = 0) : RoomMade b r s (dropStaging (replaceStaging b u o) v)

theorem makeRoom_cases (h : makeRoom b fuel s r = .ok t) : RoomMade b r s t := by
  unfold makeRoom at h
  split at h
  · rename_i full
    obtain ⟨⟨k, u⟩, hu, hr⟩ := bind_eq_ok.mp h
    cases hr
    obtain ⟨l, u, promoted, exit⟩ := adjustFilter_cases hu
    exact .filter full promoted exit
  · rename_i fits
    have fits : filterFull b s r = false := by simpa using fits
    obtain ⟨u, hu, hr⟩ := bind_eq_ok.mp h
    obtain ⟨cooled, v, victim, cold⟩ := coolStaging_cools hu
    obtain ⟨v', victim', rfl⟩ := evictStaging_ok hr
    rcases compare_cases b u with ⟨_, same⟩ | ⟨o, w, tail, hw, hc⟩
    · rw [same] at victim' ⊢
      have heq : v' = v := Option.some.inj (victim'.symm.trans victim)
      subst heq
      exact .staging fits cooled victim cold
    · rw [hc] at victim' ⊢
      have heq : v' = v :=
        Option.some.inj (victim'.symm.trans (replaceStaging_toEvict victim))
      subst heq
      exact .replace fits cooled tail victim cold

theorem adjustGhost_moves (h : adjustGhost b fuel s = .ok t) :
    ReflTransGen (fun u v => ∃ o, u.ghost.toEvict = some o ∧ v = dropGhost u o) s t ∧
      t.ghost.occupiedByte ≤ b.ghostLimit := by
  let Drop : State → State → Prop := fun u v => ∃ o, u.ghost.toEvict = some o ∧ v = dropGhost u o
  refine loop_invariant (adjustGhostRound b) (fun u => ReflTransGen Drop s u)
    (fun u => ReflTransGen Drop s u ∧ u.ghost.occupiedByte ≤ b.ghostLimit) ?_ ?_ fuel s .refl t h
  · intro u v hu hv
    exact hu.tail (adjustGhostRound_again hv)
  · intro u v hu hv
    obtain ⟨rfl, fits⟩ := adjustGhostRound_done hv
    exact ⟨hu, fits⟩

theorem adjustGhost_frame (h : adjustGhost b fuel s = .ok t) :
    ∃ hot q, t = { s with hotdistribution := hot, ghost := q } := by
  have drops := (adjustGhost_moves h).1
  clear h
  induction drops with
  | refl => exact ⟨s.hotdistribution, s.ghost, rfl⟩
  | tail _ drop ih =>
    obtain ⟨o, _, rfl⟩ := drop
    obtain ⟨hot, q, rfl⟩ := ih
    exact ⟨_, _, rfl⟩

theorem adjustguard_ok (h : merlinAdjustguard s = .ok t) :
    t = { s with guardFreq := t.guardFreq } := by
  obtain ⟨_, _, h⟩ := bind_eq_ok.mp h
  obtain ⟨g, _, h⟩ := bind_eq_ok.mp h
  cases h
  rfl

theorem evict_cases (h : merlinEvict b fuel s r = .ok t) :
    ∃ g u, merlinAdjustguard (countEviction b s) = .ok g ∧ RoomMade b r g u ∧
      adjustGhost b fuel u = .ok t := by
  obtain ⟨g, hg, h⟩ := bind_eq_ok.mp h
  obtain ⟨u, hu, h⟩ := bind_eq_ok.mp h
  exact ⟨g, u, hg, makeRoom_cases hu, h⟩

/-! ## An eviction is a run of moves -/

theorem countEviction_frame (b : Budgets) (s : State) : ∃ cbf epochCount evictobjNum,
    countEviction b s = s.bookkeeping cbf epochCount evictobjNum s.guardFreq := by
  simp only [countEviction]
  split
  · split
    · exact ⟨CountingFilter.decay s.cbf, 0, 0, rfl⟩
    · exact ⟨s.cbf, s.epochCount + 1, 0, rfl⟩
  · exact ⟨s.cbf, s.epochCount, s.evictobjNum + 1, rfl⟩

theorem adjusted_frame (h : merlinAdjustguard (countEviction b s) = .ok t) :
    ∃ cbf epochCount evictobjNum guard,
      t = s.bookkeeping cbf epochCount evictobjNum guard := by
  obtain ⟨cbf, epochCount, evictobjNum, frame⟩ := countEviction_frame b s
  rw [adjustguard_ok h, frame]
  exact ⟨cbf, epochCount, evictobjNum, t.guardFreq, rfl⟩

theorem Promotes.moves {l : List Obj} (h : Promotes b s l t) : Moves b s t := by
  induction h with
  | nil => exact .refl
  | snoc _ _ tail hot ih => exact ih.tail (.promote tail hot)

theorem Cools.moves (h : Cools b s t) : Moves b s t :=
  ReflTransGen.mono (fun _ _ h => h.move) _ _ h

theorem FilterExit.moves (h : FilterExit b s t) : Moves b s t := by
  cases h with
  | exhausted => exact .refl
  | swap tail _ victim =>
    exact (ReflTransGen.single (.replaceStaging tail)).tail
      (.dropStaging (replaceStaging_toEvict victim))
  | retire tail => exact .single (.retire tail)

theorem RoomMade.moves (h : RoomMade b r s t) : Moves b s t := by
  cases h with
  | filter _ promoted exit => exact promoted.moves.trans exit.moves
  | staging _ cooled victim _ => exact (Cools.moves cooled).tail (.dropStaging victim)
  | replace _ cooled tail victim _ =>
    exact ((Cools.moves cooled).tail (.replaceStaging tail)).tail
      (.dropStaging (replaceStaging_toEvict victim))

theorem evict_moves (h : merlinEvict b fuel s r = .ok t) : Moves b s t := by
  obtain ⟨g, u, hg, hu, ht⟩ := evict_cases h
  have trims : Moves b u t := by
    refine ReflTransGen.mono ?_ _ _ (adjustGhost_moves ht).1
    rintro x y ⟨o, tail, rfl⟩
    exact .dropGhost tail
  obtain ⟨cbf, epochCount, evictobjNum, guard, rfl⟩ := adjusted_frame hg
  exact ((ReflTransGen.single (.bookkeeping cbf epochCount evictobjNum guard)).trans
    hu.moves).trans trims

end MerlinPolicy
