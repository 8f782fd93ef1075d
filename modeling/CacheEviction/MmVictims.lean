import CacheEviction.MmArc
import CacheEviction.MmCarRuns

/-!
# Victims of CAR and ARC in CacheLib

Both policies decide between their two lists by a target for the first one, which does
not look at what is in the lists now. If T1 is at or below its target and T2 is empty, no
victim is found, however many items there are; the allocator then asks again.
-/
namespace MmVictims

open HookedList StepTraces

/-- Items 0 and 2 have one key. No hash is zero: an empty slot of the ARC tables reads as
a zero. -/
def hashKey (n : Nat) : UInt32 := (n % 2 + 1).toUInt32

variable {P : Type} [DecidableEq P] {hashNode : P → UInt32}

theorem arc_reached {cfg : MmArc.Config} {s t : MmArc.State P} (ops : List (MmArc.Op P))
    (ran : ops.foldlM (MmArc.exec hashNode cfg) s = some t) :
    Reachable (MmArc.Stepped hashNode cfg) s t := by
  induction ops generalizing s with
  | nil =>
    cases ran
    exact .refl
  | cons op ops ih =>
    rw [List.foldlM_cons, Option.bind_eq_bind, Option.bind_eq_some_iff] at ran
    obtain ⟨u, one, rest⟩ := ran
    exact (Reachable.refl.next (.step op one)).trans (ih rest)

/-- In every state that holds an item: CAR finds a victim and unlinks it exactly if T1
has reached its target or T2 is not empty, and the ghosts have a capacity. ARC does so
exactly if T1 is above its target or T2 is not empty. -/
theorem victim_found_iff (hashNode : P → UInt32) :
    (∀ (cfg : MmCar.Config) (s : MmCar.State P),
      Reachable (MmCar.Stepped hashNode cfg) (MmCar.fresh P) s → 0 < s.size → ∀ time,
      ((∃ victim t, MmCar.replace hashNode s time = .ok (some victim, t) ∧
          Takes s.hooks s.list t.hooks t.list victim) ↔
        MmCar.Ready s ∧ 1 ≤ MmCar.ghostSize cfg 1000)) ∧
    ∀ (cfg : MmArc.Config) (s : MmArc.State P),
      Reachable (MmArc.Stepped hashNode cfg) (MmArc.fresh P) s → 0 < s.size →
      ((∃ victim t, MmArc.getEvictionCandidate hashNode s = some (some victim, t) ∧
          Takes s.hooks s.list t.hooks t.list victim) ↔ MmArc.Ready s) :=
  ⟨fun _ _ history held time => MmCar.replace_takes_iff history held time,
    fun _ _ history _ => MmArc.candidate_takes_iff history⟩

/-- An item of CAR that was read moves to T2; the first item of ARC is above a target of 0. -/
theorem victim_found_iff_one :
    (∃ s, Reachable (MmCar.Stepped hashKey default) (MmCar.fresh Nat) s ∧ 0 < s.size ∧
      ∃ victim t, MmCar.replace hashKey s 0 = .ok (some victim, t) ∧
        Takes s.hooks s.list t.hooks t.list victim) ∧
    ∃ s, Reachable (MmArc.Stepped hashKey {}) (MmArc.fresh Nat) s ∧ 0 < s.size ∧
      ∃ victim t, MmArc.getEvictionCandidate hashKey s = some (some victim, t) ∧
        Takes s.hooks s.list t.hooks t.list victim := by
  have one : Reachable (MmCar.Stepped hashKey default) (MmCar.fresh Nat) _ :=
    Reachable.refl.next (.step (.add 0 0) rfl)
  have history := one.next (.step (.recordAccess 0 .kRead 60) rfl)
  have history' : Reachable (MmArc.Stepped hashKey {}) (MmArc.fresh Nat) _ :=
    Reachable.refl.next (.step (.add 0 0) rfl)
  have ready : 1 ≤ MmCar.ghostSize default 1000 := by decide +kernel
  constructor
  · exact ⟨_, history, by decide, ((victim_found_iff hashKey).1 _ _ history (by decide) 0).mpr
      ⟨Or.inr (by decide), ready⟩⟩
  · exact ⟨_, history', by decide, ((victim_found_iff hashKey).2 _ _ history' (by decide)).mpr
      (Or.inl (by decide))⟩

/-- The key of item 0 is evicted and comes back with item 2, which raises the target to 1.
Item 2 enters T2 and is evicted from there. -/
def ghostHit : List (MmArc.Op Nat) := [.add 0 0, .evict, .add 1 0, .add 2 0, .evict]

/-- One item in CAR; one item left in ARC after a ghost hit. No victim in either. -/
theorem victim_missed :
    (∃ s, Reachable (MmCar.Stepped hashKey default) (MmCar.fresh Nat) s ∧ s.size = 1 ∧
      MmCar.replace hashKey s 0 = .ok (none, s)) ∧
    ∃ s, Reachable (MmArc.Stepped hashKey {}) (MmArc.fresh Nat) s ∧ s.size = 1 ∧
      (MmArc.getEvictionCandidate hashKey s).map Prod.fst = some none := by
  constructor
  · exact ⟨_, Reachable.refl.next (.step (.add 0 0) rfl), rfl, rfl⟩
  · have run : (ghostHit.foldlM (MmArc.exec hashKey {}) (MmArc.fresh Nat)).map (fun s =>
        (s.size, (MmArc.getEvictionCandidate hashKey s).map Prod.fst)) = some (1, some none) := by
      decide +kernel
    obtain ⟨s, ran, ends⟩ := Option.map_eq_some_iff.mp run
    obtain ⟨size, missed⟩ := Prod.mk.inj ends
    exact ⟨s, arc_reached ghostHit ran, size, missed⟩

end MmVictims
