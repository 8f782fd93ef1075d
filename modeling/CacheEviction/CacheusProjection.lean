import CacheEviction.CacheusExperts
import CacheEviction.SrLruFrame

/-!
# SR_LRU by itself

The policy `Cacheus.cacheus` is `SR_LRU` with the victims of `CR_LFU` as a parameter. A
run with both experts is one of its runs: `SR_LRU` never reads the other expert, so it
does the same under every parameter that names the victims which `CR_LFU` had its way
with. Votes are numbered by the evictions, so later ones do not change what has happened.
-/
namespace CacheusExperts

open FuelLoops FifoCache CacheGet Cacheus StepTraces

variable {c : Setup} {s t : Experts} {r : Request} {n : Nat}

/-- `SR_LRU` by itself, under a list of votes. -/
def Setup.voting (c : Setup) (vote : Nat → Option Nat) : Params := ⟨c.cacheSize, false, vote⟩

/-! ## Votes of a part of a run -/

/-- From one eviction to another, votes can be cast such that this holds whatever the
other votes are. -/
def Cast (first last : Nat) (P : (Nat → Option Nat) → Prop) : Prop :=
  first ≤ last ∧ ∃ votes : Nat → Option Nat, ∀ vote : Nat → Option Nat,
    (∀ k, first ≤ k → k < last → vote k = votes k) → P vote

section Votes

variable {i j k : Nat} {P Q : (Nat → Option Nat) → Prop}

theorem Cast.none (holds : ∀ vote, P vote) (same : j = i) : Cast i j P :=
  ⟨same.ge, fun _ => .none, fun vote _ => holds vote⟩

theorem Cast.single (choice : Option Nat) (holds : ∀ vote, vote i = choice → P vote)
    (next : j = i + 1) : Cast i j P := by
  refine ⟨by omega, fun _ => choice, fun vote cast => holds vote ?_⟩
  exact cast i le_rfl (by omega)

theorem Cast.imp (cast : Cast i j P) (implies : ∀ vote, P vote → Q vote) : Cast i j Q := by
  obtain ⟨order, votes, holds⟩ := cast
  exact ⟨order, votes, fun vote same => implies vote (holds vote same)⟩

theorem Cast.and (first : Cast i j P) (second : Cast j k Q) : Cast i k fun vote => P vote ∧ Q vote := by
  obtain ⟨low, votes, holds⟩ := first
  obtain ⟨high, votes', holds'⟩ := second
  refine ⟨low.trans high, fun m => if m < j then votes m else votes' m, fun vote same => ⟨?_, ?_⟩⟩
  · refine holds vote fun m above below => ?_
    exact (same m above (by omega)).trans (if_pos below)
  · refine holds' vote fun m above below => ?_
    exact (same m (by omega) below).trans (if_neg (by omega))

theorem Cast.exists (cast : Cast i j P) : ∃ vote, P vote := by
  obtain ⟨-, votes, holds⟩ := cast
  exact ⟨votes, holds votes fun _ _ _ => rfl⟩

end Votes

/-! ## The calls of `CR_LFU` -/

theorem offload_lru {id : Nat} {obj : CrLfu.Obj} (run : offload s id obj = .ok t) : t.lru = s.lru := by
  unfold offload at run
  split at run
  · cases run
    rfl
  · cases run

theorem lfuEvict_lru (run : lfuEvict s = .ok t) : t.lru = s.lru := by
  obtain ⟨⟨⟨id, obj⟩, lfu⟩, -, run⟩ := bind_eq_ok.mp run
  exact offload_lru (s := { s with lfu := lfu, evictedFreq := _ }) run

theorem lfuRemove_lru {id : Nat} (run : lfuRemove s id = .ok t) : t.lru = s.lru := by
  obtain ⟨⟨removed, lfu⟩, -, run⟩ := bind_eq_ok.mp run
  cases removed with
  | none =>
    cases run
    rfl
  | some obj => exact offload_lru (s := { s with lfu := lfu, evictedFreq := _ }) run

/-! ## The calls of the policy -/

theorem cacheusFind_projects {a : Bool × Experts} (run : cacheusFind c s r = .ok a) :
    srLruFind c.lists s.lru r = .ok (a.1, a.2.lru) := by
  obtain ⟨⟨hit, lru⟩, found, run⟩ := bind_eq_ok.mp run
  obtain ⟨⟨_, lfu⟩, -, run⟩ := bind_eq_ok.mp run
  cases run
  rw [found]
  cases hit <;> rfl

theorem overflowRound_projects {round : Round Experts Experts} (run : overflowRound c s = .ok round) :
    Cacheus.overflowRound c.lists s.lru = .ok (round.map Experts.lru Experts.lru) := by
  unfold overflowRound at run
  rw [Cacheus.overflowRound]
  by_cases full : s.lru.srSize < occupied c.lists s.lru.srList
  · rw [if_pos full] at run ⊢
    obtain ⟨obj, oldest, run⟩ := bind_eq_ok.mp run
    obtain ⟨u, removed, run⟩ := bind_eq_ok.mp run
    cases run
    have same := lfuRemove_lru removed
    rw [oldest]
    simp only [Round.map, same]
    rfl
  · rw [if_neg full] at run ⊢
    cases run
    rfl

theorem relieve_projects (run : relieve c s = .ok t) : Cacheus.relieve c.lists s.lru = .ok t.lru := by
  unfold relieve at run
  rw [Cacheus.relieve]
  have same : c.lists.cacheSize = c.cacheSize := rfl
  rw [same]
  by_cases crowded : (c.cacheSize : Int) < srLruOccupied c.lists s.lru
  · rw [if_pos crowded] at run ⊢
    exact loop_maps Experts.lru Experts.lru (fun _ _ => overflowRound_projects) run
  · rw [if_neg crowded] at run ⊢
    cases run
    rfl

theorem cacheusInsert_projects (run : cacheusInsert c s r = .ok t) :
    Cacheus.cacheusInsert c.lists s.lru r = .ok t.lru := by
  unfold cacheusInsert at run
  rw [Cacheus.cacheusInsert]
  by_cases admitted : srLruCanInsert c.lists s.lru r = true
  · rw [if_pos admitted] at run ⊢
    obtain ⟨lru, entered, run⟩ := bind_eq_ok.mp run
    obtain ⟨u, relieved, run⟩ := bind_eq_ok.mp run
    obtain ⟨lru', trimmed, run⟩ := bind_eq_ok.mp run
    cases run
    have relief := relieve_projects relieved
    rw [srLruInsert, entered]
    show (Cacheus.relieve c.lists lru >>= trimHistory c.lists) = _
    rw [relief]
    exact trimmed
  · rw [if_neg admitted] at run ⊢
    cases run
    rfl

theorem lruEvict_projects (run : lruEvict c s = .ok t) : srLruEvict c.lists s.lru = .ok t.lru := by
  obtain ⟨obj, -, run⟩ := bind_eq_ok.mp run
  obtain ⟨lru, evicted, run⟩ := bind_eq_ok.mp run
  cases run
  exact evicted

theorem lruRemove_projects {id : Nat} (run : lruRemove c s id = .ok t) :
    srLruRemove c.lists s.lru id = .ok t.lru := by
  obtain ⟨lru, removed, run⟩ := bind_eq_ok.mp run
  cases run
  exact removed

theorem cacheusEvict_choice (run : cacheusEvict c n s = .ok t) : ∃ obj, srLruToEvict c.lists s.lru = .ok obj ∧
    (srLruEvict c.lists { s.lru with nEvict := s.lru.nEvict + 1 } = .ok t.lru ∨
      ∃ id, srLruRemove c.lists { s.lru with nEvict := s.lru.nEvict + 1 } id = .ok t.lru) := by
  obtain ⟨obj, victim, run⟩ := bind_eq_ok.mp run
  obtain ⟨id, -, run⟩ := bind_eq_ok.mp run
  refine ⟨obj, victim, ?_⟩
  dsimp only at run
  by_cases same : obj.objId = id
  · rw [if_pos same] at run
    obtain ⟨u, evicted, last⟩ := bind_eq_ok.mp run
    rw [lfuEvict_lru last]
    exact Or.inl (lruEvict_projects evicted)
  · rw [if_neg same] at run
    by_cases draw : c.drawsLru s.lru.nEvict = true
    · rw [if_pos draw] at run
      obtain ⟨u, evicted, run⟩ := bind_eq_ok.mp run
      obtain ⟨v, removed, run⟩ := bind_eq_ok.mp run
      obtain ⟨ghost, -, run⟩ := bind_eq_ok.mp run
      cases run
      show srLruEvict _ _ = .ok v.lru ∨ _
      rw [lfuRemove_lru removed]
      exact Or.inl (lruEvict_projects evicted)
    · rw [if_neg draw] at run
      obtain ⟨o, -, run⟩ := bind_eq_ok.mp run
      obtain ⟨u, removed, run⟩ := bind_eq_ok.mp run
      obtain ⟨v, evicted, run⟩ := bind_eq_ok.mp run
      obtain ⟨ghost, -, run⟩ := bind_eq_ok.mp run
      cases run
      refine Or.inr ⟨id, ?_⟩
      show srLruRemove _ _ _ = .ok v.lru
      rw [lfuEvict_lru evicted]
      exact lruRemove_projects removed

theorem cacheusEvict_projects (run : cacheusEvict c n s = .ok t) :
    Cast s.lru.nEvict t.lru.nEvict fun vote =>
      Cacheus.cacheusEvict (c.voting vote) s.lru = .ok t.lru := by
  obtain ⟨obj, victim, choice⟩ := cacheusEvict_choice run
  have victim : ∀ vote, srLruToEvict (c.voting vote) s.lru = .ok obj := fun _ => victim
  rcases choice with evicted | ⟨id, removed⟩
  · refine Cast.single none (fun vote cast => ?_) (congrArg Prod.snd (srLruEvict_frame evicted))
    rw [Cacheus.cacheusEvict, victim vote]
    simp only [bind, Except.bind, Setup.voting, cast]
    exact evicted
  · refine Cast.single (some id) (fun vote cast => ?_)
      (congrArg Prod.snd (srLruRemove_frame removed))
    rw [Cacheus.cacheusEvict, victim vote]
    simp only [bind, Except.bind, Setup.voting, cast]
    exact removed

/-! ## Requests -/

theorem makeRoom_idle (full : ¬ (c.cacheSize : Int) < srLruOccupied c.lists s.lru + r.objSize)
    (vote : Nat → Option Nat) :
    makeRoom (Cacheus.cacheus (c.voting vote)) n r s.lru = .ok (.done s.lru) := by
  refine if_neg ?_
  show ¬ (c.cacheSize : Int) < srLruOccupied c.lists s.lru + 0 + r.objSize
  rw [Int.add_zero]
  exact full

theorem makeRoom_evicts (full : (c.cacheSize : Int) < srLruOccupied c.lists s.lru + r.objSize)
    {vote : Nat → Option Nat} {lru : State}
    (evicted : Cacheus.cacheusEvict (c.voting vote) s.lru = .ok lru) :
    makeRoom (Cacheus.cacheus (c.voting vote)) n r s.lru = .ok (.again lru) := by
  have crowded : (c.cacheSize : Int) < srLruOccupied c.lists s.lru + 0 + r.objSize := by
    rw [Int.add_zero]
    exact full
  refine (if_pos crowded).trans ?_
  show (Cacheus.cacheusEvict (c.voting vote) s.lru).map Round.again = _
  rw [evicted]
  rfl

theorem makesRoom_projects {fuel : Nat} (run : loop (makeRoom (cacheus c) n r) fuel s = .ok t) :
    Cast s.lru.nEvict t.lru.nEvict fun vote =>
      loop (makeRoom (Cacheus.cacheus (c.voting vote)) n r) fuel s.lru = .ok t.lru := by
  induction fuel generalizing s with
  | zero => cases run
  | succ fuel ih =>
    by_cases full : (c.cacheSize : Int) < srLruOccupied c.lists s.lru + r.objSize
    · have round : makeRoom (cacheus c) n r s = (cacheusEvict c n s).map .again := if_pos full
      cases evicted : cacheusEvict c n s with
      | error e =>
        rw [evicted] at round
        rw [loop_error round] at run
        cases run
      | ok u =>
        rw [evicted] at round
        rw [loop_again round] at run
        refine ((cacheusEvict_projects evicted).and (ih run)).imp ?_
        rintro vote ⟨first, rest⟩
        rw [loop_again (makeRoom_evicts full first)]
        exact rest
    · have round : makeRoom (cacheus c) n r s = .ok (.done s) := if_neg full
      rw [loop_done round] at run
      cases run
      exact Cast.none (fun vote => loop_done (makeRoom_idle full vote) fuel) rfl

theorem cacheusGet_projects {hit : Bool} (run : cacheGetBase (cacheus c) n s r = .ok (hit, t)) :
    Cast s.lru.nEvict t.lru.nEvict fun vote =>
      cacheGetBase (Cacheus.cacheus (c.voting vote)) n s.lru r = .ok (hit, t.lru) := by
  obtain ⟨⟨present, u⟩, found, run⟩ := bind_eq_ok.mp run
  have finds := cacheusFind_projects found
  have steady : u.lru.nEvict = s.lru.nEvict := congrArg Prod.snd (srLruFind_frame finds)
  have finds : ∀ vote, (Cacheus.cacheus (c.voting vote)).find s.lru r = .ok (present, u.lru) :=
    fun _ => finds
  have admits : ∀ vote, (Cacheus.cacheus (c.voting vote)).canInsert n u.lru r =
      .ok (decide (r.objSize ≤ c.cacheSize), u.lru) := fun _ => rfl
  cases present with
  | true =>
    cases run
    refine Cast.none (fun vote => ?_) steady
    exact bind_eq_ok.mpr ⟨_, finds vote, rfl⟩
  | false =>
    obtain ⟨⟨admitted, v⟩, decided, run⟩ := bind_eq_ok.mp run
    cases decided
    by_cases small : r.objSize ≤ c.cacheSize
    · simp only [decide_eq_true small] at run admits
      obtain ⟨v, room, run⟩ := bind_eq_ok.mp run
      obtain ⟨w, inserted, same⟩ := bind_eq_ok.mp run
      cases same
      have enters := cacheusInsert_projects inserted
      have late : t.lru.nEvict = v.lru.nEvict := congrArg Prod.snd (cacheusInsert_frame enters)
      have enters : ∀ vote, (Cacheus.cacheus (c.voting vote)).insert v.lru r = .ok t.lru := fun _ => enters
      rw [← steady, late]
      refine (makesRoom_projects room).imp fun vote rooms => ?_
      exact bind_eq_ok.mpr ⟨_, finds vote, bind_eq_ok.mpr ⟨_, admits vote, bind_eq_ok.mpr
        ⟨_, rooms, bind_eq_ok.mpr ⟨_, enters vote, rfl⟩⟩⟩⟩
    · simp only [decide_eq_false small] at run admits
      cases run
      refine Cast.none (fun vote => ?_) steady
      exact bind_eq_ok.mpr ⟨_, finds vote, bind_eq_ok.mpr ⟨_, admits vote, rfl⟩⟩

end CacheusExperts
