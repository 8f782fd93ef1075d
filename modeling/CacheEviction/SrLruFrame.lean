import CacheEviction.SrLru

/-!
# What SR_LRU leaves alone

The calls of `SR_LRU` move objects and adjust the sizes of its lists. The counter of
writes and the number of evictions are not theirs.
-/
namespace Cacheus

open CacheGet FuelLoops FifoCache

variable {b : Params} {s t : State}
variable {id : Nat} {r : Request}

def State.untouched (s : State) : BitVec 64 × Nat := (s.nByteWriteInR, s.nEvict)

theorem drain_frame (round : State → Except (Stop Fault) (Round State State)) (list : State → Fifo Marks)
    (full : State → Prop) [DecidablePred full] {next : State → CacheObj Marks → State}
    (same : ∀ s obj, (next s obj).untouched = s.untouched)
    (shape : ∀ s, round s = if full s then (tail (list s)).map fun obj => .again (next s obj)
      else .ok (.done s)) {fuel : Nat} (run : loop round fuel s = .ok t) :
    t.untouched = s.untouched := by
  refine loop_invariant round (fun u => u.untouched = s.untouched) (fun u => u.untouched = s.untouched)
    ?_ ?_ fuel s rfl t run
  · intro u v hu again
    rw [shape] at again
    by_cases h : full u
    · rw [if_pos h] at again
      obtain ⟨obj, _, taken⟩ := map_eq_ok.mp again
      cases taken
      exact (same u obj).trans hu
    · rw [if_neg h] at again
      cases again
  · intro u v hu done
    rw [shape] at done
    by_cases h : full u
    · rw [if_pos h] at done
      obtain ⟨obj, _, impossible⟩ := map_eq_ok.mp done
      cases impossible
    · rw [if_neg h] at done
      cases done
      exact hu

theorem demote_frame {need : Int} (run : demote b need s = .ok t) :
    t.untouched = s.untouched := by
  refine drain_frame (demoteRound b need) State.rList
    (fun s => s.rSize < occupied b s.rList + need) ?_ (fun _ => rfl) run
  intro s obj
  rfl

theorem trimHistory_frame (run : trimHistory b s = .ok t) :
    t.untouched = s.untouched := by
  refine drain_frame (trimRound b) State.hList
    (fun s => (b.cacheSize : Int) ≤ occupied b s.hList) ?_ (fun _ => rfl) run
  intro s obj
  rfl

theorem overflowSr_frame (run : overflowSr b s = .ok t) :
    t.untouched = s.untouched := by
  refine drain_frame (overflowRound b) State.srList
    (fun s => s.srSize < occupied b s.srList) ?_ (fun _ => rfl) run
  intro s obj
  rfl

theorem branch_frame {c : Prop} [Decidable c] {x : Except (Stop Fault) State}
    (taken : x = .ok t → t.untouched = s.untouched)
    (run : (if c then x else .ok s) = .ok t) : t.untouched = s.untouched := by
  by_cases h : c
  · rw [if_pos h] at run
    exact taken run
  · rw [if_neg h] at run
    cases run
    rfl

theorem shrinkSr_frame (run : shrinkSr b s id = .ok t) : t.untouched = s.untouched := by
  obtain ⟨delta, _, last⟩ := bind_eq_ok.mp run
  cases last
  rfl

theorem growSr_frame (run : growSr b s id = .ok t) : t.untouched = s.untouched := by
  obtain ⟨delta, _, last⟩ := bind_eq_ok.mp run
  cases last
  rfl

theorem adjustOnHit_frame (run : adjustOnHit b s id = .ok t) : t.untouched = s.untouched := by
  unfold adjustOnHit at run
  split at run
  · cases run
    rfl
  · exact branch_frame shrinkSr_frame run

theorem adjustOnReturn_frame (run : adjustOnReturn b s id = .ok t) : t.untouched = s.untouched := by
  unfold adjustOnReturn at run
  split at run
  · cases run
    rfl
  · exact branch_frame growSr_frame run

theorem srLruFind_frame {a : Bool × State} (run : srLruFind b s r = .ok a) :
    a.2.untouched = s.untouched := by
  simp only [srLruFind] at run
  split at run
  · cases run
    rfl
  · obtain ⟨t, adjusted, last⟩ := map_eq_ok.mp run
    cases last
    have atHit := adjustOnHit_frame adjusted
    exact atHit
  · obtain ⟨u, moved, run⟩ := bind_eq_ok.mp run
    obtain ⟨v, adjusted, last⟩ := bind_eq_ok.mp run
    cases last
    have atMove := demote_frame moved
    exact (adjustOnHit_frame adjusted).trans atMove

theorem insertFromHistory_frame (run : insertFromHistory b s r = .ok t) :
    t.untouched = s.untouched := by
  obtain ⟨u, demoted, last⟩ := bind_eq_ok.mp run
  have atDemotion := demote_frame demoted
  have atReturn := adjustOnReturn_frame last
  exact atReturn.trans atDemotion

theorem enter_frame (run : enter b s r = .ok t) : t.untouched = s.untouched := by
  unfold enter at run
  split at run
  · exact insertFromHistory_frame run
  · cases run
    rfl

theorem srLruInsert_frame (run : srLruInsert b s r = .ok t) : t.untouched = s.untouched := by
  obtain ⟨u, entered, run⟩ := bind_eq_ok.mp run
  obtain ⟨v, relieved, last⟩ := bind_eq_ok.mp run
  have atEntry := enter_frame entered
  have atRelief : v.untouched = u.untouched := branch_frame overflowSr_frame relieved
  exact ((trimHistory_frame last).trans atRelief).trans atEntry

theorem srLruEvict_frame (run : srLruEvict b s = .ok t) : t.untouched = s.untouched := by
  obtain ⟨obj, _, run⟩ := bind_eq_ok.mp run
  rw [trimHistory_frame run]
  show (if 0 < occupied b s.srList then { s with srList := s.srList.remove obj.objId }
    else { s with rList := s.rList.remove obj.objId }).untouched = s.untouched
  split <;> rfl

theorem srLruRemove_frame (run : srLruRemove b s id = .ok t) : t.untouched = s.untouched := by
  unfold srLruRemove at run
  split at run
  · rw [trimHistory_frame run]
    rfl
  · rw [trimHistory_frame run]
    rfl
  · cases run
    rfl

theorem cacheusInsert_frame (run : cacheusInsert b s r = .ok t) : t.untouched = s.untouched := by
  unfold cacheusInsert at run
  exact branch_frame srLruInsert_frame run

end Cacheus
