import CacheEviction.AdaptiveRuns

/-!
# ARC

`ARC.c`: a hit moves its object to the head of `L2_data`, and both evictions take
the tail of a list. `ARCfix.c` is a copy of it in which a hit on a ghost leaves the
target alone: the target is a parameter, and as long as it is below one an eviction
reads it as a fraction of the occupied bytes.
-/
namespace Arc

open AdaptiveLists FuelLoops FifoCache CacheGet Binary64 StepTraces

/-- The hit of `ARC_find`, case I. -/
def arcHit (s : State Unit) (id : Nat) (e : Entry Unit) : State Unit :=
  match e.lruId with
  | .one => s.relocate .l1Data .l2Data id e { e with lruId := .two }
  | .two => s.relocate .l2Data .l2Data id e e

def arcReplace (s : State Unit) : Except (Stop Fault) (State Unit) :=
  if prefersL1 s then evictData .l1Data .l1Ghost s else evictData .l2Data .l2Ghost s

def variant : Variant Unit where
  fresh := ()
  onHit := arcHit
  replace _ := arcReplace
  dropL1 _ := evictNoGhost

def arcFind (c : Nat) : State Unit → Request → Except (Stop Fault) (Bool × State Unit) :=
  find variant c

def arcInsert : State Unit → Request → Except (Stop Fault) (State Unit) := insert variant

def arcEvict (c fuel : Nat) : State Unit → Request → Except (Stop Fault) (State Unit) :=
  evict variant c fuel

/-- `ARC_get` is `cache_get_base` over these. -/
def arc (c : Nat) : Policy (State Unit) Fault where
  cacheSize := c
  tick s := { s with nReq := s.nReq + 1 }
  find := arcFind c
  canInsert _ s r := .ok (r.objSize ≤ c, s)
  occupiedByte s := s.occupiedByte
  evict := arcEvict c
  insert := arcInsert

theorem careful : variant.Careful where
  onHit := by
    intro s id e sound found data
    rcases e with ⟨size, lru, ghost, tag⟩
    cases data
    cases lru with
    | one => exact promoted_relocate sound found rfl (.inl rfl) rfl rfl
    | two => exact promoted_relocate sound found rfl (.inr rfl) rfl rfl
  replace := by
    intro s sound some
    have nonempty := prefersL1_spec sound some
    show Ends (fun _ => arcReplace s) _
    unfold arcReplace
    cases choice : prefersL1 s with
    | true =>
      rw [choice] at nonempty
      obtain ⟨t, run, demoted⟩ := evictL1Data_demoted sound nonempty
      simp only [if_true, run]
      exact Ends.const demoted
    | false =>
      rw [choice] at nonempty
      obtain ⟨t, run, demoted⟩ := evictL2Data_demoted sound nonempty
      simp only [Bool.false_eq_true, if_false, run]
      exact Ends.const demoted
  dropL1 := by
    intro s sound nonempty
    obtain ⟨t, run, shed⟩ := evictNoGhost_shed sound (by omega)
    show Ends (fun _ => evictNoGhost s) _
    rw [run]
    exact Ends.const shed

theorem lawful : variant.Lawful := careful.lawful

abbrev Gets (c : Nat) : State Unit → State Unit → Prop := Requested (arc c) fun r => r.objSize = 1

/-- In every run with objects of one byte every request is served, so no eviction
reads the tail of an empty list, and the lists keep the bounds of ARC. -/
theorem gets_keep_bounds {c : Nat} (positive : 1 ≤ c) {s : State Unit}
    (history : Reachable (Gets c) State.init s) (r : Request) (one : r.objSize = 1) :
    ∃ hit t, Serves (arc c) s r hit t ∧ Bounded c t := by
  have valid := requests_valid lawful positive history
  obtain ⟨⟨hit, t⟩, served, after⟩ := serve_ends lawful positive valid one
  exact ⟨hit, t, served, after.bounded⟩

theorem arcGet_mono (c : Nat) (s : State Unit) (r : Request) :
    FuelMono fun n => cacheGetBase (arc c) n s r :=
  serve_mono (fun _ => .const _) (fun _ => .const _) c s r

/-- Object 2 has become a ghost of `L1` and is requested again. -/
theorem gets_keep_bounds_ghost : ∃ s hit t, Reachable (Gets 2) State.init s ∧
    2 ∈ s.lists .l1Ghost ∧ Serves (arc 2) s ⟨2, 1⟩ hit t ∧ Bounded 2 t := by
  have returns : Returns (serveAll (arc 2) 5 State.init [⟨1, 1⟩, ⟨1, 1⟩, ⟨2, 1⟩, ⟨3, 1⟩])
      (fun s => decide (2 ∈ s.lists .l1Ghost)) = true := by decide +kernel
  obtain ⟨s, run, ghost⟩ := exists_of_returns returns
  have history : Reachable (Gets 2) State.init s :=
    serveAll_reachable (arcGet_mono 2) (by decide) .refl run
  obtain ⟨hit, t, served, bounded⟩ := gets_keep_bounds (by decide) history ⟨2, 1⟩ rfl
  exact ⟨s, hit, t, history, of_decide_eq_true ghost, served, bounded⟩

end Arc

namespace Arcfix

open AdaptiveLists FuelLoops FifoCache CacheGet Binary64

/-- The state that `ARCfix_init` leaves with the parameter `p`. -/
def arcfixInit (p : ℚ) : State Unit := { State.init with p := p }

/-- The hit of `ARCfix_find` on a ghost: the lines that move `p` are commented out. -/
def arcfixGhostHit (s : State Unit) (id : Nat) (e : Entry Unit) :
    Except (Stop Fault) (State Unit) :=
  let s : State Unit := { s with vtimeLastReqInGhost := s.nReq }
  match e.lruId with
  | .one =>
    if 1 ≤ s.sizes .l1Ghost then
      .ok ({ s with currObjInL1Ghost := true }.discard .l1Ghost id e)
    else .error (.fault .assertFailed)
  | .two =>
    if 1 ≤ s.sizes .l2Ghost then
      .ok ({ s with currObjInL2Ghost := true }.discard .l2Ghost id e)
    else .error (.fault .assertFailed)

/-- `ARCfix_find` with `update_cache` set. -/
def arcfixFind (s : State Unit) (r : Request) : Except (Stop Fault) (Bool × State Unit) :=
  match s.table r.objId with
  | none => .ok (false, s)
  | some e =>
    let s := { s with currObjInL1Ghost := false, currObjInL2Ghost := false }
    if e.ghost then (arcfixGhostHit s r.objId e).map fun s => (false, s)
    else .ok (true, Arc.arcHit s r.objId e)

def arcfixInsert : State Unit → Request → Except (Stop Fault) (State Unit) := insert Arc.variant

/-- The first lines of `ARCfix_evict`. -/
def scaleTarget (s : State Unit) : State Unit :=
  if s.p < 1 then { s with p := double (s.p * double s.occupiedByte) } else s

def arcfixEvict (c fuel : Nat) (s : State Unit) (r : Request) : Except (Stop Fault) (State Unit) :=
  evict Arc.variant c fuel (scaleTarget s) r

/-- `ARCfix_get` is `cache_get_base` over these. -/
def arcfix (c : Nat) : Policy (State Unit) Fault where
  cacheSize := c
  tick s := { s with nReq := s.nReq + 1 }
  find := arcfixFind
  canInsert _ s r := .ok (r.objSize ≤ c, s)
  occupiedByte s := s.occupiedByte
  evict := arcfixEvict c
  insert := arcfixInsert

theorem arcfixGhostHit_eq (c : Nat) (s : State Unit) (id : Nat) (e : Entry Unit) :
    arcfixGhostHit s id e = (ghostHit c s id e).map fun t => { t with p := s.p } := by
  unfold arcfixGhostHit ghostHit
  cases e.lruId with
  | one => by_cases some : 1 ≤ s.sizes .l1Ghost <;> simp only [some, if_true, if_false] <;> rfl
  | two => by_cases some : 1 ≤ s.sizes .l2Ghost <;> simp only [some, if_true, if_false] <;> rfl

theorem arcfixFind_eq (c : Nat) (s : State Unit) (r : Request) :
    arcfixFind s r = (Arc.arcFind c s r).map fun a => (a.1, { a.2 with p := s.p }) := by
  unfold arcfixFind Arc.arcFind find
  cases s.table r.objId with
  | none => rfl
  | some e =>
    cases ghost : e.ghost with
    | true =>
      simp only [ghost, if_true, arcfixGhostHit_eq c]
      cases ghostHit c { s with currObjInL1Ghost := false, currObjInL2Ghost := false } r.objId e <;> rfl
    | false =>
      simp only [ghost, Bool.false_eq_true, if_false]
      rcases e with ⟨size, _ | _, isGhost, tag⟩ <;> rfl

theorem scaleTarget_sound {s : State Unit} (sound : Sound s) : Sound (scaleTarget s) := by
  unfold scaleTarget
  split
  · exact sound.congr rfl rfl rfl rfl
  · exact sound

@[simp] theorem scaleTarget_table (s : State Unit) : (scaleTarget s).table = s.table := by
  unfold scaleTarget
  split <;> rfl

@[simp] theorem scaleTarget_sizes (s : State Unit) : (scaleTarget s).sizes = s.sizes := by
  unfold scaleTarget
  split <;> rfl

@[simp] theorem scaleTarget_occupiedByte (s : State Unit) :
    (scaleTarget s).occupiedByte = s.occupiedByte := by
  unfold scaleTarget
  split <;> rfl

end Arcfix
