import CacheEviction.MerlinMoves
import CacheEviction.StepTraces

/-!
# Runs of Merlin

A sequence of `merlin_get` calls, and the same run cut at the calls that
`cache_get_base` makes: a lookup, then evictions while the cache is too full, then
the insertion. The finer run shows where the ghost state set by a lookup meets the
insertion that consumes it.
-/
namespace MerlinPolicy

open FuelLoops FifoCache StepTraces Relation

variable {b : Budgets} {cbf : CountingFilter.Cbf} {r : Request} {s t : State} {fuel : Nat}

/-- Where `cache_get_base` stands: between requests, or after the miss of `r`. -/
inductive Point where
  | idle
  | serving (r : Request)
  deriving DecidableEq

structure Config where
  point : Point
  state : State

inductive Step (b : Budgets) : Config → Config → Prop where
  | hit {s t : State} {r : Request} (size : 1 ≤ r.objSize) (find : merlinFind s r = (true, t)) :
      Step b ⟨.idle, s⟩ ⟨.idle, t⟩
  | miss {s t : State} {r : Request} (size : 1 ≤ r.objSize)
      (find : merlinFind s r = (false, t)) : Step b ⟨.idle, s⟩ ⟨.serving r, t⟩
  | reject {s : State} {r : Request} (large : merlinCanInsert b r = false) :
      Step b ⟨.serving r, s⟩ ⟨.idle, s⟩
  | evict {s t : State} {r : Request} {fuel : Nat} (fits : merlinCanInsert b r = true)
      (full : overfull b s r = true) (evicted : merlinEvict b fuel s r = .ok t) :
      Step b ⟨.serving r, s⟩ ⟨.serving r, t⟩
  | insert {s : State} {r : Request} (fits : merlinCanInsert b r = true)
      (room : overfull b s r = false) : Step b ⟨.serving r, s⟩ ⟨.idle, merlinInsert b s r⟩

def boot (cbf : CountingFilter.Cbf) : Config := ⟨.idle, merlinInit cbf⟩

/-- The runs of a Merlin cache, call by call. -/
abbrev Run (b : Budgets) (cbf : CountingFilter.Cbf) : List (Config × Config) → Config → Prop :=
  Trace (Step b) (boot cbf)

abbrev Reached (b : Budgets) (cbf : CountingFilter.Cbf) : Config → Prop :=
  Reachable (Step b) (boot cbf)

/-- Requests served one after the other, each `merlin_get` having returned. -/
inductive Gets (b : Budgets) (cbf : CountingFilter.Cbf) : List Request → State → Prop where
  | nil : Gets b cbf [] (merlinInit cbf)
  | snoc {rs : List Request} {s t : State} {r : Request} {hit : Bool} {fuel : Nat} :
      Gets b cbf rs s → 1 ≤ r.objSize → merlinGet b fuel s r = .ok (hit, t) →
      Gets b cbf (rs ++ [r]) t

def serve (b : Budgets) (fuel : Nat) (s : State) : List Request → Outcome State
  | [] => .ok s
  | r :: rs => do
    let (_, t) ← merlinGet b fuel s r
    serve b fuel t rs

theorem serve_gets {done rs : List Request} (before : Gets b cbf done s)
    (sizes : ∀ r ∈ rs, 1 ≤ r.objSize) (h : serve b fuel s rs = .ok t) :
    Gets b cbf (done ++ rs) t := by
  induction rs generalizing done s with
  | nil =>
    cases h
    simpa using before
  | cons r rs ih =>
    obtain ⟨⟨hit, u⟩, get, rest⟩ := bind_eq_ok.mp h
    have served := before.snoc (sizes r List.mem_cons_self) get
    have all := ih served (fun q hq => sizes q (List.mem_cons_of_mem r hq)) rest
    simpa using all

/-- Whether serving these requests from a new cache ends in a state that passes `P`. -/
def servesTo (b : Budgets) (fuel : Nat) (cbf : CountingFilter.Cbf) (rs : List Request)
    (P : State → Bool) : Bool :=
  match serve b fuel (merlinInit cbf) rs with
  | .ok s => P s && rs.all (fun r => 1 ≤ r.objSize)
  | .error _ => false

theorem servesTo_gets (b : Budgets) (fuel : Nat) (cbf : CountingFilter.Cbf) (rs : List Request)
    (P : State → Bool) (h : servesTo b fuel cbf rs P = true) : ∃ s, Gets b cbf rs s ∧ P s = true := by
  simp only [servesTo] at h
  split at h
  · rename_i s served
    rw [Bool.and_eq_true] at h
    have sizes : ∀ r ∈ rs, 1 ≤ r.objSize := by simpa using h.2
    exact ⟨s, by simpa using serve_gets .nil sizes served, h.1⟩
  · cases h

/-- A cache of three bytes, one for each queue, over a sketch of sixteen counters. -/
def threeBytes : Budgets := splitBudget 3 1 1 3 32 (fun id => (UInt32.ofNat id, 1))

def sixteenCounters : CountingFilter.Cbf := CountingFilter.init 1 16

/-! ## From requests to calls -/

/-- One eviction of the loop in `cache_get_base`. -/
def Evicts (b : Budgets) (r : Request) (s t : State) : Prop :=
  overfull b s r = true ∧ ∃ fuel, merlinEvict b fuel s r = .ok t

theorem evictRound_again (h : evictRound b fuel r s = .ok (.again t)) :
    overfull b s r = true ∧ merlinEvict b fuel s r = .ok t := by
  simp only [evictRound] at h
  split at h
  · rename_i full
    obtain ⟨u, hu, hr⟩ := bind_eq_ok.mp h
    cases hr
    exact ⟨full, hu⟩
  · cases h

theorem evictRound_done (h : evictRound b fuel r s = .ok (.done t)) :
    t = s ∧ overfull b s r = false := by
  simp only [evictRound] at h
  split at h
  · obtain ⟨u, _, hr⟩ := bind_eq_ok.mp h
    cases hr
  · rename_i room
    cases h
    exact ⟨rfl, by simpa using room⟩

theorem evictLoop_evicts (h : evictLoop b fuel s r = .ok t) :
    ReflTransGen (Evicts b r) s t ∧ overfull b t r = false := by
  refine loop_invariant (evictRound b fuel r) (fun u => ReflTransGen (Evicts b r) s u)
    (fun u => ReflTransGen (Evicts b r) s u ∧ overfull b u r = false) ?_ ?_ fuel s .refl t h
  · intro u v hu hv
    obtain ⟨full, evicted⟩ := evictRound_again hv
    exact hu.tail ⟨full, fuel, evicted⟩
  · intro u v hu hv
    obtain ⟨rfl, room⟩ := evictRound_done hv
    exact ⟨hu, room⟩

theorem evicts_trace (fits : merlinCanInsert b r = true) (h : ReflTransGen (Evicts b r) s t) :
    ∃ es, Trace (Step b) ⟨.serving r, s⟩ es ⟨.serving r, t⟩ ∧
      ∀ e ∈ es, e.1.point = .serving r := by
  induction h with
  | refl => exact ⟨[], .nil, by simp⟩
  | tail _ evicts ih =>
    obtain ⟨full, fuel, evicted⟩ := evicts
    obtain ⟨es, trace, points⟩ := ih
    refine ⟨_, trace.snoc (.evict fits full evicted), fun e mem => ?_⟩
    rcases List.mem_append.mp mem with mem | mem
    · exact points e mem
    · rw [List.mem_singleton.mp mem]

theorem get_trace {hit : Bool} (size : 1 ≤ r.objSize)
    (h : merlinGet b fuel s r = .ok (hit, t)) :
    ∃ es, Trace (Step b) ⟨.idle, s⟩ es ⟨.idle, t⟩ ∧
      ∀ e ∈ es, e.1.point = .idle ∨ e.1.point = .serving r := by
  simp only [merlinGet] at h
  split at h
  · rename_i u find
    cases h
    exact ⟨_, Trace.nil.snoc (.hit size find), by simp⟩
  · rename_i u find
    have missed : Trace (Step b) ⟨.idle, s⟩ [(⟨.idle, s⟩, ⟨.serving r, u⟩)] ⟨.serving r, u⟩ :=
      Trace.nil.snoc (.miss size find)
    split at h
    · rename_i fits
      obtain ⟨v, hv, hr⟩ := bind_eq_ok.mp h
      cases hr
      obtain ⟨evicts, room⟩ := evictLoop_evicts hv
      obtain ⟨es, trace, points⟩ := evicts_trace fits evicts
      refine ⟨_, (missed.append trace).snoc (.insert fits room), fun e mem => ?_⟩
      rcases List.mem_append.mp mem with mem | mem
      · rcases List.mem_append.mp mem with mem | mem
        · left
          rw [List.mem_singleton.mp mem]
        · exact Or.inr (points e mem)
      · right
        rw [List.mem_singleton.mp mem]
    · rename_i large
      cases h
      exact ⟨_, missed.snoc (.reject (by simpa using large)), by simp⟩

theorem gets_run {rs : List Request} (h : Gets b cbf rs s) :
    ∃ es, Run b cbf es ⟨.idle, s⟩ ∧ ∀ e ∈ es, ∀ r, e.1.point = .serving r → r ∈ rs := by
  induction h with
  | nil => exact ⟨[], .nil, by simp⟩
  | @snoc rs s t r _ _ _ size get ih =>
    obtain ⟨es, run, served⟩ := ih
    obtain ⟨fs, trace, points⟩ := get_trace size get
    refine ⟨es ++ fs, run.append trace, fun e mem q serving => ?_⟩
    rcases List.mem_append.mp mem with mem | mem
    · exact List.mem_append_left _ (served e mem q serving)
    · rcases points e mem with idle | own
      · rw [idle] at serving
        cases serving
      · rw [own] at serving
        cases serving
        simp

theorem gets_reached {rs : List Request} (h : Gets b cbf rs s) : Reached b cbf ⟨.idle, s⟩ := by
  obtain ⟨es, run, _⟩ := gets_run h
  exact ⟨es, run⟩

end MerlinPolicy
