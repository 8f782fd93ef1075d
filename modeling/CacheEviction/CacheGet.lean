import CacheEviction.FuelLoops
import CacheEviction.FifoCache
import CacheEviction.StepTraces

/-!
# Serving a request

`cache_get_base` looks the object up and, on a miss that may be admitted, evicts until
the object fits and inserts it. A policy is the functions it is called with.
`can_insert` may change the state, and every function may fault.

The rule for total correctness asks of a policy what each call keeps, and that an
eviction in a full cache brings a measure down.
-/
namespace CacheGet

open FuelLoops FifoCache StepTraces

variable {σ ε : Type}

/-- What stops a policy: the tail of an empty queue is read, or an assertion fails. -/
inductive Fault where
  | nullTail
  | assertFailed
  deriving DecidableEq

/-- The functions of `cache_t` that `cache_get_base` calls, and its fields. -/
structure Policy (σ ε : Type) where
  cacheSize : Int
  tick : σ → σ
  find : σ → Request → Except (Stop ε) (Bool × σ)
  canInsert : Nat → σ → Request → Except (Stop ε) (Bool × σ)
  occupiedByte : σ → Int
  evict : Nat → σ → Request → Except (Stop ε) σ
  insert : σ → Request → Except (Stop ε) σ

/-- The eviction loop leaves when the object fits. -/
def makeRoom (p : Policy σ ε) (fuel : Nat) (r : Request) (s : σ) :
    Except (Stop ε) (Round σ σ) :=
  if p.cacheSize < p.occupiedByte s + r.objSize then
    (p.evict fuel s r).map .again
  else .ok (.done s)

def cacheGetBase (p : Policy σ ε) (fuel : Nat) (s : σ) (r : Request) :
    Except (Stop ε) (Bool × σ) := do
  let (hit, s) ← p.find (p.tick s) r
  if hit then return (true, s)
  let (admitted, s) ← p.canInsert fuel s r
  if !admitted then return (false, s)
  let s ← loop (makeRoom p fuel r) fuel s
  let s ← p.insert s r
  return (false, s)

/-- A request that is served: the result at every large budget. -/
def Serves (p : Policy σ ε) (s : σ) (r : Request) (hit : Bool) (t : σ) : Prop :=
  Yields (fun fuel => cacheGetBase p fuel s r) (.ok (hit, t))

variable {p : Policy σ ε} {r : Request} {s : σ} {fuel : Nat}

theorem makeRoom_ends (I : σ → Prop) (size : σ → Nat)
    (evicts : ∀ u, I u → p.cacheSize < p.occupiedByte u + r.objSize →
      Ends (fun n => p.evict n u r) fun v => I v ∧ size v < size u)
    (start : I s) : Ends (fun n => loop (makeRoom p n r) n s)
      fun u => I u ∧ p.occupiedByte u + r.objSize ≤ p.cacheSize := by
  refine Ends.loop I size ?_ start
  intro u hu
  by_cases full : p.cacheSize < p.occupiedByte u + r.objSize
  · obtain ⟨v, run, after⟩ := evicts u hu full
    refine ⟨.again v, ?_, after⟩
    obtain ⟨N, hN⟩ := run
    refine ⟨N, fun n hn => ?_⟩
    simp only [makeRoom, if_pos full, hN n hn]
    rfl
  · refine ⟨.done u, .of_eq fun n => ?_, hu, Int.not_lt.mp full⟩
    simp only [makeRoom, if_neg full]

/-- Total correctness of a request, from what each call of the policy keeps:
`missed` after a failed lookup, `room` while there is room to be made. -/
theorem cacheGetBase_ends {Q : Bool → σ → Prop} (missed room : σ → Prop) (size : σ → Nat)
    (finds : ∃ hit t, p.find (p.tick s) r = .ok (hit, t) ∧ if hit then Q true t else missed t)
    (admits : ∀ t, missed t → Ends (fun n => p.canInsert n t r)
      fun a => if a.1 then room a.2 else Q false a.2)
    (evicts : ∀ u, room u → p.cacheSize < p.occupiedByte u + r.objSize →
      Ends (fun n => p.evict n u r) fun v => room v ∧ size v < size u)
    (inserts : ∀ u, room u → p.occupiedByte u + r.objSize ≤ p.cacheSize →
      ∃ v, p.insert u r = .ok v ∧ Q false v) :
    Ends (fun n => cacheGetBase p n s r) fun a => Q a.1 a.2 := by
  obtain ⟨hit, t, found, after⟩ := finds
  simp only [cacheGetBase, found]
  cases hit with
  | true => exact Ends.const after
  | false =>
    refine (admits t after).bind (g := fun n a => if !a.1 then pure (false, a.2) else do
      let s ← loop (makeRoom p n r) n a.2
      let s ← p.insert s r
      return (false, s)) ?_
    rintro ⟨admitted, u⟩ decided
    cases admitted with
    | false => exact Ends.const decided
    | true =>
      refine (makeRoom_ends room size evicts decided).bind (g := fun _ s => do
        let s ← p.insert s r
        return (false, s)) ?_
      rintro v ⟨hv, fits⟩
      obtain ⟨w, inserted, final⟩ := inserts v hv fits
      rw [inserted]
      exact Ends.const final

theorem makeRoom_keeps {n : Nat} (I : σ → Prop)
    (evicts : ∀ u v, I u → p.cacheSize < p.occupiedByte u + r.objSize → p.evict n u r = .ok v → I v)
    {t : σ} (start : I s) (run : loop (makeRoom p n r) fuel s = .ok t) :
    I t ∧ p.occupiedByte t + r.objSize ≤ p.cacheSize := by
  refine loop_invariant _ I (fun t => I t ∧ p.occupiedByte t + r.objSize ≤ p.cacheSize) ?_ ?_ fuel s
    start t run
  · intro u v hu round
    by_cases full : p.cacheSize < p.occupiedByte u + r.objSize
    · rw [makeRoom, if_pos full] at round
      obtain ⟨w, evicted, same⟩ := map_eq_ok.mp round
      cases same
      exact evicts u v hu full evicted
    · rw [makeRoom, if_neg full] at round
      cases round
  · intro u v hu round
    by_cases full : p.cacheSize < p.occupiedByte u + r.objSize
    · rw [makeRoom, if_pos full] at round
      obtain ⟨w, evicted, impossible⟩ := map_eq_ok.mp round
      cases impossible
    · rw [makeRoom, if_neg full] at round
      cases round
      exact ⟨hu, Int.not_lt.mp full⟩

theorem cacheGetBase_keeps {Q : Bool → σ → Prop} (missed room : σ → Prop)
    (finds : ∀ hit t, p.find (p.tick s) r = .ok (hit, t) → if hit then Q true t else missed t)
    (admits : ∀ t a, missed t → p.canInsert fuel t r = .ok a → if a.1 then room a.2 else Q false a.2)
    (evicts : ∀ u v, room u → p.cacheSize < p.occupiedByte u + r.objSize →
      p.evict fuel u r = .ok v → room v)
    (inserts : ∀ u v, room u → p.occupiedByte u + r.objSize ≤ p.cacheSize →
      p.insert u r = .ok v → Q false v)
    {a : Bool × σ} (run : cacheGetBase p fuel s r = .ok a) : Q a.1 a.2 := by
  obtain ⟨⟨hit, t⟩, found, run⟩ := bind_eq_ok.mp run
  have afterFind := finds hit t found
  cases hit with
  | true =>
    cases run
    exact afterFind
  | false =>
    obtain ⟨⟨admitted, u⟩, decided, run⟩ := bind_eq_ok.mp run
    have afterAdmission := admits t (admitted, u) afterFind decided
    cases admitted with
    | false =>
      cases run
      exact afterAdmission
    | true =>
      obtain ⟨v, made, run⟩ := bind_eq_ok.mp run
      obtain ⟨w, inserted, same⟩ := bind_eq_ok.mp run
      cases same
      obtain ⟨kept, fits⟩ := makeRoom_keeps room evicts afterAdmission made
      exact inserts v w kept fits inserted

structure Keeps (p : Policy σ ε) (I : σ → Prop) : Prop where
  tick : ∀ {s}, I s → I (p.tick s)
  find : ∀ {s r a}, I s → p.find s r = .ok a → I a.2
  canInsert : ∀ {n s r a}, I s → p.canInsert n s r = .ok a → I a.2
  evict : ∀ {n s r t}, I s → p.evict n s r = .ok t → I t
  insert : ∀ {s r t}, I s → p.insert s r = .ok t → I t

theorem Keeps.serves {I : σ → Prop} (keeps : Keeps p I) {a : Bool × σ} (start : I s)
    (run : cacheGetBase p fuel s r = .ok a) : I a.2 := by
  refine cacheGetBase_keeps (Q := fun _ => I) I I ?_ ?_ ?_ ?_ run
  · intro hit t found
    have kept := keeps.find (keeps.tick start) found
    cases hit <;> exact kept
  · rintro t ⟨admitted, u⟩ missed decided
    have kept := keeps.canInsert missed decided
    cases admitted <;> exact kept
  · exact fun u v kept _ evicted => keeps.evict kept evicted
  · exact fun u v kept _ inserted => keeps.insert kept inserted

theorem cacheGetBase_mono (admits : ∀ s, FuelMono fun n => p.canInsert n s r)
    (evicts : ∀ s, FuelMono fun n => p.evict n s r) (s : σ) :
    FuelMono fun n => cacheGetBase p n s r := by
  have rooms : ∀ s, FuelMono fun n => makeRoom p n r s := by
    intro s
    exact FuelMono.ite _ ((evicts s).map _) (.const _)
  refine FuelMono.bind (.const _) ?_
  rintro ⟨hit, t⟩
  refine FuelMono.ite _ (.const _) ((admits t).bind ?_)
  rintro ⟨admitted, u⟩
  exact FuelMono.ite _ (.const _) ((loop_mono _ rooms u).bind fun _ => .const _)

/-! ## Runs -/

inductive Requested (p : Policy σ ε) (allowed : Request → Prop) : σ → σ → Prop where
  | get {s t : σ} {hit : Bool} (r : Request) (fair : allowed r) (served : Serves p s r hit t) :
      Requested p allowed s t

theorem Keeps.requested {allowed : Request → Prop} {I : σ → Prop} (keeps : Keeps p I) {origin : σ}
    (initially : I origin) (history : Reachable (Requested p allowed) origin s) : I s := by
  refine history.invariant I initially ?_
  rintro s t hs ⟨r, _, N, served⟩
  exact keeps.serves hs (served N le_rfl)

def serveAll (p : Policy σ ε) (fuel : Nat) : σ → List Request → Except (Stop ε) σ
  | s, [] => .ok s
  | s, r :: rs => do
    let a ← cacheGetBase p fuel s r
    serveAll p fuel a.2 rs

theorem serveAll_reachable {allowed : Request → Prop} {origin t : σ} {rs : List Request}
    (mono : ∀ s r, FuelMono fun n => cacheGetBase p n s r) (fair : ∀ r ∈ rs, allowed r)
    (history : Reachable (Requested p allowed) origin s) (run : serveAll p fuel s rs = .ok t) :
    Reachable (Requested p allowed) origin t := by
  induction rs generalizing s with
  | nil =>
    cases run
    exact history
  | cons r rs ih =>
    obtain ⟨⟨hit, u⟩, first, rest⟩ := bind_eq_ok.mp run
    have served : Serves p s r hit u := (mono s r).yields first
    exact ih (fun r' member => fair r' (List.mem_cons_of_mem r member))
      (history.next (.get r (fair r List.mem_cons_self) served)) rest

end CacheGet
