import CacheEviction.CacheGet

/-!
# Calls of the user, and what a run remembers of them

A user of a cache calls `get` and `remove`. A run is a sequence of such calls, each
of a kind that is allowed in the state in which it is made.

What a policy is for is often said in terms of what has happened before. A recorder
keeps such facts beside the state of the policy, which does not see them, so a recorded
run takes the decisions that the run takes.
-/
namespace RecordedCalls

open FuelLoops FifoCache CacheGet StepTraces WeightedLists Function

variable {σ ε H : Type}
variable {p : Policy σ ε} {r : Request} {s t : σ} {id : Nat}

/-- One call: a request that is served, or a removal that returns. -/
inductive Called (p : Policy σ ε) (remove : σ → Nat → Except (Stop ε) (Bool × σ))
    (mayGet : σ → Request → Prop) (mayRemove : σ → Nat → Prop) : σ → σ → Prop where
  | get {s t : σ} {hit : Bool} (r : Request) (allowed : mayGet s r) (served : Serves p s r hit t) :
      Called p remove mayGet mayRemove s t
  | remove {s t : σ} {found : Bool} (id : Nat) (allowed : mayRemove s id)
      (removed : remove s id = .ok (found, t)) : Called p remove mayGet mayRemove s t

structure Recorder (σ H : Type) where
  /-- After a lookup, with its answer. -/
  found : σ → Request → Bool → H → H
  /-- At an eviction, with the states before and after it. -/
  evicted : σ → σ → H → H
  /-- After an insertion. -/
  inserted : σ → Request → H → H
  /-- After a removal. -/
  removed : σ → Nat → H → H

def Recorder.policy (w : Recorder σ H) (p : Policy σ ε) : Policy (σ × H) ε where
  cacheSize := p.cacheSize
  tick a := (p.tick a.1, a.2)
  find a r := (p.find a.1 r).map fun b => (b.1, b.2, w.found b.2 r b.1 a.2)
  canInsert n a r := (p.canInsert n a.1 r).map fun b => (b.1, b.2, a.2)
  occupiedByte a := p.occupiedByte a.1
  evict n a r := (p.evict n a.1 r).map fun t => (t, w.evicted a.1 t a.2)
  insert a r := (p.insert a.1 r).map fun t => (t, w.inserted t r a.2)

def Recorder.remove (w : Recorder σ H) (remove : σ → Nat → Except (Stop ε) (Bool × σ)) (a : σ × H)
    (id : Nat) : Except (Stop ε) (Bool × (σ × H)) :=
  (remove a.1 id).map fun b => (b.1, b.2, w.removed b.2 id a.2)

theorem Recorder.get_mono (w : Recorder σ H) (admits : ∀ s, FuelMono fun n => p.canInsert n s r)
    (evicts : ∀ s, FuelMono fun n => p.evict n s r) (a : σ × H) :
    FuelMono fun n => cacheGetBase (w.policy p) n a r :=
  cacheGetBase_mono (p := w.policy p) (fun b => (admits b.1).map _) (fun b => (evicts b.1).map _) a

/-! ## What a recorder leaves alone -/

/-- The results are the same but for what was written down. -/
def Unrecorded (a : Bool × (σ × H)) (b : Bool × σ) : Prop := a.1 = b.1 ∧ a.2.1 = b.2

theorem agree_map {α β : Type} {E : β → α → Prop} (x : Except (Stop ε) α) {f : α → β}
    (h : ∀ a, E (f a) a) : Agree E (x.map f) x := by
  cases x with
  | error e => rfl
  | ok a => exact h a

theorem Recorder.makeRoom_agree (w : Recorder σ H) (p : Policy σ ε) (n : Nat) (r : Request) (a : σ × H) :
    Agree (fun b t => b.1 = t) (loop (makeRoom (w.policy p) n r) n a) (loop (makeRoom p n r) n a.1) := by
  refine loop_agree (fun b t => b.1 = t) _ ?_ n a a.1 rfl
  rintro b _ rfl
  by_cases full : p.cacheSize < p.occupiedByte b.1 + r.objSize
  · have recorded : (w.policy p).cacheSize < (w.policy p).occupiedByte b + r.objSize := full
    simp only [makeRoom, if_pos full, if_pos recorded]
    simp only [Recorder.policy]
    cases p.evict n b.1 r with
    | error e => rfl
    | ok t => rfl
  · have recorded : ¬ (w.policy p).cacheSize < (w.policy p).occupiedByte b + r.objSize := full
    simp only [makeRoom, if_neg full, if_neg recorded]
    rfl

theorem Recorder.get_agree (w : Recorder σ H) (p : Policy σ ε) (n : Nat) (a : σ × H) (r : Request) :
    Agree Unrecorded (cacheGetBase (w.policy p) n a r) (cacheGetBase p n a.1 r) := by
  refine Agree.bind (agree_map (E := Unrecorded) _ fun _ => ⟨rfl, rfl⟩) ?_
  rintro ⟨hit, b⟩ ⟨_, t⟩ ⟨rfl, rfl⟩
  cases hit with
  | true => exact ⟨rfl, rfl⟩
  | false =>
    refine Agree.bind (agree_map (E := Unrecorded) _ fun _ => ⟨rfl, rfl⟩) ?_
    rintro ⟨admitted, b⟩ ⟨_, t⟩ ⟨rfl, rfl⟩
    cases admitted with
    | false => exact ⟨rfl, rfl⟩
    | true =>
      refine Agree.bind (w.makeRoom_agree p n r b) ?_
      rintro b _ rfl
      refine Agree.bind (agree_map (E := fun b t => b.1 = t) _ fun _ => rfl) ?_
      rintro b _ rfl
      exact ⟨rfl, rfl⟩

theorem Recorder.forget (w : Recorder σ H) {a b : σ × H} {hit : Bool}
    (served : Serves (w.policy p) a r hit b) : Serves p a.1 r hit b.1 := by
  obtain ⟨N, run⟩ := served
  refine ⟨N, fun n enough => ?_⟩
  obtain ⟨⟨hit', t⟩, plain, same, rfl⟩ := (w.get_agree p n a r).ok (run n enough)
  cases same
  exact plain

theorem Recorder.follow (w : Recorder σ H) {hit : Bool}
    (mono : ∀ a, FuelMono fun n => cacheGetBase (w.policy p) n a r) (served : Serves p s r hit t)
    (h : H) : ∃ h', Serves (w.policy p) (s, h) r hit (t, h') := by
  obtain ⟨N, run⟩ := served
  have plain : cacheGetBase p N s r = .ok (hit, t) := run N le_rfl
  have agree := w.get_agree p N (s, h) r
  rw [plain] at agree
  cases recorded : cacheGetBase (w.policy p) N (s, h) r with
  | error e =>
    rw [recorded] at agree
    exact agree.elim
  | ok b =>
    rw [recorded] at agree
    obtain ⟨hit', u, h'⟩ := b
    obtain ⟨rfl, rfl⟩ := agree
    exact ⟨h', (mono (s, h)).yields recorded⟩

/-! ## Runs that are written down -/

inductive Call where
  | get (r : Request)
  | remove (objId : Nat)
  deriving DecidableEq

/-- Make the calls one after the other, as long as each of them is allowed. -/
def callAll (p : Policy σ ε) (remove : σ → Nat → Except (Stop ε) (Bool × σ))
    (okGet : σ → Request → Bool) (okRemove : σ → Nat → Bool) (fuel : Nat) : σ → List Call → Option σ
  | s, [] => some s
  | s, .get r :: calls =>
    if okGet s r then
      match cacheGetBase p fuel s r with
      | .ok a => callAll p remove okGet okRemove fuel a.2 calls
      | .error _ => none
    else none
  | s, .remove id :: calls =>
    if okRemove s id then
      match remove s id with
      | .ok a => callAll p remove okGet okRemove fuel a.2 calls
      | .error _ => none
    else none

theorem callAll_reachable {remove : σ → Nat → Except (Stop ε) (Bool × σ)}
    {mayGet : σ → Request → Prop} {mayRemove : σ → Nat → Prop} {okGet : σ → Request → Bool}
    {okRemove : σ → Nat → Bool} (mono : ∀ s r, FuelMono fun n => cacheGetBase p n s r)
    (fairGet : ∀ s r, okGet s r = true → mayGet s r)
    (fairRemove : ∀ s id, okRemove s id = true → mayRemove s id) {fuel : Nat} {calls : List Call}
    (run : callAll p remove okGet okRemove fuel s calls = some t) :
    Reachable (Called p remove mayGet mayRemove) s t := by
  induction calls generalizing s with
  | nil =>
    cases run
    exact .refl
  | cons call calls ih =>
    cases call with
    | get r =>
      simp only [callAll] at run
      split at run
      · rename_i ok
        split at run
        · rename_i a first
          have served : Serves p s r a.1 a.2 := (mono s r).yields first
          exact Reachable.trans (.next .refl (.get r (fairGet s r ok) served)) (ih run)
        · cases run
      · cases run
    | remove id =>
      simp only [callAll] at run
      split at run
      · rename_i ok
        split at run
        · rename_i a removed
          exact Reachable.trans (.next .refl (.remove id (fairRemove s id ok) removed)) (ih run)
        · cases run
      · cases run

/-! ## Where each object stands -/

/-- An eviction: the victim, and where every object stood when it was chosen. -/
structure Eviction (R : Type) where
  victim : Nat
  standings : Nat → Option R

/-- The victim was there, and nothing that was there came before it. -/
def Eviction.Least {R : Type} (le : R → R → Prop) (e : Eviction R) : Prop :=
  ∃ own, e.standings e.victim = some own ∧ ∀ id other, e.standings id = some other → le own other

/-- Where the objects stand now, and the evictions so far, the latest first. -/
structure Ledger (R : Type) where
  standings : Nat → Option R
  evictions : List (Eviction R)

namespace Ledger

variable {R : Type}

def empty : Ledger R := ⟨fun _ => none, []⟩

def enter (l : Ledger R) (id : Nat) (standing : R) : Ledger R :=
  { l with standings := Function.update l.standings id (some standing) }

def leave (l : Ledger R) (id : Nat) : Ledger R :=
  { l with standings := Function.update l.standings id none }

def evict (l : Ledger R) (id : Nat) : Ledger R where
  standings := Function.update l.standings id none
  evictions := ⟨id, l.standings⟩ :: l.evictions

end Ledger

section Standings

variable {R : Type} {standings : Nat → Option R} {id i : Nat} {standing other : R}

theorem of_enter (found : update standings id (some standing) i = some other) :
    i = id ∧ other = standing ∨ standings i = some other := by
  rw [update_apply] at found
  split at found
  · rename_i same
    exact .inl ⟨same, (Option.some.inj found).symm⟩
  · exact .inr found

theorem of_leave (found : update standings id none i = some other) :
    standings i = some other := by
  rw [update_apply] at found
  split at found
  · cases found
  · exact found

end Standings

/-- The table holds the objects of the ledger, and the two agree on what they know of an
object. -/
def Stocked {M R K : Type} (ofObj : CacheObj M → K) (ofStanding : R → K) (q : Fifo M)
    (standings : Nat → Option R) : Prop :=
  ∀ id, (q.find id).map ofObj = (standings id).map ofStanding

namespace Stocked

variable {M R K : Type} {ofObj : CacheObj M → K} {ofStanding : R → K} {q t : Fifo M}
  {standings : Nat → Option R}

theorem update {i : Nat} {v : Option (CacheObj M)} {w : Option R}
    (stocked : Stocked ofObj ofStanding q standings) (changed : t.find = update q.find i v)
    (same : v.map ofObj = w.map ofStanding) :
    Stocked ofObj ofStanding t (update standings i w) := by
  intro id
  rw [changed]
  by_cases own : id = i
  · rw [own, update_self, update_self]
    exact same
  · rw [update_of_ne own, update_of_ne own]
    exact stocked id

theorem isSome (stocked : Stocked ofObj ofStanding q standings) (id : Nat) :
    (q.find id).isSome = (standings id).isSome := by
  have same := congrArg Option.isSome (stocked id)
  rwa [Option.isSome_map, Option.isSome_map] at same

theorem absent (stocked : Stocked ofObj ofStanding q standings) (missed : q.find id = none) :
    standings id = none := by
  have same := stocked.isSome id
  rw [missed] at same
  exact Option.isNone_iff_eq_none.mp (by simpa using same.symm)

theorem known (stocked : Stocked ofObj ofStanding q standings) {obj : CacheObj M}
    (found : q.find id = some obj) :
    ∃ standing, standings id = some standing ∧ ofStanding standing = ofObj obj := by
  have same := stocked id
  rw [found, Option.map_some] at same
  exact Option.map_eq_some_iff.mp same.symm

end Stocked

def departed {M : Type} (before after : Fifo M) : Option Nat :=
  (before.objs.find? fun o => (after.find o.objId).isNone).map CacheObj.objId

theorem departed_remove {M : Type} {q : Fifo M} {o : CacheObj M} (distinct : q.Distinct)
    (found : q.find id = some o) : departed q (q.remove id) = some id := by
  have present := (q.find_isSome_iff id).mp (by rw [found]; rfl)
  have gone : ∀ a ∈ q.objs, ((q.remove id).find a.objId).isNone = true ↔ a.objId = id := by
    intro a member
    have kept : 0 < q.held a.objId := (copies_pos_iff _ _ _).mpr (List.mem_map_of_mem member)
    have once := distinct a.objId
    rw [Option.isNone_iff_eq_none, Fifo.find_none_iff_held, Fifo.held_remove]
    by_cases same : id = a.objId
    · rw [if_pos ⟨same, present⟩]
      omega
    · rw [if_neg fun both => same both.1]
      omega
  have some_gone : ∃ a, q.objs.find? (fun a => ((q.remove id).find a.objId).isNone) = some a := by
    rw [← Option.isSome_iff_exists, List.find?_isSome]
    exact ⟨o, Fifo.find_mem found, (gone o (Fifo.find_mem found)).mpr (Fifo.find_objId found)⟩
  obtain ⟨a, first⟩ := some_gone
  have left := List.find?_some first
  have own := (gone a (List.mem_of_find?_eq_some first)).mp (by simpa using left)
  simp only [departed, first, Option.map_some, own]

/-- Enter an eviction: the victim is whatever object has left the table. -/
def Ledger.depart {M R : Type} (l : Ledger R) (before after : Fifo M) : Ledger R :=
  ((departed before after).map l.evict).getD l

theorem Ledger.depart_remove {M R : Type} (l : Ledger R) {q t : Fifo M} (distinct : q.Distinct)
    (cached : (q.find id).isSome = true) (removed : t = q.remove id) :
    l.depart q t = l.evict id := by
  obtain ⟨o, found⟩ := Option.isSome_iff_exists.mp cached
  rw [depart, removed, departed_remove distinct found, Option.map_some, Option.getD_some]

theorem exists_of_full {M : Type} {q : Fifo M} {cacheSize md size : Nat}
    (admitted : size + md ≤ cacheSize)
    (full : (cacheSize : Int) - md < q.occupiedByte + md * q.nObj + size) :
    ∃ id, (q.find id).isSome = true := by
  have bytes := q.occupied_eq
  have count := q.nObj_eq
  cases objs : q.objs with
  | nil =>
    rw [objs] at bytes count
    rw [bytes, count] at full
    simp at full
    omega
  | cons o rest =>
    refine ⟨o.objId, ?_⟩
    rw [Fifo.find_of_objs objs]
    rfl

theorem serves_hit (found : p.find (p.tick s) r = .ok (true, t)) : Serves p s r true t := by
  refine ⟨0, fun n _ => ?_⟩
  simp only [cacheGetBase, found]
  rfl

/-! ## Requests of a policy whose admission decides without changing the state -/

theorem serves_of {Q : Bool → σ → Prop} (missed : σ → Prop) (size : σ → Nat) (admitted : Bool)
    (admits : ∀ n t, missed t → p.canInsert n t r = .ok (admitted, t))
    (finds : ∃ hit t, p.find (p.tick s) r = .ok (hit, t) ∧ if hit then Q true t else missed t)
    (refuses : ∀ t, missed t → admitted = false → Q false t)
    (evicts : ∀ u, missed u → admitted = true → p.cacheSize < p.occupiedByte u + r.objSize →
      ∃ v, (∀ n, p.evict n u r = .ok v) ∧ missed v ∧ size v < size u)
    (inserts : ∀ u, missed u → admitted = true → p.occupiedByte u + r.objSize ≤ p.cacheSize →
      ∃ v, p.insert u r = .ok v ∧ Q false v) :
    ∃ hit t, Serves p s r hit t ∧ Q hit t := by
  have ends : Ends (fun n => cacheGetBase p n s r) fun a => Q a.1 a.2 := by
    refine cacheGetBase_ends missed (fun u => missed u ∧ admitted = true) size finds ?_ ?_ ?_
    · intro t kept
      simp only [admits _ t kept]
      refine Ends.const ?_
      cases admitted with
      | true => exact ⟨kept, rfl⟩
      | false => exact refuses t kept rfl
    · rintro u ⟨kept, yes⟩ full
      obtain ⟨v, run, kept', less⟩ := evicts u kept yes full
      simp only [run]
      exact Ends.const ⟨⟨kept', yes⟩, less⟩
    · rintro u ⟨kept, yes⟩ fits
      exact inserts u kept yes fits
  obtain ⟨⟨hit, t⟩, served, after⟩ := ends
  exact ⟨hit, t, served, after⟩

end RecordedCalls
