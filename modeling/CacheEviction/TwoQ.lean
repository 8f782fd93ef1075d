import CacheEviction.Binary64
import CacheEviction.LruRuns
import CacheEviction.S3FifoRuns

/-!
# 2Q

`TwoQ.c` over a FIFO queue Ain, an LRU queue Am and a FIFO queue Aout of ids that have left
Ain. An object enters Ain without a test of its budget. If Ain is within the budget, room is
made in Am, whether or not there is anything in it.

Object metadata has size 0.
-/
namespace TwoQ

open FuelLoops FifoCache CacheGet StepTraces Binary64 LruRuns
open S3Fifo (fifoGet fifoEvict fifoGet_ends fifoEvict_ok length_remove_oldest)

/-- What `TwoQ_init` is given. -/
structure Params where
  cacheSize : Nat
  ainSizeRatio : ℚ
  aoutSizeRatio : ℚ
  ain_pos : 0 < ainSizeRatio
  ain_lt : ainSizeRatio < 1
  aout_nonneg : 0 ≤ aoutSizeRatio

namespace Params

/-- A product in `double`, cut to an integer. -/
def share (b : Params) (ratio : ℚ) : Nat := ⌊double (double b.cacheSize * ratio)⌋.toNat

def ainCacheSize (b : Params) : Nat := b.share b.ainSizeRatio

def aoutCacheSize (b : Params) : Nat := b.share b.aoutSizeRatio

/-- The difference is stored as a `uint64_t`. -/
def amCacheSize (b : Params) : Nat := (((b.cacheSize : Int) - b.ainCacheSize) % 2 ^ 64).toNat

end Params

structure State where
  ain : Fifo Unit
  aout : Fifo Unit
  am : Fifo Unit
  hitOnGhost : Bool

def init : State := ⟨.empty, .empty, .empty, false⟩

/-- `TwoQ_find` with `update_cache` set. -/
def twoQFind (s : State) (r : Request) : Bool × State :=
  if (s.ain.find r.objId).isSome then (true, { s with hitOnGhost := false })
  else
    let (hit, am) := lruFind s.am r.objId
    (hit, { s with
      aout := s.aout.remove r.objId
      hitOnGhost := (s.aout.find r.objId).isSome
      am := am })

def twoQInsert (b : Params) (fuel : Nat) (s : State) (r : Request) : Except (Stop Fault) State :=
  if s.hitOnGhost then do
    let (_, am) ← lruGet b.amCacheSize fuel s.am r
    return { s with hitOnGhost := false, am := am }
  else .ok { s with ain := s.ain.insert r () }

def twoQEvict (b : Params) (fuel : Nat) (s : State) : Except (Stop Fault) State :=
  if b.ainCacheSize < s.ain.occupiedByte then
    match s.ain.toEvict with
    | none => .error (.fault .assertFailed)
    | some obj => do
      let aout ← fifoGet b.aoutCacheSize fuel s.aout obj.toRequest
      let ain ← fifoEvict s.ain
      return { s with aout := aout, ain := ain }
  else do
    let am ← lruEvict s.am
    return { s with am := am }

def State.occupiedByte (s : State) : Int := s.ain.occupiedByte + s.am.occupiedByte

def makeRoom (b : Params) (fuel : Nat) (r : Request) (s : State) : Except (Stop Fault) (Round State State) :=
  if (b.cacheSize : Int) < s.occupiedByte + r.objSize then (twoQEvict b fuel s).map .again else .ok (.done s)

/-- `TwoQ_get`: `cache_get_base`, with `TwoQ_can_insert`. -/
def twoQGet (b : Params) (fuel : Nat) (s : State) (r : Request) : Except (Stop Fault) (Bool × State) := do
  let (hit, s) := twoQFind s r
  if hit then return (true, s)
  if b.ainCacheSize < r.objSize then return (false, s)
  let s ← loop (makeRoom b fuel r) fuel s
  let s ← twoQInsert b fuel s r
  return (false, s)

inductive Step (b : Params) : State → State → Prop where
  | get {s t : State} {hit : Bool} (r : Request) (positive : 1 ≤ r.objSize)
      (served : Yields (fun fuel => twoQGet b fuel s r) (.ok (hit, t))) : Step b s t

def State.held (s : State) (id : Nat) : Int := s.ain.held id + s.am.held id + s.aout.held id

/-- Each id is in one queue at most, and the data fits. -/
structure Sound (b : Params) (s : State) : Prop where
  once : ∀ id, s.held id ≤ 1
  fits : s.occupiedByte ≤ b.cacheSize

variable {b : Params} {s t : State} {r : Request}

theorem init_sound (b : Params) : Sound b init := ⟨fun id => by simp [State.held, init], Int.natCast_nonneg _⟩

/-! ## Am -/

theorem occupied_promote (q : Fifo Unit) (id : Nat) : (q.promote id).occupiedByte = q.occupiedByte := by
  rw [(q.promote id).occupied_eq, q.occupied_eq]
  exact Fifo.total_promote CacheObj.bytes q id

theorem occupied_remove_oldest {q : Fifo Unit} {o : CacheObj Unit} (tail : q.toEvict = some o) :
    (q.remove o.objId).occupiedByte = q.occupiedByte - o.bytes := by
  rw [(q.remove o.objId).occupied_eq, q.occupied_eq]
  exact Fifo.total_remove_oldest CacheObj.bytes tail

theorem lruEvict_ok {q : Fifo Unit} (occupied : 0 < q.occupiedByte) : ∃ t, lruEvict q = .ok t ∧
    (∀ id, t.held id ≤ q.held id) ∧ t.occupiedByte ≤ q.occupiedByte ∧ t.objs.length < q.objs.length := by
  obtain ⟨o, tail⟩ := Fifo.toEvict_of_occupied occupied
  have shorter := length_remove_oldest tail
  have lighter := occupied_remove_oldest tail
  have bytes := o.bytes_nonneg
  refine ⟨q.remove o.objId, by rw [lruEvict, tail], fun id => ?_, by omega, by omega⟩
  rw [Fifo.held_remove_oldest tail]
  split <;> omega

theorem lruGet_ends (cacheSize : Nat) (q : Fifo Unit) (r : Request) :
    Ends (fun n => lruGet cacheSize n q r) fun a =>
      (∀ id, a.2.held id ≤ q.held id + if r.objId = id then 1 else 0) ∧
        a.2.occupiedByte ≤ q.occupiedByte + r.objSize := by
  have more : ∀ id, q.held id ≤ q.held id + if r.objId = id then 1 else 0 := by
    intro id
    split <;> omega
  refine cacheGetBase_ends (Q := fun _ t => (∀ id, t.held id ≤ q.held id + if r.objId = id then 1 else 0) ∧
      t.occupiedByte ≤ q.occupiedByte + r.objSize) (· = q)
    (fun u => r.objSize ≤ cacheSize ∧ (∀ id, u.held id ≤ q.held id) ∧ u.occupiedByte ≤ q.occupiedByte)
    (fun u => u.objs.length) ?_ ?_ ?_ ?_
  · refine ⟨_, _, rfl, ?_⟩
    cases found : q.find r.objId with
    | none => simp [lruPolicy, lruFind, found, Fifo.promote_of_absent found]
    | some o =>
      simp only [lruPolicy, lruFind, id, found, Option.isSome_some, if_true, Fifo.held_promote, occupied_promote]
      exact ⟨more, by omega⟩
  · rintro u rfl
    refine Ends.const ?_
    by_cases small : r.objSize ≤ cacheSize
    · simp [small]
    · simp only [small, decide_false, Bool.false_eq_true, if_false]
      exact ⟨more, by omega⟩
  · rintro u ⟨small, fewer, lighter⟩ full
    have occupied : 0 < u.occupiedByte := by
      simp only [lruPolicy] at full
      omega
    obtain ⟨t, evicted, held, bytes, shorter⟩ := lruEvict_ok occupied
    refine ⟨t, .of_eq fun _ => evicted, ⟨small, fun id => (held id).trans (fewer id), by omega⟩, shorter⟩
  · rintro u ⟨-, fewer, lighter⟩ -
    have bytes := createCacheObj_bytes_le r ()
    refine ⟨_, rfl, fun id => ?_, ?_⟩
    · have before := fewer id
      rw [Fifo.held_insert]
      omega
    · rw [Fifo.occupied_insert]
      omega

/-! ## Requests -/

structure Missed (b : Params) (r : Request) (s : State) : Prop extends Sound b s where
  absent : s.held r.objId = 0

theorem State.held_nonneg (s : State) (id : Nat) : 0 ≤ s.held id := by
  have ain := s.ain.held_nonneg id
  have am := s.am.held_nonneg id
  have aout := s.aout.held_nonneg id
  rw [State.held]
  omega

theorem Missed.of_le (missed : Missed b r s) (fewer : ∀ id, t.held id ≤ s.held id)
    (fits : t.occupiedByte ≤ s.occupiedByte) : Missed b r t where
  once id := (fewer id).trans (missed.once id)
  fits := fits.trans missed.fits
  absent := by
    have less := fewer r.objId
    have nonneg := t.held_nonneg r.objId
    have absent := missed.absent
    omega

theorem twoQFind_sound (sound : Sound b s) (r : Request) :
    Sound b (twoQFind s r).2 ∧ ((twoQFind s r).1 = false → Missed b r (twoQFind s r).2) := by
  rw [twoQFind]
  by_cases inside : (s.ain.find r.objId).isSome = true
  · rw [if_pos inside]
    exact ⟨⟨sound.once, sound.fits⟩, fun hit => nomatch hit⟩
  · rw [if_neg inside]
    have removed := s.aout.held_remove r.objId
    have kept : Sound b ⟨s.ain, s.aout.remove r.objId, s.am.promote r.objId, (s.aout.find r.objId).isSome⟩ := by
      refine ⟨fun id => ?_, ?_⟩
      · have once := sound.once id
        simp only [State.held, Fifo.held_promote, removed id] at once ⊢
        split <;> omega
      · have fits := sound.fits
        simp only [State.occupiedByte, occupied_promote] at fits ⊢
        exact fits
    refine ⟨kept, fun miss => ⟨kept, ?_⟩⟩
    have once := sound.once r.objId
    have noAin : s.ain.held r.objId = 0 := by
      rw [← Fifo.find_none_iff_held]
      simpa using inside
    have noAm : s.am.held r.objId = 0 := by
      rw [← Fifo.find_none_iff_held]
      simpa [lruFind] using miss
    have nonneg := s.aout.held_nonneg r.objId
    simp only [State.held, lruFind, Fifo.held_promote, removed r.objId, true_and] at once ⊢
    split <;> omega

theorem twoQEvict_ends (half : 2 * b.ainCacheSize ≤ b.cacheSize) (missed : Missed b r s)
    (small : r.objSize ≤ b.ainCacheSize) (full : (b.cacheSize : Int) < s.occupiedByte + r.objSize) :
    Ends (fun n => twoQEvict b n s) fun t => Missed b r t ∧
      t.ain.objs.length + t.am.objs.length < s.ain.objs.length + s.am.objs.length := by
  by_cases exceeds : b.ainCacheSize < s.ain.occupiedByte
  · obtain ⟨o, tail, evicted⟩ := fifoEvict_ok (q := s.ain) (by omega)
    have shorter := length_remove_oldest tail
    have lighter := occupied_remove_oldest tail
    have bytes := o.bytes_nonneg
    simp only [twoQEvict, if_pos exceeds, tail, evicted]
    refine (fifoGet_ends b.aoutCacheSize s.aout o.toRequest).bind (g := fun _ aout =>
      .ok { s with aout := aout, ain := s.ain.remove o.objId }) fun aout held => Ends.const ?_
    refine ⟨missed.of_le (fun id => ?_) ?_, ?_⟩
    · have more := held id
      have same : o.toRequest.objId = o.objId := rfl
      rw [same] at more
      simp only [State.held, Fifo.held_remove_oldest tail]
      omega
    · simp only [State.occupiedByte]
      omega
    · show (s.ain.remove o.objId).objs.length + s.am.objs.length < _
      omega
  · have occupied : 0 < s.am.occupiedByte := by
      simp only [State.occupiedByte] at full
      omega
    obtain ⟨am, evicted, held, lighter, shorter⟩ := lruEvict_ok occupied
    simp only [twoQEvict, if_neg exceeds, evicted]
    refine Ends.const ⟨missed.of_le (fun id => ?_) ?_, ?_⟩
    · have fewer := held id
      simp only [State.held]
      omega
    · simp only [State.occupiedByte]
      omega
    · show s.ain.objs.length + am.objs.length < _
      omega

theorem twoQInsert_ends (missed : Missed b r s) (room : s.occupiedByte + r.objSize ≤ b.cacheSize) :
    Ends (fun n => twoQInsert b n s r) (Sound b) := by
  have absent := missed.absent
  rw [State.occupiedByte] at room
  by_cases ghost : s.hitOnGhost = true
  · simp only [twoQInsert, ghost, if_true]
    refine (lruGet_ends b.amCacheSize s.am r).bind (g := fun _ a =>
      .ok { s with hitOnGhost := false, am := a.2 }) ?_
    rintro ⟨hit, am⟩ ⟨held, bytes⟩
    simp only at held bytes
    refine Ends.const ⟨fun id => ?_, ?_⟩
    · have once := missed.once id
      have more := held id
      by_cases own : r.objId = id
      · subst own
        simp only [State.held, if_true] at absent more ⊢
        omega
      · rw [if_neg own] at more
        simp only [State.held] at once ⊢
        omega
    · simp only [State.occupiedByte]
      omega
  · simp only [twoQInsert, ghost, if_false, Bool.false_eq_true]
    have bytes := createCacheObj_bytes_le r ()
    refine Ends.const ⟨fun id => ?_, ?_⟩
    · have once := missed.once id
      by_cases own : r.objId = id
      · subst own
        simp only [State.held, Fifo.held_insert, if_true] at absent ⊢
        omega
      · simp only [State.held, Fifo.held_insert, if_neg own] at once ⊢
        omega
    · simp only [State.occupiedByte, Fifo.occupied_insert]
      omega

theorem twoQGet_ends (half : 2 * b.ainCacheSize ≤ b.cacheSize) (sound : Sound b s) (r : Request) :
    Ends (fun n => twoQGet b n s r) fun a => Sound b a.2 := by
  obtain ⟨found, missed⟩ := twoQFind_sound sound r
  simp only [twoQGet]
  cases hit : (twoQFind s r).1 with
  | true => exact Ends.const found
  | false =>
    by_cases large : b.ainCacheSize < r.objSize
    · simp only [Bool.false_eq_true, if_false, if_pos large]
      exact Ends.const found
    · simp only [Bool.false_eq_true, if_false, if_neg large]
      have rooms : Ends (fun n => loop (makeRoom b n r) n (twoQFind s r).2) fun t =>
          Missed b r t ∧ t.occupiedByte + r.objSize ≤ b.cacheSize := by
        refine Ends.loop (Missed b r) (fun t => t.ain.objs.length + t.am.objs.length) ?_ (missed hit)
        intro t kept
        by_cases full : (b.cacheSize : Int) < t.occupiedByte + r.objSize
        · simp only [makeRoom, if_pos full]
          exact (twoQEvict_ends half kept (by omega) full).map Round.again fun _ after => after
        · simp only [makeRoom, if_neg full]
          exact Ends.const ⟨kept, by omega⟩
      refine rooms.bind (g := fun n t => do
        let t ← twoQInsert b n t r
        return (false, t)) ?_
      rintro t ⟨kept, room⟩
      exact (twoQInsert_ends kept room).bind (g := fun _ t => return (false, t)) fun t after => Ends.const after

/-! ## A share above one half -/

/-- Ain has `k` bytes and no id from `n` on, and the other queues are empty. -/
structure Filled (k n : Nat) (s : State) : Prop where
  bytes : s.ain.occupiedByte = k
  fresh : ∀ id, n ≤ id → s.ain.held id = 0
  aout : s.aout = .empty
  am : s.am = .empty

theorem init_filled : Filled 0 0 init := ⟨rfl, fun _ _ => rfl, rfl, rfl⟩

theorem Filled.twoQFind_eq {k n : Nat} (filled : Filled k n s) (size : Nat) :
    twoQFind s ⟨n, size⟩ = (false, { s with hitOnGhost := false }) := by
  have absent : s.ain.find n = none := (s.ain.find_none_iff_held n).mpr (filled.fresh n (Nat.le_refl n))
  have nowhere : (Fifo.empty : Fifo Unit).find n = none := rfl
  simp [twoQFind, lruFind, absent, filled.aout, filled.am, nowhere, Fifo.remove_of_absent nowhere,
    Fifo.promote_of_absent nowhere]

theorem Filled.next {k n : Nat} (filled : Filled k n s) (b : Params) (size : Nat) (narrow : size < 2 ^ 32)
    (small : size ≤ b.ainCacheSize) (room : k + size ≤ b.cacheSize) :
    ∃ t, Yields (fun fuel => twoQGet b fuel s ⟨n, size⟩) (.ok (false, t)) ∧ Filled (k + size) (n + 1) t := by
  have occupied : ¬(b.cacheSize : Int) < { s with hitOnGhost := false }.occupiedByte + size := by
    simp only [State.occupiedByte, filled.bytes, filled.am, Fifo.empty]
    omega
  have stored : (createCacheObj ⟨n, size⟩ ()).bytes = (size : Int) := by
    simp only [createCacheObj, CacheObj.bytes, UInt32.toNat_ofNat', Nat.mod_eq_of_lt narrow]
  refine ⟨{ s with hitOnGhost := false, ain := s.ain.insert ⟨n, size⟩ () }, ?_, ?_, fun id later => ?_,
    filled.aout, filled.am⟩
  · simp only [twoQGet, filled.twoQFind_eq, Bool.false_eq_true, if_false, if_neg (Nat.not_lt.mpr small)]
    refine Yields.bind (a := { s with hitOnGhost := false }) (.succ (.of_eq fun fuel => loop_done ?_ fuel))
      (.of_eq fun _ => rfl)
    rw [makeRoom, if_neg occupied]
  · rw [Fifo.occupied_insert, filled.bytes, stored]
    rfl
  · rw [Fifo.held_insert, if_neg (show n ≠ id by omega), filled.fresh id (by omega)]
    rfl

theorem Filled.stuck {k n size : Nat} (filled : Filled k n s) (within : k ≤ b.ainCacheSize)
    (small : size ≤ b.ainCacheSize) (full : b.cacheSize < k + size) :
    Yields (fun fuel => twoQGet b fuel s ⟨n, size⟩) (.error (.fault .nullTail)) := by
  have occupied : (b.cacheSize : Int) < { s with hitOnGhost := false }.occupiedByte + size := by
    simp only [State.occupiedByte, filled.bytes, filled.am, Fifo.empty]
    omega
  have under : ¬(b.ainCacheSize : Int) < s.ain.occupiedByte := by
    rw [filled.bytes]
    omega
  have empty : lruEvict s.am = .error (.fault .nullTail) := by rw [filled.am]; rfl
  simp only [twoQGet, filled.twoQFind_eq, Bool.false_eq_true, if_false, if_neg (Nat.not_lt.mpr small)]
  refine Yields.bind_error (g := fun n' t => do
    let t ← twoQInsert b n' t ⟨n, size⟩
    return (false, t)) (.succ (.of_eq fun fuel => loop_error ?_ fuel))
  rw [makeRoom, if_pos occupied, twoQEvict, if_neg under, empty]
  rfl

theorem filled_reachable (b : Params) {k : Nat} (within : k ≤ b.ainCacheSize) (fits : k ≤ b.cacheSize) :
    ∃ s, Reachable (Step b) init s ∧ Filled k k s := by
  induction k with
  | zero => exact ⟨init, .refl, init_filled⟩
  | succ k ih =>
    obtain ⟨s, history, filled⟩ := ih (by omega) (by omega)
    obtain ⟨t, served, after⟩ := filled.next b 1 (by omega) (by omega) fits
    exact ⟨t, history.next (.get _ (Nat.le_refl 1) served), after⟩

theorem share_above_half (above : b.cacheSize < 2 * b.ainCacheSize) :
    ∃ s r, Reachable (Step b) init s ∧ 1 ≤ r.objSize ∧
      Yields (fun fuel => twoQGet b fuel s r) (.error (.fault .nullTail)) := by
  obtain ⟨s, history, filled⟩ := filled_reachable b (k := min b.ainCacheSize b.cacheSize) (by omega) (by omega)
  have positive : 1 ≤ b.ainCacheSize := by omega
  exact ⟨s, ⟨_, b.ainCacheSize⟩, history, positive, filled.stuck (by omega) (by omega) (by omega)⟩

/-- From every state a run reaches, every request is served without an eviction from an empty
queue, no id is in two queues, and Ain and Am fit, exactly if the share of Ain is one half at
most. -/
theorem twoQ_safe_iff (b : Params) :
    (∀ s, Reachable (Step b) init s →
      (∀ r : Request, 1 ≤ r.objSize → ∃ hit t, Yields (fun fuel => twoQGet b fuel s r) (.ok (hit, t))) ∧
        (∀ id, s.held id ≤ 1) ∧ s.occupiedByte ≤ b.cacheSize) ↔
      2 * b.ainCacheSize ≤ b.cacheSize := by
  constructor
  · intro safe
    by_contra above
    obtain ⟨s, r, history, positive, stopped⟩ := share_above_half (b := b) (by omega)
    obtain ⟨hit, t, served⟩ := (safe s history).1 r positive
    cases stopped.unique served
  · intro half s history
    have sound : Sound b s := history.invariant _ (init_sound b) fun u t sound step => by
      obtain ⟨r, -, served⟩ := step
      exact (twoQGet_ends half sound r).result served
    refine ⟨fun r _ => ?_, sound.once, sound.fits⟩
    obtain ⟨⟨hit, t⟩, served, -⟩ := twoQGet_ends half sound r
    exact ⟨hit, t, served⟩

def sevenEighths : Params := ⟨10, 7 / 8, 1 / 2, by decide +kernel, by decide +kernel, by decide +kernel⟩

/-- Ain is within its budget with the first object, and the second needs room in an empty Am. -/
theorem twoQ_evicts_empty : ∃ s, Yields (fun fuel => twoQGet sevenEighths fuel init ⟨0, 8⟩) (.ok (false, s)) ∧
    Yields (fun fuel => twoQGet sevenEighths fuel s ⟨1, 8⟩) (.error (.fault .nullTail)) := by
  have ain : sevenEighths.ainCacheSize = 8 := by decide +kernel
  have size : sevenEighths.cacheSize = 10 := rfl
  obtain ⟨s, served, filled⟩ := init_filled.next sevenEighths 8 (by omega) (by omega) (by omega)
  exact ⟨s, served, filled.stuck (by omega) (by omega) (by omega)⟩

end TwoQ
