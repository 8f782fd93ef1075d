import CacheEviction.Binary64
import CacheEviction.CountingFilter
import CacheEviction.LruCache
import CacheEviction.RecordedCalls

/-!
# W-TinyLFU

`WTinyLFU.c` with a main cache of type LRU or FIFO. A new object enters a small LRU cache,
the window. To make room, the last object of the window is compared with the victim of the
main cache by the frequencies of a counting Bloom filter: the more frequent one replaces the
victim, and the loop goes on; otherwise it is evicted.

One object makes way for one object, whatever their sizes, and nothing looks at the size of
the main cache then. A recorder writes down what is known before each replacement. There is
no object metadata here, and `n_admit_bytes`, which no function reads, is left out.
-/
namespace WTinyLfu

open Binary64 CacheGet CountingFilter FifoCache FuelLoops RecordedCalls StepTraces WeightedLists

/-! ## The code -/

inductive MainCache where
  | lru
  | fifo
  deriving DecidableEq

/-- What `WTinyLFU_init` is given. The two hash values of an object id, and the dimensions
that the filter gets, are parameters. -/
structure Setup where
  cacheSize : Nat
  windowSize : ℚ
  representable : Representable windowSize
  below : windowSize < 1
  mainCacheType : MainCache
  hashes : Nat
  counterNum : Nat
  hash : Nat → UInt32 × UInt32

namespace Setup

/-- The size of the window, `cache_size *= window_size`. -/
def windowBytes (b : Setup) : Nat := ⌊double (double b.cacheSize * b.windowSize)⌋.toNat

def mainBytes (b : Setup) : Nat := b.cacheSize - b.windowBytes

def maxRequestNum (b : Setup) : Nat := 32 * b.mainBytes % 2 ^ 64

end Setup

structure State where
  window : Fifo Unit
  main : Fifo Unit
  cbf : Cbf
  requestCounter : Nat

def wtinylfuInit (b : Setup) : State := ⟨.empty, .empty, init b.hashes b.counterNum, 0⟩

/-- `minimalIncrementCBF_add` for an object id. -/
def count (b : Setup) (s : State) (id : Nat) : State :=
  { s with cbf := add s.cbf (b.hash id).1 (b.hash id).2 }

/-- `minimalIncrementCBF_estimate` for an object id. -/
def frequency (b : Setup) (s : State) (id : Nat) : Int := estimate s.cbf (b.hash id).1 (b.hash id).2

/-- The filter is halved after so many hits in the main cache. -/
def age (b : Setup) (s : State) : State :=
  if b.maxRequestNum ≤ s.requestCounter + 1 then { s with cbf := decay s.cbf, requestCounter := 0 }
  else { s with requestCounter := s.requestCounter + 1 }

/-- The `find` of the main cache, for its effect on the queue. -/
def mainFind (b : Setup) (q : Fifo Unit) (id : Nat) : Fifo Unit :=
  match b.mainCacheType with
  | .lru => q.promote id
  | .fifo => q

/-- `WTinyLFU_find` with `update_cache` set. -/
def wtinylfuFind (b : Setup) (s : State) (r : Request) : Bool × State :=
  let objWindow := (s.window.find r.objId).isSome
  let objMain := (s.main.find r.objId).isSome
  let s := { s with window := s.window.promote r.objId, main := mainFind b s.main r.objId }
  (objWindow || objMain, if objMain then age b (count b s r.objId) else s)

def wtinylfuInsert (b : Setup) (s : State) (r : Request) : State :=
  count b { s with window := s.window.insert r () } r.objId

/-- What a turn of the loop in `WTinyLFU_evict` does: the window victim moves to the main
cache, or replaces the main victim, or is evicted; or the window is empty and the main victim
is evicted. -/
inductive Turn where
  | move (victim : CacheObj Unit)
  | replace (victim mainVictim : CacheObj Unit)
  | drop (victim : CacheObj Unit)
  | evictMain (mainVictim : CacheObj Unit)

def decideTurn (b : Setup) (s : State) : Except (Stop Fault) Turn :=
  if 0 < s.window.occupiedByte then
    match s.window.toEvict with
    | none => .error (.fault .nullTail)
    | some victim =>
      if s.main.occupiedByte + victim.bytes ≤ b.mainBytes then .ok (.move victim)
      else
        match s.main.toEvict with
        | none => .error (.fault .nullTail)
        | some mainVictim =>
          if frequency b s mainVictim.objId < frequency b s victim.objId then
            .ok (.replace victim mainVictim)
          else .ok (.drop victim)
  else
    match s.main.toEvict with
    | none => .error (.fault .nullTail)
    | some mainVictim => .ok (.evictMain mainVictim)

/-- The effects of a turn. The filter counts the window victim in any case. -/
def takeTurn (b : Setup) (s : State) : Turn → Round State State
  | .move victim => .again (count b { s with
      main := s.main.insert victim.toRequest ()
      window := s.window.remove victim.objId } victim.objId)
  | .replace victim mainVictim => .again (count b { s with
      main := (s.main.remove mainVictim.objId).insert victim.toRequest ()
      window := s.window.remove victim.objId } victim.objId)
  | .drop victim => .done (count b { s with window := s.window.remove victim.objId } victim.objId)
  | .evictMain mainVictim => .done { s with main := s.main.remove mainVictim.objId }

def evictTurn (b : Setup) (s : State) : Except (Stop Fault) (Round State State) :=
  (decideTurn b s).map (takeTurn b s)

/-- Each turn that goes on takes an object out of the window, which bounds their number. -/
def wtinylfuEvict (b : Setup) (s : State) : Except (Stop Fault) State :=
  loop (evictTurn b) (s.window.objs.length + 1) s

/-- `WTinyLFU_can_insert`, with `cache_can_insert_default` for the main cache. -/
def wtinylfuCanInsert (b : Setup) (r : Request) : Bool :=
  r.objSize ≤ b.cacheSize ∧ r.objSize ≤ b.windowBytes ∧ r.objSize ≤ b.mainBytes

def occupiedByte (s : State) : Int := s.window.occupiedByte + s.main.occupiedByte

/-- `WTinyLFU_get` is `cache_get_base` with these functions. -/
def wtinylfu (b : Setup) : Policy State Fault where
  cacheSize := b.cacheSize
  tick s := s
  find s r := .ok (wtinylfuFind b s r)
  canInsert _ s r := .ok (wtinylfuCanInsert b r, s)
  occupiedByte := occupiedByte
  evict _ s _ := wtinylfuEvict b s
  insert s r := .ok (wtinylfuInsert b s r)

/-! ## Replacements -/

/-- What is known before a window victim replaces a main victim: the bytes in the main cache,
and the sizes of the two objects. -/
structure Replacement where
  mainOccupied : Int
  victim : Int
  mainVictim : Int

/-- The window victim is not larger than the main victim and what is free in the main cache. -/
def Replacement.Fits (b : Setup) (x : Replacement) : Prop :=
  x.victim ≤ x.mainVictim + (b.mainBytes - x.mainOccupied)

instance (b : Setup) (x : Replacement) : Decidable (x.Fits b) :=
  inferInstanceAs (Decidable (_ ≤ _))

def replacement (s : State) : Turn → List Replacement
  | .replace victim mainVictim => [⟨s.main.occupiedByte, victim.bytes, mainVictim.bytes⟩]
  | _ => []

/-- The replacements of as many turns of the loop. -/
def replacements (b : Setup) : Nat → State → List Replacement
  | 0, _ => []
  | n + 1, s =>
    match decideTurn b s with
    | .error _ => []
    | .ok turn =>
      replacement s turn ++
        match takeTurn b s turn with
        | .done _ => []
        | .again t => replacements b n t

/-- Keeps the replacements of the run. -/
def scribe (b : Setup) : Recorder State (List Replacement) where
  found _ _ _ log := log
  evicted s _ log := replacements b (s.window.objs.length + 1) s ++ log
  inserted _ _ log := log
  removed _ _ log := log

/-- Calls of `WTinyLFU_get` for objects of some bytes, with the replacements so far. -/
abbrev Requests (b : Setup) : State × List Replacement → State × List Replacement → Prop :=
  Requested ((scribe b).policy (wtinylfu b)) fun r => 1 ≤ r.objSize

/-! ## Sizes -/

theorem windowBytes_le (b : Setup) : b.windowBytes ≤ b.cacheSize := by
  by_cases empty : b.cacheSize = 0
  · simp [Setup.windowBytes, empty, double]
  · have positive : (0 : ℚ) < b.cacheSize := by exact_mod_cast Nat.pos_of_ne_zero empty
    have less := double_mul_lt_of_lt_one (representable_double positive.le) (double_pos positive)
      b.representable b.below
    have floor : ⌊double (double (b.cacheSize : ℚ) * b.windowSize)⌋ ≤ (b.cacheSize : ℤ) := by
      by_contra large
      have above : ((b.cacheSize + 1 : ℤ) : ℚ) ≤ double (double (b.cacheSize : ℚ) * b.windowSize) :=
        Int.le_floor.mp (by omega)
      push_cast at above
      have nonneg : 0 ≤ double (b.cacheSize : ℚ) * b.windowSize := by
        obtain ⟨m, k, _, value⟩ := b.representable
        rw [value]
        exact mul_nonneg (double_pos positive).le (by positivity)
      have rounded := double_le (representable_double nonneg) (by linarith : (b.cacheSize : ℚ) ≤ _)
      linarith
    rw [Setup.windowBytes]
    omega

theorem occupied_remove_tail {q : Fifo Unit} {o : CacheObj Unit} (tail : q.toEvict = some o) :
    (q.remove o.objId).occupiedByte = q.occupiedByte - o.bytes := by
  rw [Fifo.occupied_eq, Fifo.occupied_eq]
  exact Fifo.total_remove_oldest CacheObj.bytes tail

theorem length_remove_tail {q : Fifo Unit} {o : CacheObj Unit} (tail : q.toEvict = some o) :
    (q.remove o.objId).objs.length + 1 = q.objs.length := by
  obtain ⟨rest, objs⟩ := Fifo.toEvict_eq_some tail
  rw [Fifo.objs_remove_oldest objs, objs, List.length_cons]

theorem occupied_insert_victim (q : Fifo Unit) (o : CacheObj Unit) :
    (q.insert o.toRequest ()).occupiedByte = q.occupiedByte + o.bytes := by
  rw [Fifo.occupied_insert, createCacheObj_toRequest]

theorem occupied_promote (q : Fifo Unit) (id : Nat) : (q.promote id).occupiedByte = q.occupiedByte := by
  rw [Fifo.occupied_eq, Fifo.occupied_eq, Fifo.total_promote]

theorem occupied_mainFind (b : Setup) (q : Fifo Unit) (id : Nat) :
    (mainFind b q id).occupiedByte = q.occupiedByte := by
  unfold mainFind
  split
  · exact occupied_promote q id
  · rfl

/-! ## An eviction -/

def Small (b : Setup) (s : State) : Prop := ∀ o ∈ s.window.objs, o.bytes ≤ b.mainBytes

def Stocked (s : State) : Prop := 0 < s.window.occupiedByte ∨ s.main.objs ≠ []

def objects (s : State) : Nat := s.window.objs.length + s.main.objs.length

variable {b : Setup} {s t : State}

theorem Small.remove (small : Small b s) {id : Nat}
    (removed : t.window = s.window.remove id) : Small b t := by
  intro o member
  rw [removed, Fifo.objs_remove] at member
  exact small o (List.mem_of_mem_eraseP member)

/-- What the code finds out before a turn. -/
def Justified (b : Setup) (s : State) : Turn → Prop
  | .move victim => s.window.toEvict = some victim ∧ s.main.occupiedByte + victim.bytes ≤ b.mainBytes
  | .replace victim mainVictim => s.window.toEvict = some victim ∧ s.main.toEvict = some mainVictim
  | .drop victim => s.window.toEvict = some victim
  | .evictMain mainVictim => s.main.toEvict = some mainVictim

theorem toEvict_of_objs_ne_nil {q : Fifo Unit} (some_ : q.objs ≠ []) : ∃ o, q.toEvict = some o := by
  obtain ⟨o, rest, objs⟩ := List.exists_cons_of_ne_nil some_
  exact ⟨o, Fifo.toEvict_of_objs objs⟩

theorem decideTurn_justified (small : Small b s) (stocked : Stocked s) :
    ∃ turn, decideTurn b s = .ok turn ∧ Justified b s turn := by
  unfold decideTurn
  by_cases open_ : 0 < s.window.occupiedByte
  · obtain ⟨victim, tail⟩ := Fifo.toEvict_of_occupied open_
    rw [if_pos open_, tail]
    by_cases fits : s.main.occupiedByte + victim.bytes ≤ b.mainBytes
    · exact ⟨.move victim, if_pos fits, tail, fits⟩
    · -- the victim alone would fit, so the main cache holds some bytes
      have alone := small victim (Fifo.toEvict_mem tail)
      obtain ⟨mainVictim, mainTail⟩ := Fifo.toEvict_of_occupied (q := s.main) (by omega)
      simp only [if_neg fits, mainTail]
      by_cases more : frequency b s mainVictim.objId < frequency b s victim.objId
      · exact ⟨.replace victim mainVictim, if_pos more, tail, mainTail⟩
      · exact ⟨.drop victim, if_neg more, tail⟩
  · obtain ⟨mainVictim, mainTail⟩ := toEvict_of_objs_ne_nil (stocked.resolve_left open_)
    rw [if_neg open_, mainTail]
    exact ⟨.evictMain mainVictim, rfl, mainTail⟩

/-- What turns leave: the main cache stays within its size if their replacements fit. -/
structure Turned (b : Setup) (s : State) (log : List Replacement) (t : State) : Prop where
  small : Small b t
  bounded : (∀ x ∈ log, x.Fits b) → s.main.occupiedByte ≤ b.mainBytes → t.main.occupiedByte ≤ b.mainBytes

theorem Turned.trans {u : State} {log later : List Replacement} (first : Turned b s log t)
    (second : Turned b t later u) : Turned b s (log ++ later) u where
  small := second.small
  bounded fits start := by
    have here : ∀ x ∈ log, x.Fits b := fun x member => fits x (List.mem_append_left later member)
    have there : ∀ x ∈ later, x.Fits b := fun x member => fits x (List.mem_append_right log member)
    exact second.bounded there (first.bounded here start)

theorem takeTurn_again {turn : Turn} (small : Small b s) (justified : Justified b s turn)
    (again : takeTurn b s turn = .again t) : Turned b s (replacement s turn) t ∧ Stocked t ∧
      t.window.objs.length + 1 = s.window.objs.length ∧ objects t ≤ objects s := by
  cases turn with
  | move victim =>
    obtain ⟨tail, fits⟩ := justified
    cases again
    have shorter := length_remove_tail tail
    refine ⟨⟨small.remove rfl, fun _ _ => ?_⟩, .inr (by simp [count]), shorter, ?_⟩
    · have added := occupied_insert_victim s.main victim
      simp only [count]
      omega
    · simp only [objects, count, Fifo.objs_insert, List.length_append, List.length_singleton]
      omega
  | replace victim mainVictim =>
    obtain ⟨tail, mainTail⟩ := justified
    cases again
    have shorter := length_remove_tail tail
    have mainShorter := length_remove_tail mainTail
    refine ⟨⟨small.remove rfl, fun fits _ => ?_⟩, .inr (by simp [count]), shorter, ?_⟩
    · have replaced := fits _ List.mem_cons_self
      have added := occupied_insert_victim (s.main.remove mainVictim.objId) victim
      have taken := occupied_remove_tail mainTail
      simp only [Replacement.Fits] at replaced
      simp only [count]
      omega
    · simp only [objects, count, Fifo.objs_insert, List.length_append, List.length_singleton]
      omega
  | drop victim => cases again
  | evictMain mainVictim => cases again

theorem takeTurn_done {turn : Turn} (small : Small b s) (justified : Justified b s turn)
    (done : takeTurn b s turn = .done t) :
    Turned b s (replacement s turn) t ∧ objects t < objects s := by
  cases turn with
  | move victim => cases done
  | replace victim mainVictim => cases done
  | drop victim =>
    cases done
    have shorter := length_remove_tail justified
    refine ⟨⟨small.remove rfl, fun _ start => start⟩, ?_⟩
    simp only [objects, count]
    omega
  | evictMain mainVictim =>
    cases done
    have shorter := length_remove_tail justified
    refine ⟨⟨small, fun _ start => ?_⟩, ?_⟩
    · have taken := occupied_remove_tail justified
      have nonneg := mainVictim.bytes_nonneg
      simp only
      omega
    · simp only [objects]
      omega

theorem evictTurns_end {fuel : Nat} (small : Small b s) (stocked : Stocked s)
    (enough : s.window.objs.length < fuel) : ∃ t, loop (evictTurn b) fuel s = .ok t ∧
      Turned b s (replacements b fuel s) t ∧ objects t < objects s := by
  induction fuel generalizing s with
  | zero => omega
  | succ fuel ih =>
    obtain ⟨turn, decided, justified⟩ := decideTurn_justified small stocked
    have body : evictTurn b s = .ok (takeTurn b s turn) := by
      simp only [evictTurn, decided]
      rfl
    simp only [replacements, decided]
    cases taken : takeTurn b s turn with
    | done t =>
      obtain ⟨turned, fewer⟩ := takeTurn_done small justified taken
      rw [List.append_nil]
      exact ⟨t, loop_done (body.trans (congrArg _ taken)) fuel, turned, fewer⟩
    | again u =>
      obtain ⟨turned, stocked', shorter, fewer⟩ := takeTurn_again small justified taken
      obtain ⟨t, rest, turned', fewer'⟩ := ih turned.small stocked' (by omega)
      refine ⟨t, ?_, turned.trans turned', by omega⟩
      exact (loop_again (body.trans (congrArg _ taken)) fuel).trans rest

/-! ## Runs -/

structure Within (b : Setup) (a : State × List Replacement) : Prop where
  small : Small b a.1
  whole : occupiedByte a.1 ≤ b.cacheSize
  main : (∀ x ∈ a.2, x.Fits b) → a.1.main.occupiedByte ≤ b.mainBytes

theorem within_init (b : Setup) : Within b (wtinylfuInit b, []) where
  small := by
    intro o member
    cases member
  whole := by
    simp [occupiedByte, wtinylfuInit, Fifo.empty]
  main _ := by
    simp [wtinylfuInit, Fifo.empty]

theorem wtinylfuFind_queues (b : Setup) (s : State) (r : Request) :
    (wtinylfuFind b s r).2.window = s.window.promote r.objId ∧
      (wtinylfuFind b s r).2.main = mainFind b s.main r.objId := by
  simp only [wtinylfuFind, age]
  split
  · split <;> exact ⟨rfl, rfl⟩
  · exact ⟨rfl, rfl⟩

theorem Small.promote (small : Small b s) {id : Nat} (promoted : t.window = s.window.promote id) :
    Small b t := by
  intro o member
  rw [promoted] at member
  cases found : s.window.find id with
  | none =>
    rw [Fifo.promote_of_absent found] at member
    exact small o member
  | some obj =>
    rw [Fifo.objs_promote found] at member
    rcases List.mem_append.mp member with old | last
    · exact small o (List.mem_of_mem_eraseP old)
    · rw [List.mem_singleton.mp last]
      exact small obj (Fifo.find_mem found)

theorem Small.insert (small : Small b s) {r : Request} (fits : r.objSize ≤ b.mainBytes)
    (inserted : t.window = s.window.insert r ()) : Small b t := by
  intro o member
  rw [inserted, Fifo.objs_insert] at member
  rcases List.mem_append.mp member with old | last
  · exact small o old
  · rw [List.mem_singleton.mp last]
    have stored := createCacheObj_bytes_le r ()
    omega

theorem wtinylfuGet_serves {a : State × List Replacement} (within : Within b a) (r : Request) :
    ∃ hit t, Serves ((scribe b).policy (wtinylfu b)) a r hit t ∧ Within b t := by
  obtain ⟨s, log⟩ := a
  -- while room is made, the bytes of the whole cache are not known
  refine serves_of (Q := fun _ t => Within b t)
    (fun u => Small b u.1 ∧ ((∀ x ∈ u.2, x.Fits b) → u.1.main.occupiedByte ≤ b.mainBytes) ∧
      (wtinylfuCanInsert b r = false → occupiedByte u.1 ≤ b.cacheSize))
    (fun u => objects u.1) (wtinylfuCanInsert b r) (fun _ _ _ => rfl) ?_ ?_ ?_ ?_
  · obtain ⟨window, main⟩ := wtinylfuFind_queues b s r
    have windowBytes := congrArg Fifo.occupiedByte window
    have mainBytes := congrArg Fifo.occupiedByte main
    rw [occupied_promote] at windowBytes
    rw [occupied_mainFind] at mainBytes
    have small := within.small.promote window
    have whole : occupiedByte (wtinylfuFind b s r).2 ≤ b.cacheSize := by
      have before := within.whole
      simp only [occupiedByte] at before ⊢
      omega
    have kept : (∀ x ∈ log, x.Fits b) → (wtinylfuFind b s r).2.main.occupiedByte ≤ b.mainBytes := by
      intro fits
      rw [mainBytes]
      exact within.main fits
    refine ⟨(wtinylfuFind b s r).1, ((wtinylfuFind b s r).2, log), rfl, ?_⟩
    split
    · exact ⟨small, whole, kept⟩
    · exact ⟨small, kept, fun _ => whole⟩
  · rintro u ⟨small, main, whole⟩ refused
    exact ⟨small, whole refused, main⟩
  · rintro ⟨u, log⟩ ⟨small, main, _⟩ admitted full
    have fits := (of_decide_eq_true admitted).1
    have stocked : Stocked u := by
      by_contra empty
      obtain ⟨window, objs⟩ := not_or.mp empty
      have mainEmpty := u.main.occupied_eq
      rw [not_not.mp objs, total_nil] at mainEmpty
      simp only [Recorder.policy, wtinylfu, occupiedByte] at full
      omega
    obtain ⟨v, run, turned, fewer⟩ := evictTurns_end small stocked (Nat.lt_succ_self _)
    have evicted : wtinylfuEvict b u = .ok v := run
    refine ⟨(v, replacements b (u.window.objs.length + 1) u ++ log), ?_, ⟨turned.small, ?_, ?_⟩, fewer⟩
    · intro n
      simp only [Recorder.policy, wtinylfu, evicted]
      rfl
    · intro all
      have here : ∀ x ∈ replacements b (u.window.objs.length + 1) u, x.Fits b :=
        fun x member => all x (List.mem_append_left log member)
      have before : ∀ x ∈ log, x.Fits b := fun x member => all x (List.mem_append_right _ member)
      exact turned.bounded here (main before)
    · intro refused
      rw [admitted] at refused
      cases refused
  · rintro ⟨u, log⟩ ⟨small, main, _⟩ admitted room
    have fits := (of_decide_eq_true admitted).2.2
    refine ⟨(wtinylfuInsert b u r, log), rfl, small.insert fits rfl, ?_, main⟩
    have stored := createCacheObj_bytes_le r ()
    have added := u.window.occupied_insert r ()
    simp only [Recorder.policy, wtinylfu, occupiedByte] at room
    simp only [occupiedByte, wtinylfuInsert, count]
    omega

theorem requests_within {a : State × List Replacement}
    (history : Reachable (Requests b) (wtinylfuInit b, []) a) : Within b a := by
  refine history.invariant (Within b) (within_init b) ?_
  rintro s t within ⟨r, _, served⟩
  obtain ⟨hit, u, run, after⟩ := wtinylfuGet_serves within r
  cases served.unique run
  exact after

def halves (cacheSize : Nat) (mainCacheType : MainCache) : Setup where
  cacheSize := cacheSize
  windowSize := 1 / 2
  representable := ⟨1, -1, by norm_num, by norm_num⟩
  below := by norm_num
  mainCacheType := mainCacheType
  hashes := 1
  counterNum := 100
  hash id := (UInt32.ofNat id, 0)

end WTinyLfu
