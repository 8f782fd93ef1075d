import CacheEviction.SrLruUnits

/-!
# The counters of SR_LRU

`C_demoted` counts the objects of `SR_list` and `R_list` that have been demoted, `C_new` the
objects of `H_list` that were new when they left. An object is moved by copying it, and a
copy starts without marks. A hit in `SR_list` writes neither mark nor counter: the demoted
object becomes a plain one. Nor is `C_new` written when an entry leaves `H_list`. So a
counter may get ahead of the objects it counts, and never falls behind.
-/
namespace Cacheus

open FuelLoops FifoCache LruRuns CacheGet WeightedLists

variable {n : Nat} {s t u : State} {x : Nat} {o : CacheObj Marks}
variable {b : Params} {r : Request} {vote : Nat → Option Nat}

/-- The counters are the numbers of marked objects, and the two lists share the cache. -/
structure Counted (n : Nat) (s : State) : Prop where
  demoted : s.cDemoted.toNat =
    s.srList.objs.countP (fun o => o.tag.demoted) + s.rList.objs.countP (fun o => o.tag.demoted)
  new : s.cNew.toNat = s.hList.objs.countP fun o => o.tag.newObj
  budgets : s.srSize + s.rSize = n

/-- The id is in `SR_list`, and was demoted to it. -/
def hitsDemoted (s : State) (x : Nat) : Bool := (s.srList.find x).any fun o => o.tag.demoted

/-- The id is in `H_list`, and was new when it got there. -/
def recallsNew (s : State) (x : Nat) : Bool := (s.hList.find x).any fun o => o.tag.newObj

/-- One more entry drives the oldest one out of `H_list`, which was new when it got there. -/
def dropsNew (n : Nat) (s : State) : Bool :=
  s.hList.objs.length + 1 == n && s.hList.toEvict.any fun o => o.tag.newObj

/-- A request for the id takes a mark away that a counter has counted. -/
def Drifts (n : Nat) (s : State) (x : Nat) : Prop :=
  hitsDemoted s x = true ∨
    x ∉ s.held ∧ (recallsNew s x = true ∨ s.held.length = n ∧ dropsNew n s = true)

instance (n : Nat) (s : State) (x : Nat) : Decidable (Drifts n s x) := inferInstanceAs (Decidable (_ ∨ _))

/-! ## How far a counter is ahead -/

/-- How far a counter of 64 bits is ahead of a number. -/
def surplus (counter : UInt64) (count : Int) : Int := (counter.toNat - count) % 2 ^ 64

theorem surplus_up (counter : UInt64) (count : Int) (marked : Bool) :
    surplus (if marked then counter + 1 else counter) (count + marked.toInt) =
      surplus counter count := by
  have next : (counter + 1).toNat = (counter.toNat + 1) % 2 ^ 64 := UInt64.toNat_add counter 1
  cases marked with
  | false => simp
  | true =>
    simp only [if_true, Bool.toInt_true, surplus, next]
    omega

theorem surplus_down (counter : UInt64) (count : Int) (marked : Bool) :
    surplus (if marked then counter - 1 else counter) (count - marked.toInt) =
      surplus counter count := by
  have previous : (counter - 1).toNat = (2 ^ 64 - 1 + counter.toNat) % 2 ^ 64 := UInt64.toNat_sub counter 1
  cases marked with
  | false => simp
  | true =>
    simp only [if_true, Bool.toInt_true, surplus, previous]
    omega

theorem surplus_lost (counter : UInt64) (count : Int) (marked : Bool) :
    surplus counter (count - marked.toInt) =
      (surplus counter count + marked.toInt) % 2 ^ 64 := by
  unfold surplus
  omega

theorem surplus_eq_zero_iff (counter : UInt64) {count : Nat} (small : count < 2 ^ 64) :
    surplus counter count = 0 ↔ counter.toNat = count := by
  have range := counter.toNat_lt
  unfold surplus
  omega

theorem total_toInt (p : CacheObj Marks → Bool) (l : List (CacheObj Marks)) :
    total (fun o => (p o).toInt) l = l.countP p := by
  rw [← total_eq_countP]
  refine total_congr fun o _ => ?_
  cases p o with
  | false => rfl
  | true => rfl

def State.demotedCount (s : State) : Int :=
  total (fun o => o.tag.demoted.toInt) s.srList.objs +
    total (fun o => o.tag.demoted.toInt) s.rList.objs

def State.newCount (s : State) : Int := total (fun o => o.tag.newObj.toInt) s.hList.objs

def State.demotedSurplus (s : State) : Int := surplus s.cDemoted s.demotedCount

def State.newSurplus (s : State) : Int := surplus s.cNew s.newCount

theorem counted_iff (ok : Units n s) (fits : s.held.length ≤ n) (wide : n < 2 ^ 64) :
    Counted n s ↔ s.demotedSurplus = 0 ∧ s.newSurplus = 0 := by
  have demoted : s.demotedCount = ((s.srList.objs.countP (fun o => o.tag.demoted) +
      s.rList.objs.countP (fun o => o.tag.demoted) : Nat) : Int) := by
    rw [State.demotedCount, total_toInt, total_toInt]
    rfl
  have new : s.newCount = (s.hList.objs.countP (fun o => o.tag.newObj) : Nat) := total_toInt _ _
  have sr : s.srList.objs.countP (fun o => o.tag.demoted) ≤ s.srList.objs.length := List.countP_le_length
  have r : s.rList.objs.countP (fun o => o.tag.demoted) ≤ s.rList.objs.length := List.countP_le_length
  have h : s.hList.objs.countP (fun o => o.tag.newObj) ≤ s.hList.objs.length := List.countP_le_length
  have hFits := ok.hFits
  simp only [State.held, resident, List.length_append, List.length_map] at fits hFits
  rw [State.demotedSurplus, State.newSurplus, demoted, new,
    surplus_eq_zero_iff _ (by omega), surplus_eq_zero_iff _ (by omega)]
  constructor
  · intro counted
    exact ⟨counted.demoted, counted.new⟩
  · rintro ⟨demoted, new⟩
    refine ⟨demoted, new, ?_⟩
    rw [ok.srSize, ok.rSize]
    omega

/-! ## Demotions -/

/-- `C_demoted` is as far ahead as before, and nothing has happened to the history. -/
structure Level (s t : State) : Prop where
  demoted : t.demotedSurplus = s.demotedSurplus
  hList : t.hList = s.hList
  cNew : t.cNew = s.cNew

theorem demoted_level (plain : Plain s) {rest : List (CacheObj Marks)} (oldest : s.rList.objs = o :: rest) :
    Level s (demoted s o) := by
  have tag := plain.plain o (oldest ▸ List.mem_cons_self)
  refine ⟨?_, rfl, rfl⟩
  have sr : total (fun p => p.tag.demoted.toInt) (demoted s o).srList.objs =
      total (fun p => p.tag.demoted.toInt) s.srList.objs + 1 := by
    simp [demoted, tag]
  have r : total (fun p => p.tag.demoted.toInt) (demoted s o).rList.objs =
      total (fun p => p.tag.demoted.toInt) s.rList.objs := by
    rw [demoted, Fifo.objs_remove_oldest oldest, oldest, total_cons, tag]
    simp
  have count : (demoted s o).demotedCount = s.demotedCount + 1 := by
    rw [State.demotedCount, State.demotedCount, sr, r]
    ring
  have counter : (demoted s o).cDemoted = s.cDemoted + 1 := by
    simp [demoted, tag]
  rw [State.demotedSurplus, count, counter]
  exact surplus_up s.cDemoted s.demotedCount true

theorem demoteRound_cases {need : Int} {round : Round State State}
    (run : demoteRound b need s = .ok round) :
    round = .done s ∨ ∃ o rest, s.rList.objs = o :: rest ∧ round = .again (demoted s o) := by
  rw [demoteRound] at run
  split at run
  · rcases tail_cases s.rList with null | ⟨o, rest, found, oldest⟩
    · rw [null] at run
      cases run
    · rw [found] at run
      cases run
      exact Or.inr ⟨o, rest, oldest, rfl⟩
  · cases run
    exact Or.inl rfl

theorem demote_level {need : Int} (plain : Plain s) (run : demote b need s = .ok t) :
    Plain t ∧ Level s t := by
  refine loop_invariant (demoteRound b need) (fun u => Plain u ∧ Level s u) (fun u => Plain u ∧ Level s u)
    ?_ ?_ _ s ⟨plain, rfl, rfl, rfl⟩ t run
  · rintro u v ⟨plain, level⟩ round
    rcases demoteRound_cases round with ended | ⟨o, rest, oldest, again⟩
    · cases ended
    · cases again
      have next := demoted_level plain oldest
      exact ⟨demoted_plain plain oldest, next.demoted.trans level.demoted, level.hList, level.cNew⟩
  · rintro u v level round
    rcases demoteRound_cases round with ended | ⟨o, rest, oldest, again⟩
    · cases ended
      exact level
    · cases again

/-! ## Lookup -/

theorem Units.srList_single (ok : Units n s) (x : Nat) : s.srList.held x ≤ 1 :=
  (nodup_iff_copies CacheObj.objId s.srList.objs).mp (List.nodup_append.mp ok.held_nodup).1 x

theorem hitsDemoted_absent (absent : x ∉ resident s.srList) : hitsDemoted s x = false := by
  rw [hitsDemoted, find_of_absent absent]
  rfl

theorem srLruFind_surplus (ok : Units n s) {hit : Bool}
    (run : srLruFind (units n) s r = .ok (hit, t)) :
    t.demotedSurplus = (s.demotedSurplus + (hitsDemoted s r.objId).toInt) % 2 ^ 64 ∧
      t.newSurplus = s.newSurplus := by
  have range : s.demotedSurplus % 2 ^ 64 = s.demotedSurplus := Int.emod_emod _ _
  by_cases inSr : r.objId ∈ resident s.srList
  · have notR : r.objId ∉ resident s.rList := fun inR =>
      (List.nodup_append.mp ok.held_nodup).2.2 _ inSr _ inR rfl
    have missing := find_of_absent notR
    obtain ⟨o, found, own⟩ := find_of_resident inSr
    have there : (s.srList.promote r.objId).find r.objId = some o :=
      (Fifo.find_promote (ok.srList_single _)).trans found
    have unit := ok.srUnits o (Fifo.find_mem found)
    simp only [srLruFind, Fifo.promote_of_absent missing, missing, there, Option.isSome_none] at run
    obtain ⟨u, moved, run⟩ := bind_eq_ok.mp run
    obtain ⟨plain, level⟩ := demote_level (moved_plain ok.toPlain r.objId unit) moved
    rw [adjustOnHit_plain plain] at run
    cases run
    refine ⟨?_, ?_⟩
    · rw [level.demoted, hitsDemoted, found]
      have count : State.demotedCount { s with
          rList := s.rList.insert o.toRequest {}
          srList := (s.srList.promote r.objId).remove o.objId
          entries := o :: s.entries } = s.demotedCount - o.tag.demoted.toInt := by
        rw [← own] at there ⊢
        have sr := Fifo.total_remove_found (fun p => p.tag.demoted.toInt) there
        simp only [State.demotedCount, sr, Fifo.total_promote, Fifo.objs_insert, total_append, total_cons,
          createCacheObj, total_nil, Bool.toInt_false]
        ring
      rw [State.demotedSurplus, count]
      exact surplus_lost s.cDemoted s.demotedCount o.tag.demoted
    · rw [State.newSurplus, State.newCount, level.hList, level.cNew]
      rfl
  · have none := find_of_absent inSr
    simp only [srLruFind, Fifo.promote_of_absent none, none] at run
    cases run
    rw [hitsDemoted_absent inSr]
    refine ⟨?_, rfl⟩
    rw [Bool.toInt_false, Int.add_zero, range]
    simp only [State.demotedSurplus, State.demotedCount, Fifo.total_promote]

theorem srLruFind_missed (absent : r.objId ∉ s.held) : srLruFind b s r = .ok (false, s) := by
  have noneSr := find_of_absent fun member => absent (List.mem_append_left _ member)
  have noneR := find_of_absent fun member => absent (List.mem_append_right (resident s.srList) member)
  simp only [srLruFind, Fifo.promote_of_absent noneR, Fifo.promote_of_absent noneSr, noneR, noneSr,
    Option.isSome_none]

/-! ## Departures for the history -/

structure Taken (s : State) (o : CacheObj Marks) (u : State) : Prop where
  count : u.demotedCount = s.demotedCount - o.tag.demoted.toInt
  cDemoted : u.cDemoted = s.cDemoted
  cNew : u.cNew = s.cNew
  hList : u.hList = s.hList

theorem taken_srList (found : s.srList.find o.objId = some o) :
    Taken s o { s with srList := s.srList.remove o.objId } := by
  refine ⟨?_, rfl, rfl, rfl⟩
  have sr := Fifo.total_remove_found (fun p => p.tag.demoted.toInt) found
  simp only [State.demotedCount, sr]
  ring

theorem taken_rList (found : s.rList.find o.objId = some o) :
    Taken s o { s with rList := s.rList.remove o.objId } := by
  refine ⟨?_, rfl, rfl, rfl⟩
  have r := Fifo.total_remove_found (fun p => p.tag.demoted.toInt) found
  simp only [State.demotedCount, r]
  ring

/-- What is left of a full history when one more entry comes. -/
def kept (n : Nat) (l : List (CacheObj Marks)) : List (CacheObj Marks) :=
  if l.length + 1 < n then l else l.tail

theorem total_kept (ok : Units n s) :
    total (fun o => o.tag.newObj.toInt) (kept n s.hList.objs) =
      s.newCount - (dropsNew n s).toInt := by
  have hFits := ok.hFits
  rw [resident, List.length_map] at hFits
  rw [kept, dropsNew, State.newCount]
  by_cases room : s.hList.objs.length + 1 < n
  · have more : (s.hList.objs.length + 1 == n) = false := by
      rw [beq_eq_false_iff_ne]
      omega
    simp [if_pos room, more]
  · have full : (s.hList.objs.length + 1 == n) = true := by
      rw [beq_iff_eq]
      omega
    rw [if_neg room, full, Bool.true_and, Fifo.toEvict]
    cases s.hList.objs with
    | nil => rfl
    | cons a rest =>
      simp only [List.tail_cons, List.head?_cons, Option.any_some, total_cons]
      ring

/-- The object and its marks have gone to the history, and both counters know. The entry
that is driven out takes a mark away. -/
structure Departed (n : Nat) (s : State) (o : CacheObj Marks) (t : State) : Prop extends Left n s o.objId t where
  demoted : t.demotedSurplus = s.demotedSurplus
  new : t.newSurplus = (s.newSurplus + (dropsNew n s).toInt) % 2 ^ 64
  objs : ∃ mark, t.hList.objs = kept n s.hList.objs ++
    [createCacheObj o.toRequest { demoted := mark, newObj := o.tag.newObj }]

theorem Taken.departed (taken : Taken s o u) (ok : Units n s) (large : 2 ≤ n) (unit : o.bytes = 1)
    {mark : Bool} (left : Left n s o.objId t)
    (run : trimHistory (units n) (pushHistory u o mark) = .ok t) : Departed n s o t := by
  have hUnits := ok.hUnits
  have hFits := ok.hFits
  rw [← taken.hList] at hUnits hFits
  obtain ⟨q, trimmed, objs⟩ := trimHistory_kept large hUnits hFits unit mark
  cases trimmed.symm.trans run
  rw [taken.hList] at objs
  refine ⟨left, ?_, ?_, mark, objs⟩
  · have count : State.demotedCount { pushHistory u o mark with hList := q } =
        s.demotedCount - o.tag.demoted.toInt := taken.count
    rw [State.demotedSurplus, count]
    simp only [pushHistory, taken.cDemoted]
    exact surplus_down _ _ _
  · have kept_ := total_kept ok
    have count : State.newCount { pushHistory u o mark with hList := q } =
        (s.newCount - (dropsNew n s).toInt) + o.tag.newObj.toInt := by
      rw [← kept_, State.newCount, objs, total_append, total_cons, total_nil]
      simp only [kept, createCacheObj, Int.add_zero]
    rw [State.newSurplus, count]
    simp only [pushHistory, taken.cNew]
    rw [surplus_up]
    exact surplus_lost _ _ _

theorem find_of_tail {q : Fifo Marks} (oldest : tail q = .ok o) : q.find o.objId = some o := by
  rcases tail_cases q with null | ⟨p, rest, found, objs⟩
  · rw [null] at oldest
    cases oldest
  · cases found.symm.trans oldest
    exact Fifo.find_of_objs objs

theorem srLruEvict_departed (ok : Units n s) (large : 2 ≤ n) (full : s.held.length = n)
    (run : srLruEvict (units n) s = .ok t) : ∃ o, Departed n s o t := by
  obtain ⟨o, u, victim, evicted, unit, left⟩ := srLruEvict_units ok large full
  cases evicted.symm.trans run
  rw [srLruEvict_of_victim victim] at run
  rw [srLruToEvict] at victim
  have bytes := occupied_units (n := n) ok.srUnits
  refine ⟨o, ?_⟩
  by_cases hollow : occupied (units n) s.srList = 0
  · rw [if_neg (by omega)] at run
    rw [if_pos hollow] at victim
    exact (taken_rList (find_of_tail victim)).departed ok large unit left run
  · rw [if_pos (by omega)] at run
    rw [if_neg hollow] at victim
    exact (taken_srList (find_of_tail victim)).departed ok large unit left run

theorem srLruRemove_departed (ok : Units n s) (large : 2 ≤ n) (member : x ∈ s.held)
    (run : srLruRemove (units n) s x = .ok t) : ∃ o, Departed n s o t := by
  obtain ⟨u, removed, left⟩ := srLruRemove_units ok large member
  cases removed.symm.trans run
  by_cases inR : x ∈ resident s.rList
  · obtain ⟨o, found, rfl⟩ := find_of_resident inR
    have unit := ok.rUnits o (Fifo.find_mem found)
    rw [srLruRemove, found] at run
    exact ⟨o, (taken_rList found).departed ok large unit left run⟩
  · have inSr : x ∈ resident s.srList := (List.mem_append.mp member).resolve_right inR
    have missing := find_of_absent inR
    obtain ⟨o, found, rfl⟩ := find_of_resident inSr
    have unit := ok.srUnits o (Fifo.find_mem found)
    rw [srLruRemove, missing, found] at run
    exact ⟨o, (taken_srList found).departed ok large unit left run⟩

theorem Departed.recalls (departed : Departed n s o t) (ok : Units n s) (other : o.objId ≠ x)
    (keeps : dropsNew n s = false) : recallsNew t x = recallsNew s x := by
  obtain ⟨mark, objs⟩ := departed.objs
  have find : t.hList.find x = (kept n s.hList.objs).find? (hasId x) := by
    rw [Fifo.find, objs, List.find?_append]
    simp [other]
  have hFits := ok.hFits
  have nodup : (resident s.hList).Nodup := (List.nodup_append.mp ok.nodup).2.1
  rw [resident, List.length_map] at hFits
  rw [recallsNew, recallsNew, find, kept, Fifo.find]
  split
  · rfl
  · rename_i full
    have last : (s.hList.objs.length + 1 == n) = true := by
      rw [beq_iff_eq]
      omega
    rw [dropsNew, last, Bool.true_and, Fifo.toEvict] at keeps
    rw [resident] at nodup
    cases shape : s.hList.objs with
    | nil => rfl
    | cons a rest =>
      rw [shape, List.head?_cons, Option.any_some] at keeps
      rw [shape, List.map_cons, List.nodup_cons] at nodup
      rw [List.tail_cons]
      by_cases own : hasId x a = true
      · have gone : rest.find? (hasId x) = none := by
          rw [List.find?_eq_none]
          intro p member same
          refine nodup.1 ?_
          rw [hasId_iff.mp own, ← hasId_iff.mp same]
          exact List.mem_map_of_mem member
        rw [gone, List.find?_cons_of_pos own, Option.any_none, Option.any_some, keeps]
      · rw [List.find?_cons_of_neg own]

/-! ## Insertion -/

theorem enter_surplus (ok : Units n s) (unit : r.objSize = 1) (run : enter (units n) s r = .ok t) :
    t.demotedSurplus = s.demotedSurplus ∧
      t.newSurplus = (s.newSurplus + (recallsNew s r.objId).toInt) % 2 ^ 64 := by
  have range : s.newSurplus % 2 ^ 64 = s.newSurplus := Int.emod_emod _ _
  rw [enter] at run
  cases found : s.hList.find r.objId with
  | none =>
    rw [found] at run
    cases run
    rw [recallsNew, found, Option.any_none, Bool.toInt_false, Int.add_zero, range]
    refine ⟨?_, rfl⟩
    simp [State.demotedSurplus, State.demotedCount, createCacheObj]
  | some o =>
    rw [found] at run
    simp only [Option.isSome_some, if_true] at run
    obtain ⟨v, moved, run⟩ := bind_eq_ok.mp run
    have plain : Plain { s with hList := s.hList.remove r.objId } := ⟨ok.srUnits, ok.rUnits, ok.plain⟩
    obtain ⟨plain', level⟩ := demote_level plain moved
    rw [adjustOnReturn_plain (insertR_plain plain' unit)] at run
    cases run
    rw [recallsNew, found, Option.any_some]
    refine ⟨?_, ?_⟩
    · refine Eq.trans ?_ level.demoted
      simp [State.demotedSurplus, State.demotedCount, createCacheObj]
    · have count := Fifo.total_remove_found (fun p => p.tag.newObj.toInt) found
      rw [State.newSurplus, State.newCount]
      simp only [level.hList, level.cNew, count]
      exact surplus_lost _ _ _

theorem cacheusInsert_entered (ok : Units n s) (large : 2 ≤ n) (new : x ∉ s.held)
    (fits : s.held.length + 1 ≤ n) (run : cacheusInsert (units n) s ⟨x, 1⟩ = .ok t) :
    enter (units n) s ⟨x, 1⟩ = .ok t ∧ Entered n s x t := by
  obtain ⟨u, entering, entered⟩ := enter_units ok large (r := ⟨x, 1⟩) rfl new
  have length := entered.held.length_eq
  rw [List.length_cons] at length
  have occupied := srLruOccupied_units (n := n) entered.toPlain
  have history := occupied_units (n := n) entered.hUnits
  have size : ((units n).cacheSize : Int) = n := rfl
  have hFits := entered.hFits
  rw [cacheusInsert, if_pos (srLruCanInsert_units ok large x), srLruInsert] at run
  obtain ⟨w, entered_, run⟩ := bind_eq_ok.mp run
  cases entering.symm.trans entered_
  obtain ⟨v, relieved, trimmed⟩ := bind_eq_ok.mp run
  have roomy : relieve (units n) u = .ok u := if_neg (by omega)
  cases roomy.symm.trans relieved
  rw [trimHistory_idle (by omega)] at trimmed
  cases trimmed
  exact ⟨entering, entered⟩

/-! ## Requests -/

structure Steady (n : Nat) (s : State) : Prop extends Units n s where
  fits : s.held.length ≤ n
  demoted : s.demotedSurplus = 0
  new : s.newSurplus = 0

structure Vacated (n : Nat) (s : State) (x : Nat) (u : State) : Prop extends Units n u where
  missing : x ∉ u.held
  full : s.held.length = n
  length : u.held.length + 1 = n
  demoted : u.demotedSurplus = 0
  new : u.newSurplus = (dropsNew n s).toInt
  recalls : dropsNew n s = false → recallsNew u x = recallsNew s x

theorem Departed.vacated (departed : Departed n s o t) (steady : Steady n s) (absent : x ∉ s.held)
    (full : s.held.length = n) : Vacated n s x t := by
  have length := departed.held.length_eq
  rw [List.length_cons] at length
  have drops : (dropsNew n s).toInt % 2 ^ 64 = (dropsNew n s).toInt := by
    cases dropsNew n s <;> rfl
  exact
    { departed.toUnits with
      missing := fun member => absent (departed.held.subset (List.mem_cons_of_mem _ member))
      full := full
      length := by omega
      demoted := departed.demoted.trans steady.demoted
      new := by rw [departed.new, steady.new, Int.zero_add, drops]
      recalls := departed.recalls steady.toUnits fun same =>
        absent (same ▸ departed.held.subset List.mem_cons_self) }

theorem cacheusEvict_vacates (steady : Steady n s) (large : 2 ≤ n) (absent : x ∉ s.held)
    (full : s.held.length = n) (run : cacheusEvict ⟨n, false, vote⟩ s = .ok t) :
    t = { s with nEvict := s.nEvict + 1 } ∨ Vacated n s x t := by
  have voted : Steady n { s with nEvict := s.nEvict + 1 } := { steady with }
  obtain ⟨obj, -, run⟩ := bind_eq_ok.mp run
  dsimp only at run
  cases choice : vote s.nEvict with
  | none =>
    rw [choice] at run
    obtain ⟨o, departed⟩ := srLruEvict_departed voted.toUnits large full run
    exact Or.inr { departed.vacated voted absent full with }
  | some id =>
    rw [choice] at run
    by_cases member : id ∈ s.held
    · obtain ⟨o, departed⟩ := srLruRemove_departed voted.toUnits large member run
      exact Or.inr { departed.vacated voted absent full with }
    · have inSr := find_of_absent fun here => member (List.mem_append_left _ here)
      have inR := find_of_absent fun here => member (List.mem_append_right (resident s.srList) here)
      simp only [srLruRemove, inSr, inR] at run
      cases run
      exact Or.inl rfl

/-- While room is made, nothing has left yet or one object has. -/
def Clearing (n : Nat) (s : State) (x : Nat) (u : State) : Prop :=
  u = { s with nEvict := u.nEvict } ∨ Vacated n s x u

theorem Clearing.toUnits (clearing : Clearing n s x u) (steady : Steady n s) : Units n u := by
  rcases clearing with same | vacated
  · rw [same]
    exact { steady.toUnits with }
  · exact vacated.toUnits

theorem Clearing.evict (clearing : Clearing n s x u) (steady : Steady n s) (large : 2 ≤ n)
    (absent : x ∉ s.held) (crowded : n < u.held.length + 1)
    (run : cacheusEvict ⟨n, false, vote⟩ u = .ok t) : Clearing n s x t := by
  rcases clearing with same | vacated
  · rw [same] at run crowded
    have fits := steady.fits
    have full : s.held.length = n := Nat.le_antisymm fits (Nat.le_of_lt_succ crowded)
    have waiting : Steady n { s with nEvict := u.nEvict } := { steady with }
    rcases cacheusEvict_vacates waiting large absent full run with idle | vacated
    · rw [idle]
      exact Or.inl rfl
    · exact Or.inr { vacated with }
  · have length := vacated.length
    omega

theorem Clearing.insert (clearing : Clearing n s x u) (steady : Steady n s) (large : 2 ≤ n)
    (absent : x ∉ s.held) (room : u.held.length + 1 ≤ n)
    (run : cacheusInsert (units n) u ⟨x, 1⟩ = .ok t) :
    Units n t ∧ t.held.length ≤ n ∧ (t.demotedSurplus = 0 ∧ t.newSurplus = 0 ↔ ¬ Drifts n s x) := by
  have inSr := hitsDemoted_absent fun member => absent (List.mem_append_left _ member)
  rcases clearing with same | vacated
  · rw [same] at run room
    have waiting : Steady n { s with nEvict := u.nEvict } := { steady with }
    obtain ⟨entering, entered⟩ := cacheusInsert_entered waiting.toUnits large absent room run
    obtain ⟨demoted, new⟩ := enter_surplus waiting.toUnits rfl entering
    have length := entered.held.length_eq
    rw [List.length_cons] at length
    have space : ¬ s.held.length = n := Nat.ne_of_lt room
    refine ⟨entered.toUnits, by omega, ?_⟩
    have recalls : recallsNew { s with nEvict := u.nEvict } x = recallsNew s x := rfl
    rw [demoted, new, waiting.demoted, waiting.new, recalls, Drifts, inSr]
    cases recallsNew s x <;> simp [absent, space]
  · obtain ⟨entering, entered⟩ := cacheusInsert_entered vacated.toUnits large vacated.missing room run
    obtain ⟨demoted, new⟩ := enter_surplus vacated.toUnits rfl entering
    have length := entered.held.length_eq
    rw [List.length_cons] at length
    refine ⟨entered.toUnits, by omega, ?_⟩
    rw [demoted, new, vacated.demoted, vacated.new, Drifts, inSr]
    have recalls := vacated.recalls
    cases drops : dropsNew n s with
    | false =>
      rw [recalls drops]
      cases recallsNew s x <;> simp [absent]
    | true => cases recallsNew u x <;> simp [absent, vacated.full]

theorem cacheusGet_drifts (steady : Steady n s) (large : 2 ≤ n) {fuel : Nat} {hit : Bool}
    (run : cacheGetBase (cacheus ⟨n, false, vote⟩) fuel s ⟨x, 1⟩ = .ok (hit, t)) :
    Units n t ∧ t.held.length ≤ n ∧ (t.demotedSurplus = 0 ∧ t.newSurplus = 0 ↔ ¬ Drifts n s x) := by
  refine cacheGetBase_keeps (Q := fun _ t => Units n t ∧ t.held.length ≤ n ∧
    (t.demotedSurplus = 0 ∧ t.newSurplus = 0 ↔ ¬ Drifts n s x))
    (fun u => u = s ∧ x ∉ s.held) (fun u => x ∉ s.held ∧ Clearing n s x u) ?_ ?_ ?_ ?_ run
  · intro hit t found
    have found : srLruFind (units n) s ⟨x, 1⟩ = .ok (hit, t) := found
    by_cases here : x ∈ s.held
    · obtain ⟨u, finds, ok, shuffled⟩ := srLruFind_units steady.toUnits ⟨x, 1⟩
      rw [decide_eq_true here] at finds
      cases finds.symm.trans found
      obtain ⟨demoted, new⟩ := srLruFind_surplus steady.toUnits found
      refine ⟨ok, shuffled.held.length_eq.trans_le steady.fits, ?_⟩
      rw [demoted, new, steady.demoted, steady.new, Drifts]
      cases hitsDemoted s x <;> simp [here]
    · cases (srLruFind_missed here).symm.trans found
      exact ⟨rfl, here⟩
  · rintro u ⟨admitted, v⟩ ⟨rfl, absent⟩ decided
    have decided : Except.ok (decide (1 ≤ n), u) = Except.ok (admitted, v) := decided
    cases decided
    rw [if_pos (decide_eq_true (by omega))]
    exact ⟨absent, Or.inl rfl⟩
  · rintro u v ⟨absent, clearing⟩ crowded evicted
    have crowded : (n : Int) < srLruOccupied (units n) u + 0 + 1 := crowded
    rw [srLruOccupied_units (clearing.toUnits steady).toPlain] at crowded
    exact ⟨absent, clearing.evict steady large absent (by omega) evicted⟩
  · rintro u v ⟨absent, clearing⟩ room inserted
    have room : srLruOccupied (units n) u + 0 + 1 ≤ (n : Int) := room
    rw [srLruOccupied_units (clearing.toUnits steady).toPlain] at room
    exact clearing.insert steady large absent (by omega) inserted

end Cacheus
