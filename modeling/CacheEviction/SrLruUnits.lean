import CacheEviction.LruRuns
import CacheEviction.SrLru

/-!
# SR_LRU on objects of size 1

Without metadata and with objects of one byte each, the sizes of the two lists never
change: they are adjusted by marks of copies in `R_list`, and a copy has none. So `R_list`
stays within half of the cache, `SR_list` has an object whenever the cache is full, and
each loop moves or drops at most one object.
-/
namespace Cacheus

open FuelLoops FifoCache LruRuns LruStack

/-- No metadata, and nobody votes. -/
def units (n : Nat) : Params := ⟨n, false, fun _ => none⟩

def State.held (s : State) : List Nat := resident s.srList ++ resident s.rList

/-- The lists have units, and the copies in `R_list` have no marks. -/
structure Plain (s : State) : Prop where
  srUnits : ∀ o ∈ s.srList.objs, o.bytes = 1
  rUnits : ∀ o ∈ s.rList.objs, o.bytes = 1
  plain : ∀ o ∈ s.rList.objs, o.tag = {}

structure Units (n : Nat) (s : State) : Prop extends Plain s where
  hUnits : ∀ o ∈ s.hList.objs, o.bytes = 1
  srSize : s.srSize = n - (n / 2 : Nat)
  rSize : s.rSize = (n / 2 : Nat)
  rFits : (resident s.rList).length ≤ n / 2
  hFits : (resident s.hList).length < n
  nodup : (s.held ++ resident s.hList).Nodup

variable {n : Nat} {s t : State} {x : Nat}
variable {o : CacheObj Marks} {rest : List (CacheObj Marks)} {b : Params} {r : Request}

theorem init_units (large : 2 ≤ n) (left : BitVec 64) : Units n (srLruInit (units n) left) where
  srUnits := by simp [srLruInit]
  rUnits := by simp [srLruInit]
  hUnits := by simp [srLruInit]
  plain := by simp [srLruInit]
  srSize := rfl
  rSize := rfl
  rFits := Nat.zero_le _
  hFits := by simp [srLruInit, resident]; omega
  nodup := by simp [srLruInit, State.held, resident]

theorem occupied_units {q : Fifo Marks} (ones : ∀ o ∈ q.objs, o.bytes = 1) :
    occupied (units n) q = (resident q).length := by
  rw [occupied, occupied_of_units ones]
  simp [units, Params.lruMdSize]

theorem srLruOccupied_units (plain : Plain s) : srLruOccupied (units n) s = s.held.length := by
  rw [srLruOccupied, occupied_units plain.rUnits, occupied_units plain.srUnits, State.held,
    List.length_append]
  omega

/-! ## Loops of one round -/

theorem tail_cons {q : Fifo Marks} (h : q.objs = o :: rest) : tail q = .ok o := by
  rw [tail, Fifo.toEvict_of_objs h]

theorem demote_idle {need : Int} (fits : occupied b s.rList + need ≤ s.rSize) :
    demote b need s = .ok s := by
  refine loop_done ?_ _
  rw [demoteRound, if_neg (by omega)]
  rfl

def demoted (s : State) (o : CacheObj Marks) : State :=
  { s with
    srList := s.srList.insert o.toRequest { demoted := !o.tag.demoted }
    cDemoted := if o.tag.demoted then s.cDemoted else s.cDemoted + 1
    rList := s.rList.remove o.objId }

theorem demote_one {need : Int} (oldest : s.rList.objs = o :: rest)
    (full : s.rSize < occupied b s.rList + need)
    (fits : occupied b (demoted s o).rList + need ≤ (demoted s o).rSize) :
    demote b need s = .ok (demoted s o) := by
  have first : demoteRound b need s = .ok (.again (demoted s o)) := by
    rw [demoteRound, if_pos full, tail_cons oldest]
    rfl
  have second : demoteRound b need (demoted s o) = .ok (.done (demoted s o)) := by
    rw [demoteRound, if_neg (Int.not_lt.mpr fits)]
    rfl
  rw [demote, oldest, List.length_cons, loop_again first]
  exact loop_done second _

theorem trimHistory_idle (fits : occupied b s.hList < b.cacheSize) : trimHistory b s = .ok s := by
  refine loop_done ?_ _
  rw [trimRound, if_neg (by omega)]
  rfl

theorem trimHistory_one (oldest : s.hList.objs = o :: rest)
    (full : (b.cacheSize : Int) ≤ occupied b s.hList)
    (fits : occupied b (s.hList.remove o.objId) < b.cacheSize) :
    trimHistory b s = .ok { s with hList := s.hList.remove o.objId } := by
  have first : trimRound b s = .ok (.again { s with hList := s.hList.remove o.objId }) := by
    rw [trimRound, if_pos full, tail_cons oldest]
    rfl
  have second : trimRound b { s with hList := s.hList.remove o.objId } =
      .ok (.done { s with hList := s.hList.remove o.objId }) := by
    rw [trimRound, if_neg (Int.not_le.mpr fits)]
    rfl
  rw [trimHistory, oldest, List.length_cons, loop_again first]
  exact loop_done second _

/-! ## Moves between the two lists -/

/-- Objects have moved between the two lists; nothing else has changed but a counter. -/
structure Shuffled (s t : State) : Prop where
  held : t.held.Perm s.held
  hList : t.hList = s.hList
  srSize : t.srSize = s.srSize
  rSize : t.rSize = s.rSize
  nEvict : t.nEvict = s.nEvict

theorem Shuffled.refl (s : State) : Shuffled s s := ⟨.refl _, rfl, rfl, rfl, rfl⟩

theorem Shuffled.trans {u : State} (first : Shuffled s t) (second : Shuffled t u) : Shuffled s u :=
  ⟨second.held.trans first.held, second.hList.trans first.hList, second.srSize.trans first.srSize,
    second.rSize.trans first.rSize, second.nEvict.trans first.nEvict⟩

theorem demoted_shuffled (oldest : s.rList.objs = o :: rest) : Shuffled s (demoted s o) := by
  refine ⟨?_, rfl, rfl, rfl, rfl⟩
  have ids : resident s.rList = o.objId :: rest.map CacheObj.objId := by
    rw [resident, oldest]
    rfl
  simp only [State.held, demoted, resident_insert, resident_remove, ids, List.erase_cons_head,
    List.append_assoc, List.singleton_append]
  rfl

theorem demoted_plain (plain : Plain s) (oldest : s.rList.objs = o :: rest) : Plain (demoted s o) where
  srUnits := by
    have unit := plain.rUnits o (oldest ▸ List.mem_cons_self)
    exact insert_units plain.srUnits (toRequest_unit unit) _
  rUnits := remove_units plain.rUnits _
  plain := by
    intro p member
    rw [demoted, Fifo.objs_remove] at member
    exact plain.plain p (List.mem_of_mem_eraseP member)

theorem demote_makes_room (plain : Plain s) {m need : Nat} (size : s.rSize = m) (small : need ≤ m)
    (crowded : (resident s.rList).length + need ≤ m + 1) :
    ∃ t, demote (units n) need s = .ok t ∧ Shuffled s t ∧ Plain t ∧
      (resident t.rList).length + need ≤ m := by
  have occupied := occupied_units (n := n) plain.rUnits
  by_cases fits : (resident s.rList).length + need ≤ m
  · exact ⟨s, demote_idle (by omega), .refl s, plain, fits⟩
  · cases oldest : s.rList.objs with
    | nil =>
      rw [resident, oldest] at crowded fits
      simp at crowded fits
      omega
    | cons o rest =>
      have shuffled := demoted_shuffled oldest
      have plain' := demoted_plain plain oldest
      have left : (resident (demoted s o).rList).length + 1 = (resident s.rList).length := by
        rw [resident, resident, demoted, Fifo.objs_remove_oldest oldest, oldest]
        simp
      have occupied' := occupied_units (n := n) plain'.rUnits
      have sameSize := shuffled.rSize
      refine ⟨_, demote_one oldest (by omega) (by omega), shuffled, plain', by omega⟩

theorem adjustOnHit_plain (plain : Plain s) (b : Params) (id : Nat) : adjustOnHit b s id = .ok s := by
  rw [adjustOnHit]
  cases found : s.rList.find id with
  | none => rfl
  | some copy =>
    have tag := plain.plain copy (Fifo.find_mem found)
    simp [tag]

theorem adjustOnReturn_plain (plain : Plain s) (b : Params) (id : Nat) :
    adjustOnReturn b s id = .ok s := by
  rw [adjustOnReturn]
  cases found : s.rList.find id with
  | none => rfl
  | some copy =>
    have tag := plain.plain copy (Fifo.find_mem found)
    simp [tag]

/-! ## Lookup -/

theorem Units.shuffled (ok : Units n s) (shuffled : Shuffled s t) (plain : Plain t)
    (fits : (resident t.rList).length ≤ n / 2) : Units n t where
  toPlain := plain
  hUnits := by
    rw [shuffled.hList]
    exact ok.hUnits
  srSize := shuffled.srSize.trans ok.srSize
  rSize := shuffled.rSize.trans ok.rSize
  rFits := fits
  hFits := by
    rw [shuffled.hList]
    exact ok.hFits
  nodup := by
    rw [shuffled.hList]
    exact (shuffled.held.append_right _).nodup_iff.mpr ok.nodup

theorem Units.held_nodup (ok : Units n s) : s.held.Nodup := (List.nodup_append.mp ok.nodup).1

theorem find_of_resident {M : Type} {q : Fifo M} (member : x ∈ resident q) :
    ∃ o, q.find x = some o ∧ o.objId = x := by
  cases found : q.find x with
  | none => exact absurd member (Fifo.find_eq_none.mp found)
  | some o => exact ⟨o, rfl, Fifo.find_objId found⟩

theorem find_of_absent {M : Type} {q : Fifo M} (absent : x ∉ resident q) : q.find x = none :=
  Fifo.find_eq_none.mpr absent

theorem mem_promote {M : Type} {q : Fifo M} {o : CacheObj M} (member : o ∈ (q.promote x).objs) :
    o ∈ q.objs := by
  cases found : q.find x with
  | none =>
    rw [Fifo.promote_of_absent found] at member
    exact member
  | some p =>
    rw [Fifo.objs_promote found] at member
    rcases List.mem_append.mp member with old | new
    · exact List.mem_of_mem_eraseP old
    · rw [List.mem_singleton.mp new]
      exact Fifo.find_mem found

theorem srLruFind_inR (ok : Units n s) (inR : r.objId ∈ resident s.rList) :
    ∃ t, srLruFind (units n) s r = .ok (true, t) ∧ Units n t ∧ Shuffled s t := by
  have notSr : r.objId ∉ resident s.srList := fun inSr =>
    (List.nodup_append.mp ok.held_nodup).2.2 _ inSr _ inR rfl
  have missing := find_of_absent notSr
  obtain ⟨o, found, -⟩ := find_of_resident inR
  have promoted := resident_promote inR
  have shuffled : Shuffled s { s with rList := s.rList.promote r.objId } := by
    refine ⟨?_, rfl, rfl, rfl, rfl⟩
    rw [State.held, promoted]
    exact (touch_perm inR).append_left _
  refine ⟨{ s with rList := s.rList.promote r.objId }, ?_, ok.shuffled ?_ ?_ ?_, ?_⟩
  · simp only [srLruFind, Fifo.promote_of_absent missing, missing, found, Option.isSome_some]
  · exact shuffled
  · exact ⟨ok.srUnits, promote_units ok.rUnits _, fun p member => ok.plain p (mem_promote member)⟩
  · rw [promoted, (touch_perm inR).length_eq]
    exact ok.rFits
  · exact shuffled

theorem moved_plain (plain : Plain s) (x : Nat) (unit : o.bytes = 1) : Plain { s with
      rList := s.rList.insert o.toRequest {}
      srList := (s.srList.promote x).remove o.objId
      entries := o :: s.entries } := by
  refine ⟨remove_units (promote_units plain.srUnits _) _, insert_units plain.rUnits (toRequest_unit unit) _, ?_⟩
  intro p member
  rcases List.mem_append.mp member with old | new
  · exact plain.plain p old
  · rw [List.mem_singleton.mp new]
    rfl

theorem srLruFind_inSr (ok : Units n s) (inSr : r.objId ∈ resident s.srList) :
    ∃ t, srLruFind (units n) s r = .ok (true, t) ∧ Units n t ∧ Shuffled s t := by
  have notR : r.objId ∉ resident s.rList := fun inR =>
    (List.nodup_append.mp ok.held_nodup).2.2 _ inSr _ inR rfl
  have missing := find_of_absent notR
  have promoted := resident_promote inSr
  obtain ⟨o, found, own⟩ : ∃ o, (s.srList.promote r.objId).find r.objId = some o ∧ o.objId = r.objId :=
    find_of_resident (by rw [promoted, touch]; simp)
  have unit := promote_units ok.srUnits r.objId o (Fifo.find_mem found)
  generalize moving : ({ s with
    rList := s.rList.insert o.toRequest {}
    srList := (s.srList.promote r.objId).remove o.objId
    entries := o :: s.entries } : State) = u
  have shuffled : Shuffled s u := by
    rw [← moving]
    refine ⟨?_, rfl, rfl, rfl, rfl⟩
    have back : o.toRequest.objId = r.objId := own
    have taken := (List.perm_cons_erase (List.mem_append_right ((resident s.srList).erase r.objId)
      (List.mem_singleton_self r.objId))).symm.trans (touch_perm inSr)
    simp only [State.held, resident_insert, resident_remove, promoted, own, back]
    rw [← List.append_assoc]
    exact (List.perm_append_singleton _ _).trans (taken.append_right (resident s.rList))
  have plain : Plain u := by
    rw [← moving]
    exact moved_plain ok.toPlain r.objId unit
  have size : u.rSize = (n / 2 : Nat) := shuffled.rSize.trans ok.rSize
  have crowded : (resident u.rList).length + 0 ≤ n / 2 + 1 := by
    rw [← moving]
    have := ok.rFits
    simp
    omega
  obtain ⟨t, run, shuffled', plain', fits⟩ := demote_makes_room (n := n) plain size (Nat.zero_le _) crowded
  refine ⟨t, ?_, ok.shuffled (shuffled.trans shuffled') plain' fits, shuffled.trans shuffled'⟩
  have moved : moveToR (units n) { s with srList := s.srList.promote r.objId } o = .ok t := by
    rw [moveToR, moving]
    exact run
  simp only [srLruFind, Fifo.promote_of_absent missing, missing, found, Option.isSome_none, moved]
  show (adjustOnHit (units n) t r.objId >>= _) = _
  rw [adjustOnHit_plain plain']
  rfl

theorem srLruFind_units (ok : Units n s) (r : Request) :
    ∃ t, srLruFind (units n) s r = .ok (decide (r.objId ∈ s.held), t) ∧ Units n t ∧ Shuffled s t := by
  by_cases inR : r.objId ∈ resident s.rList
  · obtain ⟨t, run, after⟩ := srLruFind_inR ok inR
    have present : r.objId ∈ s.held := List.mem_append_right _ inR
    exact ⟨t, by rw [run, decide_eq_true present], after⟩
  · by_cases inSr : r.objId ∈ resident s.srList
    · obtain ⟨t, run, after⟩ := srLruFind_inSr ok inSr
      have present : r.objId ∈ s.held := List.mem_append_left _ inSr
      exact ⟨t, by rw [run, decide_eq_true present], after⟩
    · have absent : ¬ r.objId ∈ s.held := fun member =>
        (List.mem_append.mp member).elim inSr inR
      refine ⟨s, ?_, ok, .refl s⟩
      rw [decide_eq_false absent]
      have noneR := find_of_absent inR
      have noneSr := find_of_absent inSr
      simp only [srLruFind, Fifo.promote_of_absent noneR, Fifo.promote_of_absent noneSr, noneR, noneSr,
        Option.isSome_none]

/-! ## Insertion -/

theorem srLruCanInsert_units (ok : Units n s) (large : 2 ≤ n) (x : Nat) :
    srLruCanInsert (units n) s ⟨x, 1⟩ = true := by
  have srSize := ok.srSize
  have rSize := ok.rSize
  rw [srLruCanInsert]
  simp only [units, Params.srLruMdSize, srSize, rSize]
  split <;> simp <;> omega

structure Entered (n : Nat) (s : State) (x : Nat) (t : State) : Prop extends Units n t where
  held : t.held.Perm (x :: s.held)
  history : resident t.hList = (resident s.hList).erase x
  nEvict : t.nEvict = s.nEvict

theorem entered_nodup (ok : Units n s) (new : x ∉ s.held) (held : t.held.Perm (x :: s.held))
    (history : resident t.hList = (resident s.hList).erase x) :
    (t.held ++ resident t.hList).Nodup := by
  rw [history, (held.append_right _).nodup_iff, List.cons_append]
  obtain ⟨nodup, hNodup, apart⟩ := List.nodup_append.mp ok.nodup
  refine List.nodup_cons.mpr ⟨fun member => ?_, ?_⟩
  · rcases List.mem_append.mp member with here | past
    · exact new here
    · exact hNodup.not_mem_erase past
  · refine List.nodup_append.mpr ⟨nodup, hNodup.erase x, fun a here b past => ?_⟩
    exact apart a here b (List.mem_of_mem_erase past)

theorem Units.enter (ok : Units n s) (new : x ∉ s.held) (plain : Plain t)
    (hUnits : ∀ o ∈ t.hList.objs, o.bytes = 1) (rFits : (resident t.rList).length ≤ n / 2)
    (srSize : t.srSize = s.srSize) (rSize : t.rSize = s.rSize) (nEvict : t.nEvict = s.nEvict)
    (held : t.held.Perm (x :: s.held)) (history : resident t.hList = (resident s.hList).erase x) :
    Entered n s x t :=
  { plain with
    hUnits := hUnits
    srSize := srSize.trans ok.srSize
    rSize := rSize.trans ok.rSize
    rFits := rFits
    hFits := by
      rw [history]
      exact List.length_erase_le.trans_lt ok.hFits
    nodup := entered_nodup ok new held history
    held := held
    history := history
    nEvict := nEvict }

theorem enter_new (ok : Units n s) (unit : r.objSize = 1) (new : r.objId ∉ s.held)
    (unknown : r.objId ∉ resident s.hList) :
    ∃ t, enter (units n) s r = .ok t ∧ Entered n s r.objId t := by
  have missing := find_of_absent unknown
  refine ⟨{ s with srList := s.srList.insert r { newObj := true } }, ?_, ?_⟩
  · rw [enter, missing]
    rfl
  · refine ok.enter new ⟨insert_units ok.srUnits unit _, ok.rUnits, ok.plain⟩ ok.hUnits ok.rFits rfl rfl
      rfl ?_ (List.erase_of_not_mem unknown).symm
    simp only [State.held, resident_insert, List.append_assoc]
    exact List.perm_middle

theorem insertR_plain (plain : Plain s) (unit : r.objSize = 1) :
    Plain { s with rList := s.rList.insert r {}, entries := createCacheObj r {} :: s.entries } := by
  refine ⟨plain.srUnits, insert_units plain.rUnits unit _, fun p member => ?_⟩
  rcases List.mem_append.mp member with old | fresh
  · exact plain.plain p old
  · rw [List.mem_singleton.mp fresh]
    rfl

theorem enter_known (ok : Units n s) (large : 2 ≤ n) (unit : r.objSize = 1) (new : r.objId ∉ s.held)
    (known : r.objId ∈ resident s.hList) :
    ∃ t, enter (units n) s r = .ok t ∧ Entered n s r.objId t := by
  obtain ⟨o, found, -⟩ := find_of_resident known
  have plain : Plain { s with hList := s.hList.remove r.objId } := ⟨ok.srUnits, ok.rUnits, ok.plain⟩
  have small : 1 ≤ n / 2 := by omega
  obtain ⟨v, run, shuffled, plain', fits⟩ :=
    demote_makes_room (n := n) plain ok.rSize small (Nat.succ_le_succ ok.rFits)
  have plainAfter := insertR_plain plain' unit
  have history : resident v.hList = (resident s.hList).erase r.objId := by
    rw [shuffled.hList, resident_remove]
  refine ⟨{ v with rList := v.rList.insert r {}, entries := createCacheObj r {} :: v.entries }, ?_, ?_⟩
  · have need : ((r.objSize : Int) + ((units n).srLruMdSize : Int)) = ((1 : Nat) : Int) := by
      rw [unit]
      rfl
    rw [enter, found]
    simp only [Option.isSome_some, if_true]
    rw [insertFromHistory, need, run]
    exact adjustOnReturn_plain plainAfter _ _
  · refine ok.enter new plainAfter ?_ ?_ shuffled.srSize shuffled.rSize shuffled.nEvict ?_ history
    · show ∀ o ∈ v.hList.objs, o.bytes = 1
      rw [shuffled.hList]
      exact remove_units ok.hUnits _
    · rw [resident_insert, List.length_append]
      exact fits
    · simp only [State.held, resident_insert]
      rw [← List.append_assoc]
      exact (List.perm_append_singleton _ _).trans (shuffled.held.cons _)

theorem enter_units (ok : Units n s) (large : 2 ≤ n) (unit : r.objSize = 1) (new : r.objId ∉ s.held) :
    ∃ t, enter (units n) s r = .ok t ∧ Entered n s r.objId t := by
  by_cases known : r.objId ∈ resident s.hList
  · exact enter_known ok large unit new known
  · exact enter_new ok unit new known

/-! ## Eviction -/

/-- The history after one more id: the oldest one goes if there are `n` of them. -/
def pushed (n : Nat) (h : List Nat) (x : Nat) : List Nat :=
  (if h.length + 1 < n then h else h.tail) ++ [x]

theorem mem_pushed_self (n : Nat) (h : List Nat) (x : Nat) : x ∈ pushed n h x := by
  simp [pushed]

theorem pushed_sublist (n : Nat) (h : List Nat) (x : Nat) : (pushed n h x).Sublist (h ++ [x]) := by
  rw [pushed]
  split
  · exact List.Sublist.refl _
  · exact (List.tail_sublist h).append_right _

theorem pushed_length {h : List Nat} (large : 2 ≤ n) (fits : h.length < n) :
    (pushed n h x).length < n := by
  rw [pushed]
  split
  · simpa
  · simp
    omega

structure Left (n : Nat) (s : State) (x : Nat) (t : State) : Prop extends Units n t where
  held : (x :: t.held).Perm s.held
  history : resident t.hList = pushed n (resident s.hList) x
  nEvict : t.nEvict = s.nEvict

theorem Left.entry (left : Left n s x t) : x ∈ resident t.hList := by
  rw [left.history]
  exact mem_pushed_self _ _ _

theorem trimHistory_kept (large : 2 ≤ n) (hUnits : ∀ o ∈ s.hList.objs, o.bytes = 1)
    (hFits : (resident s.hList).length < n) (unit : o.bytes = 1) (mark : Bool) :
    ∃ q, trimHistory (units n) (pushHistory s o mark) = .ok { pushHistory s o mark with hList := q } ∧
      q.objs = (if s.hList.objs.length + 1 < n then s.hList.objs else s.hList.objs.tail) ++
        [createCacheObj o.toRequest { demoted := mark, newObj := o.tag.newObj }] := by
  have ones : ∀ p ∈ (pushHistory s o mark).hList.objs, p.bytes = 1 :=
    insert_units hUnits (toRequest_unit unit) _
  have occupied := occupied_units (n := n) ones
  have size : ((units n).cacheSize : Int) = n := rfl
  have length : (resident (pushHistory s o mark).hList).length = s.hList.objs.length + 1 := by
    rw [resident, List.length_map]
    exact List.length_append
  rw [length] at occupied
  rw [resident, List.length_map] at hFits
  by_cases room : s.hList.objs.length + 1 < n
  · refine ⟨(pushHistory s o mark).hList, trimHistory_idle (by omega), ?_⟩
    rw [if_pos room]
    rfl
  · cases oldest : s.hList.objs with
    | nil =>
      rw [oldest] at room
      simp at room
      omega
    | cons a rest =>
      have first : (pushHistory s o mark).hList.objs = a :: (rest ++ [createCacheObj o.toRequest
          { demoted := mark, newObj := o.tag.newObj }]) := by
        show s.hList.objs ++ _ = _
        rw [oldest]
        rfl
      have left := Fifo.objs_remove_oldest first
      have occupied' := occupied_units (n := n) (remove_units ones a.objId)
      rw [resident, left, List.length_map, List.length_append, List.length_singleton] at occupied'
      rw [oldest, List.length_cons] at hFits room occupied
      refine ⟨_, trimHistory_one first (by omega) (by omega), ?_⟩
      rw [left, List.length_cons, if_neg room]
      rfl

theorem trimHistory_pushed (large : 2 ≤ n) (hUnits : ∀ o ∈ s.hList.objs, o.bytes = 1)
    (hFits : (resident s.hList).length < n) (unit : o.bytes = 1) (mark : Bool) :
    ∃ q, trimHistory (units n) (pushHistory s o mark) = .ok { pushHistory s o mark with hList := q } ∧
      resident q = pushed n (resident s.hList) o.objId ∧ ∀ p ∈ q.objs, p.bytes = 1 := by
  obtain ⟨q, run, objs⟩ := trimHistory_kept large hUnits hFits unit mark
  refine ⟨q, run, ?_, fun p member => ?_⟩
  · rw [resident, objs, List.map_append, pushed, resident, List.length_map]
    split
    · rfl
    · rw [List.map_tail]
      rfl
  · have all := insert_units hUnits (toRequest_unit unit) { demoted := mark, newObj := o.tag.newObj }
    rw [objs] at member
    rcases List.mem_append.mp member with old | fresh
    · split at old
      · exact hUnits p old
      · exact hUnits p (List.mem_of_mem_tail old)
    · exact all p (List.mem_append_right _ fresh)

theorem pushHistory_left (ok : Units n s) (large : 2 ≤ n) (unit : o.bytes = 1) (mark : Bool)
    {u : State} (plain : Plain u) (held : (o.objId :: u.held).Perm s.held)
    (fits : (resident u.rList).length ≤ n / 2) (hList : u.hList = s.hList)
    (srSize : u.srSize = s.srSize) (rSize : u.rSize = s.rSize) (nEvict : u.nEvict = s.nEvict) :
    ∃ t, trimHistory (units n) (pushHistory u o mark) = .ok t ∧ Left n s o.objId t := by
  have hUnits := ok.hUnits
  have hFits := ok.hFits
  rw [← hList] at hUnits hFits
  obtain ⟨q, run, history, ones⟩ := trimHistory_pushed large hUnits hFits unit mark
  rw [hList] at history
  refine ⟨_, run, ?_⟩
  exact
    { srUnits := plain.srUnits
      rUnits := plain.rUnits
      plain := plain.plain
      hUnits := ones
      srSize := srSize.trans ok.srSize
      rSize := rSize.trans ok.rSize
      rFits := fits
      hFits := by
        rw [history]
        exact pushed_length large ok.hFits
      nodup := by
        rw [history]
        have all : (u.held ++ (resident s.hList ++ [o.objId])).Perm (s.held ++ resident s.hList) := by
          rw [← List.append_assoc]
          exact (List.perm_append_singleton _ _).trans (held.append_right _)
        exact (all.nodup_iff.mpr ok.nodup).sublist
          ((pushed_sublist n (resident s.hList) o.objId).append_left u.held)
      held := held
      history := history
      nEvict := nEvict }

theorem take_srList (member : o.objId ∈ resident s.srList) :
    (o.objId :: State.held { s with srList := s.srList.remove o.objId }).Perm s.held := by
  simp only [State.held, resident_remove, ← List.cons_append]
  exact (List.perm_cons_erase member).symm.append_right _

theorem take_rList (member : o.objId ∈ resident s.rList) :
    (o.objId :: State.held { s with rList := s.rList.remove o.objId }).Perm s.held := by
  simp only [State.held, resident_remove]
  exact List.perm_middle.symm.trans ((List.perm_cons_erase member).symm.append_left _)

theorem srLruEvict_of_victim (victim : srLruToEvict b s = .ok o) :
    srLruEvict b s = trimHistory b (pushHistory (if 0 < occupied b s.srList then
      { s with srList := s.srList.remove o.objId } else { s with rList := s.rList.remove o.objId })
      o o.tag.demoted) := by
  rw [srLruEvict, victim]
  rfl

theorem srLruEvict_units (ok : Units n s) (large : 2 ≤ n) (full : s.held.length = n) :
    ∃ o t, srLruToEvict (units n) s = .ok o ∧ srLruEvict (units n) s = .ok t ∧ o.bytes = 1 ∧
      Left n s o.objId t := by
  have bytes := occupied_units (n := n) ok.srUnits
  have sum : (resident s.srList).length + (resident s.rList).length = n := by
    rw [← full, State.held, List.length_append]
  have rFits := ok.rFits
  cases oldest : s.srList.objs with
  | nil =>
    rw [resident, oldest] at sum
    simp at sum
    omega
  | cons o rest =>
    have unit := ok.srUnits o (oldest ▸ List.mem_cons_self)
    have member : o.objId ∈ resident s.srList := by
      rw [resident, oldest]
      exact List.mem_cons_self
    have some_ := List.length_pos_of_mem member
    have victim : srLruToEvict (units n) s = .ok o := by
      rw [srLruToEvict, if_neg (by omega), tail_cons oldest]
    obtain ⟨t, run, left⟩ := pushHistory_left ok large unit o.tag.demoted
      (u := { s with srList := s.srList.remove o.objId })
      ⟨remove_units ok.srUnits _, ok.rUnits, ok.plain⟩ (take_srList member) ok.rFits rfl rfl rfl rfl
    refine ⟨o, t, victim, ?_, unit, left⟩
    rw [srLruEvict_of_victim victim, if_pos (by omega)]
    exact run

theorem srLruRemove_units (ok : Units n s) (large : 2 ≤ n) (member : x ∈ s.held) :
    ∃ t, srLruRemove (units n) s x = .ok t ∧ Left n s x t := by
  by_cases inR : x ∈ resident s.rList
  · obtain ⟨o, found, rfl⟩ := find_of_resident inR
    have unit := ok.rUnits o (Fifo.find_mem found)
    have fits : ((resident s.rList).erase o.objId).length ≤ n / 2 :=
      (List.length_erase_le).trans ok.rFits
    obtain ⟨t, run, left⟩ := pushHistory_left ok large unit false
      (u := { s with rList := s.rList.remove o.objId })
      ⟨ok.srUnits, remove_units ok.rUnits _, fun p kept => ok.plain p (by
        rw [Fifo.objs_remove] at kept
        exact List.mem_of_mem_eraseP kept)⟩ (take_rList inR) (by rwa [resident_remove]) rfl rfl rfl rfl
    refine ⟨t, ?_, left⟩
    rw [srLruRemove, found]
    exact run
  · have inSr : x ∈ resident s.srList := (List.mem_append.mp member).resolve_right inR
    have missing := find_of_absent inR
    obtain ⟨o, found, rfl⟩ := find_of_resident inSr
    have unit := ok.srUnits o (Fifo.find_mem found)
    obtain ⟨t, run, left⟩ := pushHistory_left ok large unit false
      (u := { s with srList := s.srList.remove o.objId })
      ⟨remove_units ok.srUnits _, ok.rUnits, ok.plain⟩ (take_srList inSr) ok.rFits rfl rfl rfl rfl
    refine ⟨t, ?_, left⟩
    rw [srLruRemove, missing, found]
    exact run

end Cacheus
