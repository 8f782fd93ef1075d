import CacheEviction.MerlinUnitSizes

/-!
# The epoch clock of Merlin

`evictobj_num` counts the evictions of an epoch and is tested for equality with
the number of resident objects. An eviction that is followed by an insertion
leaves that number where it was, so the counter cannot pass it. A request that
needs a second eviction lowers the number while the counter rises, and the two can
cross.
-/
namespace MerlinPolicy

open FuelLoops FifoCache WeightedLists StepTraces

variable {b : Budgets} {cbf : CountingFilter.Cbf} {s t : State} {r : Request} {fuel : Nat}
variable {c x y : Config} {es : List (Config × Config)}

/-- The request is no larger than the cache, and where one more eviction is due
before the epoch closes, each resident object is large enough to make room. -/
def OneSuffices (b : Budgets) (c : Config) : Prop :=
  ∀ r, c.point = .serving r → r.objSize ≤ b.cacheSize ∧
    (overfull b c.state r = true → c.state.evictobjNum + 2 = merlinGetNObj c.state →
      ∀ o ∈ c.state.residents, merlinGetOccupiedByte c.state - o.bytes + r.objSize ≤ b.cacheSize)

def closes (e : Config × Config) : Prop :=
  evicts e ∧ e.1.state.evictobjNum + 1 = merlinGetNObj e.1.state

instance : DecidablePred evicts := fun _ => inferInstanceAs (Decidable (_ ∧ _))

/-- The counter has not reached the number of resident objects, unless the request
being served has made all its evictions. -/
def InTime (b : Budgets) (c : Config) : Prop :=
  0 ≤ c.state.evictobjNum ∧ (c.state.evictobjNum = 0 ∨
    c.state.evictobjNum < merlinGetNObj c.state ∨
    ∃ r, c.point = .serving r ∧ merlinCanInsert b r = true ∧ overfull b c.state r = false ∧
      c.state.evictobjNum ≤ merlinGetNObj c.state)

/-! ## One eviction -/

theorem graduate_evictobjNum (b : Budgets) (s : State) (o : Obj) :
    (graduate b s o).evictobjNum = s.evictobjNum := by
  obtain ⟨hot, q, frame⟩ := unshadowed_frame s o
  show (unshadowed s o).evictobjNum = s.evictobjNum
  rw [frame]

theorem Cools.evictobjNum (h : Cools b s t) : t.evictobjNum = s.evictobjNum := by
  induction h with
  | refl => rfl
  | tail _ cooling ih =>
    cases cooling with
    | demote => exact ih
    | graduate => exact (graduate_evictobjNum _ _ _).trans ih

theorem Promotes.evictobjNum {l : List Obj} (h : Promotes b s l t) :
    t.evictobjNum = s.evictobjNum := by
  induction h with
  | nil => rfl
  | snoc _ _ _ _ ih => exact ih

theorem RoomMade.evictobjNum (h : RoomMade b r s t) : t.evictobjNum = s.evictobjNum := by
  cases h with
  | filter _ promoted exit =>
    have kept := promoted.evictobjNum
    cases exit with
    | exhausted | swap | retire => exact kept
  | @staging u v _ cooled =>
    have kept : u.evictobjNum = s.evictobjNum := Cools.evictobjNum cooled
    exact kept
  | @replace u o v _ cooled =>
    have kept : u.evictobjNum = s.evictobjNum := Cools.evictobjNum cooled
    exact kept

theorem countEviction_evictobjNum (b : Budgets) (s : State) : (countEviction b s).evictobjNum =
    if s.evictobjNum + 1 = merlinGetNObj s then 0 else s.evictobjNum + 1 := by
  simp only [countEviction]
  split
  · split <;> rfl
  · rfl

theorem evict_evictobjNum (h : merlinEvict b fuel s r = .ok t) : t.evictobjNum =
    if s.evictobjNum + 1 = merlinGetNObj s then 0 else s.evictobjNum + 1 := by
  obtain ⟨g, u, adjusted, room, trimmed⟩ := evict_cases h
  obtain ⟨hot, q, rfl⟩ := adjustGhost_frame trimmed
  have kept : u.evictobjNum = g.evictobjNum := room.evictobjNum
  have counted : g.evictobjNum = (countEviction b s).evictobjNum := by rw [adjustguard_ok adjusted]
  show u.evictobjNum = _
  rw [kept, counted, countEviction_evictobjNum]

theorem evict_nObj (h : merlinEvict b fuel s r = .ok t) :
    merlinGetNObj t = merlinGetNObj s ∨
    (merlinGetNObj t + 1 = merlinGetNObj s ∧ ∃ o ∈ s.residents,
      merlinGetOccupiedByte t = merlinGetOccupiedByte s - o.bytes) := by
  obtain ⟨x, change⟩ := evict_change h
  have count := change one one_blind
  have bytes := change CacheObj.bytes (fun _ _ => rfl)
  rw [← getNObj_eq_load, ← getNObj_eq_load] at count
  rw [← occupied_eq_load, ← occupied_eq_load] at bytes
  cases x with
  | none =>
    left
    simpa using count.symm
  | some v =>
    have member : identity v ∈ s.contents := by
      rw [contents_cons change]
      exact Multiset.mem_cons_self _ _
    obtain ⟨o, resident, same⟩ := List.mem_map.mp (Multiset.mem_coe.mp member)
    have size : o.bytes = v.bytes := congrArg (fun p : Nat × UInt32 => (p.2.toNat : Int)) same
    simp only [Option.map_some, Option.getD_some, one] at count bytes
    exact Or.inr ⟨by omega, o, resident, by omega⟩

theorem occupied_of_none (h : merlinGetNObj s ≤ 0) : merlinGetOccupiedByte s = 0 := by
  have each : ∀ q : Fifo Meta, q.nObj ≤ 0 → q.occupiedByte = 0 := by
    intro q none
    rw [q.nObj_eq] at none
    rw [q.occupied_eq, List.length_eq_zero_iff.mp (show q.objs.length = 0 by omega)]
    rfl
  have filter := s.filter.nObj_eq
  have staging := s.staging.nObj_eq
  have core := s.core.nObj_eq
  simp only [merlinGetNObj] at h
  rw [merlinGetOccupiedByte, each _ (by omega), each _ (by omega), each _ (by omega)]
  rfl

theorem InTime.test (h : InTime b ⟨.serving r, s⟩) (size : r.objSize ≤ b.cacheSize)
    (full : overfull b s r = true) : s.evictobjNum + 1 ≤ merlinGetNObj s := by
  have crowded : (b.cacheSize : Int) < merlinGetOccupiedByte s + r.objSize := by
    simpa [overfull] using full
  obtain ⟨_, opened | below | ⟨q, serving, _, room, _⟩⟩ := h
  · by_contra more
    dsimp only at opened
    have empty := occupied_of_none (s := s) (by omega)
    omega
  · dsimp only at below
    omega
  · cases serving
    dsimp only at room
    rw [full] at room
    cases room

theorem evict_inTime (fits : merlinCanInsert b r = true) (full : overfull b s r = true)
    (evicted : merlinEvict b fuel s r = .ok t) (suffices_ : OneSuffices b ⟨.serving r, s⟩)
    (inTime : InTime b ⟨.serving r, s⟩) : InTime b ⟨.serving r, t⟩ := by
  obtain ⟨size, enough⟩ := suffices_ r rfl
  have tested := inTime.test size full
  have counter := evict_evictobjNum evicted
  have nonneg : 0 ≤ s.evictobjNum := inTime.1
  by_cases closing : s.evictobjNum + 1 = merlinGetNObj s
  · rw [if_pos closing] at counter
    exact ⟨by show 0 ≤ t.evictobjNum; omega, Or.inl counter⟩
  · rw [if_neg closing] at counter
    refine ⟨by show 0 ≤ t.evictobjNum; omega, Or.inr ?_⟩
    show t.evictobjNum < merlinGetNObj t ∨ _
    rcases evict_nObj evicted with kept | ⟨fewer, o, resident, bytes⟩
    · left
      omega
    · by_cases last : s.evictobjNum + 2 = merlinGetNObj s
      · have room := enough full last o resident
        right
        refine ⟨r, rfl, fits, ?_, by show t.evictobjNum ≤ merlinGetNObj t; omega⟩
        show overfull b t r = false
        dsimp only at room
        simp only [overfull, gt_iff_lt, decide_eq_false_iff_not]
        omega
      · left
        omega

/-! ## Whole runs -/

theorem Lookup.clock {hit : Bool} (h : Lookup s r hit t) :
    t.evictobjNum = s.evictobjNum ∧ merlinGetNObj t = merlinGetNObj s := by
  have counts := h.load_eq one_blind
  constructor
  · cases h <;> rfl
  · rw [getNObj_eq_load, getNObj_eq_load, counts]

theorem insert_clock (b : Budgets) (s : State) (r : Request) :
    (merlinInsert b s r).evictobjNum = s.evictobjNum ∧
      merlinGetNObj (merlinInsert b s r) = merlinGetNObj s + 1 := by
  have placed := insert_placement b s r
  constructor
  · generalize merlinInsert b s r = t at placed
    cases placed <;> rfl
  · rw [getNObj_eq_load, getNObj_eq_load]
    exact placed.counts.1

theorem Lookup.inTime {hit : Bool} {p : Point} (h : Lookup s r hit t)
    (inTime : InTime b ⟨.idle, s⟩) : InTime b ⟨p, t⟩ := by
  obtain ⟨counter, count⟩ := h.clock
  obtain ⟨nonneg, opened | below | ⟨q, serving, _⟩⟩ := inTime
  · exact ⟨counter ▸ nonneg, Or.inl (counter.trans opened)⟩
  · refine ⟨counter ▸ nonneg, Or.inr (Or.inl ?_)⟩
    show t.evictobjNum < merlinGetNObj t
    rw [counter, count]
    exact below
  · cases serving

theorem step_inTime (suffices_ : OneSuffices b x) (inTime : InTime b x) (step : Step b x y) :
    InTime b y := by
  cases step with
  | hit _ find => exact (find_lookup find).inTime inTime
  | miss _ find => exact (find_lookup find).inTime inTime
  | @reject s r large =>
    obtain ⟨nonneg, opened | below | ⟨q, serving, fits, _⟩⟩ := inTime
    · exact ⟨nonneg, Or.inl opened⟩
    · exact ⟨nonneg, Or.inr (Or.inl below)⟩
    · cases serving
      rw [large] at fits
      cases fits
  | evict fits full evicted => exact evict_inTime fits full evicted suffices_ inTime
  | @insert s r _ _ =>
    obtain ⟨counter, count⟩ := insert_clock b s r
    have nonneg : 0 ≤ s.evictobjNum := inTime.1
    have most : s.evictobjNum = 0 ∨ s.evictobjNum ≤ merlinGetNObj s := by
      obtain ⟨_, opened | below | ⟨_, _, _, _, le⟩⟩ := inTime
      · exact Or.inl opened
      · exact Or.inr (le_of_lt below)
      · exact Or.inr le
    refine ⟨by show 0 ≤ (merlinInsert b s r).evictobjNum; omega, ?_⟩
    show (merlinInsert b s r).evictobjNum = 0 ∨ (merlinInsert b s r).evictobjNum <
      merlinGetNObj (merlinInsert b s r) ∨ _
    rcases most with opened | le
    · exact Or.inl (counter.trans opened)
    · exact Or.inr (Or.inl (by omega))

theorem run_inTime (run : Run b cbf es c) (enough : ∀ e ∈ es, OneSuffices b e.1) : InTime b c := by
  induction run with
  | nil => exact ⟨le_refl _, Or.inl rfl⟩
  | @snoc es x y _ step ih =>
    have earlier := ih (fun e mem => enough e (List.mem_append_left _ mem))
    exact step_inTime (enough (x, y) (by simp)) earlier step

theorem step_evictobjNum (step : Step b x y) (open_ : ¬ closes (x, y)) :
    y.state.evictobjNum = x.state.evictobjNum + if evicts (x, y) then 1 else 0 := by
  cases step with
  | hit _ find => simpa [evicts] using (find_lookup find).clock.1
  | miss _ find => simpa [evicts] using (find_lookup find).clock.1
  | reject => simp [evicts]
  | @evict s t r _ _ _ evicted =>
    have counter := evict_evictobjNum evicted
    have is : evicts (⟨.serving r, s⟩, ⟨.serving r, t⟩) := by simp [evicts]
    rw [if_neg (fun closing => open_ ⟨is, closing⟩)] at counter
    rw [if_pos is]
    exact counter
  | @insert s r => simpa [evicts] using (insert_clock b s r).1

theorem trace_evictobjNum (trace : Trace (Step b) x es y) (open_ : ∀ e ∈ es, ¬ closes e) :
    y.state.evictobjNum = x.state.evictobjNum + es.countP (fun e => evicts e) := by
  induction trace with
  | nil => simp
  | @snoc es m y _ step ih =>
    have earlier := ih (fun e mem => open_ e (List.mem_append_left _ mem))
    have last := step_evictobjNum step (open_ (m, y) (by simp))
    rw [last, earlier, List.countP_append, List.countP_singleton]
    simp only [decide_eq_true_eq]
    push_cast
    split <;> omega

theorem unit_oneSuffices (held : 1 ≤ b.cacheSize) (run : Run b cbf es c)
    (units : ∀ e ∈ es, UnitSized e.1) (unit : UnitSized c) : OneSuffices b c := by
  intro r serving
  have size := unit r serving
  refine ⟨by omega, fun _ _ o resident => ?_⟩
  have none : total unsized c.state.residents = 0 := by
    rw [total_residents]
    exact (run_filled run units).units
  have byte := bytes_of_unit ((total_eq_zero_iff unsized_nonneg _).mp none o resident)
  have occupied := (reached_invariant ⟨es, run⟩).occupied
  simp only [one] at byte
  omega

theorem unit_run_oneSuffices (held : 1 ≤ b.cacheSize) (run : Run b cbf es c)
    (units : ∀ e ∈ es, UnitSized e.1) : ∀ e ∈ es, OneSuffices b e.1 := by
  intro e mem
  obtain ⟨before, after, parts⟩ := List.append_of_mem mem
  obtain ⟨first, _, _⟩ := run.split parts
  have earlier : ∀ f ∈ before, UnitSized f.1 := by
    intro f member
    exact units f (by rw [parts]; exact List.mem_append_left _ member)
  exact unit_oneSuffices held first earlier (units e mem)

/-- Dropping the older of these does not make room for two more bytes. -/
def oneThenTwo : List Request := [⟨1, 1⟩, ⟨2, 2⟩]

def wideFilter : Budgets := splitBudget 3 2 1 3 32 (fun id => (UInt32.ofNat id, 1))

end MerlinPolicy
