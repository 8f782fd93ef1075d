import CacheEviction.AdaptiveRuns

/-!
# CAR

`CAR.c` replaces the LRU order of ARC by clocks. A hit only sets the reference bit
of its object. Before an eviction the sweep of a list takes objects whose bit is set
from its tail to the head of `L2_data` and clears the bit. If that empties `L1_data`, a
replacement turns to `L2_data`, and a drop without ghost evicts nothing.
-/
namespace Car

open AdaptiveLists FuelLoops FifoCache CacheGet Binary64 StepTraces

variable {s : State Bool}

/-- The hit of `CAR_find`, case I. The tag of an object is its `access` bit. -/
def carHit (s : State Bool) (id : Nat) (e : Entry Bool) : State Bool :=
  s.store id (some { e with tag := true })

/-- One round of a sweep; `pass` is what it writes to the object. -/
def cycleRound (src : Place) (pass : Entry Bool → Entry Bool) (s : State Bool) :
    Except (Stop Fault) (Round (State Bool) (State Bool)) :=
  match (s.lists src).head? with
  | none => .ok (.done s)
  | some id =>
    match s.table id with
    | none => .error (.fault .assertFailed)
    | some e =>
      if e.tag then .ok (.again (s.relocate src .l2Data id e (pass e))) else .ok (.done s)

def carCycleL1 (fuel : Nat) (s : State Bool) : Except (Stop Fault) (State Bool) :=
  loop (cycleRound .l1Data fun e => { e with tag := false, lruId := .two }) fuel s

def carCycleL2 (fuel : Nat) (s : State Bool) : Except (Stop Fault) (State Bool) :=
  loop (cycleRound .l2Data fun e => { e with tag := false }) fuel s

/-- `_CAR_evict_L1_data`: whether there was an object left to evict. -/
def carEvictL1Data (fuel : Nat) (s : State Bool) : Except (Stop Fault) (Bool × State Bool) := do
  let s ← carCycleL1 fuel s
  if (s.lists .l1Data).isEmpty then return (false, s)
  else (evictData .l1Data .l1Ghost s).map fun s => (true, s)

def carEvictL1DataNoGhost (fuel : Nat) (s : State Bool) : Except (Stop Fault) (State Bool) := do
  let s ← carCycleL1 fuel s
  if (s.lists .l1Data).isEmpty then return s else evictNoGhost s

def carEvictL2Data (fuel : Nat) (s : State Bool) : Except (Stop Fault) (State Bool) := do
  let s ← carCycleL2 fuel s
  evictData .l2Data .l2Ghost s

def carReplace (fuel : Nat) (s : State Bool) : Except (Stop Fault) (State Bool) :=
  if prefersL1 s then do
    let (evicted, s) ← carEvictL1Data fuel s
    if evicted then return s else carEvictL2Data fuel s
  else carEvictL2Data fuel s

def variant : Variant Bool where
  fresh := false
  onHit := carHit
  replace := carReplace
  dropL1 := carEvictL1DataNoGhost

def carFind (c : Nat) : State Bool → Request → Except (Stop Fault) (Bool × State Bool) :=
  find variant c

def carInsert : State Bool → Request → Except (Stop Fault) (State Bool) := insert variant

def carEvict (c fuel : Nat) : State Bool → Request → Except (Stop Fault) (State Bool) :=
  evict variant c fuel

/-- `CAR_get` is `cache_get_base` over these. -/
def car (c : Nat) : Policy (State Bool) Fault where
  cacheSize := c
  tick s := { s with nReq := s.nReq + 1 }
  find := carFind c
  canInsert _ s r := .ok (r.objSize ≤ c, s)
  occupiedByte s := s.occupiedByte
  evict := carEvict c
  insert := carInsert

/-! ## The sweeps end -/

def accessed (s : State Bool) (id : Nat) : Bool := (s.table id).any Entry.tag

def marked (src : Place) (s : State Bool) : Nat := (s.lists src).countP (accessed s)

theorem marked_relocate {src : Place} {id : Nat} {rest : List Nat} {e e' : Entry Bool}
    (listed : Listed s) (shape : s.lists src = id :: rest) (found : s.table id = some e)
    (set : e.tag = true) (clear : e'.tag = false) :
    marked src (s.relocate src .l2Data id e e') + 1 = marked src s := by
  have absent : id ∉ rest := by
    intro member
    have count := listed src id
    rw [shape, List.count_cons_self] at count
    have positive := List.count_pos_iff.mpr member
    split at count <;> omega
  have others : rest.countP (accessed (s.relocate src .l2Data id e e')) = rest.countP (accessed s) := by
    refine List.countP_congr ?_
    intro i member
    have other : i ≠ id := by
      rintro rfl
      exact absent member
    simp [accessed, State.relocate, State.link, State.unlink, State.store, other]
  have passed : accessed (s.relocate src .l2Data id e e') id = false := by
    simp [accessed, State.relocate, State.store, clear]
  have own : accessed s id = true := by
    simp [accessed, found, set]
  have before : marked src s = rest.countP (accessed s) + 1 := by
    rw [marked, shape, List.countP_cons_of_pos own]
  have list : (s.relocate src .l2Data id e e').lists src = rest ∨
      (s.relocate src .l2Data id e e').lists src = rest ++ [id] := by
    by_cases same : src = .l2Data
    · subst same
      exact .inr (by simp [State.relocate, State.link, State.unlink, State.store, shape])
    · exact .inl (by simp [State.relocate, State.link, State.unlink, State.store, shape, same])
  rw [before, marked, ← others]
  rcases list with list | list
  · rw [list]
  · rw [list, List.countP_append, List.countP_singleton, if_neg (by simp [passed])]

theorem cycle_ends {src : Place} {pass : Entry Bool → Entry Bool}
    (data : src = .l1Data ∨ src = .l2Data)
    (names : ∀ e : Entry Bool, e.place = src → (pass e).place = .l2Data)
    (size : ∀ e, (pass e).objSize = e.objSize) (clear : ∀ e, (pass e).tag = false) (sound : Sound s) :
    Ends (fun n => loop (cycleRound src pass) n s) (Promoted s) := by
  refine Ends.loop (Promoted s) (marked src) ?_ (.refl sound)
  intro u promoted
  cases shape : u.lists src with
  | nil =>
    refine ⟨.done u, .of_eq fun _ => ?_, promoted⟩
    rw [cycleRound, shape]
    rfl
  | cons id rest =>
    have listed := promoted.sound.weighed.listed
    have nonempty : u.lists src ≠ [] := by
      rw [shape]
      exact List.cons_ne_nil id rest
    obtain ⟨id', rest', e, shape', _, found, placed⟩ := listed.tail nonempty
    rw [shape] at shape'
    cases shape'
    cases set : e.tag with
    | false =>
      refine ⟨.done u, .of_eq fun _ => ?_, promoted⟩
      rw [cycleRound, shape]
      simp only [List.head?_cons, found, set]
      rfl
    | true =>
      refine ⟨.again (u.relocate src .l2Data id e (pass e)), .of_eq fun _ => ?_, ?_, ?_⟩
      · rw [cycleRound, shape]
        simp only [List.head?_cons, found, set]
        rfl
      · exact promoted.trans
          (promoted_relocate promoted.sound found placed data (names e placed) (size e))
      · have less := marked_relocate listed shape found set (clear e)
        omega

theorem carCycleL1_ends (sound : Sound s) : Ends (fun n => carCycleL1 n s) (Promoted s) := by
  refine cycle_ends (.inl rfl) ?_ (fun _ => rfl) (fun _ => rfl) sound
  rintro ⟨_, _ | _, _ | _, _⟩ place <;> first | rfl | cases place

theorem carCycleL2_ends (sound : Sound s) : Ends (fun n => carCycleL2 n s) (Promoted s) := by
  refine cycle_ends (.inr rfl) ?_ (fun _ => rfl) (fun _ => rfl) sound
  rintro ⟨_, _ | _, _ | _, _⟩ place <;> first | rfl | cases place

/-! ## Evictions -/

theorem carEvictL2Data_ends (sound : Sound s) (nonempty : 0 < s.sizes .l2Data) :
    Ends (fun n => carEvictL2Data n s) (Demoted s) := by
  refine (carCycleL2_ends sound).bind (g := fun _ s => evictData .l2Data .l2Ghost s) ?_
  intro t promoted
  have remains : 0 < t.sizes .l2Data := by
    have data := promoted.data
    have l1Data := promoted.l1Data
    rw [State.data, State.data] at data
    omega
  obtain ⟨u, run, demoted⟩ := evictL2Data_demoted promoted.sound remains
  rw [run]
  exact Ends.const (promoted.demoted demoted)

/-! `L1_data` after the sweep: empty, or with an object to evict. -/

theorem size_of_isEmpty {place : Place} (sound : Sound s) (empty : (s.lists place).isEmpty = true) :
    s.sizes place = 0 := by
  rw [sound.weighed.size, List.isEmpty_iff.mp empty]
  rfl

theorem pos_of_not_isEmpty {place : Place} (sound : Sound s)
    (nonempty : (s.lists place).isEmpty = false) : 0 < s.sizes place :=
  sound.weighed.size_pos_iff.mpr (List.isEmpty_eq_false_iff.mp nonempty)

theorem carReplace_ends (sound : Sound s) (some : 1 ≤ s.data) :
    Ends (fun n => carReplace n s) (Demoted s) := by
  have nonempty := prefersL1_spec sound some
  unfold carReplace
  cases choice : prefersL1 s with
  | false =>
    rw [choice] at nonempty
    simp only [Bool.false_eq_true, if_false]
    exact carEvictL2Data_ends sound nonempty
  | true =>
    simp only [if_true]
    -- an eviction from `L1_data` happens, or leaves all objects in `L2_data`
    have tries : Ends (fun n => carEvictL1Data n s)
        fun a => if a.1 then Demoted s a.2 else Promoted s a.2 ∧ 0 < a.2.sizes .l2Data := by
      refine (carCycleL1_ends sound).bind (g := fun _ s => if (s.lists .l1Data).isEmpty then
        pure (false, s) else (evictData .l1Data .l1Ghost s).map fun s => (true, s)) ?_
      intro t promoted
      cases emptied : (t.lists .l1Data).isEmpty with
      | true =>
        simp only [if_true]
        refine Ends.const ⟨promoted, ?_⟩
        have zero := size_of_isEmpty promoted.sound emptied
        have data := promoted.data
        simp only [State.data] at some data
        show 0 < t.sizes .l2Data
        omega
      | false =>
        have remains := pos_of_not_isEmpty promoted.sound emptied
        obtain ⟨u, run, demoted⟩ := evictL1Data_demoted promoted.sound remains
        simp only [Bool.false_eq_true, if_false, run]
        exact Ends.const (promoted.demoted demoted)
    refine tries.bind (g := fun n a => if a.1 then pure a.2 else carEvictL2Data n a.2) ?_
    rintro ⟨evicted, t⟩ outcome
    cases evicted with
    | true => exact Ends.const outcome
    | false =>
      refine (carEvictL2Data_ends outcome.1.sound outcome.2).mono ?_
      intro u demoted
      exact outcome.1.demoted demoted

theorem carEvictL1DataNoGhost_ends (sound : Sound s) :
    Ends (fun n => carEvictL1DataNoGhost n s) (Shed s) := by
  refine (carCycleL1_ends sound).bind (g := fun _ s => if (s.lists .l1Data).isEmpty then pure s
    else evictNoGhost s) ?_
  intro t promoted
  cases emptied : (t.lists .l1Data).isEmpty with
  | true =>
    simp only [if_true]
    exact Ends.const (promoted.emptied (size_of_isEmpty promoted.sound emptied))
  | false =>
    have remains := pos_of_not_isEmpty promoted.sound emptied
    obtain ⟨u, run, shed⟩ := evictNoGhost_shed promoted.sound remains
    simp only [Bool.false_eq_true, if_false, run]
    exact Ends.const (promoted.shed shed)

theorem careful : variant.Careful where
  onHit := by
    intro s id e sound found data
    have weighed : Weighed (carHit s id e) := sound.weighed.store found rfl rfl
    exact ⟨⟨weighed, sound.occupied⟩, kept_store found rfl, rfl, le_rfl, rfl, rfl⟩
  replace := carReplace_ends
  dropL1 sound _ := carEvictL1DataNoGhost_ends sound

theorem lawful : variant.Lawful := careful.lawful

abbrev Gets (c : Nat) : State Bool → State Bool → Prop := Requested (car c) fun r => r.objSize = 1

/-- In every run with objects of one byte every request is served: the sweeps and
the eviction loop end, and no eviction reads the tail of an empty list. The lists
keep the bounds of CAR. -/
theorem gets_make_room {c : Nat} (positive : 1 ≤ c) {s : State Bool}
    (history : Reachable (Gets c) State.init s) (r : Request) (one : r.objSize = 1) :
    ∃ hit t, Serves (car c) s r hit t ∧ Bounded c t := by
  have valid := requests_valid lawful positive history
  obtain ⟨⟨hit, t⟩, served, after⟩ := serve_ends lawful positive valid one
  exact ⟨hit, t, served, after.bounded⟩

theorem carGet_mono (c : Nat) (s : State Bool) (r : Request) :
    FuelMono fun n => cacheGetBase (car c) n s r := by
  have cycles : ∀ src pass s, FuelMono fun n => loop (cycleRound src pass) n s :=
    fun src pass s => loop_mono (fun _ => cycleRound src pass) (fun _ => .const _) s
  have evictsL2 : ∀ s, FuelMono fun n => carEvictL2Data n s :=
    fun s => (cycles _ _ s).bind fun _ => .const _
  refine serve_mono (v := variant) ?_ ?_ c s r
  · intro s
    refine FuelMono.ite _ (FuelMono.bind ?_ ?_) (evictsL2 s)
    · exact (cycles _ _ s).bind fun _ => .const _
    · rintro ⟨evicted, t⟩
      exact FuelMono.ite _ (.const _) (evictsL2 t)
  · intro s
    exact (cycles _ _ s).bind fun _ => .const _

/-- Both objects of `L1_data` have been hit, so that the first call of the eviction
for object 3 evicts nothing. -/
theorem gets_make_room_sweep : ∃ s hit t, Reachable (Gets 2) State.init s ∧
    s.lists .l1Data = [1, 2] ∧ Serves (car 2) s ⟨3, 1⟩ hit t ∧ Bounded 2 t := by
  have returns : Returns (serveAll (car 2) 5 State.init [⟨1, 1⟩, ⟨2, 1⟩, ⟨1, 1⟩, ⟨2, 1⟩])
      (fun s => decide (s.lists .l1Data = [1, 2])) = true := by decide +kernel
  obtain ⟨s, run, swept⟩ := exists_of_returns returns
  have history : Reachable (Gets 2) State.init s :=
    serveAll_reachable (carGet_mono 2) (by decide) .refl run
  obtain ⟨hit, t, served, bounded⟩ := gets_make_room (by decide) history ⟨3, 1⟩ rfl
  exact ⟨s, hit, t, history, of_decide_eq_true swept, served, bounded⟩

end Car
