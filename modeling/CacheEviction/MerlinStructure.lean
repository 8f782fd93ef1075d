import CacheEviction.MerlinLoads

/-!
# The structural invariant of Merlin

The four queues copy an object into its destination before they remove it from
its source, and ghost keeps shadows of staging objects. Counting the copies of one
id turns "at most once" into three inequalities over the load, and every move only
lowers the three sums involved.
-/
namespace MerlinPolicy

open FuelLoops FifoCache WeightedLists StepTraces Relation

variable {b : Budgets} {cbf : CountingFilter.Cbf} {s t : State} {r : Request} {fuel : Nat}
variable {w : Obj → Int} {id : Nat} {hit : Bool} {o : Obj}

abbrev ofId (id : Nat) : Obj → Int := copies CacheObj.objId id

def State.residents (s : State) : List Obj := s.filter.objs ++ s.staging.objs ++ s.core.objs

def State.entries (s : State) : List Obj := s.residents ++ s.ghost.objs

def Load.resident (l : Load) : Int := l.filter + l.staging + l.core

theorem total_residents (w : Obj → Int) (s : State) :
    total w s.residents = (s.load w).resident := by
  simp [State.residents, State.load, Load.resident, add_assoc]

theorem total_entries (w : Obj → Int) (s : State) :
    total w s.entries = (s.load w).resident + (s.load w).ghost := by
  simp [State.entries, total_residents, State.load]

theorem occupied_eq_load (s : State) :
    merlinGetOccupiedByte s = (s.load CacheObj.bytes).resident := by
  simp [merlinGetOccupiedByte, State.load, Load.resident, Fifo.occupied_eq]

theorem load_nonneg (nonneg : ∀ o, 0 ≤ w o) (s : State) :
    0 ≤ (s.load w).filter ∧ 0 ≤ (s.load w).staging ∧ 0 ≤ (s.load w).core ∧
      0 ≤ (s.load w).ghost := by
  have each : ∀ l : List Obj, 0 ≤ total w l := fun l => total_nonneg w l (fun o _ => nonneg o)
  exact ⟨each _, each _, each _, each _⟩

theorem droppedShadow_nonneg (nonneg : ∀ o, 0 ≤ w o) (s : State) (o : Obj) :
    0 ≤ droppedShadow w s o := by
  simp only [droppedShadow, State.shadow]
  split
  · cases s.ghost.find o.objId with
    | none => simp
    | some g => exact nonneg g
  · omega

/-! ## What a move cannot raise -/

theorem Move.resident_le (nonneg : ∀ o, 0 ≤ w o)
    (same : ∀ (o : Obj) (tag : Meta), w { o with tag := tag } = w o) (h : Move b s t) :
    (t.load w).resident ≤ (s.load w).resident := by
  cases h with
  | bookkeeping => exact le_refl _
  | demote tail => rw [load_demote w tail]; simp only [Load.resident, same]; omega
  | graduate tail => rw [load_graduate w tail]; simp only [Load.resident, same]; omega
  | promote tail => rw [load_promote w tail]; simp only [Load.resident, same]; omega
  | @retire o tail =>
    have := nonneg o
    rw [load_retire w tail]; simp only [Load.resident]; omega
  | replaceStaging tail =>
    rw [load_replaceStaging w tail]; simp only [Load.resident, same]; omega
  | @dropStaging o tail =>
    have := nonneg o
    rw [load_dropStaging w tail]; simp only [Load.resident]; omega
  | dropGhost tail => rw [load_dropGhost w tail]; exact le_refl _

theorem Move.apart_le (nonneg : ∀ o, 0 ≤ w o)
    (copy : ∀ o : Obj, w { o with tag := ⟨o.tag.freq, false⟩ } = w o) (h : Move b s t) :
    (t.load w).filter + (t.load w).ghost ≤ (s.load w).filter + (s.load w).ghost := by
  cases h with
  | bookkeeping => exact le_refl _
  | demote tail => rw [load_demote w tail]
  | @graduate o tail =>
    have := droppedShadow_nonneg nonneg s o
    rw [load_graduate w tail]
    dsimp only
    omega
  | @promote o tail =>
    have := nonneg o
    rw [load_promote w tail]
    dsimp only
    omega
  | retire tail => rw [load_retire w tail]; dsimp only; rw [copy]; omega
  | replaceStaging tail => rw [load_replaceStaging w tail]; dsimp only; rw [copy]; omega
  | dropStaging tail => rw [load_dropStaging w tail]
  | @dropGhost o tail =>
    have := nonneg o
    rw [load_dropGhost w tail]
    dsimp only
    omega

theorem Moves.resident_le (nonneg : ∀ o, 0 ≤ w o)
    (same : ∀ (o : Obj) (tag : Meta), w { o with tag := tag } = w o) (h : Moves b s t) :
    (t.load w).resident ≤ (s.load w).resident := by
  induction h with
  | refl => exact le_refl _
  | tail _ move ih => exact (move.resident_le nonneg same).trans ih

theorem Moves.apart_le (nonneg : ∀ o, 0 ≤ w o)
    (copy : ∀ o : Obj, w { o with tag := ⟨o.tag.freq, false⟩ } = w o) (h : Moves b s t) :
    (t.load w).filter + (t.load w).ghost ≤ (s.load w).filter + (s.load w).ghost := by
  induction h with
  | refl => exact le_refl _
  | tail _ move ih => exact (move.apart_le nonneg copy).trans ih

theorem graduate_ghostState (b : Budgets) (s : State) (o : Obj) :
    (graduate b s o).hitOnGhost = s.hitOnGhost ∧ (graduate b s o).moveToCore = s.moveToCore ∧
      (graduate b s o).ghostFreq = s.ghostFreq := by
  obtain ⟨hot, q, frame⟩ := unshadowed_frame s o
  show (unshadowed s o).hitOnGhost = _ ∧ (unshadowed s o).moveToCore = _ ∧
    (unshadowed s o).ghostFreq = _
  rw [frame]
  exact ⟨rfl, rfl, rfl⟩

theorem Moves.ghostState (h : Moves b s t) :
    t.hitOnGhost = s.hitOnGhost ∧ t.moveToCore = s.moveToCore ∧ t.ghostFreq = s.ghostFreq := by
  induction h with
  | refl => exact ⟨rfl, rfl, rfl⟩
  | @tail u v _ move ih =>
    have step : v.hitOnGhost = u.hitOnGhost ∧ v.moveToCore = u.moveToCore ∧
        v.ghostFreq = u.ghostFreq := by
      cases move with
      | graduate => exact graduate_ghostState _ _ _
      | _ => exact ⟨rfl, rfl, rfl⟩
    exact ⟨step.1.trans ih.1, step.2.1.trans ih.2.1, step.2.2.trans ih.2.2⟩

/-! ## Copies of an id -/

structure Once (s : State) (id : Nat) : Prop where
  resident : (s.load (ofId id)).resident ≤ 1
  ghost : (s.load (ofId id)).ghost ≤ 1
  apart : (s.load (ofId id)).filter + (s.load (ofId id)).ghost ≤ 1

theorem ofId_nonneg (id : Nat) (o : Obj) : 0 ≤ ofId id o := copies_nonneg _ _ _

theorem ofId_same (id : Nat) (o : Obj) (tag : Meta) :
    ofId id { o with tag := tag } = ofId id o := rfl

theorem Moves.once (h : Moves b s t) (once : Once s id) : Once t id := by
  have resident := h.resident_le (ofId_nonneg id) (ofId_same id)
  have apart := h.apart_le (ofId_nonneg id) (fun _ => rfl)
  have nonneg := load_nonneg (ofId_nonneg id) t
  constructor
  · exact resident.trans once.resident
  · have := once.apart; omega
  · exact apart.trans once.apart

theorem Lookup.load_eq (same : ∀ (o : Obj) (tag : Meta), w { o with tag := tag } = w o)
    (h : Lookup s r hit t) : t.load w = s.load w := by
  have retag : ∀ q : Fifo Meta, total w (q.retag r.objId bumped).objs = total w q.objs := by
    intro q
    rw [total, total, Fifo.map_retag w q r.objId bumped same]
  cases h <;> simp [State.load, retag]

theorem find_none_iff_copies (q : Fifo Meta) (id : Nat) :
    q.find id = none ↔ total (ofId id) q.objs = 0 := q.find_none_iff_held id

/-- The weight of ghost entries of `id` whose frequency is not `f`. -/
def misfit (id : Nat) (f : Int) (o : Obj) : Int :=
  if o.objId = id ∧ o.tag.freq ≠ f then 1 else 0

theorem misfit_nonneg (id : Nat) (f : Int) (o : Obj) : 0 ≤ misfit id f o := by
  simp only [misfit]
  split <;> omega

theorem misfit_le (id : Nat) (f : Int) (o : Obj) : misfit id f o ≤ ofId id o := by
  by_cases h : o.objId = id
  · simp only [misfit, ofId, copies, h, true_and, if_true]
    split <;> omega
  · simp [misfit, ofId, copies, h]

/-- What holds of the request being served until it is inserted: it is not
resident, and a ghost entry of its id is the one its own lookup has found. -/
structure Awaits (s : State) (r : Request) : Prop where
  absent : (s.load (ofId r.objId)).resident = 0
  announced : 0 < (s.load (ofId r.objId)).ghost → s.hitOnGhost = true
  recorded : (s.load (misfit r.objId s.ghostFreq)).ghost = 0

theorem misfit_absent (f : Int) (h : (s.load (ofId id)).resident = 0) :
    (s.load (misfit id f)).filter = 0 := by
  have le : total (misfit id f) s.filter.objs ≤ total (ofId id) s.filter.objs :=
    total_mono _ _ _ (fun o _ => misfit_le id f o)
  have nonneg := load_nonneg (misfit_nonneg id f) s
  have parts := load_nonneg (ofId_nonneg id) s
  simp only [Load.resident, State.load] at h le nonneg parts ⊢
  omega

theorem Moves.awaits (h : Moves b s t) (awaits : Awaits s r) : Awaits t r := by
  obtain ⟨hit, _, freq⟩ := h.ghostState
  have resident := h.resident_le (ofId_nonneg r.objId) (ofId_same r.objId)
  have apart := h.apart_le (ofId_nonneg r.objId) (fun _ => rfl)
  have misfits := h.apart_le (misfit_nonneg r.objId s.ghostFreq) (fun _ => rfl)
  have before := load_nonneg (ofId_nonneg r.objId) s
  have after := load_nonneg (ofId_nonneg r.objId) t
  have absent := awaits.absent
  have absentAfter : (t.load (ofId r.objId)).resident = 0 := by
    simp only [Load.resident] at resident absent ⊢
    omega
  constructor
  · exact absentAfter
  · intro present
    rw [hit]
    apply awaits.announced
    simp only [Load.resident] at absent
    omega
  · rw [freq]
    have filterBefore := misfit_absent s.ghostFreq absent
    have nonneg := load_nonneg (misfit_nonneg r.objId s.ghostFreq) t
    have recorded := awaits.recorded
    omega

theorem Lookup.awaits (h : Lookup s r false t) (once : Once s r.objId) : Awaits t r := by
  have load := h.load_eq (ofId_same r.objId)
  cases h with
  | @ghost o noFilter noStaging noCore found =>
    rw [find_none_iff_copies] at noFilter noStaging noCore
    refine ⟨?_, fun _ => rfl, ?_⟩
    · rw [load]
      simp only [Load.resident, State.load]
      omega
    · have single := once.ghost
      have mine : ofId r.objId o = 1 := by simp [ofId, copies, Fifo.find_objId found]
      have rest : total (misfit r.objId (bumped o.tag).freq) s.ghost.objs -
          misfit r.objId (bumped o.tag).freq o ≤ total (ofId r.objId) s.ghost.objs - 1 := by
        rw [← mine, ← Fifo.total_remove_found _ found, ← Fifo.total_remove_found _ found]
        exact total_mono _ _ _ (fun a _ => misfit_le _ _ a)
      have nonneg := total_nonneg (misfit r.objId (bumped o.tag).freq)
        (s.ghost.retag r.objId bumped).objs (fun a _ => misfit_nonneg _ _ a)
      have fits : misfit r.objId (bumped o.tag).freq { o with tag := bumped o.tag } = 0 := by
        simp [misfit]
      have bump := Fifo.total_retag (misfit r.objId (bumped o.tag).freq) bumped found
      simp only [State.load] at single ⊢
      omega
  | absent noFilter noStaging noCore noGhost =>
    rw [find_none_iff_copies] at noFilter noStaging noCore noGhost
    refine ⟨?_, ?_, ?_⟩
    · simp only [Load.resident, State.load]
      omega
    · intro present
      simp only [State.load] at present
      omega
    · have le := total_mono _ _ s.ghost.objs (fun o _ => misfit_le r.objId s.ghostFreq o)
      have nonneg := load_nonneg (misfit_nonneg r.objId s.ghostFreq) s
      simp only [State.load] at nonneg ⊢
      omega

theorem shadow_nonneg (nonneg : ∀ o, 0 ≤ w o) (s : State) (id : Nat) : 0 ≤ s.shadow w id := by
  simp only [State.shadow]
  cases s.ghost.find id with
  | none => simp
  | some g => exact nonneg g

theorem Placement.once (h : Placement b s r t) (awaits : Awaits s r) (once : Once s id) : Once t id := by
  have nonneg := load_nonneg (ofId_nonneg id) s
  have absent := awaits.absent
  have announced := awaits.announced
  have mine : ∀ tag : Meta, ofId id (createCacheObj r tag) = if r.objId = id then 1 else 0 :=
    fun _ => rfl
  obtain ⟨resident, ghost, apart⟩ := once
  by_cases same : r.objId = id
  · subst same
    simp only [if_true] at mine
    simp only [Load.resident, State.load] at absent announced resident ghost apart nonneg
    cases h with
    | warmUp | staging =>
      constructor <;> simp only [Load.resident, State.load, Fifo.objs_insert, total_append,
        total_cons, total_nil, mine] <;> omega
    | core =>
      have shadow := shadow_nonneg (ofId_nonneg r.objId) s r.objId
      constructor <;> simp only [Load.resident, State.load, Fifo.objs_insert, total_append,
        total_cons, total_nil, mine, total_remove_shadow] <;> omega
    | filter warm fresh =>
      -- The object is first-seen: without a ghost hit there is no ghost copy of it.
      have noGhost : ¬ 0 < total (ofId r.objId) s.ghost.objs := by
        intro present
        rw [announced present] at fresh
        cases fresh
      constructor <;> simp only [Load.resident, State.load, Fifo.objs_insert, total_append,
        total_cons, total_nil, mine] <;> omega
  · simp only [if_neg same] at mine
    simp only [Load.resident, State.load] at resident ghost apart nonneg
    have shadow := shadow_nonneg (ofId_nonneg id) s r.objId
    cases h <;> constructor <;> simp only [Load.resident, State.load, Fifo.objs_insert,
      total_append, total_cons, total_nil, mine, total_remove_shadow] <;> omega

/-! ## Frequencies -/

def InRange (f : Int) : Prop := 0 ≤ f ∧ f ≤ maxFreq

instance (f : Int) : Decidable (InRange f) := inferInstanceAs (Decidable (_ ∧ _))

/-- The weight that counts entries out of range. -/
def stray (o : Obj) : Int := if InRange o.tag.freq then 0 else 1

theorem stray_nonneg (o : Obj) : 0 ≤ stray o := by
  simp only [stray]
  split <;> omega

def FreqsInRange (s : State) : Prop := ∀ o ∈ s.entries, InRange o.tag.freq

theorem stray_eq_zero_iff : stray o = 0 ↔ InRange o.tag.freq := by
  by_cases h : InRange o.tag.freq
  · simp [stray, h]
  · simp [stray, h]

theorem freqsInRange_iff : FreqsInRange s ↔ total stray s.entries = 0 := by
  rw [total_eq_zero_iff stray_nonneg]
  exact forall₂_congr (fun o _ => stray_eq_zero_iff.symm)

theorem bumped_inRange {m : Meta} (h : InRange m.freq) : InRange (bumped m).freq := by
  obtain ⟨low, high⟩ := h
  by_cases below : m.freq < maxFreq
  · simp only [bumped, below, if_true]
    exact ⟨by omega, by omega⟩
  · simp only [bumped, below, if_false]
    exact ⟨low, high⟩

theorem FreqsInRange.filter (h : FreqsInRange s) (mem : o ∈ s.filter.objs) :
    InRange o.tag.freq := h o (by simp [State.entries, State.residents, mem])

theorem FreqsInRange.staging (h : FreqsInRange s) (mem : o ∈ s.staging.objs) :
    InRange o.tag.freq := h o (by simp [State.entries, State.residents, mem])

theorem FreqsInRange.core (h : FreqsInRange s) (mem : o ∈ s.core.objs) :
    InRange o.tag.freq := h o (by simp [State.entries, State.residents, mem])

theorem FreqsInRange.ghost (h : FreqsInRange s) (mem : o ∈ s.ghost.objs) :
    InRange o.tag.freq := h o (by simp [State.entries, mem])

theorem Move.freqs (h : Move b s t) (range : FreqsInRange s) : FreqsInRange t := by
  have none := freqsInRange_iff.mp range
  have after := load_nonneg stray_nonneg t
  rw [freqsInRange_iff]
  rw [total_entries] at none ⊢
  have zero : InRange 0 := by decide
  cases h with
  | bookkeeping => exact none
  | @demote o tail =>
    have keeps : stray { o with tag := ⟨o.tag.freq, false⟩ } = stray o := rfl
    rw [load_demote stray tail] at after ⊢
    simp only [Load.resident] at none after ⊢
    omega
  | @graduate o tail hot =>
    have inRange := range.staging (Fifo.toEvict_mem tail)
    have lowered : stray { o with tag := ⟨o.tag.freq - 1, false⟩ } = 0 :=
      stray_eq_zero_iff.mpr ⟨by have := inRange.1; show 0 ≤ o.tag.freq - 1; omega,
        by have := inRange.2; show o.tag.freq - 1 ≤ maxFreq; omega⟩
    have old := stray_nonneg o
    have shadow := droppedShadow_nonneg stray_nonneg s o
    rw [load_graduate stray tail] at after ⊢
    simp only [Load.resident] at none after ⊢
    omega
  | @promote o tail =>
    have lowered : stray { o with tag := ⟨0, false⟩ } = 0 := stray_eq_zero_iff.mpr zero
    have old := stray_nonneg o
    rw [load_promote stray tail] at after ⊢
    simp only [Load.resident] at none after ⊢
    omega
  | @retire o tail =>
    have keeps : stray { o with tag := ⟨o.tag.freq, false⟩ } = stray o := rfl
    rw [load_retire stray tail] at after ⊢
    simp only [Load.resident] at none after ⊢
    omega
  | @replaceStaging o tail =>
    have keeps : stray { o with tag := ⟨o.tag.freq, false⟩ } = stray o := rfl
    have lowered : stray { o with tag := ⟨0, true⟩ } = 0 := stray_eq_zero_iff.mpr zero
    rw [load_replaceStaging stray tail] at after ⊢
    simp only [Load.resident] at none after ⊢
    omega
  | @dropStaging o tail =>
    have old := stray_nonneg o
    rw [load_dropStaging stray tail] at after ⊢
    simp only [Load.resident] at none after ⊢
    omega
  | @dropGhost o tail =>
    have old := stray_nonneg o
    rw [load_dropGhost stray tail] at after ⊢
    simp only [Load.resident] at none after ⊢
    omega

theorem Moves.freqs (h : Moves b s t) (range : FreqsInRange s) : FreqsInRange t := by
  induction h with
  | refl => exact range
  | tail _ move ih => exact move.freqs ih

theorem Lookup.freqs (h : Lookup s r hit t) (range : FreqsInRange s) : FreqsInRange t := by
  have none := freqsInRange_iff.mp range
  rw [freqsInRange_iff]
  rw [total_entries] at none ⊢
  have bump : ∀ {q : Fifo Meta} {o : Obj}, q.find r.objId = some o → InRange o.tag.freq →
      total stray (q.retag r.objId bumped).objs = total stray q.objs := by
    intro q o found inRange
    rw [Fifo.total_retag stray bumped found, stray_eq_zero_iff.mpr inRange,
      stray_eq_zero_iff.mpr (bumped_inRange inRange)]
    omega
  cases h with
  | filter found =>
    have same := bump found (range.filter (Fifo.find_mem found))
    simpa [State.load, Load.resident, same] using none
  | staging found =>
    have same := bump found (range.staging (Fifo.find_mem found))
    simpa [State.load, Load.resident, same] using none
  | core found =>
    have same := bump found (range.core (Fifo.find_mem found))
    simpa [State.load, Load.resident, same] using none
  | ghost _ _ _ found =>
    have same := bump found (range.ghost (Fifo.find_mem found))
    simpa [State.load, Load.resident, same] using none
  | absent => exact none

theorem Placement.freqs (h : Placement b s r t) (range : FreqsInRange s)
    (ghostFreq : InRange s.ghostFreq) : FreqsInRange t := by
  have none := freqsInRange_iff.mp range
  have before := load_nonneg stray_nonneg s
  have after := load_nonneg stray_nonneg t
  have zero : InRange 0 := by decide
  have cold : ∀ g, stray (createCacheObj r ⟨0, g⟩) = 0 := fun g => stray_eq_zero_iff.mpr zero
  have returned : stray (createCacheObj r ⟨s.ghostFreq, false⟩) = 0 := stray_eq_zero_iff.mpr ghostFreq
  have shadow := shadow_nonneg stray_nonneg s r.objId
  rw [freqsInRange_iff]
  rw [total_entries] at none ⊢
  cases h <;>
  · simp only [Load.resident, State.load, Fifo.objs_insert, total_append, total_cons, total_nil,
      cold, returned, total_remove_shadow] at none before after ⊢
    omega

/-! ## Every reached state -/

structure Invariant (b : Budgets) (c : Config) : Prop where
  once : ∀ id, Once c.state id
  freqs : FreqsInRange c.state
  ghostFreq : InRange c.state.ghostFreq
  ghostBytes : c.state.ghost.occupiedByte ≤ b.ghostLimit
  occupied : merlinGetOccupiedByte c.state ≤ b.cacheSize
  awaits : ∀ r, c.point = .serving r → Awaits c.state r

theorem boot_invariant (b : Budgets) (cbf : CountingFilter.Cbf) : Invariant b (boot cbf) where
  once := by
    intro id
    constructor <;> simp [State.load, Load.resident, boot, merlinInit]
  freqs := by
    intro o mem
    simp [State.entries, State.residents, boot, merlinInit] at mem
  ghostFreq := by
    show InRange 0
    decide
  ghostBytes := by
    show (0 : Int) ≤ b.ghostLimit
    omega
  occupied := by
    show (0 : Int) + 0 + 0 ≤ b.cacheSize
    omega
  awaits := by
    intro r h
    cases h

theorem ghostBytes_of_load (h : t.load CacheObj.bytes = s.load CacheObj.bytes) :
    t.ghost.occupiedByte = s.ghost.occupiedByte := by
  rw [t.ghost.occupied_eq, s.ghost.occupied_eq]
  exact congrArg Load.ghost h

theorem Lookup.ghostFreq (h : Lookup s r hit t) (range : FreqsInRange s)
    (inRange : InRange s.ghostFreq) : InRange t.ghostFreq := by
  cases h with
  | ghost _ _ _ found => exact bumped_inRange (range.ghost (Fifo.find_mem found))
  | filter | staging | core | absent => exact inRange

theorem Lookup.invariant {p : Point} (h : Lookup s r hit t) (inv : Invariant b ⟨.idle, s⟩)
    (awaits : ∀ q, p = .serving q → Awaits t q) : Invariant b ⟨p, t⟩ where
  once := by
    intro id
    have same := h.load_eq (ofId_same id)
    obtain ⟨resident, ghost, apart⟩ := inv.once id
    constructor <;> (dsimp only; rw [same]; assumption)
  freqs := h.freqs inv.freqs
  ghostFreq := h.ghostFreq inv.freqs inv.ghostFreq
  ghostBytes := by
    have same := h.load_eq (w := CacheObj.bytes) (fun _ _ => rfl)
    show t.ghost.occupiedByte ≤ _
    rw [ghostBytes_of_load same]
    exact inv.ghostBytes
  occupied := by
    have same := h.load_eq (w := CacheObj.bytes) (fun _ _ => rfl)
    have before := inv.occupied
    rw [occupied_eq_load] at before ⊢
    rw [same]
    exact before
  awaits := awaits

theorem evict_invariant (evicted : merlinEvict b fuel s r = .ok t)
    (inv : Invariant b ⟨.serving r, s⟩) : Invariant b ⟨.serving r, t⟩ where
  once := fun id => (evict_moves evicted).once (inv.once id)
  freqs := (evict_moves evicted).freqs inv.freqs
  ghostFreq := by
    have same := (evict_moves evicted).ghostState.2.2
    show InRange t.ghostFreq
    rw [same]
    exact inv.ghostFreq
  ghostBytes := by
    obtain ⟨g, u, _, _, trimmed⟩ := evict_cases evicted
    exact (adjustGhost_moves trimmed).2
  occupied := by
    have before := inv.occupied
    have le := (evict_moves evicted).resident_le CacheObj.bytes_nonneg (fun _ _ => rfl)
    rw [occupied_eq_load] at before ⊢
    exact le.trans before
  awaits := by
    intro q h
    cases h
    exact (evict_moves evicted).awaits (inv.awaits r rfl)

theorem Placement.ghostBytes_le (h : Placement b s r t) :
    t.ghost.occupiedByte ≤ s.ghost.occupiedByte := by
  cases h with
  | core =>
    have shadow := shadow_nonneg (w := CacheObj.bytes) CacheObj.bytes_nonneg s r.objId
    have removed := total_remove_shadow CacheObj.bytes s r.objId
    rw [(s.ghost.remove r.objId).occupied_eq, s.ghost.occupied_eq]
    omega
  | warmUp | staging | filter => exact le_refl _

theorem Placement.occupied (h : Placement b s r t) :
    merlinGetOccupiedByte t = merlinGetOccupiedByte s + (createCacheObj r ()).bytes := by
  cases h <;>
  · simp only [merlinGetOccupiedByte, Fifo.occupied_insert]
    simp only [CacheObj.bytes, createCacheObj]
    omega

theorem insert_invariant (room : overfull b s r = false) (inv : Invariant b ⟨.serving r, s⟩) :
    Invariant b ⟨.idle, merlinInsert b s r⟩ where
  once := fun id => (insert_placement b s r).once (inv.awaits r rfl) (inv.once id)
  freqs := (insert_placement b s r).freqs inv.freqs inv.ghostFreq
  ghostFreq := by
    have before := inv.ghostFreq
    have placed := insert_placement b s r
    show InRange (merlinInsert b s r).ghostFreq
    have same : (merlinInsert b s r).ghostFreq = s.ghostFreq := by
      generalize merlinInsert b s r = t at placed
      cases placed <;> rfl
    rw [same]
    exact before
  ghostBytes := (insert_placement b s r).ghostBytes_le.trans inv.ghostBytes
  occupied := by
    have bytes := createCacheObj_bytes_le r ()
    have fits : merlinGetOccupiedByte s + r.objSize ≤ b.cacheSize := by simpa [overfull] using room
    have after := (insert_placement b s r).occupied
    show merlinGetOccupiedByte (merlinInsert b s r) ≤ _
    omega
  awaits := by
    intro q h
    cases h

theorem step_invariant {x y : Config} (inv : Invariant b x) (step : Step b x y) :
    Invariant b y := by
  cases step with
  | hit _ find => exact (find_lookup find).invariant inv (fun q h => by cases h)
  | @miss s t r _ find =>
    refine (find_lookup find).invariant inv (fun q h => ?_)
    cases h
    exact (find_lookup find).awaits (inv.once r.objId)
  | reject =>
    exact ⟨inv.once, inv.freqs, inv.ghostFreq, inv.ghostBytes, inv.occupied,
      fun q h => by cases h⟩
  | evict _ _ evicted => exact evict_invariant evicted inv
  | insert _ room => exact insert_invariant room inv

theorem reached_invariant {c : Config} (h : Reached b cbf c) : Invariant b c :=
  Reachable.invariant (Invariant b) (boot_invariant b cbf)
    (fun _ _ inv step => step_invariant inv step) h

structure Structural (b : Budgets) (s : State) : Prop where
  resident_once : (s.residents.map CacheObj.objId).Nodup
  ghost_once : (s.ghost.objs.map CacheObj.objId).Nodup
  apart : ∀ id, id ∈ s.filter.objs.map CacheObj.objId → id ∉ s.ghost.objs.map CacheObj.objId
  counters : ∀ q ∈ [s.filter, s.staging, s.core, s.ghost],
    q.occupiedByte = total CacheObj.bytes q.objs ∧ q.nObj = q.objs.length
  freqs : ∀ o ∈ s.entries, 0 ≤ o.tag.freq ∧ o.tag.freq ≤ maxFreq
  ghost_bytes : s.ghost.occupiedByte ≤ b.ghostLimit
  occupied : merlinGetOccupiedByte s ≤ b.cacheSize

theorem Invariant.structural {c : Config} (inv : Invariant b c) : Structural b c.state where
  resident_once := by
    rw [nodup_iff_copies]
    intro id
    have := (inv.once id).resident
    rw [← total_residents] at this
    exact this
  ghost_once := by
    rw [nodup_iff_copies]
    exact fun id => (inv.once id).ghost
  apart := by
    intro id filter ghost
    have inFilter : 0 < total (ofId id) c.state.filter.objs := (copies_pos_iff _ _ _).mpr filter
    have inGhost : 0 < total (ofId id) c.state.ghost.objs := (copies_pos_iff _ _ _).mpr ghost
    have apart := (inv.once id).apart
    simp only [State.load] at apart
    omega
  counters := fun q _ => ⟨q.occupied_eq, q.nObj_eq⟩
  freqs := inv.freqs
  ghost_bytes := inv.ghostBytes
  occupied := inv.occupied

/-- Every sequence of requests leaves the queues well formed. -/
theorem gets_structural {rs : List Request} (h : Gets b cbf rs s) : Structural b s :=
  (reached_invariant (gets_reached h)).structural

theorem gets_structural_with_ghost :
    ∃ s, Gets threeBytes sixteenCounters
        [⟨1, 1⟩, ⟨2, 1⟩, ⟨3, 1⟩, ⟨4, 1⟩, ⟨5, 1⟩, ⟨4, 1⟩, ⟨6, 1⟩] s ∧
      0 < s.ghost.nObj ∧ Structural threeBytes s := by
  obtain ⟨s, gets, shadowed⟩ := servesTo_gets threeBytes 20 sixteenCounters
    [⟨1, 1⟩, ⟨2, 1⟩, ⟨3, 1⟩, ⟨4, 1⟩, ⟨5, 1⟩, ⟨4, 1⟩, ⟨6, 1⟩] (fun s => 0 < s.ghost.nObj)
    (by decide +kernel)
  exact ⟨s, gets, by simpa using shadowed, gets_structural gets⟩

end MerlinPolicy
