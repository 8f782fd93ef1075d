import CacheEviction.LirsEvictions

/-!
# Lookups of LIRS

A lookup moves its object to the head of both lists and, on a hit, changes the role of
the block. Making room in the stack can push a block out of `LRU_q`. That this is the
block that was hit needs three things: it is not in the stack, the stack is at its
limit, and `LRU_q` has room for one object only.
-/
namespace Lirs

open FuelLoops FifoCache CacheGet WeightedLists

variable {r : Request} {b : Params} {owed : Nat → Int} {s : State} {init : List (CacheObj Flags)}
    {q : CacheObj Flags}

abbrev Settled (s : State) : Prop := Core (fun _ => 0) s

structure Valid (b : Params) (s : State) : Prop where
  core : Settled s
  based : Based s
  lirs : s.lirsCount ≤ b.lirsLimit
  hirs : s.hirsCount ≤ b.hirsLimit
  /-- `LRU_q` is used only when the stack is full; a hit in `LRU_q` may leave it one
  block short, unless that would displace the object. -/
  filled : 0 < s.hirsCount → (b.lirsLimit : Int) ≤ s.lirsCount + if b.hirsLimit = 1 then 0 else 1

/-- The request is for an object that making room for it pushes out. -/
def Displaces (b : Params) (s : State) (r : Request) : Prop :=
  b.hirsLimit = 1 ∧ s.lirsCount = b.lirsLimit ∧ (s.lruQ.find r.objId).isSome = true ∧
    s.lruS.find r.objId = none

/-! ## Changes of the stack -/

section Stack

variable {owed : Nat → Int} {s : State} {x : Nat} {o : CacheObj Flags}

theorem core_raise (nh : Fifo Unit) (raise : Flags → Flags) (core : Core owed s) (found : s.lruS.find x = some o) (high : o.tag.isLIR = false)
    (away : s.lruQ.held x = 0) (debt : ∀ id, x ≠ id → owed id = 0)
    (ghosts : ∀ id, nh.held id = s.lruNh.held id - if x = id then s.absent x else 0)
    (raised : ∀ flags, (raise flags).isLIR = true) :
    Settled { s with
      lruS := s.lruS.retag x raise
      lruNh := nh
      lirsCount := s.lirsCount + o.bytes
      occupiedByte := s.occupiedByte + o.bytes } := by
  have key := Fifo.find_objId found
  have bytes := bytes_of_odd (core.unitS (Fifo.find_mem found))
  let block : CacheObj Flags := { o with tag := raise o.tag }
  have changed : ∀ w, total w (s.lruS.retag x raise).objs = total w s.lruS.objs - w o + w block :=
    fun w => Fifo.total_retag w _ found
  have low := roles_of_low (o := block) (raised o.tag) x
  rw [if_pos (show block.objId = x from key)] at low
  have after := core.retag_roles found raise
  simp only [show { o with tag := raise o.tag } = block from rfl, low] at after
  constructor
  · intro id
    have bound := core.single id
    simp only [State.lir, State.hir, State.absent, after] at bound ⊢
    split <;> omega
  · intro id
    have bound := core.apart id
    simp only [State.lir, State.absent, after] at bound ⊢
    split
    · rename_i here
      rw [← here, away]
      rfl
    · exact bound
  · intro id
    have bound := core.queued id
    have positive := s.lruQ.held_nonneg id
    simp only [State.hir, after] at bound ⊢
    split
    · omega
    · rename_i other
      have nothing := debt id other
      omega
  · intro id
    have bound := core.ghosts id
    have left := ghosts id
    simp only [State.absent, after] at bound left ⊢
    rw [left, bound]
    split
    · rename_i here
      rw [here]
      omega
    · rw [sub_zero]
  · have same : odd block = odd o := rfl
    rw [changed, same, core.sizesS]
    omega
  · exact core.sizesQ
  · exact core.cached
  · have one : isLow block = 1 := by simp [isLow, block, raised]
    have not : isLow o = 0 := by simp [isLow, high]
    rw [changed, one, not, bytes, ← core.lirs]
    show s.lirsCount + 1 = _
    omega
  · exact core.hirs
  · show s.occupiedByte + o.bytes = s.lirsCount + o.bytes + s.hirsCount
    rw [core.occupied]
    omega

theorem based_raise (found : s.lruS.find x = some o) (shape : Based s ∨ s.kinds.length ≤ 1)
    {raise : Flags → Flags} (raised : ∀ flags, (raise flags).isLIR = true) {nh : Fifo Unit} {lirs occupied : Int} :
    Based { s with
      lruS := s.lruS.retag x raise
      lruNh := nh
      lirsCount := lirs
      occupiedByte := occupied } := by
  refine based_of_first fun o' os objs => ?_
  cases list : s.lruS.objs with
  | nil =>
    rw [Fifo.find, list] at found
    cases found
  | cons first others =>
    have updated : updateFirst (hasId x) (fun o => { o with tag := raise o.tag }) (first :: others) = o' :: os := by
      rw [← list]
      exact objs
    rw [updateFirst] at updated
    by_cases here : hasId x first = true
    · rw [if_pos here, List.cons.injEq] at updated
      rw [← updated.1]
      exact raised _
    · rw [if_neg here, List.cons.injEq] at updated
      rw [← updated.1]
      rcases shape with based | short
      · exact based.first list
      · rw [State.kinds, list, List.map_cons, List.length_cons, List.length_map] at short
        have alone : others = [] := List.length_eq_zero_iff.mp (by omega)
        rw [Fifo.find, list, alone, List.find?_cons_of_neg here] at found
        cases found

theorem core_pushHIR {owed' : Nat → Int} (core : Core owed s)
    (unit : odd (createCacheObj r { isLIR := false, inCache := true }) = 0)
    (out : s.lruS.find r.objId = none) (debt : ∀ id, owed id ≤ owed' id)
    (own : 1 ≤ s.lruQ.held r.objId + owed' r.objId) :
    Core owed' { s with lruS := s.lruS.insert r { isLIR := false, inCache := true } } := by
  refine core.addEntry (fun w => Fifo.total_insert w s.lruS r _) unit rfl out ?_ (fun _ => own) debt rfl rfl
    (add_zero _).symm rfl (add_zero _).symm
  intro low
  cases low

theorem core_pushLIR (core : Core owed s)
    (unit : odd (createCacheObj r { isLIR := true, inCache := true }) = 0)
    (out : s.lruS.find r.objId = none) (away : s.lruQ.held r.objId = 0) : Core owed { s with
      lruS := s.lruS.insert r { isLIR := true, inCache := true }
      lirsCount := s.lirsCount + 1
      occupiedByte := s.occupiedByte + 1 } := by
  refine core.addEntry (fun w => Fifo.total_insert w s.lruS r _) unit rfl out (fun _ => away) ?_
    (fun _ => le_rfl) rfl rfl rfl rfl rfl
  intro high
  cases high

theorem based_push {flags : Flags} (based : Based s) (shape : s.kinds ≠ [] ∨ flags.isLIR = true)
    {lruQ : Fifo Flags} {lirs hirs occupied : Int} : Based { s with
      lruS := s.lruS.insert r flags
      lruQ := lruQ
      lirsCount := lirs
      hirsCount := hirs
      occupiedByte := occupied } := by
  refine based_of_first fun o os list => ?_
  rw [Fifo.objs_insert] at list
  cases before : s.lruS.objs with
  | nil =>
    rw [before, List.nil_append, List.cons.injEq] at list
    rw [← list.1]
    rcases shape with impossible | low
    · exact absurd (by rw [State.kinds, before]; rfl) impossible
    · exact low
  | cons first others =>
    rw [before, List.cons_append, List.cons.injEq] at list
    rw [← list.1]
    exact based.first before

theorem based_of_low (core : Core owed s) (some : 0 < s.lirsCount) (shape : Based s ∨ s.kinds.length ≤ 1) :
    s.kinds ≠ [] ∧ Based s := by
  rw [core.lirs] at some
  obtain ⟨first, others, list⟩ := exists_cons_of_total_pos some
  have kinds : s.kinds = (first.objId, first.tag.isLIR) :: others.map fun o => (o.objId, o.tag.isLIR) := by
    rw [State.kinds, list]
    rfl
  refine ⟨by rw [kinds]; simp, ?_⟩
  rcases shape with based | short
  · exact based
  · intro k rest same
    rw [kinds] at same short
    rw [List.length_cons, List.length_map] at short
    have alone : others = [] := List.length_eq_zero_iff.mp (by omega)
    rw [List.cons.injEq] at same
    rw [← same.1]
    rw [list, alone, total_cons, total_nil] at some
    cases low : first.tag.isLIR with
    | true => rfl
    | false => simp [isLow, low] at some

end Stack

/-! ## Lookup -/

def promoted (s : State) (id : Nat) : State :=
  { s with lruS := s.lruS.promote id, lruQ := s.lruQ.promote id }

section Promotion

variable {owed : Nat → Int} {s : State} {x : Nat} {o : CacheObj Flags}

theorem promoted_core (core : Core owed s) (x : Nat) : Core owed (promoted s x) :=
  core.of_totals (fun w => Fifo.total_promote w s.lruS x) (fun w => Fifo.total_promote w s.lruQ x)
    rfl rfl rfl rfl

theorem promoted_roles (s : State) (x id : Nat) : (promoted s x).lir id = s.lir id ∧
    (promoted s x).hir id = s.hir id ∧ (promoted s x).absent id = s.absent id ∧
    (promoted s x).lruQ.held id = s.lruQ.held id :=
  ⟨Fifo.total_promote _ _ _, Fifo.total_promote _ _ _, Fifo.total_promote _ _ _, Fifo.held_promote _ _ _⟩

theorem promoted_kinds (found : s.lruS.find x = some o) :
    ∃ init, (promoted s x).kinds = init ++ [(x, o.tag.isLIR)] := by
  have objs := Fifo.objs_promote found
  refine ⟨(s.lruS.objs.eraseP (hasId x)).map fun o => (o.objId, o.tag.isLIR), ?_⟩
  show (s.lruS.promote x).objs.map _ = _
  rw [objs, List.map_append, ← Fifo.find_objId found]
  rfl

theorem promoted_based (based : Based s) (high : ∀ o, s.lruS.find x = some o → o.tag.isLIR = false) :
    Based (promoted s x) := by
  refine based_of_first fun o' os list => ?_
  cases found : s.lruS.find x with
  | none =>
    have same : s.lruS.objs = o' :: os := by
      rw [← list, promoted, Fifo.promote_of_absent found]
    exact based.first same
  | some o =>
    obtain ⟨first, rest, objs, bottom⟩ := based.erase found (high o found)
    rw [promoted, Fifo.objs_promote found, objs, List.cons_append, List.cons.injEq] at list
    rw [← list.1]
    exact bottom

theorem find_of_roles (core : Core owed s) : match s.lruS.find x with
    | none => s.lir x = 0 ∧ s.hir x = 0 ∧ s.absent x = 0
    | some o => o.objId = x ∧ s.lir x = (if o.tag.isLIR then 1 else 0) ∧
        s.hir x = (if o.tag.isLIR = false ∧ o.tag.inCache = true then 1 else 0) ∧
        s.absent x = if o.tag.isLIR = false ∧ o.tag.inCache = false then 1 else 0 := by
  cases found : s.lruS.find x with
  | none => exact Core.not_found found
  | some o =>
    have key := Fifo.find_objId found
    have roles := core.found found
    simp only [lirAt, hirAt, absentAt, key, true_and] at roles
    exact ⟨key, roles⟩

end Promotion

/-- What is left of a hit block after room has been made in the stack: it is at the
head, so it is neither demoted nor pruned. -/
structure Topped (b : Params) (owed : Nat → Int) (x : Nat) (s t : State) : Prop where
  core : Core owed t
  shape : Based t ∨ t.kinds.length ≤ 1
  lir : t.lir x = s.lir x
  hir : t.hir x = s.hir x
  absent : t.absent x = s.absent x
  away : t.lruQ.held x = 0
  lirs : t.lirsCount + 1 ≤ b.lirsLimit
  hirs : t.hirsCount ≤ b.hirsLimit
  filled : (t.lirsCount = s.lirsCount ∧ t.hirsCount = s.hirsCount) ∨ t.lirsCount + 1 = b.lirsLimit

theorem makeRoomS_top {x : Nat} {init : List (Nat × Bool)} (core : Core owed s)
    (nonneg : ∀ id, 0 ≤ owed id) (based : Based s) (lirs : s.lirsCount ≤ b.lirsLimit)
    (hirs : s.hirsCount ≤ b.hirsLimit) (top : s.kinds = init ++ [(x, false)]) (high : s.lir x = 0)
    (away : s.lruQ.held x = 0) : ∃ t, makeRoomS b 1 s = .ok t ∧ Topped b owed x s t := by
  have spec := makeRoomS_spec core nonneg based hirs
  rcases lirs.lt_or_eq with free | full
  · exact ⟨s, spec.1 free, core, .inl based, rfl, rfl, rfl, away, free, hirs, .inl ⟨rfl, rfl⟩⟩
  · obtain ⟨z, rest, t, shape, run, demoted⟩ := spec.2 full
    have other : z ≠ x := by
      rintro rfl
      have low := lir_of_tail shape
      omega
    -- the head of the stack is still there
    have top' : ∃ init', rest = init' ++ [(x, false)] := by
      cases init with
      | nil =>
        rw [shape, List.nil_append, List.cons.injEq, Prod.mk.injEq] at top
        exact absurd top.1.1 other
      | cons k init' =>
        rw [shape, List.cons_append, List.cons.injEq] at top
        exact ⟨init', top.2⟩
    obtain ⟨init', tailKinds⟩ := top'
    have member : x ∈ t.kinds.map Prod.fst := by
      obtain ⟨dropped, split⟩ := demoted.split
      have some : t.kinds ≠ [] := demoted.nonempty (by rw [tailKinds]; simp)
      obtain ⟨kinds, last, list⟩ := List.eq_nil_or_concat t.kinds |>.resolve_left some
      rw [list, List.concat_eq_append, ← List.append_assoc] at split
      have same := List.append_inj' (split.symm.trans tailKinds) rfl
      have head : last = (x, false) := List.singleton_inj.mp same.2
      rw [list, head, List.concat_eq_append, List.map_append, List.mem_append]
      exact .inr List.mem_cons_self
    have kept := demoted.kept x member away
    have left := demoted.held x
    rw [if_neg other, away] at left
    have out := pushedOut_nonneg b s x
    have positive := t.lruQ.held_nonneg x
    have fewer := demoted.lirs
    exact ⟨t, run, demoted.core, demoted.based, kept.1, kept.2.1, kept.2.2, by omega, by omega,
      demoted.hirs.2, .inr (by omega)⟩

theorem pushedOut_newest (core : Core owed s) (bound : s.hirsCount ≤ b.hirsLimit)
    (list : s.lruQ.objs = init ++ [q]) : pushedOut b s q.objId = if b.hirsLimit = 1 then 1 else 0 := by
  have count : s.hirsCount = init.length + 1 := by
    rw [core.hirs, list, total_one, List.length_append]
    rfl
  have limit := hirsLimit_pos b
  cases init with
  | nil =>
    have front : s.lruQ.toEvict = some q := Fifo.toEvict_of_objs list
    simp only [List.length_nil] at count
    unfold pushedOut
    rw [front]
    simp only [Option.map_some, and_true]
    exact if_congr (by omega) rfl rfl
  | cons first others =>
    -- two copies of the id would be one too many
    have other : first.objId ≠ q.objId := by
      intro same
      have apart := core.apart q.objId
      have roles := roles_nonneg s q.objId
      have middle := total_copies_nonneg CacheObj.objId q.objId others
      have both : s.lruQ.held q.objId = 1 + (total (copies CacheObj.objId q.objId) others + 1) := by
        rw [Fifo.held, list, List.cons_append, total_cons, total_append, total_cons, total_nil]
        simp [copies, same]
      omega
    have front : s.lruQ.toEvict = some first := Fifo.toEvict_of_objs list
    rw [List.length_cons] at count
    unfold pushedOut
    rw [front, if_neg (by simp [other]), if_neg (by omega)]

/-! ## Hits -/

section Hits

variable {b : Params} {s : State} {x : Nat}

/-- The state after a request that displaced its own object. -/
structure Displaced (x : Nat) (t : State) : Prop where
  core : Core (owedTo x) t
  marked : 1 ≤ t.hir x
  away : t.lruQ.held x = 0

theorem Valid.promoted (valid : Valid b s) (x : Nat)
    (high : ∀ o, s.lruS.find x = some o → o.tag.isLIR = false) : Valid b (promoted s x) :=
  ⟨promoted_core valid.core x, promoted_based valid.based high, valid.lirs, valid.hirs, valid.filled⟩

theorem hitLIR_spec (valid : Valid b s) (low : 1 ≤ s.lir x) :
    ∃ t, lirsPrune (promoted s x) = .ok t ∧ Valid b t := by
  obtain ⟨t, run, pruning, shape⟩ := lirsPrune_spec (promoted_core valid.core x)
  have lirs : t.lirsCount = s.lirsCount := pruning.lirs
  have hirs : t.hirsCount = s.hirsCount := pruning.hirs
  have some : 0 < t.lirsCount := by
    rw [lirs, valid.core.lirs]
    have counted := total_mono (lirAt x) isLow s.lruS.objs (by
      intro o _
      unfold lirAt isLow
      split
      · rename_i facts
        rw [if_pos facts.2]
      · split <;> omega)
    rw [State.lir] at low
    omega
  refine ⟨t, run, pruning.core, (based_of_low pruning.core some shape).2, ?_, ?_, ?_⟩
  · rw [lirs]
    exact valid.lirs
  · rw [hirs]
    exact valid.hirs
  · rw [lirs, hirs]
    exact valid.filled

theorem hitRDHIRinS_spec (valid : Valid b s) {o : CacheObj Flags} {init : List (Nat × Bool)}
    (found : s.lruS.find x = some o) (high : o.tag.isLIR = false) (data : o.tag.inCache = true)
    (top : s.kinds = init ++ [(x, false)]) :
    ∃ t, hitRDHIRinS b s o (s.lruQ.find x) = .ok t ∧ Valid b t := by
  have key := Fifo.find_objId found
  have roles := valid.core.found found
  have marks := roles_of_high high data x
  rw [if_pos key] at marks
  have bytes := bytes_of_odd (valid.core.unitS (Fifo.find_mem found))
  have queued := valid.core.queued x
  cases queue : s.lruQ.find x with
  | none =>
    have empty := (s.lruQ.find_none_iff_held x).mp queue
    omega
  | some q =>
    obtain ⟨core, less, fewer⟩ := core_leaveQ (owedTo x) valid.core queue (fun _ => (zero_add _).le)
    have away : (leaveQ s (some q)).lruQ.held x = 0 := by
      have apart := valid.core.apart x
      have positive := (leaveQ s (some q)).lruQ.held_nonneg x
      have one := less x
      rw [owedTo, if_pos rfl] at one
      omega
    have bounds := valid.hirs
    obtain ⟨t, run, topped⟩ := makeRoomS_top core (owedTo_nonneg x) valid.based valid.lirs
      (by omega) top (by rw [← marks.1, ← roles.1]; rfl) away
    -- the entry of the hit block in the stack with room
    have one : t.hir x = 1 := topped.hir.trans (roles.2.1.trans marks.2.1)
    have gone : t.absent x = 0 := topped.absent.trans (roles.2.2.trans marks.2.2)
    cases entry : t.lruS.find x with
    | none =>
      have none := (Core.not_found entry).2.1
      omega
    | some o' =>
      have facts := find_of_roles (x := x) topped.core
      rw [entry] at facts
      obtain ⟨_, _, isHir, _⟩ := facts
      have high' : o'.tag.isLIR = false := by
        by_contra low
        rw [if_neg (by tauto)] at isHir
        omega
      have bytes' := bytes_of_odd (topped.core.unitS (Fifo.find_mem entry))
      have ghosts : ∀ id, t.lruNh.held id = t.lruNh.held id - if x = id then t.absent x else 0 := by
        intro id
        rw [gone]
        split <;> omega
      have raised := core_raise t.lruNh (fun flags => { flags with isLIR := true }) topped.core entry high'
        topped.away (fun id other => if_neg other) ghosts fun _ => rfl
      rw [bytes'] at raised
      refine ⟨_, ?_, raised, based_raise entry topped.shape fun _ => rfl, topped.lirs, topped.hirs, ?_⟩
      · rw [hitRDHIRinS, bytes, run, key]
        rfl
      · show 0 < t.hirsCount → (b.lirsLimit : Int) ≤ t.lirsCount + 1 + _
        intro _
        have before := valid.filled
        rcases topped.filled with ⟨sameL, sameH⟩ | full
        · have counts : t.lirsCount = s.lirsCount := sameL
          split
          · rename_i alone
            rw [if_pos alone] at before
            omega
          · rename_i several
            rw [if_neg several] at before
            omega
        · split <;> omega

theorem valid_pushHIR (core : Settled s) (some : 0 < s.lirsCount)
    (shape : Based s ∨ s.kinds.length ≤ 1) (lirs : s.lirsCount ≤ b.lirsLimit)
    (hirs : s.hirsCount ≤ b.hirsLimit)
    (filled : 0 < s.hirsCount → (b.lirsLimit : Int) ≤ s.lirsCount + if b.hirsLimit = 1 then 0 else 1)
    (unit : odd q = 0) (out : s.lruS.find q.objId = none) (here : 1 ≤ s.lruQ.held q.objId) :
    Valid b { s with lruS := s.lruS.insert q.toRequest { isLIR := false, inCache := true } } := by
  obtain ⟨nonempty, based⟩ := based_of_low core some shape
  refine ⟨?_, based_push based (.inl nonempty), lirs, hirs, filled⟩
  refine core_pushHIR core (by rw [createCacheObj_toRequest]; exact unit) out (fun _ => le_rfl) ?_
  show 1 ≤ s.lruQ.held q.objId + 0
  omega

theorem Valid.held_newest (valid : Valid b s) (list : s.lruQ.objs = init ++ [q]) :
    s.lruQ.held q.objId = 1 := by
  have apart := valid.core.apart q.objId
  have roles := roles_nonneg s q.objId
  have others := total_copies_nonneg CacheObj.objId q.objId init
  have count : s.lruQ.held q.objId = total (copies CacheObj.objId q.objId) init + 1 := by
    rw [Fifo.held, list, total_append, total_cons, total_nil]
    simp [copies]
  omega

theorem Demoted.unfound {t : State} {z : Nat} {rest : List (Nat × Bool)}
    (demoted : Demoted b owed s z rest t) (kinds : s.kinds = (z, true) :: rest)
    (missing : s.lruS.find x = none) : t.lruS.find x = none := by
  have nothing := Core.not_found missing
  rw [Fifo.find_none_iff_held]
  have positive := t.lruS.held_nonneg x
  by_contra found
  have member : x ∈ t.kinds.map Prod.fst := mem_kinds_iff.mpr (by omega)
  obtain ⟨dropped, split⟩ := demoted.split
  have earlier : x ∈ s.kinds.map Prod.fst := by
    rw [kinds, split, List.map_cons, List.map_append]
    exact List.mem_cons_of_mem _ (List.mem_append_right _ member)
  have count := mem_kinds_iff.mp earlier
  rw [held_eq] at count
  omega

theorem displaced_pushHIR (core : Settled s) (unit : odd q = 0) (out : s.lruS.find q.objId = none)
    (away : s.lruQ.held q.objId = 0) : Displaced q.objId
      { s with lruS := s.lruS.insert q.toRequest { isLIR := false, inCache := true } } := by
  constructor
  · refine core_pushHIR core (by rw [createCacheObj_toRequest]; exact unit) out (owedTo_nonneg _) ?_
    show 1 ≤ s.lruQ.held q.objId + owedTo q.objId q.objId
    rw [away, owedTo, if_pos rfl]
    rfl
  · show 1 ≤ total (hirAt q.objId) (s.lruS.insert q.toRequest { isLIR := false, inCache := true }).objs
    rw [Fifo.total_insert]
    have before := (roles_nonneg s q.objId).2.1
    have own : hirAt q.objId (createCacheObj q.toRequest { isLIR := false, inCache := true }) = 1 := by
      rw [(roles_of_high rfl rfl _).2.1]
      exact if_pos rfl
    rw [State.hir] at before
    omega
  · exact away

/-- A hit on a block that only `LRU_q` has, in the state after `LRU_q` has moved it. The
block that comes from the stack pushes it out if `LRU_q` has room for one only. -/
theorem hitRDHIRinQ_spec (valid : Valid b s) (list : s.lruQ.objs = init ++ [q])
    (missing : s.lruS.find q.objId = none) : ∃ t, hitRDHIRinQ b s q = .ok t ∧
      (¬ (b.hirsLimit = 1 ∧ s.lirsCount = b.lirsLimit) → Valid b t) ∧
      (b.hirsLimit = 1 ∧ s.lirsCount = b.lirsLimit → Displaced q.objId t) := by
  have unit := (valid.core.unitQ (o := q) (by rw [list]; simp)).1
  have bytes := bytes_of_odd unit
  have held := valid.held_newest list
  have used : 0 < s.hirsCount := by
    have others := total_nonneg one init fun _ _ => zero_le_one
    rw [valid.core.hirs, list, total_append, total_cons, total_nil, one]
    omega
  have filled := valid.filled used
  have limit := limits b
  have some : 0 < s.lirsCount := by
    split at filled <;> omega
  have spec := makeRoomS_spec valid.core (fun _ => le_rfl) valid.based valid.hirs
  have shape : ∀ t, makeRoomS b 1 s = .ok t → hitRDHIRinQ b s q =
      .ok { t with lruS := t.lruS.insert q.toRequest { isLIR := false, inCache := true } } := by
    intro t run
    rw [hitRDHIRinQ, bytes, run]
    rfl
  rcases valid.lirs.lt_or_eq with free | full
  · refine ⟨_, shape s (spec.1 free), fun _ => ?_, fun displaced => absurd displaced.2 (by omega)⟩
    exact valid_pushHIR valid.core some (.inl valid.based) valid.lirs valid.hirs valid.filled unit missing
      held.ge
  · obtain ⟨z, rest, t, kinds, run, demoted⟩ := spec.2 full
    have nothing := Core.not_found missing
    have other : z ≠ q.objId := by
      rintro rfl
      have low := lir_of_tail kinds
      omega
    have out := demoted.unfound kinds missing
    have left := demoted.held q.objId
    rw [held, if_neg other, pushedOut_newest valid.core valid.hirs list] at left
    have fewer := demoted.lirs
    refine ⟨_, shape t run, ?_, ?_⟩
    · intro roomy
      have several : b.hirsLimit ≠ 1 := by
        intro alone
        exact roomy ⟨alone, full⟩
      rw [if_neg several] at left
      refine valid_pushHIR demoted.core (by omega) demoted.based (by omega) demoted.hirs.2 ?_ unit out
        (by omega)
      intro _
      rw [if_neg several]
      omega
    · rintro ⟨alone, _⟩
      rw [if_pos alone] at left
      exact displaced_pushHIR demoted.core unit out (by omega)

end Hits

/-! ## Lookup of any object -/

/-- A miss: the object has at most an entry without data, and that is at the head of
the stack. -/
structure Missed (b : Params) (x : Nat) (t : State) : Prop where
  valid : Valid b t
  lir : t.lir x = 0
  hir : t.hir x = 0
  away : t.lruQ.held x = 0
  top : 1 ≤ t.absent x → ∃ init, t.kinds = init ++ [(x, false)]

/-- Blocks of low recency and those in `LRU_q` are cached. -/
def State.resident (s : State) (id : Nat) : Int := s.lir id + s.lruQ.held id

theorem promoted_find {x : Nat} (core : Core owed s) :
    (promoted s x).lruS.find x = s.lruS.find x ∧ (promoted s x).lruQ.find x = s.lruQ.find x := by
  have single := core.single x
  have apart := core.apart x
  have positive := roles_nonneg s x
  refine ⟨Fifo.find_promote ?_, Fifo.find_promote ?_⟩
  · rw [held_eq]
    exact single
  · omega

theorem lirsFind_eq (b : Params) (core : Core owed s) (r : Request) :
    lirsFind b s r = match s.lruS.find r.objId, s.lruQ.find r.objId with
      | some objS, objQ =>
        if objS.tag.isLIR then (lirsPrune (promoted s r.objId)).map fun s => (true, s)
        else if objS.tag.inCache then (hitRDHIRinS b (promoted s r.objId) objS objQ).map fun s => (true, s)
        else .ok (false, promoted s r.objId)
      | none, some objQ =>
        if objQ.tag.inCache then (hitRDHIRinQ b (promoted s r.objId) objQ).map fun s => (true, s)
        else .error (.fault .assertFailed)
      | none, none => .ok (false, promoted s r.objId) := by
  obtain ⟨stack, queue⟩ := promoted_find (x := r.objId) core
  rw [← stack, ← queue]
  rfl

def LookedUp (b : Params) (s : State) (r : Request) (hit : Bool) (t : State) : Prop :=
  (hit = true ↔ 0 < s.resident r.objId) ∧
    if hit then (¬ Displaces b s r → Valid b t) ∧ (Displaces b s r → Displaced r.objId t)
    else ¬ Displaces b s r ∧ Missed b r.objId t

theorem lirsFind_inS (valid : Valid b s) {o : CacheObj Flags} (found : s.lruS.find r.objId = some o) :
    ∃ hit t, lirsFind b s r = .ok (hit, t) ∧ LookedUp b s r hit t := by
  obtain ⟨lir, hir, absent, held⟩ := promoted_roles s r.objId r.objId
  have positive := roles_nonneg s r.objId
  have apart := valid.core.apart r.objId
  have queued := valid.core.queued r.objId
  have single := valid.core.single r.objId
  have nonneg := s.lruQ.held_nonneg r.objId
  obtain ⟨stack, queue⟩ := promoted_find (x := r.objId) valid.core
  have never : ¬ Displaces b s r := by
    rintro ⟨_, _, _, missing⟩
    rw [found] at missing
    cases missing
  have key := Fifo.find_objId found
  have roles := valid.core.found found
  obtain ⟨init, top⟩ := promoted_kinds found
  rw [lirsFind_eq b valid.core r, found]
  unfold LookedUp State.resident
  cases low : o.tag.isLIR with
  | true =>
    have marks := roles_of_low low r.objId
    rw [if_pos key] at marks
    obtain ⟨t, run, valid'⟩ := hitLIR_spec (x := r.objId) valid (by omega)
    refine ⟨true, t, ?_, ⟨fun _ => by omega, fun _ => rfl⟩, fun _ => valid', fun bad => absurd bad never⟩
    simp only [low, if_true, run]
    rfl
  | false =>
    have high : ∀ o', s.lruS.find r.objId = some o' → o'.tag.isLIR = false := by
      intro o' same
      rw [found] at same
      cases same
      exact low
    have valid' := valid.promoted r.objId high
    rw [low] at top
    cases data : o.tag.inCache with
    | true =>
      have marks := roles_of_high low data r.objId
      rw [if_pos key] at marks
      obtain ⟨t, run, after⟩ := hitRDHIRinS_spec valid' (stack.trans found) low data top
      rw [queue] at run
      refine ⟨true, t, ?_, ⟨fun _ => by omega, fun _ => rfl⟩, fun _ => after, fun bad => absurd bad never⟩
      simp only [low, data, if_true, Bool.false_eq_true, if_false, run]
      rfl
    | false =>
      have marks := roles_of_absent low data r.objId
      rw [if_pos key] at marks
      refine ⟨false, promoted s r.objId, ?_, ⟨fun no => absurd no (by decide), fun _ => by omega⟩, never, ?_⟩
      · simp only [low, data, Bool.false_eq_true, if_false]
      · exact ⟨valid', by omega, by omega, by omega, fun _ => ⟨init, top⟩⟩

theorem lirsFind_outsideS (valid : Valid b s) (missing : s.lruS.find r.objId = none) :
    ∃ hit t, lirsFind b s r = .ok (hit, t) ∧ LookedUp b s r hit t := by
  obtain ⟨lir, hir, absent, held⟩ := promoted_roles s r.objId r.objId
  have positive := roles_nonneg s r.objId
  have nothing := Core.not_found missing
  obtain ⟨stack, queue⟩ := promoted_find (x := r.objId) valid.core
  have valid' := valid.promoted r.objId (by
    intro o' same
    rw [missing] at same
    cases same)
  rw [lirsFind_eq b valid.core r, missing]
  unfold LookedUp State.resident
  cases queued : s.lruQ.find r.objId with
  | some q =>
    have present := (s.lruQ.find_isSome_iff r.objId).mp (by rw [queued]; rfl)
    have key := Fifo.find_objId queued
    have data := (valid.core.unitQ (Fifo.find_mem queued)).2
    obtain ⟨t, run, good, bad⟩ := hitRDHIRinQ_spec valid' (Fifo.objs_promote queued)
      (by rw [key]; exact stack.trans missing)
    have same : Displaces b s r ↔ b.hirsLimit = 1 ∧ (promoted s r.objId).lirsCount = b.lirsLimit := by
      constructor
      · rintro ⟨alone, full, _, _⟩
        exact ⟨alone, full⟩
      · rintro ⟨alone, full⟩
        exact ⟨alone, full, by rw [queued]; rfl, missing⟩
    rw [key] at bad
    refine ⟨true, t, ?_, ⟨fun _ => by omega, fun _ => rfl⟩, ?_⟩
    · simp only [data, if_true, run]
      rfl
    · rw [same]
      exact ⟨good, bad⟩
  | none =>
    have empty := (s.lruQ.find_none_iff_held r.objId).mp queued
    refine ⟨false, promoted s r.objId, rfl, ⟨fun no => absurd no (by decide), fun _ => by omega⟩, ?_, ?_⟩
    · rintro ⟨_, _, here, _⟩
      rw [queued] at here
      cases here
    · exact ⟨valid', by omega, by omega, by omega, fun some => by omega⟩

theorem lirsFind_spec (valid : Valid b s) (r : Request) :
    ∃ hit t, lirsFind b s r = .ok (hit, t) ∧ (hit = true ↔ 0 < s.resident r.objId) ∧
      if hit then (¬ Displaces b s r → Valid b t) ∧ (Displaces b s r → Displaced r.objId t)
      else ¬ Displaces b s r ∧ Missed b r.objId t := by
  cases found : s.lruS.find r.objId with
  | some o => exact lirsFind_inS valid found
  | none => exact lirsFind_outsideS valid found

end Lirs
