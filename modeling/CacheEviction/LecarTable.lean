import CacheEviction.LecarPolicy

/-!
# The table and the lists of LeCaR

Every entry of the hash table is a cached object or a ghost of some expert. A list is right
if it holds just the entries of one kind, once each. What a call does to the table is said by
the entry that it changes, and the lists follow.
-/
namespace Lecar

open FifoCache FuelLoops WeightedLists Function

inductive Kind where
  | cached
  | ghost (expert : Expert)
  deriving DecidableEq

def kindOf (o : CacheObj Meta) : Kind := if o.tag.isGhost then .ghost o.tag.evictExpert else .cached

theorem isGhost_of_cached {o : CacheObj Meta} (cached : kindOf o = .cached) : ¬ o.tag.isGhost = true := by
  intro ghost
  rw [kindOf, if_pos ghost] at cached
  cases cached

theorem isGhost_of_ghost {o : CacheObj Meta} {e : Expert} (ghost : kindOf o = .ghost e) :
    o.tag.isGhost = true ∧ o.tag.evictExpert = e := by
  unfold kindOf at ghost
  split at ghost
  · rename_i yes
    exact ⟨yes, Kind.ghost.inj ghost⟩
  · cases ghost

def kinds (table : Fifo Meta) (id : Nat) : Option Kind := (table.find id).map kindOf

def costs (b : Setup) (table : Fifo Meta) (id : Nat) : Int :=
  ((table.find id).map (objCost b)).getD 0

structure Lists (kinds : Nat → Option Kind) (l : List Nat) (k : Kind) : Prop where
  nodup : l.Nodup
  mem : ∀ id, id ∈ l ↔ kinds id = some k

namespace Lists

variable {kinds : Nat → Option Kind} {l : List Nat} {k : Kind} {x : Nat} {v : Option Kind}

theorem other (lists : Lists kinds l k) (before : kinds x ≠ some k) (after : v ≠ some k) :
    Lists (update kinds x v) l k where
  nodup := lists.nodup
  mem id := by
    rw [lists.mem]
    by_cases same : id = x
    · rw [same, update_self]
      exact iff_of_false before after
    · rw [update_of_ne same]

theorem erase (lists : Lists kinds l k) (after : v ≠ some k) :
    Lists (update kinds x v) (l.erase x) k where
  nodup := lists.nodup.erase x
  mem id := by
    rw [lists.nodup.mem_erase_iff, lists.mem]
    by_cases same : id = x
    · rw [same, update_self]
      exact iff_of_false (fun both => both.1 rfl) after
    · rw [update_of_ne same]
      exact and_iff_right same

theorem append (lists : Lists kinds l k) (before : kinds x ≠ some k) :
    Lists (update kinds x (some k)) (l ++ [x]) k where
  nodup := by
    refine List.nodup_append.mpr ⟨lists.nodup, List.nodup_singleton x, ?_⟩
    rintro y member z own rfl
    rw [List.mem_singleton.mp own] at member
    exact before ((lists.mem x).mp member)
  mem id := by
    rw [List.mem_append, List.mem_singleton, lists.mem]
    by_cases same : id = x
    · rw [same, update_self]
      exact iff_of_true (.inr rfl) rfl
    · rw [update_of_ne same]
      exact or_iff_left same

theorem touch (lists : Lists kinds l k) (here : kinds x = some k) : Lists kinds (l.erase x ++ [x]) k := by
  have off : Lists (update kinds x none) (l.erase x) k := lists.erase (by simp)
  have back := off.append (x := x) (by rw [update_self]; simp)
  rwa [update_idem, ← here, update_eq_self] at back

end Lists

/-! ## The table after a change -/

section Change

variable {b : Setup} {table t : Fifo Meta} {x : Nat} {v : Option (CacheObj Meta)}

theorem kinds_update (changed : t.find = update table.find x v) :
    kinds t = update (kinds table) x (v.map kindOf) := by
  funext id
  simp only [kinds, changed]
  by_cases same : id = x
  · rw [same, update_self, update_self]
  · rw [update_of_ne same, update_of_ne same]
    rfl

theorem costs_update (b : Setup) (changed : t.find = update table.find x v) :
    costs b t = update (costs b table) x ((v.map (objCost b)).getD 0) := by
  funext id
  simp only [costs, changed]
  by_cases same : id = x
  · rw [same, update_self, update_self]
  · rw [update_of_ne same, update_of_ne same]
    rfl

theorem total_costs (b : Setup) (changed : t.find = update table.find x v) {l : List Nat}
    (absent : x ∉ l) : total (costs b t) l = total (costs b table) l := by
  rw [costs_update b changed]
  exact total_update_of_not_mem (fun c => c) _ _ absent

theorem costs_found (b : Setup) {obj : CacheObj Meta} (found : table.find x = some obj) :
    costs b table x = objCost b obj := by
  rw [costs, found]
  rfl

end Change

/-! ## Histories -/

structure Kept (b : Setup) (table : Fifo Meta) (h : History) (e : Expert) : Prop where
  lists : Lists (kinds table) h.ids (.ghost e)
  bytes : h.occupiedByte = total (costs b table) h.ids

section Histories

variable {b : Setup} {table t : Fifo Meta} {h : History} {e : Expert} {x : Nat}
  {v : Option (CacheObj Meta)} {obj : CacheObj Meta}

theorem Kept.other (kept : Kept b table h e) (changed : t.find = update table.find x v)
    (before : kinds table x ≠ some (.ghost e)) (after : v.map kindOf ≠ some (.ghost e)) :
    Kept b t h e where
  lists := by
    rw [kinds_update changed]
    exact kept.lists.other before after
  bytes := by
    have absent : x ∉ h.ids := fun member => before ((kept.lists.mem x).mp member)
    rw [total_costs b changed absent, kept.bytes]

theorem Kept.leave (kept : Kept b table h e) (distinct : table.Distinct)
    (found : table.find x = some obj) (ghost : kindOf obj = .ghost e) :
    Kept b (table.remove x) (h.leave b obj) e := by
  have changed := Fifo.find_remove distinct x
  have own := Fifo.find_objId found
  have member : x ∈ h.ids := by
    rw [kept.lists.mem, kinds, found, Option.map_some, ghost]
  constructor
  · rw [kinds_update changed, History.leave, own]
    exact kept.lists.erase (by simp)
  · have absent : x ∉ h.ids.erase x := kept.lists.nodup.not_mem_erase
    rw [History.leave, own, total_costs b changed absent, total_erase _ member, kept.bytes,
      costs_found b found]

theorem Kept.enter (kept : Kept b table h e) {ghost : CacheObj Meta}
    (changed : t.find = update table.find obj.objId (some ghost))
    (before : kinds table obj.objId ≠ some (.ghost e)) (kind : kindOf ghost = .ghost e)
    (size : objCost b ghost = objCost b obj) : Kept b t (h.enter b obj) e := by
  have absent : obj.objId ∉ h.ids := fun member => before ((kept.lists.mem _).mp member)
  constructor
  · rw [kinds_update changed, Option.map_some, kind]
    exact kept.lists.append before
  · have own : costs b t obj.objId = objCost b obj := by
      rw [costs_update b changed, update_self, Option.map_some, Option.getD_some, size]
    rw [History.enter, total_append, total_cons, total_nil, total_costs b changed absent, kept.bytes, own,
      add_zero]

/-- A history while it is shortened: only ghosts of its expert have gone, the oldest first. -/
structure Trimming (b : Setup) (e : Expert) (h : History) (table : Fifo Meta)
    (a : History × Fifo Meta) : Prop where
  kept : Kept b a.2 a.1 e
  distinct : a.2.Distinct
  frame : ∀ id, kinds table id ≠ some (.ghost e) → a.2.find id = table.find id
  gone : ∀ id, a.2.find id = table.find id ∨ a.2.find id = none
  suffix : ∃ dropped, h.ids = dropped ++ a.1.ids

theorem objCost_nonneg (b : Setup) (o : CacheObj Meta) : 0 ≤ objCost b o := by
  have bytes := o.bytes_nonneg
  rw [objCost]
  omega

theorem trim_ends (kept : Kept b table h e) (distinct : table.Distinct) {older : List Nat}
    (shape : h.ids = older ++ [x]) (found : table.find x = some obj) {fuel : Nat}
    (enough : h.ids.length < fuel) :
    ∃ a, loop (trim b) fuel (h, table) = .ok a ∧ Trimming b e h table a ∧
      a.1.occupiedByte ≤ (b.cacheSize / 2 : Nat) ∧
      (x ∈ a.1.ids ↔ objCost b obj ≤ (b.cacheSize / 2 : Nat)) := by
  have rounds : ∀ a, (Trimming b e h table a ∧
        (objCost b obj ≤ (b.cacheSize / 2 : Nat) → a.1.ids ≠ [])) →
      ∃ round, trim b a = .ok round ∧ Round.Progress
        (fun a => Trimming b e h table a ∧ (objCost b obj ≤ (b.cacheSize / 2 : Nat) → a.1.ids ≠ []))
        (fun a => a.1.ids.length)
        (fun a => (Trimming b e h table a ∧ (objCost b obj ≤ (b.cacheSize / 2 : Nat) → a.1.ids ≠ [])) ∧
          a.1.occupiedByte ≤ (b.cacheSize / 2 : Nat)) a round := by
    rintro ⟨k, q⟩ ⟨trimming, some_⟩
    by_cases long : (b.cacheSize / 2 : Nat) < k.occupiedByte
    · cases ids : k.ids with
      | nil =>
        have bytes := trimming.kept.bytes
        simp only [ids, total_nil] at bytes
        omega
      | cons id rest =>
        have kind : kinds q id = some (.ghost e) := by
          rw [← trimming.kept.lists.mem, ids]
          exact List.mem_cons_self
        obtain ⟨ghost, there, ghostKind⟩ := Option.map_eq_some_iff.mp kind
        have changed := Fifo.find_remove trimming.distinct id
        have own := Fifo.find_objId there
        have left : (k.leave b ghost).ids = rest := by
          rw [History.leave, own, ids, List.erase_cons_head]
        refine ⟨.again (k.leave b ghost, q.remove id), ?_, ⟨⟨?_, ?_, ?_, ?_, ?_⟩, ?_⟩, ?_⟩
        · simp only [trim, if_pos long, ids, there]
        · exact trimming.kept.leave trimming.distinct there ghostKind
        · exact trimming.distinct.remove id
        · intro i other
          have apart : i ≠ id := by
            rintro rfl
            have same := trimming.frame i other
            rw [kinds, same] at kind
            exact other kind
          simp only [changed, update_of_ne apart]
          exact trimming.frame i other
        · intro i
          simp only [changed]
          by_cases same : i = id
          · rw [same, update_self]
            exact .inr rfl
          · rw [update_of_ne same]
            exact trimming.gone i
        · obtain ⟨dropped, all⟩ := trimming.suffix
          refine ⟨dropped ++ [id], ?_⟩
          rw [all, left, ids, List.append_assoc, List.singleton_append]
        · -- the only ghost left is the newest, which is short enough by itself
          intro small empty
          simp only [left] at empty
          obtain ⟨dropped, all⟩ := trimming.suffix
          have last : id = x := by
            have ends := congrArg List.getLast? (shape.symm.trans all)
            rw [ids, empty] at ends
            simpa using ends.symm
          have bytes := trimming.kept.bytes
          have same : q.find x = some obj := by
            rcases trimming.gone x with same | none
            · rw [same, found]
            · rw [last] at there
              rw [there] at none
              cases none
          simp only [ids, empty, total_cons, total_nil, last, costs_found b same] at bytes
          omega
        · simp only [left, ids, List.length_cons]
          exact Nat.lt_succ_self _
    · refine ⟨.done (k, q), ?_, ⟨trimming, some_⟩, Int.not_lt.mp long⟩
      simp only [trim, if_neg long]
  have start : Trimming b e h table (h, table) :=
    ⟨kept, distinct, fun _ _ => rfl, fun _ => .inl rfl, [], rfl⟩
  have nonempty : h.ids ≠ [] := by
    rw [shape]
    exact List.append_ne_nil_of_right_ne_nil _ (List.cons_ne_nil _ _)
  obtain ⟨a, run, ⟨trimming, some_⟩, short⟩ :=
    loop_within _ _ rounds (s := (h, table)) ⟨start, fun _ => nonempty⟩ enough
  refine ⟨a, run, trimming, short, ?_⟩
  constructor
  · intro member
    have bound := le_total_of_mem (w := costs b a.2) (fun id => by
      unfold costs
      cases a.2.find id with
      | none => exact le_rfl
      | some o => exact objCost_nonneg b o) member
    have same : a.2.find x = some obj := by
      rcases trimming.gone x with same | none
      · rw [same, found]
      · have listed := (trimming.kept.lists.mem x).mp member
        rw [kinds, none] at listed
        cases listed
    rw [costs_found b same, ← trimming.kept.bytes] at bound
    exact bound.trans short
  · intro small
    obtain ⟨dropped, all⟩ := trimming.suffix
    obtain ⟨init, last, split⟩ := (List.eq_nil_or_concat a.1.ids).resolve_left (some_ small)
    have ends := congrArg List.getLast? (shape.symm.trans all)
    rw [split] at ends
    simp at ends
    rw [split, ends]
    simp

end Histories
end Lecar
