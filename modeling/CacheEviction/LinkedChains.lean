import Mathlib.Data.List.Chain
import Mathlib.Data.List.Nodup

/-!
# Chains of intrusive links

A chain says that a list is what a walk from its oldest node along the `prev` links
meets, and that every node but the oldest points back at its older neighbour. The
`next` link of the oldest node is left open: a queue that only ever pops that node has
no reason to repair it.
-/
namespace LinkedChains

universe u
variable {P : Type u}

structure Links (P : Type u) where
  next : Option P
  prev : Option P

theorem Links.ext {a b : Links P} (next : a.next = b.next) (prev : a.prev = b.prev) : a = b := by
  cases a
  cases b
  cases next
  cases prev
  rfl

/-- `y` is the newer neighbour of `x`, and both know it. -/
def Joined (links : P → Links P) (x y : P) : Prop :=
  (links x).prev = some y ∧ (links y).next = some x

/-- The list, oldest node first, that the links spell out. -/
structure Chain (links : P → Links P) (l : List P) : Prop where
  joined : l.IsChain (Joined links)
  newest : ∀ x ∈ l.getLast?, (links x).prev = none
  nodup : l.Nodup

variable {links links' : P → Links P} {l m : List P}

theorem Chain.nil (links : P → Links P) : Chain links [] :=
  ⟨.nil, by simp, List.nodup_nil⟩

theorem Chain.congr (same : ∀ x ∈ l, links' x = links x) (h : Chain links l) : Chain links' l := by
  refine ⟨h.joined.imp_of_mem_imp ?_, ?_, h.nodup⟩
  · intro x y hx hy joined
    rwa [Joined, same x hx, same y hy]
  · intro x hx
    rw [same x (List.mem_of_getLast? hx)]
    exact h.newest x hx

theorem Chain.tail {x : P} (h : Chain links (x :: l)) : Chain links l := by
  refine ⟨h.joined.tail, ?_, (List.nodup_cons.mp h.nodup).2⟩
  intro y hy
  apply h.newest y
  rw [List.getLast?_cons, Option.mem_def.mp hy]
  rfl

theorem Chain.prev_head {x : P} (h : Chain links (x :: l)) : (links x).prev = l.head? := by
  cases l with
  | nil => exact h.newest x rfl
  | cons y l => exact (List.isChain_cons_cons.mp h.joined).1.1

theorem Chain.newer (h : Chain links (l ++ m)) : Chain links m := by
  induction l with
  | nil => exact h
  | cons x l ih => exact ih h.tail

theorem Chain.unique (hl : Chain links l) (hm : Chain links m) (start : l.head? = m.head?) :
    l = m := by
  induction l generalizing m with
  | nil =>
    cases m with
    | nil => rfl
    | cons y m => cases start
  | cons x l ih =>
    cases m with
    | nil => cases start
    | cons y m =>
      cases start
      have onward : l.head? = m.head? := hl.prev_head.symm.trans hm.prev_head
      rw [ih hl.tail hm.tail onward]

theorem Chain.relink {x : P} (h : Chain links (x :: l))
    (prev : ∀ y ∈ x :: l, (links' y).prev = (links y).prev)
    (next : ∀ y ∈ l, (links' y).next = (links y).next) : Chain links' (x :: l) := by
  refine ⟨h.joined.imp_of_mem_tail_imp ?_, ?_, h.nodup⟩
  · intro y z hy hz joined
    exact ⟨(prev y hy).trans joined.1, (next z hz).trans joined.2⟩
  · intro y hy
    rw [prev y (List.mem_of_getLast? hy)]
    exact h.newest y hy

theorem Chain.map {σ : P → P} (h : Chain links l) (inj : ∀ x ∈ l, ∀ y ∈ l, σ x = σ y → x = y)
    (renamed : ∀ x ∈ l, links' (σ x) = ⟨(links x).next.map σ, (links x).prev.map σ⟩) :
    Chain links' (l.map σ) := by
  refine ⟨?_, ?_, h.nodup.map_on inj⟩
  · rw [List.isChain_map]
    refine h.joined.imp_of_mem_imp ?_
    intro x y hx hy joined
    rw [Joined, renamed x hx, renamed y hy, joined.1, joined.2]
    exact ⟨rfl, rfl⟩
  · intro y hy
    rw [List.getLast?_map, Option.mem_def, Option.map_eq_some_iff] at hy
    obtain ⟨x, last, rfl⟩ := hy
    rw [renamed x (List.mem_of_getLast? last), h.newest x last]
    rfl

/-! Neighbours stay joined if only the ends of their list get new links. -/

theorem joined_of_last (h : l.IsChain (Joined links)) (nodup : l.Nodup)
    (prev : ∀ x ∈ l, x ∉ l.getLast? → (links' x).prev = (links x).prev)
    (next : ∀ x ∈ l, (links' x).next = (links x).next) : l.IsChain (Joined links') := by
  rcases List.eq_nil_or_concat l with rfl | ⟨older, o, rfl⟩
  · exact .nil
  · rw [List.concat_eq_append] at *
    have last : (older ++ [o]).getLast? = some o := by simp
    obtain ⟨_, _, single⟩ := List.nodup_append.mp nodup
    have prevOld : ∀ x ∈ older, (links' x).prev = (links x).prev := by
      intro x hx
      apply prev x (by simp [hx])
      rw [last]
      intro same
      exact single x hx o (List.mem_singleton_self o) (by simpa using Eq.symm same)
    obtain ⟨first, _, link⟩ := List.isChain_append.mp h
    refine List.isChain_append.mpr ⟨first.imp_of_mem_imp ?_, .singleton o, ?_⟩
    · intro x y hx hy joined
      exact ⟨(prevOld x hx).trans joined.1, (next y (List.mem_append_left _ hy)).trans joined.2⟩
    · intro x hx y hy
      have joined := link x hx y hy
      exact ⟨(prevOld x (List.mem_of_getLast? hx)).trans joined.1,
        (next y (List.mem_append_right _ (List.mem_of_mem_head? hy))).trans joined.2⟩

theorem joined_of_head (h : l.IsChain (Joined links)) (nodup : l.Nodup)
    (prev : ∀ x ∈ l, (links' x).prev = (links x).prev)
    (next : ∀ x ∈ l, x ∉ l.head? → (links' x).next = (links x).next) : l.IsChain (Joined links') := by
  cases l with
  | nil => exact .nil
  | cons y l =>
    have distinct : ∀ x ∈ l, x ≠ y := by
      rintro x hx rfl
      exact (List.nodup_cons.mp nodup).1 hx
    refine h.imp_of_mem_tail_imp ?_
    intro x z hx hz joined
    refine ⟨(prev x hx).trans joined.1, ?_⟩
    rw [next z (List.mem_of_mem_tail hz)]
    · exact joined.2
    · intro same
      exact distinct z hz (by simpa using Eq.symm same)

/-- A new newest node: it points back at the node that was newest, whose `prev`
link now points at it; every other node of the chain is as before. -/
theorem Chain.snoc {n : P} (h : Chain links l) (fresh : n ∉ l)
    (others : ∀ x ∈ l, x ∉ l.getLast? → links' x = links x)
    (old : ∀ o ∈ l.getLast?, links' o = ⟨(links o).next, some n⟩)
    (new : links' n = ⟨l.getLast?, none⟩) : Chain links' (l ++ [n]) := by
  have next : ∀ x ∈ l, (links' x).next = (links x).next := by
    intro x hx
    by_cases last : x ∈ l.getLast?
    · rw [old x last]
    · rw [others x hx last]
  refine ⟨List.isChain_append.mpr ⟨?_, .singleton n, ?_⟩, ?_, ?_⟩
  · exact joined_of_last h.joined h.nodup (fun x hx other => by rw [others x hx other]) next
  · intro x hx y hy
    obtain rfl : n = y := by simpa using hy
    rw [Joined, old x hx, new]
    exact ⟨rfl, hx⟩
  · intro x hx
    obtain rfl : n = x := by simpa using hx
    rw [new]
  · rw [List.nodup_append]
    refine ⟨h.nodup, List.nodup_singleton n, ?_⟩
    rintro x hx y hy rfl
    obtain rfl : x = n := by simpa using hy
    exact fresh hx

/-- Taking out a node: its neighbours point at each other and every other link
is as before. Nothing is asked of the `next` link of the oldest node. -/
theorem Chain.splice {n : P} {older newer : List P} (h : Chain links (older ++ n :: newer))
    (forward : ∀ x ∈ older.getLast?, (links' x).prev = newer.head?)
    (backward : ∀ x ∈ newer.head?, (links' x).next = older.getLast?)
    (prev : ∀ x ∈ older ++ newer, x ∉ older.getLast? → (links' x).prev = (links x).prev)
    (next : ∀ x ∈ older ++ newer, x ∉ newer.head? → (links' x).next = (links x).next) :
    Chain links' (older ++ newer) := by
  obtain ⟨front, back, _⟩ := List.isChain_append.mp h.joined
  obtain ⟨oldNodup, newNodup, disjoint⟩ := List.nodup_append.mp h.nodup
  have apart : ∀ x ∈ older, x ∉ newer := fun x hx hy =>
    disjoint x hx x (List.mem_cons_of_mem n hy) rfl
  have nextOld : ∀ x ∈ older, (links' x).next = (links x).next := by
    intro x hx
    apply next x (List.mem_append_left _ hx)
    exact fun hy => apart x hx (List.mem_of_mem_head? hy)
  have prevNew : ∀ x ∈ newer, (links' x).prev = (links x).prev := by
    intro x hx
    apply prev x (List.mem_append_right _ hx)
    exact fun hy => apart x (List.mem_of_getLast? hy) hx
  refine ⟨List.isChain_append.mpr ⟨?_, ?_, ?_⟩, ?_, ?_⟩
  · exact joined_of_last front oldNodup (fun x hx => prev x (List.mem_append_left _ hx)) nextOld
  · exact joined_of_head back.tail (List.nodup_cons.mp newNodup).2 prevNew
      fun x hx => next x (List.mem_append_right _ hx)
  · intro x hx y hy
    exact ⟨(forward x hx).trans hy, (backward y hy).trans hx⟩
  · intro x hx
    cases newer with
    | nil =>
      rw [List.append_nil] at hx
      exact forward x hx
    | cons y newer =>
      have last : x ∈ (y :: newer).getLast? := by
        simpa [List.getLast?_append] using hx
      rw [prevNew x (List.mem_of_getLast? last)]
      apply h.newest x
      simpa [List.getLast?_append] using last
  · exact List.nodup_append.mpr ⟨oldNodup, (List.nodup_cons.mp newNodup).2,
      fun x hx y hy => disjoint x hx y (List.mem_cons_of_mem n hy)⟩

section Unlinking

variable [DecidableEq P] {older newer : List P} {n : P}

/-- The node between `older` and `newer` has been unlinked: its neighbours point at each
other, and no other node has got new links. -/
def Unlinked (links links' : P → Links P) (older newer : List P) (n : P) : Prop :=
  ∀ x, x ≠ n →
    (links' x).prev = (if older.getLast? = some x then newer.head? else (links x).prev) ∧
    (links' x).next = if newer.head? = some x then older.getLast? else (links x).next

theorem Chain.unlink (h : Chain links (older ++ n :: newer))
    (unlinked : Unlinked links links' older newer n) : Chain links' (older ++ newer) := by
  have within : ∀ x ∈ older ++ newer, x ≠ n := by
    rintro x inside rfl
    exact (List.nodup_cons.mp (List.nodup_middle.mp h.nodup)).1 inside
  apply h.splice
  · intro x last
    rw [(unlinked x (within x (List.mem_append_left _ (List.mem_of_getLast? last)))).1,
      if_pos (Option.mem_def.mp last)]
  · intro x first
    rw [(unlinked x (within x (List.mem_append_right _ (List.mem_of_mem_head? first)))).2,
      if_pos (Option.mem_def.mp first)]
  · intro x inside away
    rw [(unlinked x (within x inside)).1, if_neg (mt Option.mem_def.mpr away)]
  · intro x inside away
    rw [(unlinked x (within x inside)).2, if_neg (mt Option.mem_def.mpr away)]

theorem Unlinked.frame (unlinked : Unlinked links links' older newer n) {x : P}
    (outside : x ∉ older ++ n :: newer) : links' x = links x := by
  rw [List.mem_append, List.mem_cons, not_or, not_or] at outside
  obtain ⟨notOld, notN, notNew⟩ := outside
  obtain ⟨prev, next⟩ := unlinked x notN
  rw [if_neg fun same => notOld (List.mem_of_getLast? same)] at prev
  rw [if_neg (fun same : newer.head? = some x => notNew (List.mem_of_mem_head? same))] at next
  exact Links.ext next prev

end Unlinking
end LinkedChains
