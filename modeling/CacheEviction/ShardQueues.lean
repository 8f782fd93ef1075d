import CacheEviction.MerlinFifo
import CacheEviction.WeightedLists

/-!
# The queues of all shards

A Merlin list owns three queues for each of its shards, all over the same items.
The policy is written against an interface of stores with two instances: linked
memory, which is what runs, and plain lists, which is what the queues are for.
`Holds` relates the two, provided that a linked item was in no queue before and a
removed one is not the oldest of its queue.
-/
namespace ShardQueues

open MerlinFifo WeightedLists Function

variable {P : Type}

inductive Kind where
  | filter
  | staging
  | core
  deriving DecidableEq

/-- A queue of the list: the shard it belongs to and its kind. -/
abbrev Place := Nat × Kind

/-- What the policy asks of its queues. The policy is written over any store, so
that it can be run on linked memory and reasoned about on plain lists. -/
class FifoStore (Q : Type) (P : outParam Type) where
  removeTail : Q → Place → Option P × Q
  linkAtHead : Q → Place → P → Q
  remove : Q → Place → P → Q
  size : Q → Place → Nat

structure Memory (P : Type) where
  hooks : Hooks P
  fifo : Place → Fifo P

/-- What a store of queues is for: a list of items, oldest first, at every place. -/
abbrev Contents (P : Type) := Place → List P

/-- No item stands in two queues, or twice in one. -/
structure Separate (c : Contents P) : Prop where
  nodup : ∀ place, (c place).Nodup
  apart : ∀ {a b n}, n ∈ c a → n ∈ c b → a = b

structure Holds (m : Memory P) (c : Contents P) : Prop where
  represents : ∀ place, Represents m.hooks (m.fifo place) (c place)
  separate : Separate c

variable {m : Memory P} {c : Contents P} {l : List P} {place : Place}
variable {n : P} {newer older : List P}

theorem Separate.of_sub {d : Contents P} (h : Separate c)
    (sub : ∀ p, (d p).Sublist (c p)) : Separate d where
  nodup p := (h.nodup p).sublist (sub p)
  apart ha hb := h.apart ((sub _).subset ha) ((sub _).subset hb)

theorem Separate.cut (h : Separate c) (shape : c place = older ++ n :: newer) :
    Separate (update c place (older ++ newer)) ∧
      ∀ {p x}, x ∈ update c place (older ++ newer) p ↔ x ≠ n ∧ x ∈ c p := by
  have nodup := h.nodup place
  rw [shape, List.nodup_middle] at nodup
  have gone : n ∉ older ++ newer := (List.nodup_cons.mp nodup).1
  constructor
  · apply h.of_sub
    intro p
    by_cases here : p = place
    · subst here
      simp [shape]
    · simp [here]
  · intro p x
    by_cases here : p = place
    · subst here
      rw [update_self, shape]
      constructor
      · intro hx
        refine ⟨fun same => gone (same ▸ hx), ?_⟩
        simp only [List.mem_append, List.mem_cons] at hx ⊢
        tauto
      · rintro ⟨other, hx⟩
        simp only [List.mem_append, List.mem_cons] at hx ⊢
        tauto
    · rw [update_of_ne here]
      refine ⟨fun hx => ⟨?_, hx⟩, And.right⟩
      rintro rfl
      exact here (h.apart hx (by simp [shape]))

theorem Separate.pop (h : Separate c) (shape : c place = n :: l) : Separate (update c place l) ∧
      ∀ {p x}, x ∈ update c place l p ↔ x ≠ n ∧ x ∈ c p :=
  h.cut (show c place = [] ++ n :: l from shape)

theorem mem_push {p : Place} {x : P} :
    x ∈ update c place (c place ++ [n]) p ↔ x ∈ c p ∨ x = n ∧ p = place := by
  by_cases here : p = place
  · subst here
    simp
  · simp [here]

theorem Separate.push (h : Separate c) (fresh : ∀ p, n ∉ c p) (place : Place) :
    Separate (update c place (c place ++ [n])) := by
  constructor
  · intro p
    by_cases here : p = place
    · subst here
      rw [update_self, List.nodup_append]
      refine ⟨h.nodup p, List.nodup_singleton n, ?_⟩
      rintro x hx y hy rfl
      exact fresh p (List.mem_singleton.mp hy ▸ hx)
    · rw [update_of_ne here]
      exact h.nodup p
  · intro a b x ha hb
    rcases mem_push.mp ha with oldA | ⟨newA, hereA⟩
    · rcases mem_push.mp hb with oldB | ⟨newB, _⟩
      · exact h.apart oldA oldB
      · exact absurd oldA (newB ▸ fresh a)
    · rcases mem_push.mp hb with oldB | ⟨_, hereB⟩
      · exact absurd oldB (newA ▸ fresh b)
      · rw [hereA, hereB]

/-! ## Weighing the items of some queues -/

def census (w : Place → P → Int) (places : List Place) (c : Contents P) : Int :=
  total (fun p => total (w p) (c p)) places

section Census

variable {w v : Place → P → Int} {places : List Place}

theorem census_update (nodup : places.Nodup) (c : Contents P) (place : Place) (l : List P) :
    census w places (update c place l) = census w places c +
      if place ∈ places then total (w place) l - total (w place) (c place) else 0 := by
  have changed : (fun p => total (w p) (update c place l p)) =
      update (fun p => total (w p) (c p)) place (total (w place) l) := by
    funext p
    by_cases here : p = place
    · subst here
      rw [update_self, update_self]
    · rw [update_of_ne here, update_of_ne here]
  rw [census, changed]
  split
  case isTrue inside =>
    refine (total_update id _ place _ nodup inside).trans ?_
    simp only [id, census]
    ring
  case isFalse outside =>
    exact (total_update_of_not_mem id _ _ outside).trans (add_zero _).symm

theorem census_cut (nodup : places.Nodup) (shape : c place = older ++ n :: newer) :
    census w places (update c place (older ++ newer)) =
      census w places c - if place ∈ places then w place n else 0 := by
  rw [census_update nodup, shape, total_append, total_append, total_cons]
  split <;> ring

theorem census_push (nodup : places.Nodup) (c : Contents P) (place : Place) (n : P) :
    census w places (update c place (c place ++ [n])) =
      census w places c + if place ∈ places then w place n else 0 := by
  rw [census_update nodup, total_append, total_cons, total_nil]
  split <;> ring

theorem census_congr (same : ∀ p, ∀ x ∈ c p, w p x = v p x) :
    census w places c = census v places c :=
  total_congr fun p _ => total_congr (same p)

end Census

theorem holds_empty (hooks : Hooks P) :
    Holds (⟨hooks, fun _ => {}⟩ : Memory P) (fun _ => []) :=
  ⟨fun _ => represents_empty hooks, fun _ => List.nodup_nil, fun h => by cases h⟩

theorem Holds.change {hooks' : Hooks P} {f' : Fifo P} (h : Holds m c)
    (here : Represents hooks' f' l) (separate : Separate (update c place l))
    (others : ∀ p x, p ≠ place → x ∈ c p → hooks' x = m.hooks x) :
    Holds ⟨hooks', update m.fifo place f'⟩ (update c place l) := by
  refine ⟨fun p => ?_, separate⟩
  by_cases same : p = place
  · subst same
    simpa using here
  · simp only [update_of_ne same]
    exact (h.represents p).congr (fun x hx => others p x same hx)

variable [DecidableEq P]

instance : FifoStore (Memory P) P where
  removeTail m place :=
    let (node, hooks, f) := removeTail m.hooks (m.fifo place)
    (node, ⟨hooks, Function.update m.fifo place f⟩)
  linkAtHead m place node :=
    let (hooks, f) := linkAtHead m.hooks (m.fifo place) node
    ⟨hooks, Function.update m.fifo place f⟩
  remove m place node :=
    let (hooks, f) := remove m.hooks (m.fifo place) node
    ⟨hooks, Function.update m.fifo place f⟩
  size m place := (m.fifo place).size

instance : FifoStore (Contents P) P where
  removeTail c place :=
    match c place with
    | [] => (none, c)
    | node :: rest => (some node, Function.update c place rest)
  linkAtHead c place node := Function.update c place (c place ++ [node])
  remove c place node := Function.update c place ((c place).erase node)
  size c place := (c place).length

theorem contents_removeTail_nil (shape : c place = []) :
    FifoStore.removeTail c place = (none, c) := by
  simp [FifoStore.removeTail, shape]

theorem contents_removeTail_cons (shape : c place = n :: l) :
    FifoStore.removeTail c place = (some n, update c place l) := by
  simp [FifoStore.removeTail, shape]

theorem Holds.size (h : Holds m c) (place : Place) :
    FifoStore.size m place = FifoStore.size c place :=
  (h.represents place).size

theorem Holds.removeTail (h : Holds m c) (place : Place) :
    (FifoStore.removeTail m place).1 = (FifoStore.removeTail c place).1 ∧
      Holds (FifoStore.removeTail m place).2 (FifoStore.removeTail c place).2 := by
  have here := h.represents place
  cases shape : c place with
  | nil =>
    rw [shape] at here
    rw [contents_removeTail_nil shape]
    simpa [FifoStore.removeTail, removeTail_nil here] using h
  | cons n l =>
    rw [shape] at here
    obtain ⟨node, rest, others⟩ := removeTail_cons here
    rw [contents_removeTail_cons shape]
    refine ⟨node, h.change rest (h.separate.pop shape).1 ?_⟩
    intro p x away member
    apply others
    rintro rfl
    exact away (h.separate.apart member (by rw [shape]; exact List.mem_cons_self))

theorem Holds.linkAtHead (h : Holds m c) (fresh : ∀ p, n ∉ c p) (place : Place) :
    Holds (FifoStore.linkAtHead m place n) (FifoStore.linkAtHead c place n) := by
  obtain ⟨rest, others⟩ := linkAtHead_snoc (h.represents place) (fresh place)
  refine h.change rest (h.separate.push fresh place) ?_
  intro p x away member
  apply others
  · exact fun there => away (h.separate.apart member there)
  · rintro rfl
    exact fresh p member

theorem Holds.remove (h : Holds m c) (shape : c place = older ++ n :: newer) (behind : older ≠ []) :
    Holds (FifoStore.remove m place n) (FifoStore.remove c place n) := by
  have here := h.represents place
  rw [shape] at here
  obtain ⟨rest, others⟩ := remove_newer here behind
  have absent : n ∉ older := fun member =>
    (List.nodup_append.mp here.chain.nodup).2.2 n member n List.mem_cons_self rfl
  have erased : (c place).erase n = older ++ newer := by
    rw [shape, List.erase_append_right _ absent, List.erase_cons_head]
  simp only [FifoStore.remove, erased]
  refine h.change rest (h.separate.cut shape).1 ?_
  intro p x away member
  apply others
  rw [← shape]
  exact fun there => away (h.separate.apart member there)

end ShardQueues
