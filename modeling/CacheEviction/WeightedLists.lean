import Mathlib.Algebra.BigOperators.Group.List.Basic
import Mathlib.Algebra.Order.Group.Int
import Mathlib.Data.List.Nodup
import Mathlib.Data.List.Perm.Basic
import Mathlib.Tactic.Ring

/-!
# Lists with an additive weight

Byte counts, object counts, frequency sums and cumulative histograms of a queue
are all totals of a weight over its entries. A keyed queue is edited by appending an
entry, erasing the first match and rewriting the first match.
-/
namespace WeightedLists

universe u
variable {α : Type u}
variable {w : α → Int} {a : α} {l : List α}

def total (w : α → Int) (l : List α) : Int := (l.map w).sum

@[simp] theorem total_nil (w : α → Int) : total w [] = 0 := rfl

@[simp] theorem total_cons (w : α → Int) (a : α) (l : List α) :
    total w (a :: l) = w a + total w l := by
  simp [total]

@[simp] theorem total_append (w : α → Int) (l m : List α) :
    total w (l ++ m) = total w l + total w m := by
  simp [total]

theorem total_sub (w v : α → Int) (l : List α) :
    total (fun a => w a - v a) l = total w l - total v l := by
  induction l with
  | nil => rfl
  | cons a l ih =>
    rw [total_cons, total_cons, total_cons, ih]
    ring

theorem total_nonneg (w : α → Int) (l : List α) (h : ∀ a ∈ l, 0 ≤ w a) : 0 ≤ total w l := by
  induction l with
  | nil => simp
  | cons a l ih =>
    have ha := h a List.mem_cons_self
    have hl := ih (fun b hb => h b (List.mem_cons_of_mem a hb))
    rw [total_cons]
    omega

theorem total_mono (w v : α → Int) (l : List α) (h : ∀ a ∈ l, w a ≤ v a) :
    total w l ≤ total v l := by
  induction l with
  | nil => simp
  | cons a l ih =>
    have ha := h a List.mem_cons_self
    have hl := ih (fun b hb => h b (List.mem_cons_of_mem a hb))
    rw [total_cons, total_cons]
    omega

theorem total_eq_zero_iff (nonneg : ∀ a, 0 ≤ w a) (l : List α) :
    total w l = 0 ↔ ∀ a ∈ l, w a = 0 := by
  induction l with
  | nil => simp
  | cons a l ih =>
    have ha := nonneg a
    have hl := total_nonneg w l (fun b _ => nonneg b)
    rw [List.forall_mem_cons, ← ih, total_cons]
    omega

theorem total_eq_countP (p : α → Bool) (l : List α) :
    total (fun a => if p a then 1 else 0) l = l.countP p := by
  induction l with
  | nil => rfl
  | cons a l ih =>
    rw [total_cons, ih, List.countP_cons]
    by_cases h : p a
    · simp [h, add_comm]
    · simp [h]

/-- The weight that counts the entries with the key `k`. -/
def copies {κ : Type*} [DecidableEq κ] (key : α → κ) (k : κ) (a : α) : Int :=
  if key a = k then 1 else 0

theorem copies_nonneg {κ : Type*} [DecidableEq κ] (key : α → κ) (k : κ) (a : α) :
    0 ≤ copies key k a := by
  simp only [copies]
  split <;> omega

theorem total_copies_nonneg {κ : Type*} [DecidableEq κ] (key : α → κ) (k : κ) (l : List α) :
    0 ≤ total (copies key k) l :=
  total_nonneg _ l (fun a _ => copies_nonneg key k a)

theorem total_copies_eq_count {κ : Type*} [DecidableEq κ] (key : α → κ) (k : κ) (l : List α) :
    total (copies key k) l = (l.map key).count k := by
  induction l with
  | nil => rfl
  | cons a l ih =>
    rw [total_cons, ih, List.map_cons, List.count_cons]
    by_cases h : key a = k
    · simp [copies, h, add_comm]
    · simp [copies, h]

theorem nodup_iff_copies {κ : Type*} [DecidableEq κ] (key : α → κ) (l : List α) :
    (l.map key).Nodup ↔ ∀ k, total (copies key k) l ≤ 1 := by
  rw [List.nodup_iff_count_le_one]
  constructor
  · intro h k
    have := h k
    rw [total_copies_eq_count]
    omega
  · intro h k
    have := h k
    rw [total_copies_eq_count] at this
    omega

theorem copies_pos_iff {κ : Type*} [DecidableEq κ] (key : α → κ) (k : κ) (l : List α) :
    0 < total (copies key k) l ↔ k ∈ l.map key := by
  rw [total_copies_eq_count, ← List.count_pos_iff]
  omega

theorem le_total_of_mem (nonneg : ∀ a, 0 ≤ w a) (member : a ∈ l) : w a ≤ total w l := by
  induction l with
  | nil => cases member
  | cons b l ih =>
    rw [total_cons]
    have own := nonneg b
    have rest := total_nonneg w l fun c _ => nonneg c
    rcases List.mem_cons.mp member with rfl | later
    · omega
    · have bound := ih later
      omega

theorem exists_cons_of_total_pos (h : 0 < total w l) : ∃ a m, l = a :: m := by
  cases l with
  | nil => simp at h
  | cons a m => exact ⟨a, m, rfl⟩

theorem total_eraseP (w : α → Int) (p : α → Bool) (h : l.find? p = some a) :
    total w (l.eraseP p) = total w l - w a := by
  induction l with
  | nil => simp at h
  | cons b l ih =>
    by_cases hb : p b
    · rw [List.find?_cons_of_pos hb] at h
      cases h
      rw [List.eraseP_cons_of_pos hb, total_cons]
      ring
    · rw [List.find?_cons_of_neg hb] at h
      rw [List.eraseP_cons_of_neg hb, total_cons, total_cons, ih h]
      ring

theorem total_erase [DecidableEq α] (w : α → Int) (member : a ∈ l) :
    total w (l.erase a) = total w l - w a := by
  have sum := ((List.perm_cons_erase member).map w).sum_eq
  rw [List.map_cons, List.sum_cons] at sum
  rw [total, total, sum]
  ring

theorem total_congr {v : α → Int} (h : ∀ a ∈ l, w a = v a) : total w l = total v l := by
  rw [total, total, List.map_congr_left h]

theorem total_range_of_zero {f : Nat → Int} {m n : Nat} (le : m ≤ n)
    (zero : ∀ i, m ≤ i → i < n → f i = 0) : total f (List.range n) = total f (List.range m) := by
  obtain ⟨k, rfl⟩ := Nat.exists_eq_add_of_le le
  have rest : total f ((List.range k).map (m + ·)) = 0 := by
    have weightless : total f ((List.range k).map (m + ·)) =
        total (fun _ => 0) ((List.range k).map (m + ·)) := by
      apply total_congr
      intro i hi
      obtain ⟨j, hj, rfl⟩ := List.mem_map.mp hi
      have below := List.mem_range.mp hj
      exact zero _ (by omega) (by omega)
    rw [weightless]
    simp [total, Function.comp_def]
  rw [List.range_add, total_append, rest, add_zero]

theorem total_update_of_not_mem {β : Type*} [DecidableEq α] (w : β → Int) (g : α → β) (b : β)
    (absent : a ∉ l) :
    total (fun x => w (Function.update g a b x)) l = total (fun x => w (g x)) l := by
  apply total_congr
  intro x hx
  have other : x ≠ a := fun same => absent (same ▸ hx)
  rw [Function.update_of_ne other]

theorem total_update {β : Type*} [DecidableEq α] (w : β → Int) (g : α → β) (a : α) (b : β)
    (nodup : l.Nodup) (member : a ∈ l) :
    total (fun x => w (Function.update g a b x)) l = total (fun x => w (g x)) l - w (g a) + w b := by
  induction l with
  | nil => cases member
  | cons x l ih =>
    obtain ⟨fresh, rest⟩ := List.nodup_cons.mp nodup
    rw [total_cons, total_cons]
    by_cases here : x = a
    · subst here
      rw [total_update_of_not_mem w g b fresh, Function.update_self]
      ring
    · have further : a ∈ l := by
        rcases List.mem_cons.mp member with same | further
        · exact absurd same.symm here
        · exact further
      rw [ih rest further, Function.update_of_ne here]
      ring

/-- Rewrite the first entry that satisfies `p`. -/
def updateFirst (p : α → Bool) (f : α → α) : List α → List α
  | [] => []
  | a :: l => if p a then f a :: l else a :: updateFirst p f l

theorem total_updateFirst (w : α → Int) (p : α → Bool) (f : α → α) (h : l.find? p = some a) :
    total w (updateFirst p f l) = total w l - w a + w (f a) := by
  induction l with
  | nil => simp at h
  | cons b l ih =>
    by_cases hb : p b
    · rw [List.find?_cons_of_pos hb] at h
      cases h
      simp only [updateFirst, hb, if_true, total_cons]
      ring
    · rw [List.find?_cons_of_neg hb] at h
      simp only [updateFirst, hb, total_cons]
      simp only [Bool.false_eq_true, if_false, total_cons, ih h]
      ring

theorem map_updateFirst {β : Type*} (g : α → β) (p : α → Bool) (f : α → α)
    (same : ∀ a, g (f a) = g a) (l : List α) : (updateFirst p f l).map g = l.map g := by
  induction l with
  | nil => rfl
  | cons a l ih =>
    by_cases ha : p a
    · simp [updateFirst, ha, same]
    · simp [updateFirst, ha, ih]

@[simp] theorem length_updateFirst (p : α → Bool) (f : α → α) (l : List α) :
    (updateFirst p f l).length = l.length := by
  induction l with
  | nil => rfl
  | cons a l ih => by_cases ha : p a <;> simp [updateFirst, ha, ih]

end WeightedLists
