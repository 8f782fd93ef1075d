import Mathlib.Data.Finset.Card

/-!
# Demand paging

A schedule serves a list of requests from a cache of at most `c` pages. It loads
every page it misses and takes pages out only when the cache is full. Among all
schedules, the one that takes out a page whose next request is farthest away makes
the fewest misses.

Two caches are compared by how many of their pages are requested again within `t`
requests. A miss that only the other schedule makes may put the farthest schedule
one page behind at every horizon: the lead in misses pays for the lag in pages.
-/
namespace Paging

universe u
variable {α : Type u} [DecidableEq α] {c k m n t : ℕ} {B C D E : Finset α} {p v : α} {σ : List α}

/-- A schedule from cache `C` that serves the requests with this many misses. -/
inductive Pages (c : ℕ) : Finset α → List α → ℕ → Prop where
  | nil (C : Finset α) : Pages c C [] 0
  | hit {C : Finset α} {p : α} {σ : List α} {n : ℕ} (present : p ∈ C) (rest : Pages c C σ n) :
      Pages c C (p :: σ) n
  | fill {C : Finset α} {p : α} {σ : List α} {n : ℕ} (missing : p ∉ C) (room : C.card < c)
      (rest : Pages c (insert p C) σ n) : Pages c C (p :: σ) (n + 1)
  | replace {C : Finset α} {p : α} {σ : List α} {n : ℕ} (missing : p ∉ C) (full : C.card = c)
      (E : Finset α) (victims : E ⊆ C) (some_ : E.Nonempty)
      (rest : Pages c (insert p (C \ E)) σ n) : Pages c C (p :: σ) (n + 1)

/-- No page of the cache is requested again later than `v`. -/
def Farthest (σ : List α) (C : Finset α) (v : α) : Prop :=
  v ∈ C ∧ ∀ x ∈ C, σ.idxOf x ≤ σ.idxOf v

/-- The schedules that take out one page, a farthest one. -/
inductive MinPages (c : ℕ) : Finset α → List α → ℕ → Prop where
  | nil (B : Finset α) : MinPages c B [] 0
  | hit {B : Finset α} {p : α} {σ : List α} {m : ℕ} (present : p ∈ B) (rest : MinPages c B σ m) :
      MinPages c B (p :: σ) m
  | fill {B : Finset α} {p : α} {σ : List α} {m : ℕ} (missing : p ∉ B) (room : B.card < c)
      (rest : MinPages c (insert p B) σ m) : MinPages c B (p :: σ) (m + 1)
  | replace {B : Finset α} {p v : α} {σ : List α} {m : ℕ} (missing : p ∉ B) (full : B.card = c)
      (victim : Farthest σ B v) (rest : MinPages c (insert p (B.erase v)) σ m) :
      MinPages c B (p :: σ) (m + 1)

/-! ## Pages requested soon -/

/-- How many pages of the cache are requested again within `t` requests. -/
def soon (σ : List α) (t : ℕ) (C : Finset α) : ℕ := (C.filter fun x => σ.idxOf x ≤ t).card

theorem soon_le_card (σ : List α) (t : ℕ) (C : Finset α) : soon σ t C ≤ C.card :=
  Finset.card_filter_le _ _

theorem soon_mono (σ : List α) (t : ℕ) (h : D ⊆ C) : soon σ t D ≤ soon σ t C :=
  Finset.card_le_card (Finset.filter_subset_filter _ h)

theorem soon_insert (σ : List α) (t : ℕ) (missing : p ∉ C) :
    soon σ t (insert p C) = soon σ t C + if σ.idxOf p ≤ t then 1 else 0 := by
  simp only [soon, Finset.filter_insert]
  split
  · exact Finset.card_insert_of_notMem (fun h => missing (Finset.mem_filter.mp h).1)
  · rfl

theorem soon_erase (σ : List α) (t : ℕ) (present : p ∈ C) :
    soon σ t C = soon σ t (C.erase p) + if σ.idxOf p ≤ t then 1 else 0 := by
  have split := soon_insert σ t (Finset.notMem_erase p C)
  rwa [Finset.insert_erase present] at split

theorem soon_cons (missing : p ∉ C) (σ : List α) (t : ℕ) :
    soon (p :: σ) (t + 1) C = soon σ t C := by
  apply congrArg Finset.card
  apply Finset.filter_congr
  intro x member
  have other : p ≠ x := fun same => missing (same ▸ member)
  rw [List.idxOf_cons_ne σ other]
  omega

theorem soon_cons_erase (p : α) (σ : List α) (t : ℕ) (C : Finset α) :
    soon (p :: σ) (t + 1) C = soon σ t (C.erase p) + if p ∈ C then 1 else 0 := by
  by_cases present : p ∈ C
  · rw [soon_erase (p :: σ) (t + 1) present, soon_cons (Finset.notMem_erase p C),
      List.idxOf_cons_self, if_pos (Nat.zero_le _), if_pos present]
  · rw [soon_cons present, Finset.erase_eq_of_notMem present, if_neg present, Nat.add_zero]

theorem soon_zero (p : α) (σ : List α) (C : Finset α) :
    soon (p :: σ) 0 C = if p ∈ C then 1 else 0 := by
  have alone : C.filter (fun x => (p :: σ).idxOf x ≤ 0) = if p ∈ C then {p} else ∅ := by
    have same : C.filter (fun x => (p :: σ).idxOf x ≤ 0) = C.filter (fun x => x = p) := by
      apply Finset.filter_congr
      intro x _
      by_cases own : p = x
      · simp [own]
      · rw [List.idxOf_cons_ne σ own]
        simp [Ne.symm own]
    rw [same, Finset.filter_eq']
  rw [soon, alone]
  split <;> rfl

theorem soon_of_farthest (victim : Farthest σ B v) (within : σ.idxOf v ≤ t) :
    soon σ t B = B.card := by
  apply congrArg Finset.card
  rw [Finset.filter_true_of_mem]
  intro x member
  exact (victim.2 x member).trans within

theorem soon_erase_farthest (victim : Farthest σ B v) :
    soon σ t (B.erase v) = soon σ t B ∨ (soon σ t B = B.card ∧ soon σ t (B.erase v) + 1 = B.card) := by
  have split := soon_erase σ t victim.1
  by_cases within : σ.idxOf v ≤ t
  · have all := soon_of_farthest victim within
    rw [if_pos within] at split
    exact Or.inr ⟨all, by omega⟩
  · rw [if_neg within] at split
    exact Or.inl split.symm

/-! ## The comparison -/

/-- The second cache is at most `k` pages ahead of the first at every horizon. -/
def Behind (σ : List α) (k : ℕ) (B C : Finset α) : Prop := ∀ t, soon σ t C ≤ soon σ t B + k

theorem behind_of_erase (held : p ∈ B)
    (h : ∀ t, soon σ t (C.erase p) ≤ soon σ t (B.erase p) + k) : Behind σ k B C := by
  intro t
  have others := h t
  have first := soon_erase σ t held
  by_cases present : p ∈ C
  · have second := soon_erase σ t present
    split_ifs at first second <;> omega
  · rw [Finset.erase_eq_of_notMem present] at others
    omega

theorem Pages.step (h : Pages c C (p :: σ) n) (fits : C.card ≤ c) :
    ∃ D i, Pages c D σ i ∧ D.erase p ⊆ C.erase p ∧ (D.erase p).card + 1 ≤ c ∧ D.card ≤ c ∧
      n = i + if p ∈ C then 0 else 1 := by
  cases h with
  | hit present rest =>
    have one := Finset.card_erase_add_one present
    exact ⟨C, n, rest, subset_rfl, by omega, fits, by rw [if_pos present]; rfl⟩
  | @fill _ _ _ i missing room rest =>
    refine ⟨insert p C, i, rest, ?_, ?_, ?_, by rw [if_neg missing]⟩
    · rw [Finset.erase_insert missing, Finset.erase_eq_of_notMem missing]
    · rw [Finset.erase_insert missing]
      omega
    · rw [Finset.card_insert_of_notMem missing]
      omega
  | @replace _ _ _ i missing full E victims some_ rest =>
    have parts := Finset.card_sdiff_add_card_eq_card victims
    have positive := some_.card_pos
    have gone : p ∉ C \ E := fun h => missing (Finset.mem_sdiff.mp h).1
    refine ⟨insert p (C \ E), i, rest, ?_, ?_, ?_, by rw [if_neg missing]⟩
    · rw [Finset.erase_insert gone, Finset.erase_eq_of_notMem missing]
      exact Finset.sdiff_subset
    · rw [Finset.erase_insert gone]
      omega
    · rw [Finset.card_insert_of_notMem gone]
      omega

/-- A miss of the farthest schedule. `R` is what it keeps; a page it gives up is
missed only at horizons at which its whole cache is requested. -/
theorem behind_after_miss {R : Finset α} (behind : Behind (p :: σ) k B C) (missing : p ∉ B)
    (absent : p ∉ R)
    (kept : ∀ t, soon σ t R = soon σ t B ∨ (soon σ t B = c ∧ soon σ t R + 1 = c))
    (fewer : D.erase p ⊆ C.erase p) (place : (D.erase p).card + 1 ≤ c) :
    ∃ i, k = i + (if p ∈ C then 1 else 0) ∧ Behind σ i (insert p R) D := by
  have now := behind 0
  rw [soon_zero, soon_zero, if_neg missing] at now
  obtain ⟨i, lead⟩ : ∃ i, k = i + if p ∈ C then 1 else 0 := ⟨k - if p ∈ C then 1 else 0, by omega⟩
  refine ⟨i, lead, behind_of_erase (Finset.mem_insert_self p R) fun t => ?_⟩
  rw [Finset.erase_insert absent]
  have later := behind (t + 1)
  rw [soon_cons_erase, soon_cons missing] at later
  have mono := soon_mono σ t fewer
  have most := (soon_le_card σ t (D.erase p))
  rcases kept t with same | ⟨all, less⟩
  · omega
  · omega

theorem MinPages.le (best : MinPages c B σ m) (other : Pages c C σ n) (behind : Behind σ k B C)
    (fits : C.card ≤ c) : m ≤ n + k := by
  induction best generalizing C n k with
  | nil => exact Nat.zero_le _
  | @hit B p σ m present rest ih =>
    obtain ⟨D, i, serves, fewer, _, small, misses⟩ := other.step fits
    have next : Behind σ (k + if p ∈ C then 0 else 1) B D := by
      refine behind_of_erase present fun t => ?_
      have later := behind (t + 1)
      rw [soon_cons_erase, soon_cons_erase, if_pos present] at later
      have mono := soon_mono σ t fewer
      split_ifs at later ⊢ <;> omega
    have bound := ih serves next small
    omega
  | @fill B p σ m missing room rest ih =>
    obtain ⟨D, i, serves, fewer, place, small, misses⟩ := other.step fits
    obtain ⟨j, lead, next⟩ :=
      behind_after_miss behind missing missing (fun t => Or.inl rfl) fewer place
    have bound := ih serves next small
    split_ifs at lead misses <;> omega
  | @replace B p v σ m missing full victim rest ih =>
    obtain ⟨D, i, serves, fewer, place, small, misses⟩ := other.step fits
    have absent : p ∉ B.erase v := fun h => missing (Finset.mem_of_mem_erase h)
    have kept : ∀ t, soon σ t (B.erase v) = soon σ t B ∨
        (soon σ t B = c ∧ soon σ t (B.erase v) + 1 = c) := by
      intro t
      rw [← full]
      exact soon_erase_farthest victim
    obtain ⟨j, lead, next⟩ := behind_after_miss behind missing absent kept fewer place
    have bound := ih serves next small
    split_ifs at lead misses <;> omega

theorem MinPages.le_of_empty (best : MinPages c ∅ σ m) (other : Pages c ∅ σ n) : m ≤ n := by
  have level : Behind σ 0 (∅ : Finset α) ∅ := fun t => Nat.le_refl _
  exact best.le other level (Nat.zero_le _)

end Paging
