import Mathlib.Data.Nat.Basic
import Mathlib.Order.Basic

/-!
# Fuelled loops with faults

A `while` loop of an imperative program is a body that either leaves the loop
with a result or goes round again. Running out of fuel is reported apart from the
faults the program itself can raise, so a loop that never leaves is seen as one
that runs out at every budget.

The rules: what a round can do (`loop_cases`), an invariant that carries a
postcondition, and a variant that gives a result at every large budget.
-/
namespace FuelLoops

universe u v w
variable {ε : Type u} {σ : Type v} {ρ : Type w}

inductive Stop (ε : Type u) where
  | fault (e : ε)
  | outOfFuel
  deriving DecidableEq

inductive Round (σ : Type v) (ρ : Type w) where
  | done (r : ρ)
  | again (s : σ)

def loop (body : σ → Except (Stop ε) (Round σ ρ)) : Nat → σ → Except (Stop ε) ρ
  | 0, _ => .error .outOfFuel
  | fuel + 1, s =>
    match body s with
    | .error e => .error e
    | .ok (.done r) => .ok r
    | .ok (.again t) => loop body fuel t

variable {body : σ → Except (Stop ε) (Round σ ρ)} {s : σ} {e : Stop ε} {r : ρ}
    {x : Except (Stop ε) ρ} {Q : ρ → Prop}

theorem loop_error (h : body s = .error e) (fuel : Nat) : loop body (fuel + 1) s = .error e := by
  rw [loop, h]

theorem loop_done (h : body s = .ok (.done r)) (fuel : Nat) : loop body (fuel + 1) s = .ok r := by
  rw [loop, h]

theorem loop_again {t : σ} (h : body s = .ok (.again t)) (fuel : Nat) :
    loop body (fuel + 1) s = loop body fuel t := by
  rw [loop, h]

theorem bind_eq_ok {α β : Type w} {x : Except (Stop ε) α} {f : α → Except (Stop ε) β} {b : β} :
    (x >>= f) = .ok b ↔ ∃ a, x = .ok a ∧ f a = .ok b := by
  cases x with
  | error e =>
    constructor
    · intro h; cases h
    · rintro ⟨a, h, _⟩; cases h
  | ok a =>
    constructor
    · intro h; exact ⟨a, rfl, h⟩
    · rintro ⟨a', h, hf⟩; cases h; exact hf

theorem map_eq_ok {α β : Type w} {x : Except (Stop ε) α} {f : α → β} {b : β} :
    x.map f = .ok b ↔ ∃ a, x = .ok a ∧ f a = b := by
  cases x with
  | error e =>
    constructor
    · intro h; cases h
    · rintro ⟨a, h, _⟩; cases h
  | ok a =>
    constructor
    · intro h; cases h; exact ⟨a, rfl, rfl⟩
    · rintro ⟨a', h, rfl⟩; cases h; rfl

/-- A run on fixed input that can be checked by evaluation: it gives a result with
this property. -/
def Returns (x : Except (Stop ε) ρ) (Q : ρ → Bool) : Bool :=
  match x with
  | .ok r => Q r
  | .error _ => false

theorem exists_of_returns {Q : ρ → Bool} (h : Returns x Q = true) :
    ∃ r, x = .ok r ∧ Q r = true := by
  cases x with
  | ok r => exact ⟨r, rfl, h⟩
  | error e => cases h

/-- A run on fixed input that can be checked by evaluation: it stops for this reason. -/
def StopsWith [DecidableEq ε] (x : Except (Stop ε) ρ) (e : Stop ε) : Bool :=
  match x with
  | .ok _ => false
  | .error e' => decide (e' = e)

theorem eq_of_stopsWith [DecidableEq ε] (h : StopsWith x e = true) : x = .error e := by
  cases x with
  | ok r => cases h
  | error e' => rw [of_decide_eq_true h]

/-- Every result of a loop comes from a round that left it, after rounds that
went on; `I` is carried along and `Q` is read off at the exit. -/
theorem loop_invariant (body : σ → Except (Stop ε) (Round σ ρ)) (I : σ → Prop) (Q : ρ → Prop)
    (onAgain : ∀ s t, I s → body s = .ok (.again t) → I t)
    (onDone : ∀ s r, I s → body s = .ok (.done r) → Q r)
    (fuel : Nat) (s : σ) (start : I s) (r : ρ) (h : loop body fuel s = .ok r) : Q r := by
  induction fuel generalizing s with
  | zero => cases h
  | succ fuel ih =>
    rw [loop] at h
    cases hb : body s with
    | error e => rw [hb] at h; cases h
    | ok round =>
      rw [hb] at h
      cases round with
      | done r' => cases h; exact onDone s r start hb
      | again t => exact ih t (onAgain s t start hb) h

/-- The value a fuelled computation has at every large enough budget. -/
def Yields {α : Type u} (f : Nat → α) (x : α) : Prop := ∃ N, ∀ n, N ≤ n → f n = x

theorem Yields.const {α : Type u} (x : α) : Yields (fun _ => x) x := ⟨0, fun _ _ => rfl⟩

theorem Yields.of_eq {α : Type u} {f : Nat → α} {x : α} (h : ∀ n, f n = x) : Yields f x :=
  ⟨0, fun n _ => h n⟩

theorem Yields.succ {α : Type u} {f : Nat → α} {x : α} (h : Yields (fun n => f (n + 1)) x) : Yields f x := by
  obtain ⟨N, hN⟩ := h
  refine ⟨N + 1, fun n hn => ?_⟩
  obtain ⟨k, rfl⟩ : ∃ k, n = k + 1 := ⟨n - 1, by omega⟩
  exact hN k (by omega)

theorem Yields.done (h : body s = .ok (.done r)) : Yields (fun n => loop body n s) (.ok r) :=
  .succ (.of_eq (loop_done h))

theorem Yields.fault (h : body s = .error e) : Yields (fun n => loop body n s) (.error e) :=
  .succ (.of_eq (loop_error h))

theorem Yields.again {t : σ} (h : body s = .ok (.again t))
    (rest : Yields (fun n => loop body n t) x) : Yields (fun n => loop body n s) x := by
  obtain ⟨N, hN⟩ := rest
  exact .succ ⟨N, fun n hn => (loop_again h n).trans (hN n hn)⟩

theorem Yields.bind {α : Type w} {β : Type w} {f : Nat → Except (Stop ε) α} {a : α}
    {g : Nat → α → Except (Stop ε) β} {x : Except (Stop ε) β} (hf : Yields f (.ok a))
    (hg : Yields (fun n => g n a) x) : Yields (fun n => f n >>= g n) x := by
  obtain ⟨N, hN⟩ := hf
  obtain ⟨M, hM⟩ := hg
  refine ⟨N + M, fun n hn => ?_⟩
  have ha := hN n (by omega)
  have hx := hM n (by omega)
  show f n >>= g n = x
  rw [ha]
  exact hx

theorem Yields.bind_error {α : Type w} {β : Type w} {f : Nat → Except (Stop ε) α}
    {g : Nat → α → Except (Stop ε) β} (hf : Yields f (.error e)) :
    Yields (fun n => f n >>= g n) (.error e) := by
  obtain ⟨N, hN⟩ := hf
  refine ⟨N, fun n hn => ?_⟩
  show f n >>= g n = .error e
  rw [hN n hn]
  rfl

/-- What a round must give for the loop to come to an outcome in `Q`: it leaves
with a result in `Q`, faults inside `Q`, or goes on with a smaller measure. -/
def Advances (I : σ → Prop) (size : σ → Nat) (Q : Except (Stop ε) ρ → Prop) (s : σ) :
    Except (Stop ε) (Round σ ρ) → Prop
  | .ok (.done r) => Q (.ok r)
  | .ok (.again t) => I t ∧ size t < size s
  | .error e => Q (.error e)

/-- Total correctness: rounds that advance give the loop an outcome in `Q` at
every large budget. Bodies may run loops of their own on the same fuel. -/
theorem loop_yields (body : Nat → σ → Except (Stop ε) (Round σ ρ)) (I : σ → Prop)
    (size : σ → Nat) (Q : Except (Stop ε) ρ → Prop)
    (advance : ∀ s, I s → ∃ x, Yields (fun n => body n s) x ∧ Advances I size Q s x)
    (s : σ) (start : I s) :
    ∃ x, Yields (fun n => loop (body n) n s) x ∧ Q x := by
  have main : ∃ x N, (∀ n k, N ≤ n → N ≤ k → loop (body n) k s = x) ∧ Q x := by
    induction hm : size s using Nat.strongRecOn generalizing s with
    | ind m ih =>
      obtain ⟨x, ⟨N, hN⟩, adv⟩ := advance s start
      have split : ∀ k, N + 1 ≤ k → ∃ k', k = k' + 1 := fun k hk => ⟨k - 1, by omega⟩
      cases x with
      | error e =>
        refine ⟨.error e, N + 1, fun n k hn hk => ?_, adv⟩
        obtain ⟨k, rfl⟩ := split k hk
        exact loop_error (hN n (by omega)) k
      | ok round =>
        cases round with
        | done r =>
          refine ⟨.ok r, N + 1, fun n k hn hk => ?_, adv⟩
          obtain ⟨k, rfl⟩ := split k hk
          exact loop_done (hN n (by omega)) k
        | again t =>
          obtain ⟨y, M, hM, hy⟩ := ih (size t) (hm ▸ adv.2) t adv.1 rfl
          refine ⟨y, N + M + 1, fun n k hn hk => ?_, hy⟩
          obtain ⟨k, rfl⟩ := split k (by omega)
          rw [loop_again (hN n (by omega)) k]
          exact hM n k (by omega) (by omega)
  obtain ⟨x, N, hN, hx⟩ := main
  exact ⟨x, ⟨N, fun n hn => hN n n hn hn⟩, hx⟩

theorem loop_returns (body : σ → Except (Stop ε) (Round σ ρ)) (I : σ → Prop) (size : σ → Nat)
    (advance : ∀ s, I s → (∃ r, body s = .ok (.done r)) ∨
      ∃ t, body s = .ok (.again t) ∧ I t ∧ size t < size s)
    (s : σ) (start : I s) : ∃ r, Yields (fun n => loop body n s) (.ok r) := by
  have yields := loop_yields (fun _ => body) I size (fun x => ∃ r, x = .ok r) (by
    intro u hu
    refine ⟨body u, .const _, ?_⟩
    rcases advance u hu with ⟨r, hr⟩ | ⟨t, ht, smaller⟩
    · rw [hr]
      exact ⟨r, rfl⟩
    · rw [ht]
      exact smaller) s start
  obtain ⟨x, hx, r, rfl⟩ := yields
  exact ⟨r, hx⟩

/-! A run that ends: at every large budget it gives the same result, which has a
property. -/

theorem Yields.unique {α : Type u} {f : Nat → α} {x y : α} (hx : Yields f x) (hy : Yields f y) :
    x = y := by
  obtain ⟨N, hN⟩ := hx
  obtain ⟨M, hM⟩ := hy
  rw [← hN (N + M) (by omega), hM (N + M) (by omega)]

def Ends {α : Type w} (f : Nat → Except (Stop ε) α) (Q : α → Prop) : Prop :=
  ∃ a, Yields f (.ok a) ∧ Q a

theorem Ends.const {α : Type w} {a : α} {Q : α → Prop} (h : Q a) :
    Ends (fun _ => (.ok a : Except (Stop ε) α)) Q :=
  ⟨a, .const _, h⟩

theorem Ends.mono {α : Type w} {f : Nat → Except (Stop ε) α} {Q R : α → Prop} (h : Ends f Q)
    (weaker : ∀ a, Q a → R a) : Ends f R := by
  obtain ⟨a, yields, ha⟩ := h
  exact ⟨a, yields, weaker a ha⟩

theorem Ends.result {α : Type w} {f : Nat → Except (Stop ε) α} {Q : α → Prop} {a : α}
    (h : Ends f Q) (run : Yields f (.ok a)) : Q a := by
  obtain ⟨b, yields, hb⟩ := h
  cases yields.unique run
  exact hb

theorem Ends.bind {α β : Type w} {f : Nat → Except (Stop ε) α} {g : Nat → α → Except (Stop ε) β}
    {Q : α → Prop} {R : β → Prop} (hf : Ends f Q) (hg : ∀ a, Q a → Ends (fun n => g n a) R) :
    Ends (fun n => f n >>= g n) R := by
  obtain ⟨a, first, ha⟩ := hf
  obtain ⟨b, second, hb⟩ := hg a ha
  exact ⟨b, first.bind second, hb⟩

theorem Ends.map {α β : Type w} {f : Nat → Except (Stop ε) α} {Q : α → Prop} {R : β → Prop}
    (hf : Ends f Q) (g : α → β) (hg : ∀ a, Q a → R (g a)) : Ends (fun n => (f n).map g) R := by
  obtain ⟨a, ⟨N, run⟩, ha⟩ := hf
  refine ⟨g a, ⟨N, fun n enough => ?_⟩, hg a ha⟩
  show (f n).map g = .ok (g a)
  rw [run n enough]
  rfl

/-- What a round that ends may decide: leave with a result in `Q`, or go on with
a smaller measure. -/
def Round.Progress (I : σ → Prop) (size : σ → Nat) (Q : ρ → Prop) (s : σ) : Round σ ρ → Prop
  | .done r => Q r
  | .again t => I t ∧ size t < size s

theorem Ends.loop {body : Nat → σ → Except (Stop ε) (Round σ ρ)} (I : σ → Prop) (size : σ → Nat)
    (advance : ∀ s, I s → Ends (fun n => body n s) (Round.Progress I size Q s)) (start : I s) :
    Ends (fun n => FuelLoops.loop (body n) n s) Q := by
  have yields := loop_yields body I size (fun x => ∃ r, x = .ok r ∧ Q r) (by
    intro u hu
    obtain ⟨round, run, progress⟩ := advance u hu
    refine ⟨.ok round, run, ?_⟩
    cases round with
    | done r => exact ⟨r, rfl, progress⟩
    | again t => exact progress) s start
  obtain ⟨x, run, r, rfl, hr⟩ := yields
  exact ⟨r, run, hr⟩

theorem loop_within (I : σ → Prop) (size : σ → Nat)
    (advance : ∀ s, I s → ∃ round, body s = .ok round ∧ Round.Progress I size Q s round)
    {fuel : Nat} (start : I s) (enough : size s < fuel) : ∃ r, loop body fuel s = .ok r ∧ Q r := by
  induction fuel generalizing s with
  | zero => omega
  | succ fuel ih =>
    obtain ⟨round, run, progress⟩ := advance s start
    cases round with
    | done r => exact ⟨r, loop_done run fuel, progress⟩
    | again t =>
      obtain ⟨kept, less⟩ := progress
      obtain ⟨r, rest, result⟩ := ih kept (by omega)
      exact ⟨r, (loop_again run fuel).trans rest, result⟩

/-- What a round may decide if `n` rounds are left. -/
def Round.Within (I : Nat → σ → Prop) (Q : ρ → Prop) (n : Nat) : Round σ ρ → Prop
  | .done r => Q r
  | .again t => ∃ m, m < n ∧ I m t

theorem loop_bounded (I : Nat → σ → Prop)
    (advance : ∀ n s, I n s → ∃ round, body s = .ok round ∧ Round.Within I Q n round) {n : Nat}
    (start : I n s) : ∃ r, Q r ∧ ∀ fuel, n < fuel → loop body fuel s = .ok r := by
  induction n using Nat.strongRecOn generalizing s with
  | ind n ih =>
    obtain ⟨round, run, within⟩ := advance n s start
    have split : ∀ fuel, n < fuel → ∃ k, fuel = k + 1 := fun fuel h => ⟨fuel - 1, by omega⟩
    cases round with
    | done r =>
      refine ⟨r, within, fun fuel enough => ?_⟩
      obtain ⟨k, rfl⟩ := split fuel enough
      exact loop_done run k
    | again t =>
      obtain ⟨m, less, kept⟩ := within
      obtain ⟨r, result, rest⟩ := ih m less kept
      refine ⟨r, result, fun fuel enough => ?_⟩
      obtain ⟨k, rfl⟩ := split fuel enough
      rw [loop_again run k]
      exact rest k (by omega)

def FuelMono {α : Type w} (f : Nat → Except (Stop ε) α) : Prop :=
  ∀ n m a, n ≤ m → f n = .ok a → f m = .ok a

theorem FuelMono.yields {α : Type w} {f : Nat → Except (Stop ε) α} {n : Nat} {a : α}
    (h : FuelMono f) (run : f n = .ok a) : Yields f (.ok a) :=
  ⟨n, fun m enough => h n m a enough run⟩

theorem FuelMono.const {α : Type w} (x : Except (Stop ε) α) : FuelMono (fun _ => x) :=
  fun _ _ _ _ h => h

theorem FuelMono.bind {α β : Type w} {f : Nat → Except (Stop ε) α}
    {g : Nat → α → Except (Stop ε) β} (hf : FuelMono f) (hg : ∀ a, FuelMono (fun n => g n a)) :
    FuelMono (fun n => f n >>= g n) := by
  intro n m c hnm h
  obtain ⟨a, ha, hc⟩ := bind_eq_ok.mp h
  exact bind_eq_ok.mpr ⟨a, hf n m a hnm ha, hg a n m c hnm hc⟩

theorem FuelMono.map {α β : Type w} {f : Nat → Except (Stop ε) α} (hf : FuelMono f) (g : α → β) :
    FuelMono (fun n => (f n).map g) := by
  intro n m b enough run
  obtain ⟨a, first, rfl⟩ := map_eq_ok.mp run
  exact map_eq_ok.mpr ⟨a, hf n m a enough first, rfl⟩

theorem FuelMono.ite {α : Type w} {f g : Nat → Except (Stop ε) α} (p : Prop) [Decidable p]
    (hf : FuelMono f) (hg : FuelMono g) : FuelMono (fun n => if p then f n else g n) := by
  intro n m a hnm h
  by_cases hp : p
  · simp only [if_pos hp] at h ⊢
    exact hf n m a hnm h
  · simp only [if_neg hp] at h ⊢
    exact hg n m a hnm h

theorem loop_mono (body : Nat → σ → Except (Stop ε) (Round σ ρ))
    (hb : ∀ s, FuelMono (fun n => body n s)) (s : σ) :
    FuelMono (fun n => loop (body n) n s) := by
  have main : ∀ n m, n ≤ m → ∀ k j s r, k ≤ j → loop (body n) k s = .ok r →
      loop (body m) j s = .ok r := by
    intro n m hnm k
    induction k with
    | zero => intro j s r _ h; cases h
    | succ k ih =>
      intro j s r hkj h
      obtain ⟨j, rfl⟩ : ∃ j', j = j' + 1 := ⟨j - 1, by omega⟩
      cases hs : body n s with
      | error e => rw [loop_error hs] at h; cases h
      | ok round =>
        have hm := hb s n m round hnm hs
        cases round with
        | done r' =>
          rw [loop_done hs] at h
          rw [loop_done hm]
          exact h
        | again t =>
          rw [loop_again hs] at h
          rw [loop_again hm]
          exact ih j t r (by omega) h
  intro n m r hnm h
  exact main n m hnm n m s r hnm h

theorem loop_diverges (body : σ → Except (Stop ε) (Round σ ρ)) (I : σ → Prop)
    (onward : ∀ s, I s → body s = .error .outOfFuel ∨ ∃ t, body s = .ok (.again t) ∧ I t)
    (fuel : Nat) (s : σ) (start : I s) : loop body fuel s = .error .outOfFuel := by
  induction fuel generalizing s with
  | zero => rfl
  | succ fuel ih =>
    rcases onward s start with spent | ⟨t, ht, hI⟩
    · exact loop_error spent fuel
    · rw [loop_again ht]
      exact ih t hI

section Agreement

universe v' w'
variable {τ : Type v'} {π : Type w'}

/-- Two outcomes agree: they stop for the same reason, or have related results. -/
def Agree (E : ρ → π → Prop) : Except (Stop ε) ρ → Except (Stop ε) π → Prop
  | .ok r, .ok r' => E r r'
  | .error e, .error e' => e = e'
  | _, _ => False

def Round.Agree (R : σ → τ → Prop) (E : ρ → π → Prop) : Round σ ρ → Round τ π → Prop
  | .done r, .done r' => E r r'
  | .again s, .again t => R s t
  | _, _ => False

theorem ite_agree (R : σ → τ → Prop) {p : Prop} [Decidable p] {x y : σ} {x' y' : τ}
    (yes : R x x') (no : R y y') : R (if p then x else y) (if p then x' else y') := by
  split
  · exact yes
  · exact no

theorem Agree.ok {E : ρ → π → Prop} {y : Except (Stop ε) π} (h : Agree E x y) (run : x = .ok r) :
    ∃ r', y = .ok r' ∧ E r r' := by
  subst run
  cases y with
  | ok r' => exact ⟨r', rfl, h⟩
  | error e => exact h.elim

theorem Agree.bind {α β : Type w} {γ δ : Type w'} {E : α → γ → Prop} {F : β → δ → Prop}
    {x : Except (Stop ε) α} {y : Except (Stop ε) γ} {f : α → Except (Stop ε) β}
    {g : γ → Except (Stop ε) δ} (h : Agree E x y) (after : ∀ a c, E a c → Agree F (f a) (g c)) :
    Agree F (x >>= f) (y >>= g) := by
  cases x with
  | ok a =>
    cases y with
    | ok c => exact after a c h
    | error e => exact h.elim
  | error e =>
    cases y with
    | ok c => exact h.elim
    | error e' => exact h

theorem loop_agree {body' : τ → Except (Stop ε) (Round τ π)} (R : σ → τ → Prop) (E : ρ → π → Prop)
    (step : ∀ s t, R s t → Agree (Round.Agree R E) (body s) (body' t)) (fuel : Nat) (s : σ) (t : τ)
    (start : R s t) : Agree E (loop body fuel s) (loop body' fuel t) := by
  induction fuel generalizing s t with
  | zero => rfl
  | succ fuel ih =>
    have agree := step s t start
    rw [loop, loop]
    generalize body s = x at agree
    generalize body' t = y at agree
    match x, y, agree with
    | .error _, .error _, same => exact same
    | .ok (.done _), .ok (.done _), related => exact related
    | .ok (.again s'), .ok (.again t'), related => exact ih s' t' related

def Round.map (f : σ → τ) (g : ρ → π) : Round σ ρ → Round τ π
  | .done r => .done (g r)
  | .again s => .again (f s)

theorem loop_maps {body' : τ → Except (Stop ε) (Round τ π)} (f : σ → τ) (g : ρ → π)
    (step : ∀ s x, body s = .ok x → body' (f s) = .ok (x.map f g)) {fuel : Nat}
    (run : loop body fuel s = .ok r) : loop body' fuel (f s) = .ok (g r) := by
  induction fuel generalizing s with
  | zero => cases run
  | succ fuel ih =>
    cases first : body s with
    | error e =>
      rw [loop_error first] at run
      cases run
    | ok round =>
      have same := step s round first
      cases round with
      | done r' =>
        rw [loop_done first] at run
        cases run
        exact loop_done same fuel
      | again t =>
        rw [loop_again first] at run
        rw [loop_again same]
        exact ih run

end Agreement

end FuelLoops
