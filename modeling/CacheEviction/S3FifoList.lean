import CacheEviction.AtomicDList
import CacheEviction.Binary64
import CacheEviction.FuelLoops
import CacheEviction.MmArc
import CacheEviction.S3FifoRef

/-!
# S3-FIFO in CacheLib

`S3FIFOList.h`: a probationary FIFO and a main FIFO over one memory, and a table of the
hashes that left the probationary one cold. An eviction goes round until it has a cold
item; the ratio of the two sizes in double precision decides which FIFO a round looks at.
A round that does not evict moves an item to the main FIFO with frequency zero, or takes
one from the frequency of an item there, so these two bound the rounds.

One thread at a time. An item is its address together with its key.
-/
namespace S3FifoList

open AtomicDList Binary64 FuelLoops LinkedChains S3FifoRef StepTraces Function
open ItemRef (Word setFlag unSetFlag)
open MerlinFifo (Hooks)
open MmArc (FifoHashTable)

variable {P : Type}

inductive Fault where
  | aborted
  | nullTable
  deriving DecidableEq

structure State (P : Type) where
  hooks : Hooks P
  ref : P → Word
  fifo : Queue → ADList P := fun _ => {}
  hist : FifoHashTable := {}

def State.size (s : State P) : Nat := (s.fifo .probationary).size + (s.fifo .main).size

section Code

variable [DecidableEq P]

def State.link (s : State P) (q : Queue) (node : P) : State P :=
  let linked := linkAtHead s.hooks (s.fifo q) node
  { s with hooks := linked.1, fifo := Function.update s.fifo q linked.2 }

def State.write (s : State P) (node : P) (f : Word → Word) : State P :=
  { s with ref := Function.update s.ref node (f (s.ref node)) }

def State.removeTail (s : State P) (q : Queue) : Except (Stop Fault) (Option P × State P) :=
  match AtomicDList.removeTail s.hooks (s.fifo q) with
  | .error _ => .error (.fault .aborted)
  | .ok (node, hooks, d) => .ok (node, { s with hooks := hooks, fifo := Function.update s.fifo q d })

omit [DecidableEq P] in
/-- `hist_.initialized() && hist_.contains(..)` -/
def inHist (s : State P) (hash : UInt32) : Bool × State P :=
  match s.hist.contains hash with
  | none => (false, s)
  | some (found, hist) => (found, { s with hist := hist })

/-- Link an item into a FIFO and let its flags say so. -/
def State.file (s : State P) (q : Queue) (node : P) : State P :=
  (s.link q node).write node fun w => unSetFlag (setFlag w q.flag) q.other.flag

def markAccessed (s : State P) (node : P) : State P := s.write node incFreq

omit [DecidableEq P] in
/-- The test of the eviction loop. Sizes are converted to `double`. -/
def aboveRatio (s : State P) : Bool :=
  double (double s.size * double (1 / 10)) < double (s.fifo .probationary).size

omit [DecidableEq P] in
/-- The table is allocated by the first eviction. -/
def initHist (s : State P) : State P :=
  if s.hist.initialized then s
  else { s with hist := (s.hist.setFIFOSize s.size).initHashtable }

variable (hashNode : P → UInt32)

def add (s : State P) (node : P) : State P :=
  let (found, s) := inHist s (hashNode node)
  if found then s.file .main node else s.file .probationary node

def evictRound (s : State P) : Except (Stop Fault) (Round (State P) (P × State P)) :=
  if aboveRatio s then do
    match ← s.removeTail .probationary with
    | (none, s) =>
      if (s.fifo .probationary).size ≠ 0 then .error (.fault .aborted) else .ok (.again s)
    | (some curr, s) =>
      if 1 < getFreq (s.ref curr) then
        .ok (.again ((s.write curr fun w =>
          setFlag (unSetFlag (clearFreq w) Queue.probationary.flag) Queue.main.flag).link .main curr))
      else
        match s.hist.insert (hashNode curr) with
        | none => .error (.fault .nullTable)
        | some hist => .ok (.done (curr, { s with hist := hist }))
  else do
    match ← s.removeTail .main with
    | (none, s) => .ok (.again s)
    | (some curr, s) =>
      if 0 < getFreq (s.ref curr) then .ok (.again ((s.write curr decFreq).link .main curr))
      else .ok (.done (curr, s))

def getEvictionCandidate (fuel : Nat) (s : State P) : Except (Stop Fault) (Option P × State P) :=
  if s.size = 0 then .ok (none, s)
  else (loop (evictRound hashNode) fuel (initHist s)).map fun r => (some r.1, r.2)

end Code

/-! ## The two FIFOs -/

/-- Every item is in one FIFO, and its flags name that one. -/
structure Filed (s : State P) (l : Queue → List P) : Prop where
  holds : ∀ q, Holds s.hooks (s.fifo q) (l q)
  apart : ∀ q, ∀ x ∈ l q, x ∉ l q.other
  named : ∀ q, ∀ x ∈ l q, ∀ a, (marks (s.ref x)).named a = decide (a = q)

variable {s t : State P} {l : Queue → List P} {q : Queue} {node : P} {rest : List P}

theorem Filed.size (filed : Filed s l) (q : Queue) : (s.fifo q).size = (l q).length :=
  (filed.holds q).size

variable [DecidableEq P]

omit [DecidableEq P] in
theorem mem_linked {a : Queue} {x : P} :
    x ∈ update l q (l q ++ [node]) a ↔ x ∈ l a ∨ a = q ∧ x = node := by
  by_cases same : a = q
  · subst same
    simp
  · simp [same]

omit [DecidableEq P] in
theorem mem_unlinked {a : Queue} {x : P} (first : l q = node :: rest) (fresh : node ∉ rest) :
    x ∈ update l q rest a ↔ x ∈ l a ∧ ¬ (a = q ∧ x = node) := by
  by_cases same : a = q
  · subst same
    simp only [update_self, first, List.mem_cons]
    constructor
    · exact fun member => ⟨.inr member, fun eq => fresh (eq.2 ▸ member)⟩
    · rintro ⟨rfl | member, other⟩
      · exact absurd ⟨trivial, rfl⟩ other
      · exact member
  · simp [same]

theorem Filed.link (filed : Filed s l) (out : ∀ a, node ∉ l a)
    (named : ∀ a, (marks (s.ref node)).named a = decide (a = q)) :
    Filed (s.link q node) (update l q (l q ++ [node])) := by
  obtain ⟨linked, others⟩ := linkAtHead_holds (filed.holds q) (out q)
  refine ⟨fun a => ?_, fun a x inside both => ?_, fun a x inside b => ?_⟩
  · rcases Queue.eq_or_other a q with rfl | rfl
    · simp only [State.link, update_self]
      exact linked
    · simp only [State.link, update_of_ne q.other_ne]
      refine (filed.holds q.other).congr fun x member => others x (fun inside => ?_) ?_
      · exact filed.apart q x inside member
      · rintro rfl
        exact out q.other member
  · rcases mem_linked.mp inside with one | ⟨own, rfl⟩
    · rcases mem_linked.mp both with two | ⟨-, rfl⟩
      · exact filed.apart a x one two
      · exact out a one
    · rcases mem_linked.mp both with two | ⟨again, -⟩
      · exact out a.other two
      · exact a.other_ne (again.trans own.symm)
  · rcases mem_linked.mp inside with member | ⟨rfl, rfl⟩
    · exact filed.named a x member b
    · exact named b

theorem State.write_self (s : State P) (node : P) (f : Word → Word) :
    (s.write node f).ref node = f (s.ref node) := update_self ..

theorem State.write_ne (s : State P) {node x : P} (f : Word → Word) (other : x ≠ node) :
    (s.write node f).ref x = s.ref x := update_of_ne other ..

theorem Filed.write (filed : Filed s l) {f : Word → Word}
    (quiet : (∃ q, node ∈ l q) → (marks (f (s.ref node))).named = (marks (s.ref node)).named) :
    Filed (s.write node f) l := by
  refine ⟨filed.holds, filed.apart, fun q x member a => ?_⟩
  by_cases same : x = node
  · subst same
    rw [State.write_self, quiet ⟨q, member⟩]
    exact filed.named q x member a
  · rw [State.write_ne s f same]
    exact filed.named q x member a

theorem Filed.removeTail (filed : Filed s l) (first : l q = node :: rest) :
    ∃ u, s.removeTail q = .ok (some node, u) ∧ Filed u (update l q rest) ∧
      u.ref = s.ref ∧ u.hist = s.hist ∧ ∀ a, node ∉ update l q rest a := by
  have here := filed.holds q
  rw [first] at here
  have fresh : node ∉ rest := (List.nodup_cons.mp here.nodup).1
  obtain ⟨hooks', d', run, holds, others⟩ := removeTail_holds here
  have gone : ∀ a, node ∉ update l q rest a := by
    intro a member
    obtain ⟨still, other⟩ := (mem_unlinked first fresh).mp member
    rcases Queue.eq_or_other a q with rfl | rfl
    · exact other ⟨rfl, rfl⟩
    · exact filed.apart q node (first ▸ List.mem_cons_self) still
  have taken : s.removeTail q =
      .ok (some node, { s with hooks := hooks', fifo := update s.fifo q d' }) := by
    rw [State.removeTail, run]
  refine ⟨_, taken, ⟨fun a => ?_, fun a x inside both => ?_, fun a x inside b => ?_⟩, rfl, rfl, gone⟩
  · rcases Queue.eq_or_other a q with rfl | rfl
    · simp only [update_self]
      exact holds
    · simp only [update_of_ne q.other_ne]
      refine (filed.holds q.other).congr fun x member => others x ?_
      rintro rfl
      exact filed.apart q x (first ▸ List.mem_cons_self) member
  · exact filed.apart a x ((mem_unlinked first fresh).mp inside).1
      ((mem_unlinked first fresh).mp both).1
  · exact filed.named a x ((mem_unlinked first fresh).mp inside).1 b

/-! ## Single calls -/

omit [DecidableEq P] in
theorem inHist_filed (filed : Filed s l) (hash : UInt32) : Filed (inHist s hash).2 l := by
  rw [inHist]
  cases s.hist.contains hash with
  | none => exact filed
  | some found => exact ⟨filed.holds, filed.apart, filed.named⟩

theorem State.file_filed (filed : Filed s l) (out : ∀ a, node ∉ l a) (q : Queue) :
    Filed (s.file q node) (update l q (l q ++ [node])) := by
  -- linking does not read the flags, so they may as well be written first
  have swap : s.file q node =
      (s.write node fun w => unSetFlag (setFlag w q.flag) q.other.flag).link q node := rfl
  have written : Filed (s.write node fun w => unSetFlag (setFlag w q.flag) q.other.flag) l :=
    filed.write fun ⟨a, member⟩ => absurd member (out a)
  rw [swap]
  refine written.link out fun a => ?_
  rw [State.write_self, marks_unSetFlag, marks_setFlag]
  cases q <;> cases a <;> rfl

variable {hashNode : P → UInt32}

variable (hashNode) in
theorem add_filed (filed : Filed s l) (out : ∀ a, node ∉ l a) :
    ∃ q, Filed (add hashNode s node) (update l q (l q ++ [node])) := by
  have asked := inHist_filed filed (hashNode node)
  rw [add]
  generalize inHist s (hashNode node) = answer at asked
  obtain ⟨found, u⟩ := answer
  cases found with
  | true => exact ⟨.main, State.file_filed asked out .main⟩
  | false => exact ⟨.probationary, State.file_filed asked out .probationary⟩

theorem markAccessed_filed (filed : Filed s l) (node : P) : Filed (markAccessed s node) l := by
  refine filed.write fun _ => ?_
  rw [marks_incFreq]

/-! ## The eviction loop -/

theorem tenth_le : double (1 / 10) ≤ 1 / 2 := by
  have half : Representable (1 / 2) := ⟨1, -1, by norm_num, by norm_num⟩
  exact double_le half (by norm_num)

omit [DecidableEq P] in
theorem probationary_pos (above : aboveRatio s = true) : 0 < (s.fifo .probationary).size := by
  rw [aboveRatio, decide_eq_true_iff] at above
  by_contra empty
  have none : (s.fifo .probationary).size = 0 := by omega
  have nonneg : 0 ≤ double (double s.size * double (1 / 10)) :=
    double_nonneg (mul_nonneg (double_nonneg (by positivity)) (double_nonneg (by norm_num)))
  have zero : double ((0 : ℕ) : ℚ) = 0 := by simp [double]
  rw [none, zero] at above
  exact absurd above (not_lt.mpr nonneg)

omit [DecidableEq P] in
theorem main_pos (some_ : s.size ≠ 0) (below : aboveRatio s = false) : 0 < (s.fifo .main).size := by
  by_contra empty
  have size : s.size = (s.fifo .probationary).size := by
    rw [State.size]
    omega
  rw [aboveRatio, decide_eq_false_iff_not, size] at below
  have positive : (0 : ℚ) < (s.fifo .probationary).size := by
    rw [size] at some_
    exact_mod_cast Nat.pos_of_ne_zero some_
  exact below (double_mul_lt (representable_double positive.le) (double_pos positive) tenth_le)

def freqSum (ref : P → Word) (l : List P) : Nat := (l.map fun x => getFreq (ref x)).sum

omit [DecidableEq P] in
theorem freqSum_cons (ref : P → Word) (x : P) (l : List P) :
    freqSum ref (x :: l) = getFreq (ref x) + freqSum ref l := by
  rw [freqSum, List.map_cons, List.sum_cons, freqSum]

omit [DecidableEq P] in
theorem freqSum_snoc (ref : P → Word) (x : P) (l : List P) :
    freqSum ref (l ++ [x]) = freqSum ref l + getFreq (ref x) := by
  simp [freqSum]

theorem freqSum_write {ref : P → Word} {l : List P} {node : P} (out : node ∉ l) (w : Word) :
    freqSum (update ref node w) l = freqSum ref l := by
  rw [freqSum, freqSum]
  congr 1
  refine List.map_congr_left fun x member => ?_
  rw [update_of_ne]
  rintro rfl
  exact out member

/-- A bound on the rounds that do not evict. -/
def rounds (s : State P) (l : Queue → List P) : Nat :=
  (l .probationary).length + freqSum s.ref (l .main)

/-- A candidate from this FIFO has at most this frequency. -/
def Queue.coldest : Queue → Nat
  | .probationary => 1
  | .main => 0

theorem Filed.relink (filed : Filed s l) (out : ∀ a, node ∉ l a) {f : Word → Word}
    (named : ∀ a, (marks (f (s.ref node))).named a = decide (a = .main)) :
    Filed ((s.write node f).link .main node) (update l .main (l .main ++ [node])) ∧
      rounds ((s.write node f).link .main node) (update l .main (l .main ++ [node])) =
        rounds s l + getFreq (f (s.ref node)) := by
  have written : Filed (s.write node f) l :=
    filed.write fun ⟨a, member⟩ => absurd member (out a)
  have flagged : ∀ a, (marks ((s.write node f).ref node)).named a = decide (a = .main) := by
    rw [State.write_self]
    exact named
  refine ⟨written.link out flagged, ?_⟩
  have main : freqSum (s.write node f).ref (l .main ++ [node]) =
      freqSum s.ref (l .main) + getFreq (f (s.ref node)) := by
    have others : freqSum (s.write node f).ref (l .main) = freqSum s.ref (l .main) :=
      freqSum_write (out .main) _
    rw [freqSum_snoc, others, State.write_self]
  simp only [rounds, update_self, update_of_ne (show Queue.probationary ≠ .main by decide)]
  rw [State.link, main]
  omega

/-- A round takes the oldest item of a FIFO and either leaves with it, if it is cold, or
links it at the head of the main FIFO. -/
def Turned (hashNode : P → UInt32) (s : State P) (l : Queue → List P) (q : Queue) (node : P)
    (rest : List P) : Prop :=
  (∃ u, evictRound hashNode s = .ok (.done (node, u)) ∧ Filed u (Function.update l q rest) ∧
    getFreq (s.ref node) ≤ Queue.coldest q) ∨
  ∃ u m, evictRound hashNode s = .ok (.again u) ∧ Filed u m ∧ u.hist = s.hist ∧
    m = Function.update (Function.update l q rest) .main (Function.update l q rest .main ++ [node]) ∧
    rounds u m < rounds s l

theorem probationary_turned (filed : Filed s l) (above : aboveRatio s = true)
    (allocated : s.hist.initialized = true) (first : l .probationary = node :: rest) :
    Turned hashNode s l .probationary node rest := by
  obtain ⟨u, taken, left, ref, hist, out⟩ := filed.removeTail first
  have fewer : rounds u (update l .probationary rest) + 1 = rounds s l := by
    simp only [rounds, update_self, update_of_ne (show Queue.main ≠ .probationary by decide),
      ref, first, List.length_cons]
    omega
  rw [Turned, evictRound, if_pos above, taken]
  by_cases hot : 1 < getFreq (u.ref node)
  · right
    have named : ∀ a, (marks (setFlag (unSetFlag (clearFreq (u.ref node)) Queue.probationary.flag)
        Queue.main.flag)).named a = decide (a = .main) := by
      intro a
      rw [marks_setFlag, marks_unSetFlag]
      cases a <;> rfl
    obtain ⟨relinked, count⟩ := left.relink out (f := fun w =>
      setFlag (unSetFlag (clearFreq w) Queue.probationary.flag) Queue.main.flag) named
    have zero : getFreq (setFlag (unSetFlag (clearFreq (u.ref node)) Queue.probationary.flag)
        Queue.main.flag) = 0 := by
      show (marks _).freq = 0
      rw [marks_setFlag, marks_unSetFlag, marks_clearFreq]
    refine ⟨_, _, ?_, relinked, hist, rfl, ?_⟩
    · show (if 1 < getFreq (u.ref node) then _ else _) = _
      rw [if_pos hot]
    · rw [count]
      omega
  · left
    obtain ⟨slots, here⟩ := Option.isSome_iff_exists.mp allocated
    rw [← hist] at here
    obtain ⟨table, -, stored, -⟩ := FifoHashTable.insert_allocated here (hashNode node)
    refine ⟨{ u with hist := table }, ?_, ⟨left.holds, left.apart, left.named⟩, ?_⟩
    · show (if 1 < getFreq (u.ref node) then _ else _) = _
      rw [if_neg hot, stored]
    · rw [← ref]
      exact Nat.le_of_not_lt hot

theorem main_turned (filed : Filed s l) (below : aboveRatio s = false)
    (first : l .main = node :: rest) : Turned hashNode s l .main node rest := by
  obtain ⟨u, taken, left, ref, hist, out⟩ := filed.removeTail first
  have fewer : rounds u (update l .main rest) + getFreq (u.ref node) = rounds s l := by
    simp only [rounds, update_self, update_of_ne (show Queue.probationary ≠ .main by decide),
      ref, first, freqSum_cons]
    omega
  rw [Turned, evictRound, if_neg (by simp [below]), taken]
  by_cases hot : 0 < getFreq (u.ref node)
  · right
    have named : ∀ a, (marks (decFreq (u.ref node))).named a = decide (a = .main) := by
      intro a
      rw [marks_decFreq, ref]
      exact filed.named .main node (first ▸ List.mem_cons_self) a
    obtain ⟨relinked, count⟩ := left.relink out named
    have less : getFreq (decFreq (u.ref node)) = getFreq (u.ref node) - 1 := by
      show (marks _).freq = _
      rw [marks_decFreq]
    refine ⟨_, _, ?_, relinked, hist, rfl, ?_⟩
    · show (if 0 < getFreq (u.ref node) then _ else _) = _
      rw [if_pos hot]
    · rw [count]
      omega
  · left
    refine ⟨u, ?_, left, ?_⟩
    · show (if 0 < getFreq (u.ref node) then _ else _) = _
      rw [if_neg hot]
    · rw [← ref]
      exact Nat.le_of_not_lt hot

variable (hashNode) in
theorem evictRound_turned (filed : Filed s l) (some_ : s.size ≠ 0)
    (allocated : s.hist.initialized = true) :
    ∃ q node rest, l q = node :: rest ∧ Turned hashNode s l q node rest := by
  cases above : aboveRatio s with
  | true =>
    have positive := probationary_pos above
    rw [filed.size] at positive
    obtain ⟨node, rest, first⟩ := List.exists_cons_of_length_pos positive
    exact ⟨_, _, _, first, probationary_turned filed above allocated first⟩
  | false =>
    have positive := main_pos some_ above
    rw [filed.size] at positive
    obtain ⟨node, rest, first⟩ := List.exists_cons_of_length_pos positive
    exact ⟨_, _, _, first, main_turned filed above first⟩

/-! ## Conservation -/

omit [DecidableEq P] in
theorem Filed.members_unlinked (filed : Filed s l) (first : l q = node :: rest) (x : P) :
    (∃ a, x ∈ update l q rest a) ↔ (∃ a, x ∈ l a) ∧ x ≠ node := by
  have here := filed.holds q
  rw [first] at here
  have fresh : node ∉ rest := (List.nodup_cons.mp here.nodup).1
  have member : node ∈ l q := first ▸ List.mem_cons_self
  constructor
  · rintro ⟨a, inside⟩
    obtain ⟨still, other⟩ := (mem_unlinked first fresh).mp inside
    refine ⟨⟨a, still⟩, ?_⟩
    rintro rfl
    rcases Queue.eq_or_other a q with rfl | rfl
    · exact other ⟨rfl, rfl⟩
    · exact filed.apart q x member still
  · rintro ⟨⟨a, inside⟩, other⟩
    exact ⟨a, (mem_unlinked first fresh).mpr ⟨inside, fun same => other same.2⟩⟩

omit [DecidableEq P] in
theorem members_relinked (x : P) :
    (∃ a, x ∈ update l q (l q ++ [node]) a) ↔ (∃ a, x ∈ l a) ∨ x = node := by
  constructor
  · rintro ⟨a, inside⟩
    rcases mem_linked.mp inside with old | ⟨-, same⟩
    · exact .inl ⟨a, old⟩
    · exact .inr same
  · rintro (⟨a, old⟩ | same)
    · exact ⟨a, mem_linked.mpr (.inl old)⟩
    · exact ⟨q, mem_linked.mpr (.inr ⟨rfl, same⟩)⟩

omit [DecidableEq P] in
theorem Filed.size_eq_zero (filed : Filed s l) : s.size = 0 ↔ ¬ ∃ x a, x ∈ l a := by
  rw [State.size, filed.size, filed.size, Nat.add_eq_zero_iff, List.length_eq_zero_iff,
    List.length_eq_zero_iff]
  constructor
  · rintro ⟨first, second⟩ ⟨x, a, member⟩
    cases a with
    | probationary => rw [first] at member; cases member
    | main => rw [second] at member; cases member
  · intro none
    exact ⟨List.eq_nil_iff_forall_not_mem.mpr fun x member => none ⟨x, _, member⟩,
      List.eq_nil_iff_forall_not_mem.mpr fun x member => none ⟨x, _, member⟩⟩

def Turns (hashNode : P → UInt32) (s t : State P) : Prop := evictRound hashNode s = .ok (.again t)

/-- From `s` the loop comes to leave with `node` in the state `t`: of the items in the
FIFOs, exactly `node` has been taken out, and it was cold where it was found. -/
structure Evicted (hashNode : P → UInt32) (s : State P) (linked : P → Prop) (node : P)
    (t : State P) : Prop where
  member : linked node
  filed : ∃ m, Filed t m ∧ ∀ x, (∃ q, x ∈ m q) ↔ linked x ∧ x ≠ node
  cold : ∃ u q, Reachable (Turns hashNode) s u ∧ evictRound hashNode u = .ok (.done (node, t)) ∧
    (u.fifo q).tail = some node ∧ getFreq (u.ref node) ≤ Queue.coldest q

/-- What holds before every round, with a bound on the rounds to come. -/
structure Looping (hashNode : P → UInt32) (s : State P) (linked : P → Prop) (n : Nat)
    (u : State P) : Prop where
  filed : ∃ m, Filed u m ∧ (∀ x, (∃ q, x ∈ m q) ↔ linked x) ∧ rounds u m = n
  allocated : u.hist.initialized = true
  turned : Reachable (Turns hashNode) s u

theorem Looping.advance {linked : P → Prop} (some_ : ∃ x, linked x) {n : Nat} {u : State P}
    (looping : Looping hashNode s linked n u) :
    ∃ round, evictRound hashNode u = .ok round ∧
      Round.Within (Looping hashNode s linked) (fun r => Evicted hashNode s linked r.1 r.2) n round := by
  obtain ⟨m, filed, members, count⟩ := looping.filed
  have held : u.size ≠ 0 := by
    rw [Ne, filed.size_eq_zero, not_not]
    obtain ⟨x, hx⟩ := some_
    obtain ⟨q, member⟩ := (members x).mpr hx
    exact ⟨x, q, member⟩
  obtain ⟨q, node, rest, first, turned⟩ := evictRound_turned hashNode filed held looping.allocated
  have linked_node : linked node := (members node).mp ⟨q, first ▸ List.mem_cons_self⟩
  rcases turned with ⟨t, run, left, cold⟩ | ⟨t, k, run, kept, hist, rfl, less⟩
  · refine ⟨_, run, linked_node, ⟨_, left, fun x => ?_⟩, u, q, looping.turned, run, ?_, cold⟩
    · rw [filed.members_unlinked first, members]
    · have tail : (u.fifo q).tail = (m q).head? := (filed.holds q).tail
      rw [tail, first]
      rfl
  · refine ⟨_, run, _, count ▸ less, ⟨⟨_, kept, fun x => ?_, rfl⟩, ?_, looping.turned.next run⟩⟩
    · rw [members_relinked, filed.members_unlinked first, members]
      constructor
      · rintro (⟨old, -⟩ | rfl)
        · exact old
        · exact linked_node
      · intro old
        by_cases same : x = node
        · exact .inr same
        · exact .inl ⟨old, same⟩
    · rw [hist]
      exact looping.allocated

omit [DecidableEq P] in
theorem initHist_filed (filed : Filed s l) :
    Filed (initHist s) l ∧ (initHist s).hist.initialized = true := by
  rw [initHist]
  split
  · rename_i allocated
    exact ⟨filed, allocated⟩
  · exact ⟨⟨filed.holds, filed.apart, filed.named⟩, rfl⟩

theorem getEvictionCandidate_spec (filed : Filed s l) {linked : P → Prop}
    (members : ∀ x, (∃ q, x ∈ l q) ↔ linked x) :
    ∃ bound r, (∀ fuel, bound < fuel → getEvictionCandidate hashNode fuel s = .ok r) ∧
      (r.1 = none ↔ ¬ ∃ x, linked x) ∧ (r.1 = none → r.2 = s) ∧
      ∀ node, r.1 = some node → Evicted hashNode (initHist s) linked node r.2 := by
  by_cases some_ : ∃ x, linked x
  · have held : s.size ≠ 0 := by
      rw [Ne, filed.size_eq_zero, not_not]
      obtain ⟨x, hx⟩ := some_
      obtain ⟨q, member⟩ := (members x).mpr hx
      exact ⟨x, q, member⟩
    obtain ⟨ready, allocated⟩ := initHist_filed filed
    obtain ⟨⟨node, t⟩, evicted, run⟩ := loop_bounded (Looping hashNode (initHist s) linked)
      (fun n u looping => looping.advance some_)
      (show Looping hashNode (initHist s) linked _ (initHist s) from
        ⟨⟨l, ready, members, rfl⟩, allocated, .refl⟩)
    refine ⟨rounds (initHist s) l, (some node, t), fun fuel enough => ?_, by simp [some_], by simp, ?_⟩
    · rw [getEvictionCandidate, if_neg held, run fuel enough]
      rfl
    · rintro _ ⟨⟩
      exact evicted
  · have none_ : s.size = 0 := by
      rw [filed.size_eq_zero]
      rintro ⟨x, q, member⟩
      exact some_ ⟨x, (members x).mp ⟨q, member⟩⟩
    refine ⟨0, (none, s), fun fuel _ => ?_, by simp [some_], by simp, by simp⟩
    rw [getEvictionCandidate, if_pos none_]

/-! ## Histories -/

/-- The list with the items that were added and not returned. -/
structure Client (P : Type) where
  list : State P
  linked : Finset P

def consumed (linked : Finset P) : Option P → Finset P
  | none => linked
  | some node => linked.erase node

/-- The calls of a sequential history. An item is added only while it is not in the list. -/
inductive Calls (hashNode : P → UInt32) : Client P → Client P → Prop where
  | add {c : Client P} (node : P) (out : node ∉ c.linked) :
      Calls hashNode c ⟨add hashNode c.list node, insert node c.linked⟩
  | markAccessed (c : Client P) (node : P) : Calls hashNode c ⟨markAccessed c.list node, c.linked⟩
  | evict {c : Client P} {r : Option P × State P}
      (run : Yields (fun fuel => getEvictionCandidate hashNode fuel c.list) (.ok r)) :
      Calls hashNode c ⟨r.2, consumed c.linked r.1⟩

/-- The FIFOs have the items that were added and not returned. -/
def Sorted (c : Client P) (l : Queue → List P) : Prop :=
  Filed c.list l ∧ ∀ x, (∃ q, x ∈ l q) ↔ x ∈ c.linked

theorem Calls.sorted {c d : Client P} (call : Calls hashNode c d) (sorted : Sorted c l) :
    ∃ m, Sorted d m := by
  obtain ⟨filed, members⟩ := sorted
  cases call with
  | add node out =>
    obtain ⟨q, added⟩ := add_filed hashNode filed fun a member =>
      out ((members node).mp ⟨a, member⟩)
    refine ⟨_, added, fun x => ?_⟩
    rw [members_relinked, members, Finset.mem_insert, or_comm]
  | markAccessed node => exact ⟨l, markAccessed_filed filed node, members⟩
  | @evict r run =>
    obtain ⟨bound, r', returns, -, same, evicted⟩ := getEvictionCandidate_spec filed members
    obtain rfl : r = r' := Except.ok.inj (run.unique ⟨bound + 1, returns⟩)
    obtain ⟨answer, t⟩ := r
    cases answer with
    | none =>
      cases same rfl
      exact ⟨l, filed, members⟩
    | some node =>
      obtain ⟨m, left, kept⟩ := (evicted node rfl).filed
      refine ⟨m, left, fun x => ?_⟩
      rw [kept, consumed, Finset.mem_erase, and_comm]

theorem called_sorted {hooks : Hooks P} {ref : P → Word} {c : Client P}
    (history : Reachable (Calls hashNode) ⟨{ hooks := hooks, ref := ref }, ∅⟩ c) : ∃ l, Sorted c l := by
  refine history.invariant (fun c => ∃ l, Sorted c l) ⟨fun _ => [], ?_, by simp⟩ ?_
  · exact ⟨fun _ => holds_empty hooks, by simp, by simp⟩
  · rintro c d ⟨l, sorted⟩ call
    exact call.sorted sorted

end S3FifoList
