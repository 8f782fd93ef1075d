import CacheEviction.ShardMoves

/-!
# The invariant of a Merlin list

In any interleaving of the threads' calls and with any outcome of the lock attempts,
every item stands in at most one queue, in the pair it is hashed to and in the kind of
queue its marks name, and the two counters of a pair add up to the number of its items
at each frequency level. Everything here is about plain lists.
-/
namespace MerlinShards

open FuelLoops ItemRef ShardQueues WeightedLists
open MerlinGhost hiding getFreq

variable {Q P : Type} [DecidableEq P]

/-! ## How many items of a pair reach a level -/

/-- The six queues of a primary shard and its cuckoo shard. -/
def Layout.pairPlaces (L : Layout P) (p : Nat) : List Place :=
  [(p, .filter), (p, .staging), (p, .core), (p + L.totalThreads, .filter),
    (p + L.totalThreads, .staging), (p + L.totalThreads, .core)]

def population (L : Layout P) (c : Contents P) (freq : P → Nat) (p level : Nat) : Int :=
  census (fun _ x => reaches level (freq x)) (L.pairPlaces p) c

variable {L : Layout P}
variable {fuel p thread : Nat} {d : Lists P}

omit [DecidableEq P] in
theorem mem_pairPlaces {place : Place} :
    place ∈ L.pairPlaces p ↔ place.1 = p ∨ place.1 = p + L.totalThreads := by
  obtain ⟨q, kind⟩ := place
  cases kind <;> simp [Layout.pairPlaces]

omit [DecidableEq P] in
theorem nodup_pairPlaces (p : Nat) : (L.pairPlaces p).Nodup := by
  have positive := L.positive
  simp [Layout.pairPlaces]
  omega

omit [DecidableEq P] in
theorem population_congr {c : Contents P} {freq freq' : P → Nat}
    (same : ∀ place, ∀ x ∈ c place, freq' x = freq x) (p level : Nat) :
    population L c freq' p level = population L c freq p level :=
  census_congr fun place x hx => congrArg (reaches level) (same place x hx)

/-! ## The invariant -/

def Shards.freq (s : Shards Q P) (x : P) : Nat := getFreq (s.ref x)

def Linked (a : Lists P) (x : P) : Prop := ∃ place, x ∈ a.queues place

structure Sound (L : Layout P) (a : Lists P) : Prop where
  separate : Separate a.queues
  home : ∀ place, ∀ x ∈ a.queues place,
    place.1 = L.primary x ∨ place.1 = L.primary x + L.totalThreads
  fits : ∀ place, ∀ x ∈ a.queues place, Fits place.2 (marks (a.ref x))
  counts : ∀ p < L.totalThreads, ∀ level, level = 1 ∨ level = 2 →
    a.counter p level + a.counter (p + L.totalThreads) level =
      population L a.queues a.freq p level
  ghosts : GhostsCounted a
  pristine : a.initializedGs = false → ∀ q, (a.queueInfo q).ghost = {}

omit [DecidableEq P] in
theorem primary_lt (x : P) : L.primary x < L.totalThreads := Nat.mod_lt _ L.positive

omit [DecidableEq P] in
theorem home_pair {place : Place} {x : P} (below : p < L.totalThreads)
    (home : place.1 = L.primary x ∨ place.1 = L.primary x + L.totalThreads) :
    place ∈ L.pairPlaces p ↔ p = L.primary x := by
  have bound := primary_lt (L := L) x
  rw [mem_pairPlaces]
  omega

variable {a b : Lists P} {src dst : Place} {n : P} {rest : List P}

omit [DecidableEq P] in
theorem Accounts.pair {change : Nat → Int} (h : Accounts L n src change a b)
    (home : src.1 = L.primary n ∨ src.1 = L.primary n + L.totalThreads) {level : Nat}
    (below : p < L.totalThreads) (hl : level = 1 ∨ level = 2) :
    b.counter p level + b.counter (p + L.totalThreads) level =
      a.counter p level + a.counter (p + L.totalThreads) level +
        if p = L.primary n then change level else 0 := by
  obtain ⟨q, place, counters⟩ := h
  have bound := primary_lt (L := L) n
  have first := counters p level hl
  have second := counters (p + L.totalThreads) level hl
  have near : q = L.primary n ∨ q = L.primary n + L.totalThreads := by omega
  rw [first, second]
  split_ifs <;> omega

/-! ## One item moves -/

/-- The contents are those of the list without one item, which was counted as
`held` in the population of its pair. -/
structure Rest (L : Layout P) (n : P) (a : Lists P) (c : Contents P) (held : Nat → Int) : Prop where
  separate : Separate c
  members : ∀ {place x}, x ∈ c place ↔ x ≠ n ∧ x ∈ a.queues place
  population : ∀ p < L.totalThreads, ∀ level, population L c a.freq p level =
    population L a.queues a.freq p level - if p = L.primary n then held level else 0

omit [DecidableEq P] in
theorem Sound.rest_of_cut {older newer : List P} (h : Sound L a)
    (shape : a.queues src = older ++ n :: newer) :
    Rest L n a (Function.update a.queues src (older ++ newer))
      (fun level => reaches level (a.freq n)) := by
  have member : n ∈ a.queues src := by simp [shape]
  obtain ⟨separate, members⟩ := h.separate.cut shape
  refine ⟨separate, members, ?_⟩
  intro p below level
  rw [population, census_cut (nodup_pairPlaces p) shape]
  simp only [home_pair below (h.home src n member)]
  rfl

omit [DecidableEq P] in
theorem Sound.rest_of_pop (h : Sound L a) (shape : a.queues src = n :: rest) :
    Rest L n a (Function.update a.queues src rest) (fun level => reaches level (a.freq n)) :=
  h.rest_of_cut (show a.queues src = [] ++ n :: rest from shape)

omit [DecidableEq P] in
theorem Sound.rest_of_fresh (h : Sound L a) (fresh : ¬ Linked a n) :
    Rest L n a a.queues (fun _ => 0) := by
  refine ⟨h.separate, ?_, by simp⟩
  intro place x
  constructor
  · intro hx
    refine ⟨?_, hx⟩
    rintro rfl
    exact fresh ⟨place, hx⟩
  · exact And.right

section Change

variable {c : Contents P} {held : Nat → Int} (h : Sound L a) (remaining : Rest L n a c held)
  (others : ∀ x, x ≠ n → b.ref x = a.ref x) (ghosts : GhostsCounted b)
  (pristine : b.initializedGs = false → ∀ q, (b.queueInfo q).ghost = {})
include h remaining others ghosts pristine

omit [DecidableEq P] in
theorem Sound.leave (queues : b.queues = c)
    (home : src.1 = L.primary n ∨ src.1 = L.primary n + L.totalThreads)
    (accounts : Accounts L n src (fun level => -held level) a b) : Sound L b := by
  have known : ∀ place, ∀ x ∈ c place, x ∈ a.queues place ∧ b.ref x = a.ref x := by
    intro place x hx
    obtain ⟨other, old⟩ := remaining.members.mp hx
    exact ⟨old, others x other⟩
  constructor
  case separate => exact queues ▸ remaining.separate
  case home =>
    intro place x hx
    exact h.home place x (known place x (queues ▸ hx)).1
  case fits =>
    intro place x hx
    obtain ⟨old, same⟩ := known place x (queues ▸ hx)
    exact same ▸ h.fits place x old
  case counts =>
    intro p below level hl
    have unchanged : population L c b.freq p level = population L c a.freq p level :=
      population_congr (fun place x hx => congrArg getFreq (known place x hx).2) p level
    rw [accounts.pair home below hl, h.counts p below level hl, queues, unchanged,
      remaining.population p below level]
    split <;> ring
  case ghosts => exact ghosts
  case pristine => exact pristine

theorem Sound.enter (queues : b.queues = FifoStore.linkAtHead c dst n)
    (home : dst.1 = L.primary n ∨ dst.1 = L.primary n + L.totalThreads)
    (fits : Fits dst.2 (marks (b.ref n)))
    (accounts : Accounts L n src (fun level => reaches level (b.freq n) - held level) a b)
    (near : src.1 = L.primary n ∨ src.1 = L.primary n + L.totalThreads) : Sound L b := by
  have absent : ∀ place, n ∉ c place := fun place hn => (remaining.members.mp hn).1 rfl
  have known : ∀ place, ∀ x ∈ b.queues place,
      (x ∈ a.queues place ∧ b.ref x = a.ref x) ∨ x = n ∧ place = dst := by
    intro place x hx
    rw [queues] at hx
    rcases mem_push.mp hx with old | new
    · obtain ⟨other, old⟩ := remaining.members.mp old
      exact .inl ⟨old, others x other⟩
    · exact .inr new
  constructor
  case separate => exact queues ▸ remaining.separate.push absent dst
  case home =>
    intro place x hx
    rcases known place x hx with ⟨old, _⟩ | ⟨rfl, rfl⟩
    · exact h.home place x old
    · exact home
  case fits =>
    intro place x hx
    rcases known place x hx with ⟨old, same⟩ | ⟨rfl, rfl⟩
    · exact same ▸ h.fits place x old
    · exact fits
  case counts =>
    intro p below level hl
    have unchanged : population L c b.freq p level = population L c a.freq p level := by
      apply population_congr
      intro place x hx
      exact congrArg getFreq (others x (remaining.members.mp hx).1)
    have grown : population L b.queues b.freq p level = population L c b.freq p level +
        if p = L.primary n then reaches level (b.freq n) else 0 := by
      rw [queues]
      refine (census_push (nodup_pairPlaces p) c dst n).trans ?_
      simp only [home_pair below home]
      rfl
    rw [accounts.pair near below hl, h.counts p below level hl, grown, unchanged,
      remaining.population p below level]
    split <;> ring
  case ghosts => exact ghosts
  case pristine => exact pristine

end Change

theorem linked_push {c : Contents P} {held : Nat → Int} (remaining : Rest L n a c held)
    (queues : b.queues = FifoStore.linkAtHead c dst n) (x : P) :
    Linked b x ↔ x = n ∨ Linked a x := by
  constructor
  · rintro ⟨place, hx⟩
    rw [queues] at hx
    rcases mem_push.mp hx with old | ⟨same, _⟩
    · exact .inr ⟨place, (remaining.members.mp old).2⟩
    · exact .inl same
  · intro either
    by_cases same : x = n
    · refine ⟨dst, ?_⟩
      rw [queues]
      exact mem_push.mpr (.inr ⟨same, rfl⟩)
    · obtain ⟨place, old⟩ := either.resolve_left same
      refine ⟨place, ?_⟩
      rw [queues]
      exact mem_push.mpr (.inl (remaining.members.mpr ⟨same, old⟩))

/-! ## What eviction keeps -/

/-- The list is sound, evicting has begun, and it has the same items as before.
The mark that an item is in the container is not the list's to change. -/
structure Kept (L : Layout P) (a b : Lists P) : Prop where
  sound : Sound L b
  started : b.initializedGs = true
  marked : ∀ x, (marks (b.ref x)).linked = (marks (a.ref x)).linked
  quiet : Quiet a → Quiet b
  items : ∀ x, Linked b x ↔ Linked a x

/-- The list is sound and has lost one item, which was hashed to shard `p`. -/
structure Lost (L : Layout P) (p : Nat) (n : P) (a b : Lists P) : Prop where
  sound : Sound L b
  started : b.initializedGs = true
  marked : ∀ x, (marks (b.ref x)).linked = (marks (a.ref x)).linked
  quiet : Quiet a → Quiet b
  linked : Linked a n
  home : L.primary n = p
  items : ∀ x, Linked b x ↔ Linked a x ∧ x ≠ n

omit [DecidableEq P] in
theorem Kept.refl (h : Sound L a) (started : a.initializedGs = true) : Kept L a a :=
  ⟨h, started, fun _ => rfl, id, fun _ => Iff.rfl⟩

omit [DecidableEq P] in
theorem Kept.trans (first : Kept L a b) (second : Kept L b d) : Kept L a d :=
  ⟨second.sound, second.started, fun x => (second.marked x).trans (first.marked x),
    second.quiet ∘ first.quiet, fun x => (second.items x).trans (first.items x)⟩

omit [DecidableEq P] in
theorem Kept.lost (first : Kept L a b) (second : Lost L p n b d) : Lost L p n a d := by
  refine ⟨second.sound, second.started, fun x => (second.marked x).trans (first.marked x),
    second.quiet ∘ first.quiet, (first.items n).mp second.linked, second.home, ?_⟩
  intro x
  rw [second.items x, first.items x]

omit [DecidableEq P] in
theorem Lost.kept (first : Lost L p n a b) (second : Kept L b d) : Lost L p n a d := by
  refine ⟨second.sound, second.started, fun x => (second.marked x).trans (first.marked x),
    second.quiet ∘ first.quiet, first.linked, first.home, ?_⟩
  intro x
  rw [second.items x, first.items x]

/-- The site of an eviction of one thread: a pair of shards, one of them the target. -/
structure Site.For (L : Layout P) (e : Site) : Prop where
  bound : e.ori < L.totalThreads
  cuckoo : e.cuckoo = e.ori + L.totalThreads
  target : e.Near e.target

variable {e : Site}

omit [DecidableEq P] in
theorem Site.For.primary (hs : e.For L) (here : src.1 = e.target)
    (home : src.1 = L.primary n ∨ src.1 = L.primary n + L.totalThreads) :
    L.primary n = e.ori := by
  have bound := primary_lt (L := L) n
  have cuckoo := hs.cuckoo
  have below := hs.bound
  rcases hs.target with target | target <;> omega

omit [DecidableEq P] in
theorem Site.For.home (hs : e.For L) {q : Nat} (near : e.Near q) (primary : L.primary n = e.ori) :
    q = L.primary n ∨ q = L.primary n + L.totalThreads := by
  rw [primary, ← hs.cuckoo]
  exact near

omit [DecidableEq P] in
theorem marked_of_others (others : ∀ x, x ≠ n → b.ref x = a.ref x)
    (same : (marks (b.ref n)).linked = (marks (a.ref n)).linked) (x : P) :
    (marks (b.ref x)).linked = (marks (a.ref x)).linked := by
  by_cases here : x = n
  · rw [here, same]
  · rw [others x here]

theorem Sound.relocate (h : Sound L a) (started : a.initializedGs = true) (hs : e.For L)
    (here : src.1 = e.target) (move : Relocated L n src dst rest a b) (near : e.Near dst.1) :
    Kept L a b := by
  have member : n ∈ a.queues src := by
    rw [move.popped]
    exact List.mem_cons_self
  have home := h.home src n member
  have remaining := h.rest_of_pop move.popped
  have started' : b.initializedGs = true := move.initialized.trans started
  refine ⟨h.enter remaining move.others (move.ghosts h.ghosts) ?_ move.queues
    (hs.home near (hs.primary here home)) (move.fits (h.fits src n member)) move.accounts home,
    started', marked_of_others move.others move.linked, move.quiet, ?_⟩
  · intro idle
    exact absurd started' (by simp [idle])
  · intro x
    rw [linked_push remaining move.queues]
    constructor
    · rintro (rfl | old)
      · exact ⟨src, member⟩
      · exact old
    · exact .inr

omit [DecidableEq P] in
theorem Sound.drop (h : Sound L a) (started : a.initializedGs = true) (hs : e.For L)
    (here : src.1 = e.target) (drop : Dropped L n src rest a b) : Lost L e.ori n a b := by
  have member : n ∈ a.queues src := by
    rw [drop.popped]
    exact List.mem_cons_self
  have home := h.home src n member
  have remaining := h.rest_of_pop drop.popped
  have started' : b.initializedGs = true := drop.initialized.trans started
  refine ⟨h.leave remaining drop.others (drop.ghosts h.ghosts) ?_ drop.queues home drop.accounts,
    started', marked_of_others drop.others drop.linked, drop.quiet, ⟨src, member⟩,
    hs.primary here home, ?_⟩
  · intro idle
    exact absurd started' (by simp [idle])
  · intro x
    simp only [Linked, drop.queues, remaining.members]
    constructor
    · rintro ⟨place, other, old⟩
      exact ⟨⟨place, old⟩, other⟩
    · rintro ⟨⟨place, old⟩, other⟩
      exact ⟨place, other, old⟩

theorem Evicts.lost (h : Sound L a) (started : a.initializedGs = true) (hs : e.For L)
    (eviction : Evicts L e n a b) : Lost L e.ori n a b := by
  cases eviction with
  | alone here drop => exact h.drop started hs here drop
  | swapped drop move near =>
    have lost := h.drop started hs rfl drop
    exact lost.kept (lost.sound.relocate lost.started hs rfl move near)
  | restored move near drop =>
    have kept := h.relocate started hs rfl move near
    exact kept.lost (kept.sound.drop kept.started hs rfl drop)

/-! ## The eviction loops -/

/-- What the loop of one shard returns: a victim that is lost, or nothing done to the items. -/
def Leaves (L : Layout P) (p : Nat) (a : Lists P) : Option P × Lists P → Prop
  | (some n, b) => Lost L p n a b
  | (none, b) => Kept L a b

theorem getEvictionFromqueue_leaves {target ori cuckoo : Nat} (h : Sound L a)
    (started : a.initializedGs = true)
    (hs : Site.For L ⟨thread, target, ori, cuckoo, (a.queueInfo target).totalSize⟩)
    {r : Option P × Lists P} (run : getEvictionFromqueue L fuel a target thread ori cuckoo = .ok r) :
    Leaves L ori a r := by
  refine loop_invariant _ (fun s => Kept L a s.2) (Leaves L ori a) ?_ ?_ fuel (0, a)
    (.refl h started) r run
  · rintro ⟨i, s⟩ t kept round
    rcases evictionRound_cases kept.sound.separate round with ⟨_, outcome⟩ | ⟨_, stop⟩
    · cases outcome with
      | idle => exact kept
      | moved here promotion =>
        exact kept.trans (kept.sound.relocate kept.started hs here promotion.toRelocated
          promotion.near)
    · cases stop
  · rintro ⟨i, s⟩ r kept round
    rcases evictionRound_cases kept.sound.separate round with ⟨_, outcome⟩ | ⟨_, stop⟩
    · cases outcome with
      | victim eviction => exact kept.lost (eviction.lost kept.sound kept.started hs)
    · cases stop
      exact kept

omit [DecidableEq P] in
theorem site_of_thread (a : Lists P) (thread listSize : Nat) :
    Site.For L ⟨thread, evictionTarget L a (L.targetQueue thread), L.targetQueue thread,
      L.targetQueue thread + L.totalThreads, listSize⟩ := by
  refine ⟨Nat.mod_lt _ L.positive, rfl, ?_⟩
  rw [Site.Near, evictionTarget]
  split
  · exact .inl rfl
  · exact .inr rfl

theorem getEvictionThreadlocal_lost (h : Sound L a) (started : a.initializedGs = true)
    (run : getEvictionThreadlocal L fuel a thread = .ok (n, b)) :
    Lost L (L.targetQueue thread) n a b := by
  have inner : ∀ {s t : Lists P} {v : Option P}, Kept L a s →
      getEvictionFromqueue L fuel s (evictionTarget L s (L.targetQueue thread)) thread
        (L.targetQueue thread) (L.targetQueue thread + L.totalThreads) = .ok (v, t) →
      Leaves L (L.targetQueue thread) s (v, t) := fun kept run =>
    getEvictionFromqueue_leaves kept.sound kept.started (site_of_thread _ _ _) run
  refine loop_invariant _ (fun s => Kept L a s) (fun r => Lost L (L.targetQueue thread) r.1 a r.2)
    ?_ ?_ fuel a (.refl h started) (n, b) run
  · intro s t kept round
    obtain ⟨⟨v, d⟩, ran, rest⟩ := bind_eq_ok.mp round
    cases v with
    | none =>
      cases rest
      exact kept.trans (inner kept ran)
    | some node => cases rest
  · intro s r kept round
    obtain ⟨⟨v, d⟩, ran, rest⟩ := bind_eq_ok.mp round
    cases v with
    | none => cases rest
    | some node =>
      cases rest
      exact kept.lost (inner kept ran)

/-! ## Preparing an eviction -/

omit [DecidableEq P] in
theorem Sound.congr (h : Sound L a) (queues : b.queues = a.queues) (ref : b.ref = a.ref)
    (counters : ∀ q, (b.queueInfo q).freqDistribution = (a.queueInfo q).freqDistribution)
    (ghosts : GhostsCounted b) (pristine : b.initializedGs = false → ∀ q, (b.queueInfo q).ghost = {}) :
    Sound L b := by
  constructor
  case separate => exact queues ▸ h.separate
  case home => exact queues ▸ h.home
  case fits => exact queues ▸ ref ▸ h.fits
  case counts =>
    intro p below level hl
    have freq : b.freq = a.freq := by
      funext x
      rw [Shards.freq, ref, Shards.freq]
    rw [Shards.counter, counters, Shards.counter, counters, queues, freq]
    exact h.counts p below level hl
  case ghosts => exact ghosts
  case pristine => exact pristine

theorem initializeGs_kept (h : Sound L a) : Kept L a (initializeGs L a) := by
  rw [initializeGs]
  split
  case isTrue started => exact .refl h started
  case isFalse idle =>
    have blank := h.pristine (by simpa using idle)
    refine ⟨h.congr rfl rfl ?_ ?_ (fun h => by cases h), rfl, fun _ => rfl, id, fun _ => Iff.rfl⟩
    · intro q
      dsimp only
      split <;> rfl
    · intro q
      dsimp only
      split
      · apply counted_blank
        · intro i
          rfl
        · intro level
          simp [MerlinGhost.initHashtable, MerlinGhost.setFIFOSize, blank]
      · exact h.ghosts q

theorem refresh_queueInfo (a : Lists P) (q q' : Nat) :
    ((a.refresh q).queueInfo q').freqDistribution = (a.queueInfo q').freqDistribution ∧
      ((a.refresh q).queueInfo q').ghost = (a.queueInfo q').ghost := by
  rw [Shards.refresh, updateInfo_queueInfo]
  split <;> exact ⟨rfl, rfl⟩

theorem updateLocal_queueInfo (a : Lists P) (thread q : Nat) :
    ((updateLocal L a thread).queueInfo q).freqDistribution = (a.queueInfo q).freqDistribution ∧
      ((updateLocal L a thread).queueInfo q).ghost = (a.queueInfo q).ghost := by
  obtain ⟨counters, ghost⟩ := refresh_queueInfo a (L.targetQueue thread) q
  obtain ⟨counters', ghost'⟩ := refresh_queueInfo (a.refresh (L.targetQueue thread))
    (L.targetQueue thread + L.totalThreads) q
  exact ⟨counters'.trans counters, ghost'.trans ghost⟩

theorem prepareEviction_kept (h : Sound L a) (thread : Nat) :
    Kept L a (prepareEviction L a thread) := by
  have kept := initializeGs_kept h
  have counted := kept.sound.ghosts
  refine kept.trans ?_
  rw [prepareEviction]
  split
  case isTrue =>
    have info := updateLocal_queueInfo (L := L) (initializeGs L a) thread
    refine ⟨kept.sound.congr rfl rfl (fun q => (info q).1) ?_ ?_, kept.started, fun _ => rfl,
      id, fun _ => Iff.rfl⟩
    · intro q
      exact (info q).2 ▸ counted q
    · exact fun idle => Bool.noConfusion (kept.started.symm.trans idle)
  case isFalse =>
    exact ⟨kept.sound.congr rfl rfl (fun _ => rfl) counted kept.sound.pristine, kept.started,
      fun _ => rfl, id, fun _ => Iff.rfl⟩

theorem getEvictionCandidate_lost (h : Sound L a)
    (run : getEvictionCandidate L fuel a thread = .ok (n, b)) :
    Lost L (L.targetQueue thread) n a b := by
  have prepared := prepareEviction_kept h thread
  exact prepared.lost (getEvictionThreadlocal_lost prepared.sound prepared.started run)

end MerlinShards
