import CacheEviction.HookedList

/-!
# The intrusive list of objects

The lists of `cacheObj.c`, given by a head and a tail pointer that are both not null. A
write through a null link is a fault. The functions at the head do what `DList` does; those
at the tail are their mirror images. A list is written from its tail to its head.
-/
namespace ObjectList

open LinkedChains MerlinFifo HookedList

variable {P : Type}

/-- The objects that `*head` and `*tail` point at. -/
structure Queue (P : Type) where
  head : Option P
  tail : Option P

section Code

variable [DecidableEq P]

/-- A write to `queue.next` unless the pointer is null. -/
def writeNext (hooks : Hooks P) (node value : Option P) : Hooks P :=
  match node with
  | none => hooks
  | some node => setNext hooks node value

/-- A write to `queue.prev` unless the pointer is null. -/
def writePrev (hooks : Hooks P) (node value : Option P) : Hooks P :=
  match node with
  | none => hooks
  | some node => setPrev hooks node value

def removeObjFromList (hooks : Hooks P) (q : Queue P) (obj : P) : Hooks P × Queue P :=
  let (hooks, head) := if q.head = some obj then
      (writePrev hooks (hooks obj).next none, (hooks obj).next)
    else (hooks, q.head)
  let (hooks, tail) := if q.tail = some obj then
      (writeNext hooks (hooks obj).prev none, (hooks obj).prev)
    else (hooks, q.tail)
  let hooks := writeNext hooks (hooks obj).prev (hooks obj).next
  let hooks := writePrev hooks (hooks obj).next (hooks obj).prev
  (setNext (setPrev hooks obj none) obj none, ⟨head, tail⟩)

def moveObjToTail (hooks : Hooks P) (q : Queue P) (obj : P) : Option (Hooks P × Queue P) :=
  if q.head = q.tail then
    if q.head = some obj ∧ (hooks obj).next = none ∧ (hooks obj).prev = none then some (hooks, q) else none
  else if q.head = some obj then do
    let next ← (hooks obj).next
    let hooks := setPrev hooks next none
    let tail ← q.tail
    let hooks := setNext hooks tail (some obj)
    some (setPrev (setNext hooks obj none) obj (some tail), ⟨some next, some obj⟩)
  else if q.tail = some obj then some (hooks, q)
  else do
    let prev ← (hooks obj).prev
    let hooks := setNext hooks prev (hooks obj).next
    let next ← (hooks obj).next
    let hooks := setPrev hooks next (hooks obj).prev
    let tail ← q.tail
    let hooks := setNext hooks tail (some obj)
    some (setPrev (setNext hooks obj none) obj (some tail), ⟨q.head, some obj⟩)

def moveObjToHead (hooks : Hooks P) (q : Queue P) (obj : P) : Option (Hooks P × Queue P) :=
  if q.head = q.tail then
    if q.head = some obj ∧ (hooks obj).next = none ∧ (hooks obj).prev = none then some (hooks, q) else none
  else if q.head = some obj then some (hooks, q)
  else if q.tail = some obj then do
    let prev ← (hooks obj).prev
    let hooks := setNext hooks prev (hooks obj).next
    let tail := (hooks obj).prev
    let head ← q.head
    let hooks := setPrev hooks head (some obj)
    some (setNext (setPrev hooks obj none) obj (some head), ⟨some obj, tail⟩)
  else do
    let prev ← (hooks obj).prev
    let hooks := setNext hooks prev (hooks obj).next
    let next ← (hooks obj).next
    let hooks := setPrev hooks next (hooks obj).prev
    let head ← q.head
    let hooks := setPrev hooks head (some obj)
    some (setNext (setPrev hooks obj none) obj (some head), ⟨some obj, q.tail⟩)

def prependObjToHead (hooks : Hooks P) (q : Queue P) (obj : P) : Hooks P × Queue P :=
  let hooks := setNext (setPrev hooks obj none) obj q.head
  let tail := if q.tail = none then some obj else q.tail
  (writePrev hooks q.head (some obj), ⟨some obj, tail⟩)

def appendObjToTail (hooks : Hooks P) (q : Queue P) (obj : P) : Hooks P × Queue P :=
  let hooks := setPrev (setNext hooks obj none) obj q.tail
  let head := if q.head = none then some obj else q.head
  (writeNext hooks q.tail (some obj), ⟨head, some obj⟩)

end Code

/-- The links and the two pointers spell the objects of `l`, from the tail to the head. -/
def WellFormed (hooks : Hooks P) (q : Queue P) (l : List P) : Prop :=
  Spells hooks ⟨q.head, q.tail, l.length⟩ l

/-- A list has become `m`, and no object outside of it has got new links. -/
def Becomes (hooks : Hooks P) (l : List P) (after : Hooks P × Queue P) (m : List P) : Prop :=
  WellFormed after.1 after.2 m ∧ ∀ x, x ∉ l → x ∉ m → after.1 x = hooks x

variable {hooks : Hooks P} {q : Queue P} {l older newer : List P} {obj : P}

theorem wellFormed_of_spells {d : DList P} (spells : Spells hooks d l) : WellFormed hooks ⟨d.head, d.tail⟩ l := by
  rw [WellFormed, ← spells.size]
  exact spells

theorem becomes_self (spells : WellFormed hooks q l) : Becomes hooks l (hooks, q) l := ⟨spells, fun _ _ _ => rfl⟩

/-! ## Mirror images -/

def mirrored (hooks : Hooks P) : Hooks P := fun x => ⟨(hooks x).prev, (hooks x).next⟩

@[simp] theorem mirrored_next (hooks : Hooks P) (x : P) : (mirrored hooks x).next = (hooks x).prev := rfl

@[simp] theorem mirrored_prev (hooks : Hooks P) (x : P) : (mirrored hooks x).prev = (hooks x).next := rfl

@[simp] theorem mirrored_mirrored (hooks : Hooks P) : mirrored (mirrored hooks) = hooks := rfl

def Queue.mirrored (q : Queue P) : Queue P := ⟨q.tail, q.head⟩

def mirror (a : Hooks P × Queue P) : Hooks P × Queue P := (mirrored a.1, a.2.mirrored)

theorem wellFormed_mirrored (spells : WellFormed hooks q l) : WellFormed (mirrored hooks) q.mirrored l.reverse where
  chain := by
    refine ⟨?_, ?_, List.nodup_reverse.mpr spells.chain.nodup⟩
    · rw [List.isChain_reverse]
      exact spells.chain.joined.imp fun x y joined => ⟨joined.2, joined.1⟩
    · intro x first
      rw [List.getLast?_reverse] at first
      exact spells.last x first
  last := by
    intro x first
    rw [List.head?_reverse] at first
    exact spells.chain.newest x first
  tail := by
    rw [List.head?_reverse]
    exact spells.head
  head := by
    rw [List.getLast?_reverse]
    exact spells.tail
  size := rfl

theorem Becomes.mirror {after : Hooks P × Queue P} {m : List P}
    (becomes : Becomes (mirrored hooks) l.reverse after m) : Becomes hooks l (mirror after) m.reverse := by
  refine ⟨wellFormed_mirrored becomes.1, fun x old new => ?_⟩
  have kept := becomes.2 x (mt List.mem_reverse.mp old) (mt List.mem_reverse.mpr new)
  exact Links.ext (congrArg Links.prev kept) (congrArg Links.next kept)

variable [DecidableEq P]

@[simp] theorem mirrored_setNext (hooks : Hooks P) (node : P) (value : Option P) :
    mirrored (setNext hooks node value) = setPrev (mirrored hooks) node value := by
  funext x
  refine Links.ext ?_ ?_ <;> simp

@[simp] theorem mirrored_setPrev (hooks : Hooks P) (node : P) (value : Option P) :
    mirrored (setPrev hooks node value) = setNext (mirrored hooks) node value := by
  funext x
  refine Links.ext ?_ ?_ <;> simp

theorem setPrev_setNext (hooks : Hooks P) (a b : P) (v w : Option P) :
    setPrev (setNext hooks a v) b w = setNext (setPrev hooks b w) a v := by
  funext x
  refine Links.ext ?_ ?_ <;> simp

theorem append_mirrored (hooks : Hooks P) (q : Queue P) (obj : P) :
    appendObjToTail hooks q obj = mirror (prependObjToHead (mirrored hooks) q.mirrored obj) := by
  cases tail : q.tail <;>
    simp [appendObjToTail, prependObjToHead, mirror, Queue.mirrored, writeNext, writePrev, tail]

/-! ## The head -/

theorem prepend_becomes (spells : WellFormed hooks q l) (fresh : obj ∉ l) :
    Becomes hooks l (prependObjToHead hooks q obj) (l ++ [obj]) := by
  obtain ⟨linked, frame⟩ := linkAtHead_spells spells fresh
  have same : prependObjToHead hooks q obj = ((linkAtHead hooks ⟨q.head, q.tail, l.length⟩ obj).1,
      ⟨some obj, q.tail.or (some obj)⟩) := by
    rw [prependObjToHead, ← setPrev_setNext]
    cases q.head <;> cases q.tail <;> rfl
  rw [same]
  exact ⟨wellFormed_of_spells linked, fun x old new => frame x old fun own => new (by simp [own])⟩

theorem writeNext_next (hooks : Hooks P) (node value : Option P) (x : P) :
    (writeNext hooks node value x).next = if node = some x then value else (hooks x).next := by
  cases node <;> simp [writeNext, eq_comm]

theorem writeNext_prev (hooks : Hooks P) (node value : Option P) (x : P) :
    (writeNext hooks node value x).prev = (hooks x).prev := by
  cases node <;> simp [writeNext]

theorem writePrev_prev (hooks : Hooks P) (node value : Option P) (x : P) :
    (writePrev hooks node value x).prev = if node = some x then value else (hooks x).prev := by
  cases node <;> simp [writePrev, eq_comm]

theorem writePrev_next (hooks : Hooks P) (node value : Option P) (x : P) :
    (writePrev hooks node value x).next = (hooks x).next := by
  cases node <;> simp [writePrev]

omit [DecidableEq P] in
theorem apart (spells : WellFormed hooks q l) (member : obj ∈ l) :
    (hooks obj).next ≠ some obj ∧ (hooks obj).prev ≠ some obj := by
  have next := Spells.next_ne spells member
  exact ⟨next, fun prev => next (Spells.prev_mem spells member prev).2⟩

theorem removed_links (hooks : Hooks P) (d : DList P) (obj x : P) : (HookedList.remove hooks d obj).1 x =
    if x = obj then ⟨none, none⟩ else
      ⟨if (hooks obj).prev = some x then (hooks obj).next else (hooks x).next,
        if (hooks obj).next = some x then (hooks obj).prev else (hooks x).prev⟩ := by
  by_cases own : x = obj <;> cases next : (hooks obj).next <;> cases prev : (hooks obj).prev <;>
    refine Links.ext ?_ ?_ <;> simp [HookedList.remove, HookedList.unlink, own, next, prev, eq_comm]

theorem remove_eq (spells : WellFormed hooks q l) (member : obj ∈ l) (n : Nat) :
    removeObjFromList hooks q obj = ((HookedList.remove hooks ⟨q.head, q.tail, n⟩ obj).1,
      ⟨(HookedList.remove hooks ⟨q.head, q.tail, n⟩ obj).2.head,
        (HookedList.remove hooks ⟨q.head, q.tail, n⟩ obj).2.tail⟩) := by
  obtain ⟨notNext, notPrev⟩ := apart spells member
  have overwritten : ∀ (c : Prop) [Decidable c] (a b d : Option P),
      (if c then a else if c then b else d) = if c then a else d := by
    intro c _ a b d
    split <;> rfl
  refine Prod.ext (funext fun x => ?_) ?_
  · rw [removed_links]
    by_cases head : q.head = some obj <;> by_cases tail : q.tail = some obj <;> by_cases own : x = obj <;>
      refine Links.ext ?_ ?_ <;>
      simp [removeObjFromList, head, tail, own, notNext, notPrev, writeNext_next, writeNext_prev, writePrev_prev,
        writePrev_next, overwritten]
  · by_cases head : q.head = some obj <;> by_cases tail : q.tail = some obj <;>
      simp [removeObjFromList, HookedList.remove, HookedList.unlink, head, tail, notNext, writePrev_prev]

theorem remove_becomes (spells : WellFormed hooks q (older ++ obj :: newer)) :
    Becomes hooks (older ++ obj :: newer) (removeObjFromList hooks q obj) (older ++ newer) := by
  obtain ⟨removed, frame⟩ := remove_spells spells
  rw [remove_eq spells (by simp) (older ++ obj :: newer).length]
  exact ⟨wellFormed_of_spells removed, fun x old _ => frame x old⟩

omit [DecidableEq P] in
theorem head_iff (spells : WellFormed hooks q (older ++ obj :: newer)) : q.head = some obj ↔ newer = [] := by
  have head : q.head = _ := spells.head
  rcases List.eq_nil_or_concat newer with rfl | ⟨new, y, rfl⟩
  · simp [head]
  · have other : y ≠ obj := by
      rintro rfl
      exact (List.nodup_cons.mp (List.nodup_middle.mp spells.chain.nodup)).1 (by simp)
    simp [head, List.getLast?_append, List.getLast?_cons, other]

omit [DecidableEq P] in
theorem tail_iff (spells : WellFormed hooks q (older ++ obj :: newer)) : q.tail = some obj ↔ older = [] := by
  have tail : q.tail = _ := spells.tail
  cases older with
  | nil => simp [tail]
  | cons o older =>
    have other : o ≠ obj := by
      rintro rfl
      exact (List.nodup_cons.mp (List.nodup_middle.mp spells.chain.nodup)).1 (by simp)
    simp [tail, other]

omit [DecidableEq P] in
theorem ends_differ (spells : WellFormed hooks q (older ++ obj :: newer)) (behind : newer ≠ []) :
    ∃ head, q.head = some head ∧ head ≠ obj ∧ q.tail ≠ some head := by
  obtain ⟨new, y, rfl⟩ := (List.eq_nil_or_concat newer).resolve_left behind
  have apart := (List.nodup_append.mp (List.append_assoc older (obj :: new) [y] ▸ by
    simpa using spells.chain.nodup : (older ++ obj :: new ++ [y]).Nodup)).2.2
  have tail : q.tail = _ := spells.tail
  refine ⟨y, spells.head.trans (by simp [List.getLast?_append, List.getLast?_cons]), ?_, ?_⟩
  · rintro rfl
    exact apart y (by simp) y (by simp) rfl
  · intro same
    rw [tail] at same
    cases older with
    | nil => exact apart y (by simp_all) y (by simp) rfl
    | cons o older => exact apart y (by simp_all) y (by simp) rfl

theorem moveToHead_eq (spells : WellFormed hooks q (older ++ obj :: newer)) (behind : newer ≠ []) :
    moveObjToHead hooks q obj =
      some (prependObjToHead (removeObjFromList hooks q obj).1 (removeObjFromList hooks q obj).2 obj) := by
  obtain ⟨head, atHead, other, differ⟩ := ends_differ spells behind
  have member : obj ∈ older ++ obj :: newer := List.mem_append_right older List.mem_cons_self
  obtain ⟨notNext, notPrev⟩ := apart spells member
  have notHead : q.head ≠ some obj := fun same => other (Option.some.inj (atHead.symm.trans same))
  have notSingle : q.head ≠ q.tail := fun same => differ (same.symm.trans atHead)
  obtain ⟨p, atPrev⟩ : ∃ p, (hooks obj).prev = some p := by
    obtain ⟨p, new, rfl⟩ := List.exists_cons_of_ne_nil behind
    exact ⟨p, Spells.prev spells⟩
  have links : ∀ x, (removeObjFromList hooks q obj).1 x = _ := fun x => by
    rw [remove_eq spells member 0, removed_links]
  have queue : (removeObjFromList hooks q obj).2 =
      ⟨some head, if q.tail = some obj then some p else q.tail⟩ := by
    rw [remove_eq spells member 0]
    simp [HookedList.remove, HookedList.unlink, atHead, other, atPrev]
  rw [moveObjToHead, if_neg notSingle, if_neg notHead, queue]
  by_cases tail : q.tail = some obj
  · have next : (hooks obj).next = none := by
      rw [(tail_iff spells).mp tail] at spells
      exact Spells.next spells
    rw [if_pos tail, if_pos tail, atPrev, atHead]
    refine congrArg some (Prod.ext (funext fun x => ?_) ?_)
    · by_cases own : x = obj
      · subst own
        refine Links.ext ?_ ?_ <;> simp [prependObjToHead, writePrev, other.symm]
      · refine Links.ext ?_ ?_ <;> simp [prependObjToHead, writePrev, links, next, atPrev, own, eq_comm]
    · simp [prependObjToHead, atPrev]
  · rw [if_neg tail, if_neg tail]
    cases next : (hooks obj).next with
    | none => exact absurd ((tail_iff spells).mpr (List.getLast?_eq_none_iff.mp ((Spells.next spells).symm.trans next))) tail
    | some n =>
      have notN : obj ≠ n := fun same => notNext (same ▸ next)
      have notP : obj ≠ p := fun same => notPrev (same ▸ atPrev)
      rw [atPrev, atHead]
      simp only [Option.bind_eq_bind, Option.bind_some, setNext_next, if_neg notP, next]
      refine congrArg some (Prod.ext (funext fun x => ?_) ?_)
      · by_cases own : x = obj
        · subst own
          refine Links.ext ?_ ?_ <;> simp [prependObjToHead, writePrev, other.symm]
        · refine Links.ext ?_ ?_ <;> simp [prependObjToHead, writePrev, links, next, atPrev, own, eq_comm]
      · have held : q.tail ≠ none := by
          rw [show q.tail = _ from spells.tail, ne_eq, List.head?_eq_none_iff]
          simp
        simp [prependObjToHead, held]

theorem moveToHead_becomes (spells : WellFormed hooks q (older ++ obj :: newer)) : ∃ after,
    moveObjToHead hooks q obj = some after ∧
      Becomes hooks (older ++ obj :: newer) after (older ++ newer ++ [obj]) := by
  by_cases behind : newer = []
  · subst behind
    refine ⟨(hooks, q), ?_, ?_⟩
    · have head := (head_iff spells).mpr rfl
      rw [moveObjToHead]
      by_cases single : q.head = q.tail
      · have alone := (tail_iff spells).mp (single.symm.trans head)
        subst alone
        rw [if_pos single, if_pos ⟨head, Spells.next spells, Spells.prev spells⟩]
      · rw [if_neg single, if_pos head]
    · rw [List.append_nil]
      exact becomes_self spells
  · obtain ⟨wellFormed, frame⟩ := remove_becomes spells
    have fresh : obj ∉ older ++ newer := (List.nodup_cons.mp (List.nodup_middle.mp spells.chain.nodup)).1
    obtain ⟨moved, outside⟩ := prepend_becomes wellFormed fresh
    refine ⟨_, moveToHead_eq spells behind, moved, fun x old new => ?_⟩
    have away : x ∉ older ++ newer := fun inside => new (List.mem_append_left _ inside)
    rw [outside x away new, frame x old away]

/-! ## The tail -/

theorem moveToTail_mirrored (spells : WellFormed hooks q (older ++ obj :: newer)) :
    moveObjToTail hooks q obj = (moveObjToHead (mirrored hooks) q.mirrored obj).map mirror := by
  rw [moveObjToTail, moveObjToHead]
  by_cases single : q.head = q.tail
  · have turned : q.mirrored.head = q.mirrored.tail := single.symm
    rw [if_pos single, if_pos turned]
    by_cases alone : q.head = some obj ∧ (hooks obj).next = none ∧ (hooks obj).prev = none
    · rw [if_pos alone, if_pos ⟨single.symm.trans alone.1, alone.2.2, alone.2.1⟩]
      rfl
    · rw [if_neg alone, if_neg fun mirrored => alone ⟨single.trans mirrored.1, mirrored.2.2, mirrored.2.1⟩]
      rfl
  · have turned : q.mirrored.head ≠ q.mirrored.tail := fun same => single same.symm
    rw [if_neg single, if_neg turned]
    by_cases head : q.head = some obj
    · have atTail : q.mirrored.tail = some obj := head
      have tail : q.mirrored.head ≠ some obj := fun same => single (head.trans same.symm)
      have prev : (hooks obj).prev = none := by
        rw [(head_iff spells).mp head] at spells
        exact Spells.prev spells
      rw [if_pos head, if_neg tail, if_pos atTail]
      cases next : (hooks obj).next <;> cases last : q.tail <;> simp [mirror, Queue.mirrored, next, prev, last]
    · have notTail : q.mirrored.tail ≠ some obj := head
      rw [if_neg head]
      by_cases tail : q.tail = some obj
      · have atHead : q.mirrored.head = some obj := tail
        rw [if_pos tail, if_pos atHead]
        rfl
      · have notHead : q.mirrored.head ≠ some obj := tail
        rw [if_neg tail, if_neg notHead, if_neg notTail]
        obtain ⟨notNext, notPrev⟩ := apart spells (List.mem_append_right older List.mem_cons_self)
        cases next : (hooks obj).next <;> cases prev : (hooks obj).prev <;> cases last : q.tail <;>
          simp_all [mirror, Queue.mirrored, setPrev_setNext, eq_comm]

theorem moveToTail_becomes (spells : WellFormed hooks q (older ++ obj :: newer)) : ∃ after,
    moveObjToTail hooks q obj = some after ∧
      Becomes hooks (older ++ obj :: newer) after (obj :: (older ++ newer)) := by
  have reversed : (older ++ obj :: newer).reverse = newer.reverse ++ obj :: older.reverse := by simp
  have turned := wellFormed_mirrored spells
  rw [reversed] at turned
  obtain ⟨after, moved, becomes⟩ := moveToHead_becomes turned
  rw [← reversed] at becomes
  refine ⟨mirror after, by rw [moveToTail_mirrored spells, moved]; rfl, ?_⟩
  simpa using becomes.mirror

theorem append_becomes (spells : WellFormed hooks q l) (fresh : obj ∉ l) :
    Becomes hooks l (appendObjToTail hooks q obj) (obj :: l) := by
  have becomes := prepend_becomes (wellFormed_mirrored spells) (mt List.mem_reverse.mp fresh)
  rw [append_mirrored]
  simpa using becomes.mirror

/-- On a well formed list each of the functions does what it says, and no object outside of
the list has got new links. -/
theorem objectList_sequence (spells : WellFormed hooks q l) (obj : P) :
    (obj ∈ l → Becomes hooks l (removeObjFromList hooks q obj) (l.erase obj) ∧
      (∃ after, moveObjToHead hooks q obj = some after ∧ Becomes hooks l after (l.erase obj ++ [obj])) ∧
      ∃ after, moveObjToTail hooks q obj = some after ∧ Becomes hooks l after (obj :: l.erase obj)) ∧
    (obj ∉ l → Becomes hooks l (prependObjToHead hooks q obj) (l ++ [obj]) ∧
      Becomes hooks l (appendObjToTail hooks q obj) (obj :: l)) := by
  constructor
  · intro member
    obtain ⟨older, newer, rfl⟩ := List.append_of_mem member
    have left : (older ++ obj :: newer).erase obj = older ++ newer := by
      have fresh : obj ∉ older := fun old =>
        (List.nodup_append.mp spells.chain.nodup).2.2 obj old obj List.mem_cons_self rfl
      rw [List.erase_append_right _ fresh, List.erase_cons_head]
    rw [left]
    exact ⟨remove_becomes spells, moveToHead_becomes spells, moveToTail_becomes spells⟩
  · intro fresh
    exact ⟨prepend_becomes spells fresh, append_becomes spells fresh⟩

/-- The list of one object, and another one. -/
theorem objectList_sequence_one : WellFormed (fun _ => ⟨none, none⟩) ⟨some 0, some 0⟩ [0] ∧
    Becomes (fun _ => ⟨none, none⟩) [0] (appendObjToTail (fun _ => ⟨none, none⟩) ⟨some 0, some 0⟩ 1) [1, 0] := by
  have spells : WellFormed (fun _ : Nat => ⟨none, none⟩) ⟨some 0, some 0⟩ [0] :=
    ⟨⟨.singleton 0, by simp, List.nodup_singleton 0⟩, by simp, rfl, rfl, rfl⟩
  exact ⟨spells, ((objectList_sequence spells 1).2 (by decide)).2⟩

end ObjectList
