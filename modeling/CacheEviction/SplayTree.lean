import Mathlib.Data.Int.Basic
import Mathlib.Order.Basic

/-!
# The splay tree of libCacheSim

`splay.c`: a binary search tree whose nodes carry the size of their subtree. The
top-down splay hangs what it passes on two trees under a header node, and puts the
parts together under the node at which it stops. Sizes on the two inner paths are
corrected at the end.
-/
namespace SplayTree

inductive STree where
  | nil
  | node (left : STree) (key value : Int) (right : STree)
  deriving DecidableEq

open STree

def nodeValue : STree → Int
  | .nil => 0
  | .node _ _ value _ => value

/-- A node on the right spine of the tree of smaller keys. -/
structure LeftLink where
  left : STree
  key : Int
  value : Int

/-- A node on the left spine of the tree of larger keys. -/
structure RightLink where
  key : Int
  value : Int
  right : STree

/-- The two spines under the header `N`, top first, and `l_size` and `r_size`. -/
structure Header where
  ls : List LeftLink
  rs : List RightLink
  lSize : Int
  rSize : Int

def linkRight (h : Header) (key value : Int) (right : STree) : Header :=
  { h with rs := h.rs ++ [⟨key, value, right⟩], rSize := h.rSize + (1 + nodeValue right) }

def linkLeft (h : Header) (left : STree) (key value : Int) : Header :=
  { h with ls := h.ls ++ [⟨left, key, value⟩], lSize := h.lSize + (1 + nodeValue left) }

/-- The `for (;;)` loop: the tree `t` at its `break`, and the header. -/
def splayLoop (i : Int) : STree → Header → STree × Header
  | .nil, h => (.nil, h)
  | .node left key value right, h =>
    if i < key then
      match left with
      | .nil => (.node .nil key value right, h)
      | .node ll lkey lvalue lr =>
        if i < lkey then
          -- rotate right; the size of the new root is corrected with its spine
          match ll with
          | .nil => (.node .nil lkey lvalue
              (.node lr key (nodeValue lr + nodeValue right + 1) right), h)
          | .node a x w b => splayLoop i (.node a x w b) (linkRight h lkey lvalue
              (.node lr key (nodeValue lr + nodeValue right + 1) right))
        else splayLoop i (.node ll lkey lvalue lr) (linkRight h key value right)
    else if key < i then
      match right with
      | .nil => (.node left key value .nil, h)
      | .node rl rkey rvalue rr =>
        if rkey < i then
          match rr with
          | .nil => (.node (.node left key (nodeValue left + nodeValue rl + 1) rl)
              rkey rvalue .nil, h)
          | .node a x w b => splayLoop i (.node a x w b) (linkLeft h
              (.node left key (nodeValue left + nodeValue rl + 1) rl) rkey rvalue)
        else splayLoop i (.node rl rkey rvalue rr) (linkLeft h left key value)
    else (.node left key value right, h)

/-- The loop that corrects the sizes on the left spine, and the assembly under it. -/
def hangLeft (bottom : STree) : Int → List LeftLink → STree
  | _, [] => bottom
  | lSize, y :: ys => .node y.left y.key lSize (hangLeft bottom (lSize - (1 + nodeValue y.left)) ys)

def hangRight (bottom : STree) : Int → List RightLink → STree
  | _, [] => bottom
  | rSize, y :: ys =>
    .node (hangRight bottom (rSize - (1 + nodeValue y.right)) ys) y.key rSize y.right

def splay (i : Int) (t : STree) : STree :=
  match splayLoop i t ⟨[], [], 0, 0⟩ with
  | (.nil, _) => .nil
  | (.node left key _ right, h) =>
    .node (hangLeft left (h.lSize + nodeValue left) h.ls) key
      (h.lSize + nodeValue left + (h.rSize + nodeValue right) + 1)
      (hangRight right (h.rSize + nodeValue right) h.rs)

def insert (i : Int) (t : STree) : STree :=
  match splay i t with
  | .nil => .node .nil i 1 .nil
  | .node left key value right =>
    if i < key then
      let t := STree.node .nil key (1 + nodeValue right) right
      .node left i (1 + nodeValue left + nodeValue t) t
    else if key < i then
      let t := STree.node left key (1 + nodeValue left) .nil
      .node t i (1 + nodeValue t + nodeValue right) right
    else .node left key value right

/-- `x->right = right; x->value = root_value - 1` for the new root, if there is one. -/
def joinRight (x right : STree) (value : Int) : STree :=
  match x with
  | .nil => .nil
  | .node left key _ _ => .node left key value right

def splayDelete (i : Int) (t : STree) : STree :=
  match splay i t with
  | .nil => .nil
  | .node left key value right =>
    if i = key then
      match left with
      | .nil => match right with
        | .nil => .nil
        | .node rl rkey _ rr => .node rl rkey (nodeValue t - 1) rr
      | .node a x w b => joinRight (splay i (.node a x w b)) right (nodeValue t - 1)
    else .node left key value right

/-! ## Keys and sizes -/

def STree.keys : STree → List Int
  | .nil => []
  | .node left key _ right => left.keys ++ key :: right.keys

/-- What `check_sTree` asserts. -/
def Sized : STree → Prop
  | .nil => True
  | .node left _ value right =>
    value = nodeValue left + nodeValue right + 1 ∧ Sized left ∧ Sized right

def Sorted (l : List Int) : Prop := l.Pairwise (· < ·)

variable {i n : Int} {t left right : STree} {key value : Int} {ls : List LeftLink}
  {rs : List RightLink} {h : Header} {K : List Int}

theorem nodeValue_eq (sized : Sized t) : nodeValue t = t.keys.length := by
  induction t with
  | nil => rfl
  | node left key value right ihl ihr =>
    obtain ⟨root, hl, hr⟩ := sized
    have l := ihl hl
    have r := ihr hr
    simp only [nodeValue, STree.keys, List.length_append, List.length_cons]
    omega

def leftKeys : List LeftLink → List Int
  | [] => []
  | y :: ys => y.left.keys ++ y.key :: leftKeys ys

def rightKeys : List RightLink → List Int
  | [] => []
  | y :: ys => rightKeys ys ++ y.key :: y.right.keys

theorem leftKeys_concat (ls : List LeftLink) (y : LeftLink) :
    leftKeys (ls ++ [y]) = leftKeys ls ++ (y.left.keys ++ [y.key]) := by
  induction ls with
  | nil => rfl
  | cons z ls ih => simp [leftKeys, ih]

theorem rightKeys_concat (rs : List RightLink) (y : RightLink) :
    rightKeys (rs ++ [y]) = y.key :: y.right.keys ++ rightKeys rs := by
  induction rs with
  | nil => simp [rightKeys]
  | cons z rs ih => simp [rightKeys, ih]

theorem keys_hangLeft (bottom : STree) (n : Int) (ls : List LeftLink) :
    (hangLeft bottom n ls).keys = leftKeys ls ++ bottom.keys := by
  induction ls generalizing n with
  | nil => rfl
  | cons y ls ih => simp [hangLeft, STree.keys, leftKeys, ih]

theorem keys_hangRight (bottom : STree) (n : Int) (rs : List RightLink) :
    (hangRight bottom n rs).keys = bottom.keys ++ rightKeys rs := by
  induction rs generalizing n with
  | nil => simp [hangRight, rightKeys]
  | cons y rs ih => simp [hangRight, STree.keys, rightKeys, ih]

theorem hangLeft_sized {bottom : STree} (sized : Sized bottom) (parts : ∀ y ∈ ls, Sized y.left)
    (total : n = (leftKeys ls).length + nodeValue bottom) :
    Sized (hangLeft bottom n ls) ∧ nodeValue (hangLeft bottom n ls) = n := by
  induction ls generalizing n with
  | nil =>
    simp only [leftKeys, List.length_nil] at total
    exact ⟨sized, by simp only [hangLeft]; omega⟩
  | cons y ls ih =>
    have own := parts y List.mem_cons_self
    have size := nodeValue_eq own
    simp only [leftKeys, List.length_append, List.length_cons] at total
    obtain ⟨rest, value⟩ := ih (n := n - (1 + nodeValue y.left))
      (fun z member => parts z (List.mem_cons_of_mem y member)) (by omega)
    exact ⟨⟨by omega, own, rest⟩, rfl⟩

theorem hangRight_sized {bottom : STree} (sized : Sized bottom) (parts : ∀ y ∈ rs, Sized y.right)
    (total : n = (rightKeys rs).length + nodeValue bottom) :
    Sized (hangRight bottom n rs) ∧ nodeValue (hangRight bottom n rs) = n := by
  induction rs generalizing n with
  | nil =>
    simp only [rightKeys, List.length_nil] at total
    exact ⟨sized, by simp only [hangRight]; omega⟩
  | cons y rs ih =>
    have own := parts y List.mem_cons_self
    have size := nodeValue_eq own
    simp only [rightKeys, List.length_append, List.length_cons] at total
    obtain ⟨rest, value⟩ := ih (n := n - (1 + nodeValue y.right))
      (fun z member => parts z (List.mem_cons_of_mem y member)) (by omega)
    exact ⟨⟨by omega, rest, own⟩, rfl⟩

/-! ## The descent -/

/-- The keys `K` of the whole tree are spread over the two spines and the tree that
is left; the spines are on their sides of `i` and the header knows their sizes. -/
structure Spread (i : Int) (K : List Int) (t : STree) (h : Header) : Prop where
  keys : leftKeys h.ls ++ t.keys ++ rightKeys h.rs = K
  lefts : ∀ y ∈ h.ls, Sized y.left
  rights : ∀ y ∈ h.rs, Sized y.right
  lSize : h.lSize = (leftKeys h.ls).length
  rSize : h.rSize = (rightKeys h.rs).length
  below : ∀ x ∈ leftKeys h.ls, x < i
  above : ∀ x ∈ rightKeys h.rs, i < x

/-- The sizes below the root are right. -/
def Inner : STree → Prop
  | .nil => True
  | .node left _ _ right => Sized left ∧ Sized right

theorem Sized.inner (sized : Sized t) : Inner t := by
  cases t with
  | nil => trivial
  | node left key value right => exact sized.2

theorem Spread.of_keys {u : STree} (spread : Spread i K t h) (same : u.keys = t.keys) :
    Spread i K u h :=
  { spread with keys := by rw [same]; exact spread.keys }

theorem Spread.node_sorted (spread : Spread i K (.node left key value right) h) (sorted : Sorted K) :
    (∀ x ∈ left.keys, x < key) ∧ ∀ x ∈ right.keys, key < x := by
  rw [Sorted, ← spread.keys] at sorted
  have inner := (List.pairwise_append.mp (List.pairwise_append.mp sorted).1).2.1
  obtain ⟨_, upper, across⟩ := List.pairwise_append.mp inner
  exact ⟨fun x member => across x member key List.mem_cons_self,
    fun x member => List.rel_of_pairwise_cons upper member⟩

theorem Spread.linkRight (spread : Spread i K (.node left key value right) h) (sorted : Sorted K)
    (sized : Sized right) (less : i < key) : Spread i K left (linkRight h key value right) where
  keys := by
    rw [SplayTree.linkRight, rightKeys_concat, ← spread.keys]
    simp [STree.keys]
  lefts := spread.lefts
  rights := by
    intro y member
    rcases List.mem_append.mp member with old | new
    · exact spread.rights y old
    · rw [List.mem_singleton.mp new]
      exact sized
  lSize := spread.lSize
  rSize := by
    have before := spread.rSize
    have size := nodeValue_eq sized
    simp only [SplayTree.linkRight, rightKeys_concat, List.length_append, List.length_cons]
    omega
  below := spread.below
  above := by
    intro x member
    have ascending := (spread.node_sorted sorted).2
    simp only [SplayTree.linkRight, rightKeys_concat] at member
    rcases List.mem_append.mp member with new | old
    · rcases List.mem_cons.mp new with rfl | inside
      · exact less
      · exact Int.lt_trans less (ascending x inside)
    · exact spread.above x old

theorem Spread.linkLeft (spread : Spread i K (.node left key value right) h) (sorted : Sorted K)
    (sized : Sized left) (greater : key < i) : Spread i K right (linkLeft h left key value) where
  keys := by
    rw [SplayTree.linkLeft, leftKeys_concat, ← spread.keys]
    simp [STree.keys]
  lefts := by
    intro y member
    rcases List.mem_append.mp member with old | new
    · exact spread.lefts y old
    · rw [List.mem_singleton.mp new]
      exact sized
  rights := spread.rights
  lSize := by
    have before := spread.lSize
    have size := nodeValue_eq sized
    simp only [SplayTree.linkLeft, leftKeys_concat, List.length_append, List.length_cons,
      List.length_nil]
    omega
  rSize := spread.rSize
  below := by
    intro x member
    have ascending := (spread.node_sorted sorted).1
    simp only [SplayTree.linkLeft, leftKeys_concat] at member
    rcases List.mem_append.mp member with old | new
    · exact spread.below x old
    · rcases List.mem_append.mp new with inside | own
      · exact Int.lt_trans (ascending x inside) greater
      · rw [List.mem_singleton.mp own]
        exact greater
  above := spread.above

/-- Where the descent stops there is nothing more to pass on the way to `i`. -/
structure Stopped (i : Int) (K : List Int) (t : STree) (h : Header) : Prop where
  spread : Spread i K t h
  inner : Inner t
  arrived : ∃ left key value right, t = .node left key value right ∧
    (i < key → left = .nil) ∧ (key < i → right = .nil)

theorem keys_rotate (a b c : STree) (x y v w v' w' : Int) :
    (STree.node a x v (.node b y w c)).keys = (STree.node (.node a x v' b) y w' c).keys := by
  simp [STree.keys]

theorem rotated_sized {a b : STree} (ha : Sized a) (hb : Sized b) (x : Int) :
    Sized (.node a x (nodeValue a + nodeValue b + 1) b) :=
  ⟨rfl, ha, hb⟩

theorem splayLoop_stops (sorted : Sorted K) (spread : Spread i K t h) (inner : Inner t)
    (root : t ≠ .nil) : Stopped i K (splayLoop i t h).1 (splayLoop i t h).2 := by
  fun_induction splayLoop i t h with
  | case1 => exact absurd rfl root
  | case2 key value right h less =>
    exact ⟨spread, inner, _, _, _, _, rfl, fun _ => rfl, fun greater => by omega⟩
  | case3 key value right h less lkey lvalue lr lless =>
    refine ⟨spread.of_keys (keys_rotate ..), ⟨trivial, rotated_sized inner.1.2.2 inner.2 key⟩, ?_⟩
    exact ⟨_, _, _, _, rfl, fun _ => rfl, fun greater => by omega⟩
  | case4 key value right h less lkey lvalue lr lless a x w b ih =>
    have turned := spread.of_keys (keys_rotate (.node a x w b) lr right lkey key lvalue
      (nodeValue lr + nodeValue right + 1) lvalue value)
    exact ih (turned.linkRight sorted (rotated_sized inner.1.2.2 inner.2 key) lless)
      inner.1.2.1.inner nofun
  | case5 key value right h less ll lkey lvalue lr lless ih =>
    exact ih (spread.linkRight sorted inner.2 less) inner.1.inner nofun
  | case6 left key value h less greater =>
    exact ⟨spread, inner, _, _, _, _, rfl, fun less => by omega, fun _ => rfl⟩
  | case7 left key value h less greater rl rkey rvalue rgreater =>
    refine ⟨spread.of_keys (keys_rotate ..).symm, ⟨rotated_sized inner.1 inner.2.2.1 key, trivial⟩, ?_⟩
    exact ⟨_, _, _, _, rfl, fun less => by omega, fun _ => rfl⟩
  | case8 left key value h less greater rl rkey rvalue rgreater a x w b ih =>
    have turned := spread.of_keys (keys_rotate left rl (.node a x w b) key rkey value rvalue
      (nodeValue left + nodeValue rl + 1) rvalue).symm
    exact ih (turned.linkLeft sorted (rotated_sized inner.1 inner.2.2.1 key) rgreater)
      inner.2.2.2.inner nofun
  | case9 left key value h less greater rl rkey rvalue rr rgreater ih =>
    exact ih (spread.linkLeft sorted inner.1 greater) inner.2.inner nofun
  | case10 left key value right h less greater =>
    exact ⟨spread, inner, _, _, _, _, rfl, fun less' => absurd less' less,
      fun greater' => absurd greater' greater⟩

/-- What `splay` leaves: the same keys, those below `i` on the left of the root and
those above it on the right, with every size right. -/
structure Splayed (i : Int) (t u : STree) : Prop where
  keys : u.keys = t.keys
  sized : Sized u
  root : ∃ left key value right, u = .node left key value right ∧
    (∀ x ∈ left.keys, x < i) ∧ ∀ x ∈ right.keys, i < x

theorem splay_splayed (sorted : Sorted t.keys) (sized : Sized t) (root : t ≠ .nil) :
    Splayed i t (splay i t) := by
  have start : Spread i t.keys t ⟨[], [], 0, 0⟩ :=
    ⟨by simp [leftKeys, rightKeys], nofun, nofun, rfl, rfl, nofun, nofun⟩
  obtain ⟨spread, inner, left, key, value, right, stop, less, greater⟩ :=
    splayLoop_stops sorted start sized.inner root
  rw [splay]
  generalize splayLoop i t ⟨[], [], 0, 0⟩ = found at *
  obtain ⟨u, h⟩ := found
  simp only at stop spread inner
  subst stop
  obtain ⟨below, above⟩ := spread.node_sorted sorted
  obtain ⟨hl, valueL⟩ := hangLeft_sized inner.1 spread.lefts
    (congrArg (· + nodeValue left) spread.lSize)
  obtain ⟨hr, valueR⟩ := hangRight_sized inner.2 spread.rights
    (congrArg (· + nodeValue right) spread.rSize)
  refine ⟨?_, ⟨by rw [valueL, valueR], hl, hr⟩, _, _, _, _, rfl, ?_, ?_⟩
  · rw [← spread.keys, STree.keys, keys_hangLeft, keys_hangRight]
    simp [STree.keys]
  · intro x member
    rw [keys_hangLeft] at member
    rcases List.mem_append.mp member with passed | inside
    · exact spread.below x passed
    · have order := below x inside
      by_cases past : i < key
      · rw [less past] at inside
        cases inside
      · omega
  · intro x member
    rw [keys_hangRight] at member
    rcases List.mem_append.mp member with inside | passed
    · have order := above x inside
      by_cases past : key < i
      · rw [greater past] at inside
        cases inside
      · omega
    · exact spread.above x passed

/-! ## Insertion and deletion -/

theorem cut_unique {a b c d : List Int} (same : a ++ b = c ++ d) (ha : ∀ x ∈ a, x < i)
    (hb : ∀ x ∈ b, i ≤ x) (hc : ∀ x ∈ c, x < i) (hd : ∀ x ∈ d, i ≤ x) : a = c ∧ b = d := by
  rcases List.append_eq_append_iff.mp same with ⟨e, rfl, rfl⟩ | ⟨e, rfl, rfl⟩
  · have none : e = [] := List.eq_nil_iff_forall_not_mem.mpr fun x member => by
      have := hc x (List.mem_append_right a member)
      have := hb x (List.mem_append_left d member)
      omega
    simp [none]
  · have none : e = [] := List.eq_nil_iff_forall_not_mem.mpr fun x member => by
      have := ha x (List.mem_append_right c member)
      have := hd x (List.mem_append_left b member)
      omega
    simp [none]

theorem mem_cons_above {l : List Int} (less : i ≤ key) (above : ∀ x ∈ l, i < x) :
    ∀ x ∈ key :: l, i ≤ x := by
  intro x member
  rcases List.mem_cons.mp member with rfl | rest
  · exact less
  · exact Int.le_of_lt (above x rest)

theorem mem_concat_below {l : List Int} (greater : key < i) (below : ∀ x ∈ l, x < i) :
    ∀ x ∈ l ++ [key], x < i := by
  intro x member
  rcases List.mem_append.mp member with rest | last
  · exact below x rest
  · rw [List.mem_singleton.mp last]
    exact greater

variable {lower upper : List Int}

theorem insert_keys (sorted : Sorted t.keys) (sized : Sized t) (cut : t.keys = lower ++ upper)
    (below : ∀ x ∈ lower, x < i) (above : ∀ x ∈ upper, i < x) :
    (insert i t).keys = lower ++ i :: upper ∧ Sized (insert i t) := by
  by_cases root : t = .nil
  · subst root
    obtain ⟨rfl, rfl⟩ := List.append_eq_nil_iff.mp cut.symm
    exact ⟨rfl, rfl, trivial, trivial⟩
  · obtain ⟨keys, size, left, key, value, right, shape, lefts, rights⟩ :=
      splay_splayed (i := i) sorted sized root
    rw [shape, cut] at keys
    rw [shape] at size
    rw [insert, shape]
    dsimp only
    split_ifs with less greater
    · obtain ⟨hl, hr⟩ := cut_unique keys lefts (mem_cons_above (Int.le_of_lt less) rights) below
        fun x member => Int.le_of_lt (above x member)
      refine ⟨?_, ⟨by simp only [nodeValue]; omega, size.2.1, ?_, trivial, size.2.2⟩⟩
      · rw [← hl, ← hr]
        rfl
      · simp only [nodeValue]
        omega
    · have keys' : left.keys ++ [key] ++ right.keys = lower ++ upper := by
        rw [← keys]
        simp [STree.keys]
      obtain ⟨hl, hr⟩ := cut_unique keys' (mem_concat_below greater lefts)
        (fun x member => Int.le_of_lt (rights x member)) below
        fun x member => Int.le_of_lt (above x member)
      refine ⟨?_, ⟨by simp only [nodeValue]; omega, ⟨?_, size.2.1, trivial⟩, size.2.2⟩⟩
      · rw [← hl, ← hr]
        rfl
      · simp only [nodeValue]
        omega
    · have here : key ∈ lower ++ upper := by
        rw [← keys]
        exact List.mem_append_right _ List.mem_cons_self
      rcases List.mem_append.mp here with low | high
      · exact absurd (below key low) greater
      · exact absurd (above key high) less

theorem Splayed.at_key {u : STree} (splayed : Splayed i t u) (sorted : Sorted t.keys)
    (cut : t.keys = lower ++ i :: upper) :
    ∃ left value right, u = .node left i value right ∧ left.keys = lower ∧ right.keys = upper := by
  obtain ⟨keys, -, left, key, value, right, rfl, lefts, rights⟩ := splayed
  have same : left.keys ++ key :: right.keys = lower ++ i :: upper := by
    rw [← cut, ← keys]
    rfl
  have root : key = i := by
    have here : i ∈ left.keys ++ key :: right.keys := by
      rw [same]
      exact List.mem_append_right _ List.mem_cons_self
    rcases List.mem_append.mp here with low | high
    · exact absurd (lefts i low) (Int.lt_irrefl i)
    · rcases List.mem_cons.mp high with same | high
      · exact same.symm
      · exact absurd (rights i high) (Int.lt_irrefl i)
  subst root
  rw [Sorted, cut] at sorted
  obtain ⟨-, up, across⟩ := List.pairwise_append.mp sorted
  obtain ⟨hl, hr⟩ := cut_unique same lefts (mem_cons_above (Int.le_refl key) rights)
    (fun x member => across x member key List.mem_cons_self)
    (mem_cons_above (Int.le_refl key) fun x member => List.rel_of_pairwise_cons up member)
  exact ⟨left, value, right, rfl, hl, (List.cons.inj hr).2⟩

theorem splay_below (sorted : Sorted t.keys) (sized : Sized t) (root : t ≠ .nil)
    (below : ∀ x ∈ t.keys, x < i) :
    ∃ left key value, splay i t = .node left key value .nil ∧ Sized left ∧
      left.keys ++ [key] = t.keys := by
  obtain ⟨keys, size, left, key, value, right, shape, -, rights⟩ :=
    splay_splayed (i := i) sorted sized root
  rw [shape] at keys size
  cases right with
  | nil => exact ⟨left, key, value, shape, size.2.1, keys⟩
  | node l k v r =>
    have above := rights k (List.mem_append_right _ List.mem_cons_self)
    have member : k ∈ t.keys := by
      rw [← keys]
      simp [STree.keys]
    have := below k member
    omega

theorem splayDelete_keys (sorted : Sorted t.keys) (sized : Sized t)
    (cut : t.keys = lower ++ i :: upper) :
    (splayDelete i t).keys = lower ++ upper ∧ Sized (splayDelete i t) := by
  have root : t ≠ .nil := by
    rintro rfl
    simp [STree.keys] at cut
  have splayed := splay_splayed (i := i) sorted sized root
  obtain ⟨left, value, right, shape, rfl, rfl⟩ := splayed.at_key sorted cut
  obtain ⟨-, sizedL, sizedR⟩ : Sized (.node left i value right) := shape ▸ splayed.sized
  have total : nodeValue t = nodeValue left + nodeValue right + 1 := by
    rw [nodeValue_eq sized, cut, nodeValue_eq sizedL, nodeValue_eq sizedR]
    simp only [List.length_append, List.length_cons]
    omega
  rw [splayDelete, shape, total]
  simp only [if_true]
  cases left with
  | nil =>
    cases right with
    | nil => exact ⟨rfl, trivial⟩
    | node rl rkey rvalue rr =>
      obtain ⟨own, sizedL, sizedR⟩ := sizedR
      exact ⟨rfl, by rw [own, nodeValue, nodeValue]; omega, sizedL, sizedR⟩
  | node a x w b =>
    rw [Sorted, cut] at sorted
    obtain ⟨sortedL, -, across⟩ := List.pairwise_append.mp sorted
    obtain ⟨l, k, v, top, sizedTop, keys⟩ := splay_below sortedL sizedL nofun
      fun x member => across x member i List.mem_cons_self
    have size : nodeValue (.node a x w b) = nodeValue l + 1 := by
      rw [nodeValue_eq sizedL, ← keys, nodeValue_eq sizedTop]
      simp
    dsimp only
    rw [top]
    refine ⟨?_, by omega, sizedTop, sizedR⟩
    rw [← keys, joinRight, STree.keys]
    simp

theorem splay_then_delete (sorted : Sorted t.keys) (sized : Sized t)
    (cut : t.keys = lower ++ i :: upper) :
    ∃ left key value right, splay i t = .node left key value right ∧
      nodeValue right = upper.length ∧
      (splayDelete i (.node left key value right)).keys = lower ++ upper ∧
      Sized (splayDelete i (.node left key value right)) := by
  have root : t ≠ .nil := by
    rintro rfl
    simp [STree.keys] at cut
  have splayed := splay_splayed (i := i) sorted sized root
  obtain ⟨left, value, right, shape, -, rfl⟩ := splayed.at_key sorted cut
  obtain ⟨keys, sized', -⟩ := splayed
  rw [shape] at keys sized'
  exact ⟨left, i, value, right, shape, nodeValue_eq sized'.2.2,
    splayDelete_keys (keys ▸ sorted) sized' (keys.trans cut)⟩

end SplayTree
