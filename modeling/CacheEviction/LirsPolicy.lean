import CacheEviction.Binary64
import CacheEviction.CacheGet
import CacheEviction.LruCache

/-!
# LIRS

`LIRS.c` over three LRU lists. Stack `LRU_s` holds blocks of low and of high
inter-reference recency, the latter with or without their data; `LRU_q` holds the
blocks of high recency whose data are cached; `LRU_nh` lists the entries of the stack
without data, oldest first. Two flags of a stack entry say what it is.

A lookup, `LIRS_can_insert` and `LIRS_evict` all evict. Every loop is run for one
round more than its list has objects. The counters are unsigned in the source and
integers here, and an object that is read after it was freed still has its size.
`nonresident` is never read and is left out.
-/
namespace Lirs

open FuelLoops FifoCache CacheGet Binary64

structure Flags where
  isLIR : Bool := false
  inCache : Bool := false
  deriving DecidableEq

structure Params where
  cacheSize : Nat
  large : 2 ≤ cacheSize

/-- `hirs_ratio` is the `double` 0.01. -/
def hirsRatio : ℚ := double (1 / 100)

/-- The limits that `LIRS_init` computes. -/
def Params.hirsLimit (b : Params) : Nat := max 1 ⌊double (hirsRatio * double b.cacheSize)⌋.toNat

def Params.lirsLimit (b : Params) : Nat := b.cacheSize - b.hirsLimit

/-- `LIRS_params_t`, with `occupied_byte` of the cache. -/
structure State where
  lruS : Fifo Flags
  lruQ : Fifo Flags
  lruNh : Fifo Unit
  hirsCount : Int
  lirsCount : Int
  occupiedByte : Int

def lirsInit : State := ⟨.empty, .empty, .empty, 0, 0, 0⟩

def tail (q : Fifo Flags) : Except (Stop Fault) (CacheObj Flags) :=
  match q.toEvict with
  | none => .error (.fault .nullTail)
  | some obj => .ok obj

/-! ## Pruning -/

/-- One round of `LIRS_prune`. It stops at the head of the stack, which a stack of
one entry has at its tail. -/
def pruneRound (s : State) : Except (Stop Fault) (Round State State) :=
  match s.lruS.objs with
  | obj :: _ :: _ =>
    if obj.tag.isLIR then .ok (.done s)
    else .ok (.again { s with
      lruNh := if obj.tag.inCache then s.lruNh else s.lruNh.remove obj.objId
      lruS := s.lruS.remove obj.objId })
  | _ => .ok (.done s)

def lirsPrune (s : State) : Except (Stop Fault) State :=
  loop pruneRound (s.lruS.objs.length + 1) s

/-! ## Evictions -/

/-- The entry of the stack that belongs to an object evicted from `LRU_q`. -/
def loseData (s : State) (obj : CacheObj Flags) : State :=
  if (s.lruS.find obj.objId).isSome then
    { s with
      lruS := s.lruS.retag obj.objId fun flags => { flags with inCache := false }
      lruNh := s.lruNh.insert obj.toRequest () }
  else s

def evictHIR (s : State) : Except (Stop Fault) State := do
  let obj ← tail s.lruQ
  return loseData { s with
    hirsCount := s.hirsCount - obj.bytes
    lruQ := s.lruQ.remove obj.objId
    occupiedByte := s.occupiedByte - obj.bytes } obj

def roomQRound (b : Params) (need : Int) (s : State) : Except (Stop Fault) (Round State State) :=
  if (b.hirsLimit : Int) < s.hirsCount + need then (evictHIR s).map .again else .ok (.done s)

/-- The loops around `evictHIR`, until `need` more bytes are below the limit. -/
def makeRoomQ (b : Params) (need : Int) (s : State) : Except (Stop Fault) State :=
  loop (roomQRound b need) (s.lruQ.objs.length + 1) s

/-- A block that has left the stack goes to `LRU_q`, if it is not too large. -/
def demoteToQ (b : Params) (s : State) (obj : CacheObj Flags) : Except (Stop Fault) State :=
  if obj.bytes ≤ b.hirsLimit then
    (makeRoomQ b obj.bytes s).map fun s => { s with
      lruQ := s.lruQ.insert obj.toRequest { isLIR := false, inCache := true }
      hirsCount := s.hirsCount + obj.bytes
      occupiedByte := s.occupiedByte + obj.bytes }
  else .ok s

/-- `evictLIR` takes the tail of the stack, whatever it is. -/
def evictLIR (b : Params) (s : State) : Except (Stop Fault) State := do
  let obj ← tail s.lruS
  let s ← demoteToQ b { s with
    lirsCount := s.lirsCount - obj.bytes
    lruS := s.lruS.remove obj.objId
    occupiedByte := s.occupiedByte - obj.bytes } obj
  lirsPrune s

def roomSRound (b : Params) (need : Int) (s : State) : Except (Stop Fault) (Round State State) :=
  if (b.lirsLimit : Int) < s.lirsCount + need then (evictLIR b s).map .again else .ok (.done s)

/-- The loops around `evictLIR`. -/
def makeRoomS (b : Params) (need : Int) (s : State) : Except (Stop Fault) State :=
  loop (roomSRound b need) (s.lruS.objs.length + 1) s

/-! ## Lookup -/

/-- The block leaves `LRU_q`, if it is there. -/
def leaveQ (s : State) (objQ : Option (CacheObj Flags)) : State :=
  match objQ with
  | none => s
  | some q => { s with
      hirsCount := s.hirsCount - q.bytes
      lruQ := s.lruQ.remove q.objId
      occupiedByte := s.occupiedByte - q.bytes }

def hitRDHIRinS (b : Params) (s : State) (objS : CacheObj Flags) (objQ : Option (CacheObj Flags)) :
    Except (Stop Fault) State :=
  (makeRoomS b objS.bytes (leaveQ s objQ)).map fun s => { s with
    lruS := s.lruS.retag objS.objId fun flags => { flags with isLIR := true }
    lirsCount := s.lirsCount + objS.bytes
    occupiedByte := s.occupiedByte + objS.bytes }

/-- `hit_RD_HIRinQ`. The room is made in the stack, but the block comes back as one of
high recency and `lirs_count` is not raised. -/
def hitRDHIRinQ (b : Params) (s : State) (objQ : CacheObj Flags) : Except (Stop Fault) State :=
  (makeRoomS b objQ.bytes s).map fun s => { s with
    lruS := s.lruS.insert objQ.toRequest { isLIR := false, inCache := true } }

/-- `LIRS_find` with `update_cache` set. -/
def lirsFind (b : Params) (s : State) (r : Request) : Except (Stop Fault) (Bool × State) :=
  let s := { s with lruS := s.lruS.promote r.objId, lruQ := s.lruQ.promote r.objId }
  match s.lruS.find r.objId, s.lruQ.find r.objId with
  | some objS, objQ =>
    if objS.tag.isLIR then (lirsPrune s).map fun s => (true, s)
    else if objS.tag.inCache then (hitRDHIRinS b s objS objQ).map fun s => (true, s)
    else .ok (false, s)
  | none, some objQ =>
    if objQ.tag.inCache then (hitRDHIRinQ b s objQ).map fun s => (true, s)
    else .error (.fault .assertFailed)
  | none, none => .ok (false, s)

/-! ## Admission and insertion -/

/-- A stack entry without data, of high recency. -/
def Flags.absent (f : Flags) : Bool := !f.isLIR && !f.inCache

/-- `LIRS_can_insert`. What it does not expect ends in `abort`. -/
def lirsCanInsert (b : Params) (s : State) (r : Request) : Except (Stop Fault) (Bool × State) :=
  if b.cacheSize < r.objSize then .ok (false, s)
  else
    match s.lruS.find r.objId, s.lruQ.find r.objId with
    | some objS, _ =>
      if objS.tag.absent then
        (makeRoomS b objS.bytes s).map fun s => (true, { s with lruNh := s.lruNh.remove objS.objId })
      else .error (.fault .assertFailed)
    | none, none =>
      if b.lirsLimit < r.objSize ∨ b.hirsLimit < r.objSize then .ok (false, s)
      else if (b.lirsLimit : Int) < s.lirsCount + r.objSize ∧
          (b.hirsLimit : Int) < s.hirsCount + r.objSize then
        (makeRoomQ b r.objSize s).map fun s => (true, s)
      else .ok (true, s)
    | none, some _ => .error (.fault .assertFailed)

def lirsEvict (b : Params) (s : State) (r : Request) : Except (Stop Fault) State :=
  match s.lruS.find r.objId, s.lruQ.find r.objId with
  | some objS, _ => if objS.tag.absent then makeRoomQ b 1 s >>= evictLIR b else .ok s
  | none, some objQ => if objQ.tag.inCache then .ok s else makeRoomQ b 1 s
  | none, none =>
    if (b.lirsLimit : Int) < s.lirsCount + r.objSize ∧
        (b.hirsLimit : Int) < s.hirsCount + r.objSize then evictHIR s
    else .ok s

/-- A new block of high recency, in the stack and in `LRU_q`. -/
def enterHIR (s : State) (r : Request) : State :=
  let bytes := (createCacheObj r ({} : Flags)).bytes
  { s with
    lruS := s.lruS.insert r { isLIR := false, inCache := true }
    lruQ := s.lruQ.insert r { isLIR := false, inCache := true }
    hirsCount := s.hirsCount + bytes
    occupiedByte := s.occupiedByte + bytes }

def enterLIR (s : State) (r : Request) : State :=
  let bytes := (createCacheObj r ({} : Flags)).bytes
  { s with
    lruS := s.lruS.insert r { isLIR := true, inCache := true }
    lirsCount := s.lirsCount + bytes
    occupiedByte := s.occupiedByte + bytes }

/-- `LIRS_insert`. The branches for a full and for a free `LRU_q` are the same. -/
def lirsInsert (b : Params) (s : State) (r : Request) : State :=
  match s.lruS.find r.objId, s.lruQ.find r.objId with
  | some objS, _ =>
    if objS.tag.absent then
      { s with
        lruS := s.lruS.retag objS.objId fun _ => { isLIR := true, inCache := true }
        lirsCount := s.lirsCount + objS.bytes
        occupiedByte := s.occupiedByte + objS.bytes }
    else s
  | none, some objQ => if objQ.tag.inCache then s else enterHIR s r
  | none, none =>
    if s.lirsCount + r.objSize ≤ b.lirsLimit then enterLIR s r else enterHIR s r

/-! ## Requests -/

def lirs (b : Params) : Policy State Fault where
  cacheSize := b.cacheSize
  tick := id
  find := lirsFind b
  canInsert _ := lirsCanInsert b
  occupiedByte s := s.occupiedByte
  evict _ := lirsEvict b
  insert s r := .ok (lirsInsert b s r)

def limitRound (b : Params) (s : State) : Except (Stop Fault) (Round State State) :=
  if (2 * b.cacheSize : Int) < s.lruS.occupiedByte then
    match s.lruNh.toEvict with
    | none => .ok (.done s)
    | some obj => .ok (.again { s with
        lruS := s.lruS.remove obj.objId
        lruNh := s.lruNh.remove obj.objId })
  else .ok (.done s)

def limitStack (b : Params) (s : State) : Except (Stop Fault) State :=
  loop (limitRound b) (s.lruNh.objs.length + 1) s

def lirsGet (b : Params) (fuel : Nat) (s : State) (r : Request) : Except (Stop Fault) (Bool × State) := do
  let (hit, s) ← cacheGetBase (lirs b) fuel s r
  let s ← limitStack b s
  return (hit, s)

/-! ## The limits -/

theorem hirsRatio_le : hirsRatio ≤ 1 / 64 :=
  double_le ⟨1, -6, by norm_num, by norm_num⟩ (by norm_num)

theorem double_natCast_le {n : Nat} (positive : 0 < n) : double n ≤ 2 * n := by
  have above : (n : ℚ) ≤ 2 ^ (Nat.log 2 n + 1) := by
    exact_mod_cast (Nat.lt_pow_succ_log_self (by decide) n).le
  have below : (2 : ℚ) ^ (Nat.log 2 n + 1) ≤ 2 * n := by
    rw [pow_succ']
    have power : (2 : ℚ) ^ Nat.log 2 n ≤ n := by exact_mod_cast Nat.pow_log_le_self 2 positive.ne'
    linarith
  refine le_trans (double_le ⟨1, (Nat.log 2 n + 1 : Nat), by norm_num, ?_⟩ above) below
  rw [zpow_natCast]
  norm_num

theorem hirsLimit_le (b : Params) : b.hirsLimit = 1 ∨ 32 * b.hirsLimit ≤ b.cacheSize := by
  have positive : 0 < b.cacheSize := by
    have large := b.large
    omega
  have nonneg : 0 ≤ double b.cacheSize := double_nonneg (Nat.cast_nonneg _)
  obtain ⟨m, k, bits, value⟩ := representable_double (x := (b.cacheSize : ℚ)) (Nat.cast_nonneg _)
  have product : double (hirsRatio * double b.cacheSize) ≤ double b.cacheSize / 64 := by
    refine double_le ⟨m, k - 6, bits, ?_⟩ ?_
    · rw [value, zpow_sub₀ (by norm_num)]
      norm_num
      ring
    · have scaled := mul_le_mul_of_nonneg_right hirsRatio_le nonneg
      linarith
  have bound : double (hirsRatio * double b.cacheSize) ≤ b.cacheSize / 32 := by
    have doubled := double_natCast_le positive
    linarith
  have floor : (32 * ⌊double (hirsRatio * double b.cacheSize)⌋ : Int) ≤ b.cacheSize := by
    have lower := Int.floor_le (double (hirsRatio * double b.cacheSize))
    have real : (32 * ⌊double (hirsRatio * double b.cacheSize)⌋ : ℚ) ≤ b.cacheSize := by linarith
    exact_mod_cast real
  unfold Params.hirsLimit
  omega

theorem hirsLimit_pos (b : Params) : 1 ≤ b.hirsLimit := le_max_left _ _

theorem limits (b : Params) : b.lirsLimit + b.hirsLimit = b.cacheSize ∧ 1 ≤ b.lirsLimit ∧
    (b.hirsLimit = 1 ∨ 2 ≤ b.lirsLimit) := by
  have part := hirsLimit_le b
  have positive := hirsLimit_pos b
  have large := b.large
  unfold Params.lirsLimit
  omega

end Lirs
