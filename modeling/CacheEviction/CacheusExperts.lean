import CacheEviction.Binary64
import CacheEviction.CrLfu
import CacheEviction.SrLruUnits

/-!
# The two experts of Cacheus

`Cacheus.c` with both of its experts, without metadata. On an eviction `SR_LRU` and
`CR_LFU` each name a victim; if they differ, a draw decides whose victim goes, the other
expert removes it too, and its id is remembered in the ghost list of the expert that was
followed. An object that leaves `CR_LFU` hands its frequency to the entry that `SR_LRU`
has just made in `H_list`.

Only the draw reads the weights, and its outcomes are a parameter. `evictedFreq` is a
history variable, which nothing reads.
-/
namespace CacheusExperts

open FuelLoops FifoCache CacheGet Cacheus LruRuns Binary64

structure Setup where
  cacheSize : Nat
  /-- Whether `Cacheus_to_evict` takes the candidate of `SR_LRU`, at each eviction. -/
  drawsLru : Nat → Bool

def Setup.lists (c : Setup) : Params := units c.cacheSize

/-- The size of `LRU_g` and `LFU_g`; `ghost_list_factor` is 1. -/
def Setup.ghostSize (c : Setup) : Nat := ⌊double c.cacheSize / 2 * 1⌋.toNat

structure Experts where
  lru : State
  lfu : CrLfu.State
  /-- `CR_LFU.freq` of the entries of `H_list`. -/
  historyFreq : Nat → Int
  lruG : Fifo Unit
  lfuG : Fifo Unit
  /-- The frequency of each object when it last left `CR_LFU`. -/
  evictedFreq : Nat → Int

def cacheusInit (c : Setup) (left : BitVec 64) : Experts where
  lru := srLruInit c.lists left
  lfu := CrLfu.crLfuInit
  historyFreq := fun _ => 0
  lruG := .empty
  lfuG := .empty
  evictedFreq := fun _ => 0

/-! ## The calls of one expert -/

def orNull {α : Type} : Option α → Except (Stop Cacheus.Fault) α
  | none => .error (.fault .nullTail)
  | some a => .ok a

/-- `SR_LRU_evict` makes an entry in `H_list`, with a frequency of 0. -/
def lruEvict (c : Setup) (s : Experts) : Except (Stop Cacheus.Fault) Experts := do
  let obj ← srLruToEvict c.lists s.lru
  let lru ← srLruEvict c.lists s.lru
  return { s with lru := lru, historyFreq := Function.update s.historyFreq obj.objId 0 }

/-- `SR_LRU_remove` makes one too, if it has the object. -/
def lruRemove (c : Setup) (s : Experts) (id : Nat) : Except (Stop Cacheus.Fault) Experts := do
  let present := (s.lru.rList.find id).isSome || (s.lru.srList.find id).isSome
  let lru ← srLruRemove c.lists s.lru id
  return { s with
    lru := lru
    historyFreq := if present then Function.update s.historyFreq id 0 else s.historyFreq }

/-- `CR_LFU` hands over the frequency of an object that leaves it. -/
def offload (s : Experts) (id : Nat) (obj : CrLfu.Obj) : Except (Stop Cacheus.Fault) Experts :=
  if (s.lru.hList.find id).isSome then
    .ok { s with historyFreq := Function.update s.historyFreq id obj.freq }
  else .error (.fault .nullTail)

def lfuEvict (s : Experts) : Except (Stop Cacheus.Fault) Experts := do
  let ((id, obj), lfu) ← orNull (CrLfu.crLfuEvict s.lfu)
  offload { s with lfu := lfu, evictedFreq := Function.update s.evictedFreq id obj.freq } id obj

def lfuRemove (s : Experts) (id : Nat) : Except (Stop Cacheus.Fault) Experts := do
  let (removed, lfu) ← orNull (CrLfu.crLfuRemove s.lfu id)
  match removed with
  | none => return s
  | some obj =>
    offload { s with lfu := lfu, evictedFreq := Function.update s.evictedFreq id obj.freq } id obj

/-- `LRU_get` on one of the ghost lists. -/
def ghostGet (c : Setup) (fuel : Nat) (q : Fifo Unit) (r : Request) :
    Except (Stop Cacheus.Fault) (Fifo Unit) :=
  match lruGet c.ghostSize fuel q r with
  | .ok (_, q) => .ok q
  | .error .outOfFuel => .error .outOfFuel
  | .error (.fault _) => .error (.fault .nullTail)

/-! ## Lookup -/

/-- `check_and_update_history`, apart from the weights. -/
def checkAndUpdateHistory (s : Experts) (id : Nat) : Experts :=
  { s with lruG := s.lruG.remove id, lfuG := s.lfuG.remove id }

/-- `Cacheus_find` with `update_cache` set. -/
def cacheusFind (c : Setup) (s : Experts) (r : Request) :
    Except (Stop Cacheus.Fault) (Bool × Experts) := do
  let (hitLru, lru) ← srLruFind c.lists s.lru r
  let (_, lfu) ← orNull (CrLfu.crLfuFind s.lfu r.objId)
  let s := { s with lru := lru, lfu := lfu }
  return (hitLru, if hitLru then s else checkAndUpdateHistory s r.objId)

/-! ## Insertion -/

/-- A round of the loop over a full `SR_list`: `other_cache` removes the object as well. -/
def overflowRound (c : Setup) (s : Experts) : Except (Stop Cacheus.Fault) (Round Experts Experts) :=
  if s.lru.srSize < occupied c.lists s.lru.srList then do
    let obj ← tail s.lru.srList
    let s := { s with
      lru := pushHistory s.lru obj false
      historyFreq := Function.update s.historyFreq obj.objId 0 }
    let s ← lfuRemove s obj.objId
    return .again { s with lru := { s.lru with srList := s.lru.srList.remove obj.objId } }
  else return .done s

def relieve (c : Setup) (s : Experts) : Except (Stop Cacheus.Fault) Experts :=
  if (c.cacheSize : Int) < srLruOccupied c.lists s.lru then
    loop (overflowRound c) (s.lru.srList.objs.length + 1) s
  else .ok s

/-- The frequency that `CR_LFU_insert` finds in `H_list`. -/
def recalled (s : Experts) (id : Nat) : Option Int :=
  if (s.lru.hList.find id).isSome then some (s.historyFreq id) else none

def lruInsert (c : Setup) (s : Experts) (r : Request) : Except (Stop Cacheus.Fault) Experts := do
  let lru ← enter c.lists s.lru r
  let s ← relieve c { s with lru := lru }
  let lru ← trimHistory c.lists s.lru
  return { s with lru := lru }

/-- `Cacheus_insert`: `CR_LFU` comes first because it reads `H_list`. -/
def cacheusInsert (c : Setup) (s : Experts) (r : Request) : Except (Stop Cacheus.Fault) Experts :=
  if srLruCanInsert c.lists s.lru r then
    lruInsert c { s with
      lfu := CrLfu.crLfuInsert s.lfu r.objId (UInt32.ofNat r.objSize) (recalled s r.objId) } r
  else .ok s

/-! ## Eviction -/

def evictBoth (c : Setup) (s : Experts) : Except (Stop Cacheus.Fault) Experts := do
  let s ← lruEvict c s
  lfuEvict s

def evictLru (c : Setup) (fuel : Nat) (s : Experts) (obj : CacheObj Marks) :
    Except (Stop Cacheus.Fault) Experts := do
  let s ← lruEvict c s
  let s ← lfuRemove s obj.objId
  let ghost ← ghostGet c fuel s.lruG obj.toRequest
  return { s with lruG := ghost }

/-- The victim of `CR_LFU` goes; `SR_LRU` removes it first, for the entry in `H_list`. -/
def evictLfu (c : Setup) (fuel : Nat) (s : Experts) (id : Nat) : Except (Stop Cacheus.Fault) Experts := do
  let obj ← orNull (s.lfu.objs id)
  let s ← lruRemove c s id
  let s ← lfuEvict s
  let ghost ← ghostGet c fuel s.lfuG ⟨id, obj.objSize.toNat⟩
  return { s with lfuG := ghost }

def cacheusEvict (c : Setup) (fuel : Nat) (s : Experts) : Except (Stop Cacheus.Fault) Experts := do
  let lruToEvict ← srLruToEvict c.lists s.lru
  let lfuToEvict ← orNull (CrLfu.crLfuToEvict s.lfu)
  let next := { s with lru := { s.lru with nEvict := s.lru.nEvict + 1 } }
  if lruToEvict.objId = lfuToEvict then evictBoth c next
  else if c.drawsLru s.lru.nEvict then evictLru c fuel next lruToEvict
  else evictLfu c fuel next lfuToEvict

/-! ## The policy -/

def cacheus (c : Setup) : Policy Experts Cacheus.Fault where
  cacheSize := c.cacheSize
  tick := id
  find s r := cacheusFind c s r
  canInsert _ s r := .ok (r.objSize ≤ c.cacheSize, s)
  occupiedByte s := srLruOccupied c.lists s.lru
  evict n s _ := cacheusEvict c n s
  insert s r := cacheusInsert c s r

abbrev Requests (c : Setup) : Experts → Experts → Prop := Requested (cacheus c) fun r => r.objSize = 1

theorem ghostGet_mono (c : Setup) (q : Fifo Unit) (r : Request) : FuelMono fun n => ghostGet c n q r := by
  intro n m t enough run
  have mono : FuelMono fun n => lruGet c.ghostSize n q r :=
    cacheGetBase_mono (fun _ => .const _) (fun _ => .const _) q
  dsimp only [ghostGet] at run ⊢
  cases first : lruGet c.ghostSize n q r with
  | error e =>
    rw [first] at run
    cases e <;> cases run
  | ok a =>
    rw [first] at run
    have later : lruGet c.ghostSize m q r = .ok a := mono n m a enough first
    rw [later]
    exact run

theorem cacheusGet_mono (c : Setup) (s : Experts) (r : Request) :
    FuelMono fun n => cacheGetBase (cacheus c) n s r := by
  refine cacheGetBase_mono (fun _ => .const _) (fun s => ?_) s
  have evictsLru : ∀ s obj, FuelMono fun n => evictLru c n s obj := fun _ _ =>
    (FuelMono.const _).bind fun _ => (FuelMono.const _).bind fun _ =>
      (ghostGet_mono c _ _).bind fun _ => .const _
  have evictsLfu : ∀ s id, FuelMono fun n => evictLfu c n s id := fun _ _ =>
    (FuelMono.const _).bind fun _ => (FuelMono.const _).bind fun _ =>
      (FuelMono.const _).bind fun _ => (ghostGet_mono c _ _).bind fun _ => .const _
  exact (FuelMono.const _).bind fun _ => (FuelMono.const _).bind fun _ =>
    FuelMono.ite _ (.const _) (FuelMono.ite _ (evictsLru _ _) (evictsLfu _ _))

end CacheusExperts
