import Mathlib.Logic.Function.Basic
import Mathlib.Data.Int.Basic

/-!
# The counting Bloom filter of libCacheSim

`minimalIncrementCBF.c` with its 32-bit counters. The two `XXH64` values of a key,
cut to 32 bits, are given by the caller as `a` and `b`; the real-valued sizing in
`minimalIncrementCBF_init` fixes `hashes` and `counter_num` and is not modelled.
-/
namespace CountingFilter

structure Cbf where
  hashes : Nat
  counterNum : Nat
  bf : Nat → UInt32

def uintMax : UInt32 := 0xFFFFFFFF

/-- `minimalIncrementCBF_init` after its `calloc`. -/
def init (hashes counterNum : Nat) : Cbf := ⟨hashes, counterNum, fun _ => 0⟩

/-- `x = (a + i * b) % counter_num`, in unsigned 32-bit arithmetic. -/
def index (cbf : Cbf) (a b : UInt32) (i : Nat) : Nat :=
  (a + UInt32.ofNat i * b).toNat % cbf.counterNum

/-- The first loop of `minimalIncrementCBF_check_add`. -/
def minCount (cbf : Cbf) (a b : UInt32) : UInt32 :=
  (List.range cbf.hashes).foldl
    (fun m i => if cbf.bf (index cbf a b i) < m then cbf.bf (index cbf a b i) else m) uintMax

/-- The second loop. Its `if` guards only a debug line: the increment stands
after the braces and is made for every hash. -/
def increment (cbf : Cbf) (a b : UInt32) : Cbf :=
  { cbf with
    bf := (List.range cbf.hashes).foldl
      (fun bf i => Function.update bf (index cbf a b i) (bf (index cbf a b i) + 1)) cbf.bf }

def add (cbf : Cbf) (a b : UInt32) : Cbf :=
  if minCount cbf a b < uintMax then increment cbf a b else cbf

/-- `minimalIncrementCBF_estimate`: the unsigned minimum, returned as an `int`. -/
def estimate (cbf : Cbf) (a b : UInt32) : Int := (minCount cbf a b).toInt32.toInt

def decay (cbf : Cbf) : Cbf :=
  { cbf with bf := fun i => if i < cbf.counterNum then cbf.bf i >>> 1 else cbf.bf i }

end CountingFilter
