import BitcoinPqc.Params
import BitcoinPqc.Lib.Heap
import BitcoinPqc.Lib.Cyclic

/-!
# The two entropy sources

`src/ml_dsa/utils.c` and `src/slh_dsa/utils.c` each keep a static pointer, size and offset, and
serve random bytes from the buffer they point to; without one they read `/dev/urandom`. Both
files of `CUSTOM_RANDOMBYTES` define the one global symbol `randombytes`; which of them the
linker takes is `Sys.link`.

| here | there |
| --- | --- |
| `World.ml`, `World.slh` | `g_random_data`, `g_random_data_size`, `g_random_data_offset` (ml_dsa/utils.c:16-18, slh_dsa/utils.c:20-22) |
| `mlDsaInitRandomSource`, … | ml_dsa/utils.c:21-38, slh_dsa/utils.c:25-50 |
| `customRandombytesImpl` | ml_dsa/utils.c:41-91 |
| `customSlhRandombytesImpl` | slh_dsa/utils.c:52-92 |
| `randombytes` | dilithium/ref/randombytes_custom.c:10, sphincsplus/ref/randombytes_custom.c:10 |

`World.call` and `World.draws` are ghost: they number the API calls and record every draw that a
seeded source served. No function of the code reads them.
-/
namespace BitcoinPqc
open CSem

/-- Which of the two definitions of `randombytes` the link step binds. -/
inductive Link where
  | dilithium | sphincsplus
  deriving DecidableEq

/-- What a run cannot choose: the link, the allocator, and the random device. The `k`-th
`fopen("/dev/urandom")` fails (`none`), or its stream holds the bytes `urandom k`. -/
structure Sys where
  link : Link
  alloc : Allocator UInt8
  urandom : Nat → Option Bytes

/-- A system to run the model on: an allocator that never refuses, a device that always delivers
`byte`. -/
def Sys.sample (link : Link) (byte : UInt8) : Sys :=
  ⟨link, .bump 0, fun _ => some (List.replicate 64 byte)⟩

/-- A `const uint8_t *` argument with its size: null with any size, or a buffer of that size. -/
inductive CBuf where
  | null (size : Nat)
  | buf (bytes : Bytes)
  deriving DecidableEq

namespace CBuf

def size : CBuf → Nat
  | .null n => n
  | .buf bs => bs.length

def data : CBuf → Option Bytes
  | .null _ => none
  | .buf bs => some bs

end CBuf

/-- A buffer a source points to, tagged with the call that installed it (ghost). -/
structure Installed where
  bytes : Bytes
  call : Nat
  deriving DecidableEq

structure Source where
  data : Option Installed
  size : Nat
  offset : Nat
  deriving DecidableEq

/-- Ghost record of one draw served by a seeded source. -/
structure Draw where
  call : Nat
  src : Installed
  out : Bytes
  deriving DecidableEq

structure World where
  ml : Source
  slh : Source
  heap : Heap UInt8
  /-- Times `/dev/urandom` was opened. -/
  opens : Nat
  call : Nat
  draws : List Draw

namespace Source

def cleared : Source := ⟨none, 0, 0⟩

def install (b : CBuf) (call : Nat) : Source := ⟨b.data.map (⟨·, call⟩), b.size, 0⟩

/-- `!(g_random_data == NULL || g_random_data_size == 0)` -/
def seed? (s : Source) : Option Installed := if s.size = 0 then none else s.data

end Source

def World.init : World := ⟨.cleared, .cleared, .empty, 0, 0, []⟩

/-! ## Installing and clearing -/

/-- ml_dsa/utils.c:21 -/
def mlDsaInitRandomSource (b : CBuf) : Exec World Unit := modify fun w => { w with ml := .install b w.call }

/-- ml_dsa/utils.c:28: the body is empty. -/
def mlDsaSetupCustomRandom : Exec World Unit := pure ()

/-- ml_dsa/utils.c:33 -/
def mlDsaRestoreOriginalRandom : Exec World Unit := modify fun w => { w with ml := .cleared }

/-- slh_dsa/utils.c:25 -/
def slhDsaInitRandomSource (b : CBuf) : Exec World Unit := modify fun w => { w with slh := .install b w.call }

/-- slh_dsa/utils.c:39: the body is empty. -/
def slhDsaSetupCustomRandom : Exec World Unit := pure ()

/-- slh_dsa/utils.c:44 -/
def slhDsaRestoreOriginalRandom : Exec World Unit := modify fun w => { w with slh := .cleared }

/-! ## Serving bytes -/

/-- An output pointer: null, or an array of the requested length. -/
inductive OutPtr where
  | null | buf
  deriving DecidableEq

/-- `fopen("/dev/urandom")` and one `fread` of `outlen` bytes; `none` when it cannot be opened. -/
def fopenFread (S : Sys) (outlen : Nat) : Exec World (Option Bytes) := fun w =>
  some ((S.urandom w.opens).map (·.take outlen), { w with opens := w.opens + 1 })

/-- The loop of `custom_randombytes_impl` (ml_dsa/utils.c:72-90); out of fuel it has not returned. -/
def copyLoop (data : Bytes) (size outlen : Nat) : Nat → Nat → Nat → Bytes → Option (Bytes × Nat)
  | 0, _, _, _ => none
  | fuel + 1, totalCopied, offset, out =>
    if totalCopied < outlen then
      let amount := outlen - totalCopied
      let amount := if amount > size - offset then size - offset else amount
      (readAt data offset amount).bind fun chunk =>
        let totalCopied := totalCopied + amount
        let offset := offset + amount
        let offset := if offset ≥ size then 0 else offset
        copyLoop data size outlen fuel totalCopied offset (out ++ chunk)
    else some (out, offset)

/-- The cycling loop of `custom_slh_randombytes_impl` (slh_dsa/utils.c:79-86). -/
def cycleLoop (data : Bytes) (size outlen : Nat) : Nat → Nat → Nat → Nat → Bytes → Option (Bytes × Nat)
  | 0, _, _, _, _ => none
  | fuel + 1, position, offset, remaining, out =>
    if position < outlen then
      let toCopy := if outlen - position < remaining then outlen - position else remaining
      (readAt data offset toCopy).bind fun chunk =>
        let position := position + toCopy
        let offset := (offset + toCopy) % size
        let remaining := size - offset
        cycleLoop data size outlen fuel position offset remaining (out ++ chunk)
    else some (out, offset)

/-- ml_dsa/utils.c:41. A short read keeps the bytes that came and zeroes the rest. -/
def customRandombytesImpl (S : Sys) (out : OutPtr) (outlen : Nat) : Exec World Bytes := fun w =>
  if out = .null ∨ outlen = 0 then some ([], w)
  else match w.ml.seed? with
    | none =>
      (fopenFread S outlen w).map fun r =>
        match r.1 with
        | none => (List.replicate outlen 0, r.2)
        | some got =>
          (if got.length < outlen then got ++ List.replicate (outlen - got.length) 0 else got, r.2)
    | some src =>
      (copyLoop src.bytes w.ml.size outlen (outlen + 2) 0 w.ml.offset []).map fun r =>
        (r.1, { w with
          ml := { w.ml with offset := r.2 }
          draws := w.draws ++ [⟨w.call, src, r.1⟩] })

/-- slh_dsa/utils.c:52. There is no test for a null output, and a short read zeroes the whole
buffer. -/
def customSlhRandombytesImpl (S : Sys) (out : OutPtr) (outlen : Nat) : Exec World Bytes := fun w =>
  if out = .null ∧ outlen ≠ 0 then none
  else match w.slh.seed? with
    | none =>
      (fopenFread S outlen w).map fun r =>
        match r.1 with
        | none => (List.replicate outlen 0, r.2)
        | some got => (if got.length ≠ outlen then List.replicate outlen 0 else got, r.2)
    | some src =>
      let remaining := w.slh.size - w.slh.offset
      (if outlen > remaining then
        cycleLoop src.bytes w.slh.size outlen (outlen + 2) 0 w.slh.offset remaining []
      else
        (readAt src.bytes w.slh.offset outlen).map fun chunk =>
          (chunk, (w.slh.offset + outlen) % w.slh.size)).map fun r =>
        (r.1, { w with
          slh := { w.slh with offset := r.2 }
          draws := w.draws ++ [⟨w.call, src, r.1⟩] })

/-- The one global `randombytes`. Its callers pass arrays, never null. -/
def randombytes (S : Sys) (outlen : Nat) : Exec World Bytes :=
  match S.link with
  | .dilithium => customRandombytesImpl S .buf outlen
  | .sphincsplus => customSlhRandombytesImpl S .buf outlen

end BitcoinPqc
