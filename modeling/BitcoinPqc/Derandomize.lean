import BitcoinPqc.Fips202
import BitcoinPqc.Streams
import Mathlib.Logic.Function.Iterate

/-!
# The derandomisers

Before it signs, each scheme derives 64 bytes from the secret key and the message and installs
them as its entropy source. ML-DSA hashes `sk || m`; SLH-DSA folds `sk || m` into 64 bytes by XOR
in a scratch block and passes over them ten times in place. When the scratch block is refused the
seed is 64 zero bytes.

| here | there |
| --- | --- |
| `mlDsaDerandomize` | src/ml_dsa/utils.c:94-110 |
| `slhDsaDerandomize` | src/slh_dsa/utils.c:95-128 |
| `foldBytes`, `mixPass` | the two loops, src/slh_dsa/utils.c:107-116 |
-/
namespace BitcoinPqc
open CSem

/-- The heap operations, on the world. -/
def onHeap {α : Type} (x : Exec (Heap UInt8) α) : Exec World α :=
  x.zoom World.heap fun w h => { w with heap := h }

theorem onHeap_wp {α : Type} {x : Exec (Heap UInt8) α} {w : World} {Q : α → World → Prop}
    (h : wp x w.heap fun a h => Q a { w with heap := h }) : wp (onHeap x) w Q :=
  wp_zoom h

/-- `deterministic_seed[64]` -/
def seedSize : Nat := 64

/-! ## ML-DSA -/

/-- src/ml_dsa/utils.c:94; the key is read for its fixed size. -/
def mlDsaDerandomize (perm : Lanes → Lanes) (m sk : Bytes) : Option Bytes := do
  let key ← readAt sk 0 Dilithium.cryptoSecretkeybytes
  let state ← shake256Absorb perm shake256Init key
  let state ← shake256Absorb perm state m
  (shake256Squeeze perm seedSize (shake256Finalize state)).map (·.1)

/-- The seed is SHAKE256 of key and message. -/
theorem mlDsaDerandomize_eq (perm : Lanes → Lanes) {m sk : Bytes}
    (h : sk.length = Dilithium.cryptoSecretkeybytes) :
    mlDsaDerandomize perm m sk = some (shake256Of perm (sk ++ m) seedSize) := by
  have hread := readAt_all h
  simp only [mlDsaDerandomize, hread, Option.bind_eq_bind, Option.bind_some]
  exact shake256_two_pieces perm sk m seedSize

/-! ## SLH-DSA -/

abbrev SeedBuffer := Vector UInt8 64

theorem SeedBuffer.get_set_self (buffer : SeedBuffer) (j : Fin 64) (x : UInt8) : (buffer.set j x).get j = x :=
  Vector.getElem_set_self ..

theorem SeedBuffer.get_set_ne (buffer : SeedBuffer) {i j : Fin 64} (h : i ≠ j) (x : UInt8) :
    (buffer.set j x).get i = buffer.get i :=
  Vector.getElem_set_ne _ _ (fun e => h (Fin.ext e.symm))

/-- `buffer[i % 64] ^= combined[i]`, for every `i` from the first index on. -/
def foldBytes : Nat → SeedBuffer → Bytes → SeedBuffer
  | _, buffer, [] => buffer
  | i, buffer, b :: bs =>
    let j : Fin 64 := Fin.ofNat 64 i
    foldBytes (i + 1) (buffer.set j (buffer.get j ^^^ b)) bs

/-- One step of the inner loop; indices of `Fin 64` wrap as `% 64` does. -/
def mixStep (buffer : SeedBuffer) (j : Fin 64) : SeedBuffer :=
  buffer.set j (buffer.get (j + 1) ^^^ buffer.get (j + 7) ^^^ buffer.get (j + 13))

/-- What a step writes to cell `j`, as a function of the cells. -/
def mixRule (j : Fin 64) (b : Fin 64 → UInt8) : UInt8 := b (j + 1) ^^^ b (j + 7) ^^^ b (j + 13)

def mixPass (buffer : SeedBuffer) : SeedBuffer := (List.finRange 64).foldl mixStep buffer

/-- src/slh_dsa/utils.c:106-116 -/
def scramble (combined : Bytes) : Bytes :=
  (mixPass^[10] (foldBytes 0 (Vector.replicate 64 0) combined)).toList

/-- src/slh_dsa/utils.c:95 -/
def slhDsaDerandomize (S : Sys) (m sk : Bytes) : Exec World Bytes := do
  let combinedLen := m.length + Spx.skBytes
  match ← onHeap (Heap.malloc S.alloc combinedLen) with
  | some combined =>
    onHeap (Heap.write combined 0 (← Exec.ofOption (readAt sk 0 Spx.skBytes)))
    onHeap (Heap.write combined Spx.skBytes m)
    let seed := scramble (← onHeap (Heap.read combined combinedLen))
    onHeap (Heap.write combined 0 (List.replicate combinedLen 0))
    onHeap (Heap.free (some combined))
    pure seed
  | none => pure (List.replicate seedSize 0)

@[simp] theorem length_scramble (combined : Bytes) : (scramble combined).length = seedSize := by
  simp [scramble, seedSize]

/-- What the derandomiser writes when the allocator answers `served`. -/
def slhSeed (served : Bool) (m sk : Bytes) : Bytes :=
  if served then scramble (sk ++ m) else List.replicate seedSize 0

@[simp] theorem length_slhSeed (served : Bool) (m sk : Bytes) : (slhSeed served m sk).length = seedSize := by
  unfold slhSeed
  split <;> simp

/-- The scratch block is gone afterwards, and nothing else of the world has changed. -/
theorem slhDsaDerandomize_wp (S : Sys) {w : World} {m sk : Bytes} (hsk : sk.length = Spx.skBytes) :
    wp (slhDsaDerandomize S m sk) w fun seed w' =>
      seed = slhSeed (S.alloc.pick w.heap (m.length + Spx.skBytes)).isSome m sk ∧
      ∃ h', h'.block = w.heap.block ∧ w' = { w with heap := h' } := by
  refine wp_bind (onHeap_wp (Heap.malloc_wp ?_ ?_))
  · intro h' hblock hrefused
    refine wp_pure ⟨?_, h', hblock, rfl⟩
    simp [slhSeed, hrefused]
  · intro p bs h₁ hserved hfresh hlen h₁eq
    have hbs : bs.length = Spx.skBytes + m.length := by omega
    have hp₁ : h₁.block p = some bs := by simp [h₁eq]
    refine wp_bind (wp_ofOption (readAt_all hsk) (wp_bind (onHeap_wp (Heap.write_wp hp₁ (by omega) ?_))))
    intro h₂ h₂eq
    have hp₂ : h₂.block p = some (sk ++ bs.drop Spx.skBytes) := by simp [h₂eq, hsk]
    refine wp_bind (onHeap_wp (Heap.write_wp hp₂ (by simp; omega) ?_))
    intro h₃ h₃eq
    have hp₃ : h₃.block p = some (sk ++ m) := by simp [h₃eq, ← hsk, hbs]
    refine wp_bind (onHeap_wp (Heap.read_wp hp₃ (by simp; omega) ?_))
    refine wp_bind (onHeap_wp (Heap.write_all_wp hp₃ (by simp; omega) ?_))
    intro h₄ h₄eq
    have hp₄ : h₄.block p = some (List.replicate (m.length + Spx.skBytes) 0) := by simp [h₄eq]
    refine wp_bind (onHeap_wp (Heap.free_wp hp₄ ?_))
    intro h₅ h₅eq
    have hback : h₅.block = w.heap.block := by
      rw [h₅eq, h₄eq, h₃eq, h₂eq, h₁eq]
      simp only [Function.update_idem]
      rw [← hfresh, Function.update_eq_self]
    refine wp_pure ⟨?_, h₅, hback, rfl⟩
    have hall : (sk ++ m).take (m.length + Spx.skBytes) = sk ++ m := List.take_of_length_le (by simp; omega)
    simp [slhSeed, Heap.pick_isSome_of_malloc hserved, hall]

end BitcoinPqc
