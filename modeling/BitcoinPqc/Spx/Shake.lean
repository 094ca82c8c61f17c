import BitcoinPqc.Keccak.Shake
import BitcoinPqc.Spx.Scheme

/-!
# The hash functions of sphincs-shake-128s-simple

The functions the build links for `Hash`, over the vendored SHAKE256: each returns, and what it
returns is SHAKE256 of its inputs one after another (`thash_eq`, `prfAddr_eq`,
`genMessageRandom_eq`, `digest_eq`).

| here | there |
| --- | --- |
| `thash` | sphincsplus/ref/thash_shake_simple.c:14 |
| `prfAddr`, `genMessageRandom`, `digest` | sphincsplus/ref/hash_shake.c:22, :38, :57 |
-/
namespace BitcoinPqc.Spx
open CSem Keccak

def shake256IncAbsorb := spxKeccakIncAbsorb keccakF1600StatePermute shake256Rate
def shake256IncFinalize (st : IncState) : IncState := spxKeccakIncFinalize shake256Rate st 0x1F
def shake256IncSqueeze := spxKeccakIncSqueeze keccakF1600StatePermute shake256Rate

/-- `buf` holds the public seed, the address and the input. -/
def thash (pubSeed inp : Bytes) (addr : Addr) : Option Bytes :=
  spxShake256 keccakF1600StatePermute n (pubSeed ++ addr.toList ++ inp)

def prfAddr (ctx : Ctx) (addr : Addr) : Option Bytes :=
  spxShake256 keccakF1600StatePermute n (ctx.pubSeed ++ addr.toList ++ ctx.skSeed)

def genMessageRandom (skPrf optrand m : Bytes) : Option Bytes := do
  let sInc ← shake256IncAbsorb spxKeccakIncInit skPrf
  let sInc ← shake256IncAbsorb sInc optrand
  let sInc ← shake256IncAbsorb sInc m
  let (r, _) ← shake256IncSqueeze n (shake256IncFinalize sInc)
  some r

/-- The bytes `hash_message` splits. -/
def digest (r pk m : Bytes) : Option Bytes := do
  let sInc ← shake256IncAbsorb spxKeccakIncInit r
  let sInc ← shake256IncAbsorb sInc pk
  let sInc ← shake256IncAbsorb sInc m
  let (buf, _) ← shake256IncSqueeze dgstBytes (shake256IncFinalize sInc)
  some buf

/-- SHAKE256 of the vendored code. -/
abbrev shake256 (inp : Bytes) (outlen : Nat) : Bytes := shake256Of keccakF1600StatePermute inp outlen

/-- The linked functions. -/
def shakeHash : Hash where
  thash pubSeed inp addr := shake256 (pubSeed ++ addr.toList ++ inp) n
  prfAddr ctx addr := shake256 (ctx.pubSeed ++ addr.toList ++ ctx.skSeed) n
  genMessageRandom skPrf optrand m := shake256 (skPrf ++ optrand ++ m) n
  digest r pk m := shake256 (r ++ pk ++ m) dgstBytes
  length_thash _ _ _ := length_shake256Of ..
  length_prfAddr _ _ := length_shake256Of ..
  length_genMessageRandom _ _ _ := length_shake256Of ..
  length_digest _ _ _ := length_shake256Of ..

theorem thash_eq (pubSeed inp : Bytes) (addr : Addr) : thash pubSeed inp addr = some (shakeHash.thash pubSeed inp addr) :=
  spxShake256_eq ..

theorem prfAddr_eq (ctx : Ctx) (addr : Addr) : prfAddr ctx addr = some (shakeHash.prfAddr ctx addr) :=
  spxShake256_eq ..

/-- Three pieces absorbed and one read. -/
theorem three_pieces (a b c : Bytes) (outlen : Nat) :
    ((shake256IncAbsorb spxKeccakIncInit a).bind fun st => (shake256IncAbsorb st b).bind fun st =>
      (shake256IncAbsorb st c).bind fun st => (shake256IncSqueeze outlen (shake256IncFinalize st)).bind fun (out, _) =>
        some out) = some (shake256 (a ++ b ++ c) outlen) := by
  have hrun := spxRun_eq keccakF1600StatePermute (show 0 < shake256Rate by decide) (by decide) [a, b, c] [outlen]
  have hall : (shake256 (a ++ b ++ c) outlen).take outlen = shake256 (a ++ b ++ c) outlen :=
    List.take_of_length_le (by rw [length_shake256Of])
  have hcat : [a, b, c].flatten = a ++ b ++ c := by simp
  rw [hcat, List.sum_singleton, shakeOf_shake256Rate, cut, hall, cut, spxRun] at hrun
  simp only [List.foldlM_cons, List.foldlM_nil, readAll, Option.bind_eq_bind, Option.pure_def, Option.bind_eq_some_iff,
    Option.bind_some] at hrun
  obtain ⟨st, ⟨st₁, h₁, st₂, h₂, st₃, h₃, hst⟩, ⟨out, st₄⟩, h₄, hout⟩ := hrun
  cases hst
  rw [shake256IncAbsorb, h₁, Option.bind_some, h₂, Option.bind_some, h₃, Option.bind_some, shake256IncSqueeze,
    shake256IncFinalize, h₄, Option.bind_some]
  exact congrArg some (List.cons.inj (Option.some.inj hout)).1

theorem genMessageRandom_eq (skPrf optrand m : Bytes) :
    genMessageRandom skPrf optrand m = some (shakeHash.genMessageRandom skPrf optrand m) := three_pieces skPrf optrand m n

theorem digest_eq (r pk m : Bytes) : digest r pk m = some (shakeHash.digest r pk m) := three_pieces r pk m dgstBytes

end BitcoinPqc.Spx
