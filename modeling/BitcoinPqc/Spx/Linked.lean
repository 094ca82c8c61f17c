import BitcoinPqc.SignVerify
import BitcoinPqc.Spx.Signature

/-!
# SLH-DSA without assumptions

The library calls the vendored SPHINCS+ through its interface. With the modelled code behind it
(`Vendored.linkSpx`) what was assumed of it holds (`linkSpx_correct`, `linkSpx_exactSizes`), so that
a signature made through the library verifies through the library whatever the other scheme does
(`slh_honest_signatures_verify`).
-/
namespace BitcoinPqc
open CSem Checks Keccak

/-- What a function that returned two arrays left in them. -/
def KeyOut.ofOption (pkSize skSize : Nat) : Option (Bytes × Bytes) → KeyOut pkSize skSize
  | some (pk, sk) => ⟨0, fit _ pk, fit _ sk, length_fit _ _, length_fit _ _⟩
  | none => ⟨-1, fit _ [], fit _ [], length_fit _ _, length_fit _ _⟩

theorem KeyOut.ofOption_some {pkSize skSize : Nat} {pk sk : Bytes} (hpk : pk.length = pkSize) (hsk : sk.length = skSize) :
    KeyOut.ofOption pkSize skSize (some (pk, sk)) = ⟨0, pk, sk, hpk, hsk⟩ := by
  have hpk' := Secp256k1.fit_of_length hpk
  have hsk' := Secp256k1.fit_of_length hsk
  simp only [KeyOut.ofOption, hpk', hsk']

def SigOut.ofOption (cap : Nat) : Option Bytes → SigOut cap
  | some sig => ⟨0, sig.take cap, List.length_take_le _ _⟩
  | none => ⟨-1, [], Nat.zero_le _⟩

theorem SigOut.ofOption_some {cap : Nat} {sig : Bytes} (hlen : sig.length ≤ cap) :
    SigOut.ofOption cap (some sig) = ⟨0, sig, hlen⟩ := by
  have htake := List.take_of_length_le hlen
  simp only [SigOut.ofOption, htake]

/-- What the library calls of SPHINCS+. The buffer for the root is read before it is written, which
does not show. -/
structure SpxCode where
  seedKeypair : (seed old : Bytes) → Option (Bytes × Bytes)
  signature : (m sk optrand : Bytes) → Option Bytes
  verify : (sig m pk : Bytes) → Int

/-- The modelled code over its hash functions. -/
def Spx.code (H : Spx.Hash) : SpxCode := ⟨Spx.cryptoSignSeedKeypair H, Spx.cryptoSignSignature H, Spx.cryptoSignVerify H⟩

structure SpxCode.Correct (T : SpxCode) : Prop where
  returns : ∀ m sk optrand, ∃ sig, T.signature m sk optrand = some sig ∧ sig.length = Spx.bytes
  verifies : ∀ seed, seed.length = Spx.cryptoSeedbytes → ∃ pk sk, (∀ old, T.seedKeypair seed old = some (pk, sk)) ∧
    pk.length = Spx.pkBytes ∧ sk.length = Spx.skBytes ∧
    ∀ m optrand sig, T.signature m sk optrand = some sig → T.verify sig m pk = 0

theorem Spx.code_correct (H : Spx.Hash) : (Spx.code H).Correct where
  returns m sk optrand := ⟨_, Spx.cryptoSignSignature_spec H m sk optrand,
    Spx.length_signed H _ (H.length_genMessageRandom _ _ _) _ _⟩
  verifies seed hseed := by
    have hle := Nat.le_of_eq hseed.symm
    refine ⟨_, _, Spx.cryptoSignSeedKeypair_spec H seed, Spx.length_seedPk H hle, Spx.length_seedSk H hle,
      fun m optrand sig hsig => ?_⟩
    obtain ⟨sig', he, -, hverify⟩ := Spx.signed_verifies H hle m optrand
    obtain rfl := Option.some.inj (hsig.symm.trans he)
    exact hverify

namespace Vendored
variable (T : SpxCode)

/-- The code beside any other scheme. -/
def linkSpx (V : Vendored) : Vendored where
  keccakF1600StatePermute := V.keccakF1600StatePermute
  dilithiumKeypair := V.dilithiumKeypair
  dilithiumSignature := V.dilithiumSignature
  dilithiumVerify := V.dilithiumVerify
  spxSeedKeypair seed := .ofOption _ _ (T.seedKeypair seed [])
  spxSignature m sk optrand := .ofOption _ (T.signature m sk optrand)
  spxVerify := T.verify

variable {T} (hT : T.Correct)
include hT

theorem linkSpx_keypair (V : Vendored) {seed : Bytes} (hseed : seed.length = Spx.cryptoSeedbytes) :
    ∃ pk sk hpk hsk, (V.linkSpx T).spxSeedKeypair seed = ⟨0, pk, sk, hpk, hsk⟩ ∧
      ∀ m optrand sig, T.signature m sk optrand = some sig → T.verify sig m pk = 0 := by
  obtain ⟨pk, sk, he, hpk, hsk, hverify⟩ := hT.verifies seed hseed
  refine ⟨pk, sk, hpk, hsk, ?_, hverify⟩
  rw [← KeyOut.ofOption_some hpk hsk, ← he []]
  rfl

theorem linkSpx_signature (V : Vendored) (m sk optrand : Bytes) :
    ∃ sig, ∃ hlen : sig.length = Spx.bytes, T.signature m sk optrand = some sig ∧
      (V.linkSpx T).spxSignature m sk optrand = ⟨0, sig, Nat.le_of_eq hlen⟩ := by
  obtain ⟨sig, he, hlen⟩ := hT.returns m sk optrand
  refine ⟨sig, hlen, he, ?_⟩
  rw [← SigOut.ofOption_some (Nat.le_of_eq hlen), ← he]
  rfl

/-- **What was assumed of the vendored SPHINCS+ holds of its code.** -/
theorem linkSpx_correct {V : Vendored} (hV : V.Correct) : (V.linkSpx T).Correct where
  dilithium_keypair := hV.dilithium_keypair
  dilithium_sign := hV.dilithium_sign
  dilithium_verify := hV.dilithium_verify
  spx_keypair := by
    intro seed hseed
    obtain ⟨pk, sk, hpk, hsk, he, -⟩ := linkSpx_keypair hT V hseed
    rw [he]
  spx_sign := by
    intro seed optrand m _ _
    obtain ⟨sig, hlen, -, he⟩ := linkSpx_signature hT V m ((V.linkSpx T).spxSeedKeypair seed).sk optrand
    rw [he]
  spx_verify := by
    intro seed optrand m hseed _
    obtain ⟨pk, sk, hpk, hsk, hkeys, hverify⟩ := linkSpx_keypair hT V hseed
    obtain ⟨sig, hlen, hsig, he⟩ := linkSpx_signature hT V m sk optrand
    rw [hkeys]
    dsimp only
    rw [he]
    exact hverify m optrand sig hsig

theorem linkSpx_exactSizes {V : Vendored} (hV : V.ExactSizes) : (V.linkSpx T).ExactSizes where
  dilithium := hV.dilithium
  spx := by
    intro m sk optrand _
    obtain ⟨sig, hlen, -, he⟩ := linkSpx_signature hT V m sk optrand
    rw [he]
    exact hlen

end Vendored

theorem slh_scheme_honest {V : Vendored} {S : Sys} {w₁ w₂ : World} {T : SpxCode} (hT : T.Correct) (hq₁ : w₁.Quiet)
    (hq₂ : w₂.Quiet) {randomData : Bytes} (hlen : 128 ≤ randomData.length) (message : Bytes) :
    SchemeHonest (V.linkSpx T) S w₁ w₂ bitcoinPqcSlhDsaShake128s randomData message :=
  -- the other scheme does not matter
  scheme_honest (V := Vendored.sample.linkSpx T) (Vendored.linkSpx_correct hT Vendored.sample_correct)
    (Vendored.linkSpx_exactSizes hT Vendored.sample_exactSizes) hq₁ hq₂ .slhDsa128s hlen message

/-- **SLH-DSA signatures made through the library verify through the library**, with the vendored
code behind it; nothing is assumed of either scheme. -/
theorem slh_honest_signatures_verify (C : Secp256k1) (V : Vendored) (S : Sys) {w₁ w₂ : World} (hq₁ : w₁.Quiet)
    (hq₂ : w₂.Quiet) (randomData message : Bytes) :
    (∀ kp sig w₁' w₂',
      (generateKeypair C (V.linkSpx (Spx.code Spx.shakeHash)) S .slhDsa128s randomData).run w₁ = some (.ok kp, w₁') →
      (sign C (V.linkSpx (Spx.code Spx.shakeHash)) S kp.secretKey message).run w₂ = some (.ok sig, w₂') →
      verify C (V.linkSpx (Spx.code Spx.shakeHash)) kp.publicKey message sig = .ok ()) ∧
    (128 ≤ randomData.length →
      w₁.heap.Serves S.alloc [bitcoinPqcPublicKeySize bitcoinPqcSlhDsaShake128s,
        bitcoinPqcSecretKeySize bitcoinPqcSlhDsaShake128s] →
      w₂.heap.Serves S.alloc [bitcoinPqcSignatureSize bitcoinPqcSlhDsaShake128s] →
      ∃ kp sig w₁' w₂',
        (generateKeypair C (V.linkSpx (Spx.code Spx.shakeHash)) S .slhDsa128s randomData).run w₁ = some (.ok kp, w₁') ∧
        (sign C (V.linkSpx (Spx.code Spx.shakeHash)) S kp.secretKey message).run w₂ = some (.ok sig, w₂')) := by
  have hT := Spx.code_correct Spx.shakeHash
  generalize Spx.code Spx.shakeHash = T at hT
  constructor
  · intro kp sig w₁' w₂'
    exact honest_of_scheme hq₁ hq₂ .slhDsa128s fun h₁ hlen => slh_scheme_honest hT hq₁ (hq₂.heap h₁) hlen message
  · intro hlen
    exact served_of_scheme hq₁ hq₂ .slhDsa128s hlen fun h₁ => slh_scheme_honest hT hq₁ (hq₂.heap h₁) hlen message

/-- A key made of 128 zero bytes signs a message. -/
theorem slh_honest_signatures_verify_sample :
    ∃ kp sig w₁' w₂',
      (generateKeypair .sample (Vendored.sample.linkSpx (Spx.code Spx.shakeHash)) (.sample .dilithium 0) .slhDsa128s
        (List.replicate 128 0)).run .init = some (.ok kp, w₁') ∧
      (sign .sample (Vendored.sample.linkSpx (Spx.code Spx.shakeHash)) (.sample .dilithium 0) kp.secretKey [1, 2, 3]).run .init =
        some (.ok sig, w₂') ∧
      verify .sample (Vendored.sample.linkSpx (Spx.code Spx.shakeHash)) kp.publicKey [1, 2, 3] sig = .ok () := by
  have hmain := slh_honest_signatures_verify .sample .sample (.sample .dilithium 0) World.quiet_init World.quiet_init
    (List.replicate 128 0) [1, 2, 3]
  obtain ⟨kp, sig, w₁', w₂', hkeys, hsign⟩ := hmain.2 (Nat.le_of_eq (List.length_replicate ..).symm)
    (Heap.bump_serves _ _ _) (Heap.bump_serves _ _ _)
  exact ⟨kp, sig, w₁', w₂', hkeys, hsign, hmain.1 kp sig w₁' w₂' hkeys hsign⟩

end BitcoinPqc
