import BitcoinPqc.SignVerify

/-!
# The verdict of a verification

`verify` compares the tags and the length of the key, the C entry point both lengths again, and
each scheme wrapper has a check of its own; the first that fails decides the error
(`verify_verdict`). What is left for the vendored verifiers are inputs of exactly their sizes:
two versions of them that agree there give every verdict alike.
-/
namespace BitcoinPqc
open CSem

variable (V : Vendored)

/-- The vendored verifier behind an algorithm; ML-DSA under the empty context. -/
def vendoredVerify (a : AlgorithmT) (pk m sig : Bytes) : Int :=
  if a = bitcoinPqcMlDsa44 then V.dilithiumVerify sig m [0, 0] pk else V.spxVerify sig m pk

/-- On a signature of its size a wrapper returns what the vendored verifier does. -/
theorem verifySwitch_sized {algorithm : Algorithm} {a : AlgorithmT} (h : algorithm.Pqc a) {pk m sig : Bytes}
    (hsig : sig.length = bitcoinPqcSignatureSize a) :
    verifySwitch V a (.buf pk) (.buf m) (.buf sig) = some (vendoredVerify V a pk m sig) := by
  cases h with
  | mlDsa44 =>
    have hlen : ¬(sig.length = 0 ∨ sig.length > Dilithium.cryptoBytes) := by rw [hsig]; decide
    simp only [verifySwitch, vendoredVerify, algorithms_ne, if_true, if_false, CBuf.data, mlDsa44Verify,
      dilithiumVerify, hlen]
    rfl
  | slhDsa128s => rfl

theorem bitcoinPqcVerify_eq {algorithm : Algorithm} {a : AlgorithmT} (h : algorithm.Pqc a) (pk m sig : Bytes) :
    bitcoinPqcVerify V a (.buf pk) (.buf m) (.buf sig) =
      if pk.length ≠ bitcoinPqcPublicKeySize a then .badKey
      else if sig.length ≠ bitcoinPqcSignatureSize a ∨ vendoredVerify V a pk m sig ≠ 0 then .badSignature
      else .ok := by
  rw [bitcoinPqcVerify_buf]
  by_cases hpk : pk.length = bitcoinPqcPublicKeySize a
  · by_cases hsig : sig.length = bitcoinPqcSignatureSize a
    · simp [hpk, hsig, verifySwitch_sized V h hsig]
    · simp [hpk, hsig]
  · simp [hpk]

/-- Two versions of the vendored verifiers that agree on keys and signatures of their sizes. -/
def Vendored.AgreeAtSizes (V' : Vendored) : Prop :=
  (∀ sig m pre pk, sig.length = Dilithium.cryptoBytes → pk.length = Dilithium.cryptoPublickeybytes →
    V.dilithiumVerify sig m pre pk = V'.dilithiumVerify sig m pre pk) ∧
  (∀ sig m pk, sig.length = Spx.bytes → pk.length = Spx.pkBytes → V.spxVerify sig m pk = V'.spxVerify sig m pk)

variable {V}

theorem Vendored.AgreeAtSizes.vendoredVerify {V' : Vendored} (h : V.AgreeAtSizes V') {algorithm : Algorithm}
    {a : AlgorithmT} (ha : algorithm.Pqc a) {pk sig : Bytes} (hpk : pk.length = bitcoinPqcPublicKeySize a)
    (hsig : sig.length = bitcoinPqcSignatureSize a) (m : Bytes) :
    vendoredVerify V a pk m sig = vendoredVerify V' a pk m sig := by
  cases ha with
  | mlDsa44 => exact h.1 _ _ _ _ hsig hpk
  | slhDsa128s => exact h.2 _ _ _ hsig hpk

/-- What a verification should say: the four verdicts in the order in which they are decided. -/
def verdict {ε : Type} (V : Vendored) (a : AlgorithmT) (publicKey : PublicKey) (message : Bytes)
    (signature : Signature) : Except (Stop ε) Unit :=
  if publicKey.algorithm ≠ signature.algorithm then .error (.err .algorithmMismatch)
  else if publicKey.bytes.length ≠ bitcoinPqcPublicKeySize a then .error (.err .badKey)
  else if signature.bytes.length ≠ bitcoinPqcSignatureSize a ∨
    vendoredVerify V a publicKey.bytes message signature.bytes ≠ 0 then .error (.err .badSignature)
  else .ok ()

theorem verify_eq_verdict (C : Secp256k1) (V : Vendored) (publicKey : PublicKey) {a : AlgorithmT}
    (ha : publicKey.algorithm.Pqc a) (message : Bytes) (signature : Signature) :
    verify C V publicKey message signature = verdict V a publicKey message signature := by
  unfold verify publicKeySize verdict
  rw [if_neg ha.ne_secp, ha.sizeOf, ha.toC]
  simp only [bind, Except.bind, bitcoinPqcVerify_eq V ha]
  split
  · rfl
  split
  · rfl
  split <;> rfl

theorem verdict_congr {ε : Type} {V V' : Vendored} (hagree : V.AgreeAtSizes V') {publicKey : PublicKey} {a : AlgorithmT}
    (ha : publicKey.algorithm.Pqc a) (message : Bytes) (signature : Signature) :
    (verdict V a publicKey message signature : Except (Stop ε) Unit) = verdict V' a publicKey message signature := by
  unfold verdict
  by_cases hpk : publicKey.bytes.length = bitcoinPqcPublicKeySize a
  · by_cases hsig : signature.bytes.length = bitcoinPqcSignatureSize a
    · rw [hagree.vendoredVerify ha hpk hsig]
    · simp [hsig]
  · simp [hpk]

/-- **The verdict on a key of either scheme**, for tags and byte vectors of any content. What the
vendored verifiers do with inputs of other sizes has no part in it. -/
theorem verify_verdict (C : Secp256k1) (V : Vendored) (publicKey : PublicKey) {a : AlgorithmT}
    (ha : publicKey.algorithm.Pqc a) (message : Bytes) (signature : Signature) :
    verify C V publicKey message signature = verdict V a publicKey message signature ∧
    ∀ V', V.AgreeAtSizes V' → verify C V publicKey message signature = verify C V' publicKey message signature := by
  refine ⟨verify_eq_verdict C V publicKey ha message signature, ?_⟩
  intro V' hagree
  rw [verify_eq_verdict C V publicKey ha, verify_eq_verdict C V' publicKey ha, verdict_congr hagree ha]

/-- The sample schemes accept whatever has the right sizes. -/
theorem vendoredVerify_sample (pk m : Bytes) {sig : Bytes}
    (hsig : sig.length = bitcoinPqcSignatureSize bitcoinPqcMlDsa44) :
    vendoredVerify .sample bitcoinPqcMlDsa44 pk m sig = 0 := by
  rw [vendoredVerify, if_pos rfl]
  exact if_pos hsig

theorem sample_accepts {pk sig : Bytes} (hpk : pk.length = bitcoinPqcPublicKeySize bitcoinPqcMlDsa44)
    (hsig : sig.length = bitcoinPqcSignatureSize bitcoinPqcMlDsa44) (m : Bytes) :
    SchemeAccepts .sample bitcoinPqcMlDsa44 pk m sig :=
  ⟨hpk, hsig, (verifySwitch_sized .sample .mlDsa44 hsig).trans (congrArg some (vendoredVerify_sample pk m hsig))⟩

/-- The sample schemes with another answer where they are never asked. -/
def Vendored.sampleElsewhere : Vendored :=
  { Vendored.sample with dilithiumVerify := fun sig _ _ _ => if sig.length = Dilithium.cryptoBytes then 0 else 5 }

theorem sample_agreeAtSizes : Vendored.sample.AgreeAtSizes .sampleElsewhere :=
  ⟨fun _ _ _ _ hlen _ => (if_pos hlen).trans (if_pos hlen).symm, fun _ _ _ _ _ => rfl⟩

/-- A key and a signature of the right sizes, which the scheme accepts; the same with a signature of
no bytes; and empty bytes under two tags. Schemes that agree at their sizes give the same verdicts. -/
theorem verify_verdict_sample :
    verify .sample .sample ⟨.mlDsa44, List.replicate 1312 0⟩ [1] ⟨.mlDsa44, List.replicate 2420 0⟩ = .ok () ∧
    verify .sample .sample ⟨.mlDsa44, List.replicate 1312 0⟩ [] ⟨.mlDsa44, []⟩ = .error (.err .badSignature) ∧
    verify .sample .sample ⟨.mlDsa44, []⟩ [] ⟨.slhDsa128s, []⟩ = .error (.err .algorithmMismatch) ∧
    verify .sample .sampleElsewhere ⟨.mlDsa44, List.replicate 1312 0⟩ [1] ⟨.mlDsa44, List.replicate 2420 0⟩ = .ok () := by
  have hgood := verify_verdict .sample .sample ⟨.mlDsa44, List.replicate 1312 0⟩ .mlDsa44 [1]
    ⟨.mlDsa44, List.replicate 2420 0⟩
  have hempty := (verify_verdict .sample .sample ⟨.mlDsa44, List.replicate 1312 0⟩ .mlDsa44 [] ⟨.mlDsa44, []⟩).1
  have hmixed := (verify_verdict .sample .sample ⟨.mlDsa44, []⟩ .mlDsa44 [] ⟨.slhDsa128s, []⟩).1
  have hpk : (List.replicate 1312 (0 : UInt8)).length = bitcoinPqcPublicKeySize bitcoinPqcMlDsa44 :=
    List.length_replicate ..
  have hsig : (List.replicate 2420 (0 : UInt8)).length = bitcoinPqcSignatureSize bitcoinPqcMlDsa44 :=
    List.length_replicate ..
  have hzero := vendoredVerify_sample (List.replicate 1312 0) [1] hsig
  have haccepted : verify .sample .sample ⟨.mlDsa44, List.replicate 1312 0⟩ [1] ⟨.mlDsa44, List.replicate 2420 0⟩ = .ok () := by
    refine hgood.1.trans ?_
    rw [verdict, if_neg (by decide), if_neg (not_not.mpr hpk), if_neg (not_or.mpr ⟨not_not.mpr hsig, not_not.mpr hzero⟩)]
  refine ⟨haccepted, ?_, ?_, (hgood.2 .sampleElsewhere sample_agreeAtSizes).symm.trans haccepted⟩
  · refine hempty.trans ?_
    rw [verdict, if_neg (by decide), if_neg (not_not.mpr hpk), if_pos (.inl (by decide))]
  · exact hmixed.trans (if_pos (by decide))

end BitcoinPqc
