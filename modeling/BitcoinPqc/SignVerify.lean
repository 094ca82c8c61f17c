import BitcoinPqc.RustProofs

/-!
# Honest signatures

A signature made with a generated key verifies, for every algorithm, entropy and message
(`honest_signatures_verify`): what the parties draw, which enum value the tag becomes, the two size
tables and the second length check all agree. For secp256k1 both sides look at the first 32 bytes
of the message only, so that is all a signature binds (`secp256k1_binds_first_bytes`).

| here | there |
| --- | --- |
| `Vendored.Correct`, `Vendored.ExactSizes` | assumed of `crypto_sign_*` of both vendored schemes |
| `Secp256k1.RoundTrips`, `Secp256k1.Correct`, `Secp256k1.Binds` | assumed of the secp256k1 crate |
-/
namespace BitcoinPqc
open CSem Checks

/-! ## What is assumed of the schemes -/

/-- Each key-generation, signing and verification triple is correct for all randomness it draws
and all messages; the ML-DSA one for all context prefixes. -/
structure Vendored.Correct (V : Vendored) : Prop where
  dilithium_keypair : ∀ seed, seed.length = Dilithium.seedbytes → (V.dilithiumKeypair seed).result = 0
  dilithium_sign : ∀ seed rnd m pre, seed.length = Dilithium.seedbytes → rnd.length = Dilithium.rndbytes →
    (V.dilithiumSignature m pre rnd (V.dilithiumKeypair seed).sk).result = 0
  dilithium_verify : ∀ seed rnd m pre, seed.length = Dilithium.seedbytes → rnd.length = Dilithium.rndbytes →
    V.dilithiumVerify (V.dilithiumSignature m pre rnd (V.dilithiumKeypair seed).sk).sig m pre
      (V.dilithiumKeypair seed).pk = 0
  spx_keypair : ∀ seed, seed.length = Spx.cryptoSeedbytes → (V.spxSeedKeypair seed).result = 0
  spx_sign : ∀ seed optrand m, seed.length = Spx.cryptoSeedbytes → optrand.length = Spx.n →
    (V.spxSignature m (V.spxSeedKeypair seed).sk optrand).result = 0
  spx_verify : ∀ seed optrand m, seed.length = Spx.cryptoSeedbytes → optrand.length = Spx.n →
    V.spxVerify (V.spxSignature m (V.spxSeedKeypair seed).sk optrand).sig m (V.spxSeedKeypair seed).pk = 0

/-- A signer that succeeds writes `CRYPTO_BYTES`, respectively `SPX_BYTES`. -/
structure Vendored.ExactSizes (V : Vendored) : Prop where
  dilithium : ∀ m pre rnd sk, (V.dilithiumSignature m pre rnd sk).result = 0 →
    (V.dilithiumSignature m pre rnd sk).sig.length = Dilithium.cryptoBytes
  spx : ∀ m sk optrand, (V.spxSignature m sk optrand).result = 0 →
    (V.spxSignature m sk optrand).sig.length = Spx.bytes

namespace Secp256k1

/-- The parsers read back what the serialisers wrote. -/
structure RoundTrips (C : Secp256k1) : Prop where
  secretKey : ∀ sk, C.secretKeyFromSlice (C.secretKeyAsRef sk).toList = .ok sk
  xOnly : ∀ pk, C.xOnlyFromSlice (C.xOnlySerialize pk).toList = .ok pk
  signature : ∀ sig, C.signatureFromSlice (C.signatureAsRef sig).toList = .ok sig

/-- A signature on 32 bytes verifies on them. -/
def Correct (C : Secp256k1) : Prop := ∀ sk m, m.length = 32 →
  C.verifySchnorr (C.signSchnorrNoAuxRand m (C.keypairFromSecretKey sk)) m
    (C.xOnlyFromKeypair (C.keypairFromSecretKey sk)) = .ok ()

/-- A signature on 32 bytes verifies on no other 32 bytes under its key. -/
def Binds (C : Secp256k1) : Prop := ∀ sk m m', m.length = 32 → m'.length = 32 →
  C.verifySchnorr (C.signSchnorrNoAuxRand m (C.keypairFromSecretKey sk)) m'
    (C.xOnlyFromKeypair (C.keypairFromSecretKey sk)) = .ok () → m = m'

end Secp256k1

/-! ## A crate and schemes that satisfy it -/

namespace Secp256k1

/-- The `from_slice` of an array. -/
def arrayFromSlice (n : Nat) (bs : Bytes) : Except Unit (Vector UInt8 n) :=
  if h : bs.length = n then .ok ⟨bs.toArray, h⟩ else .error ()

theorem arrayFromSlice_toList {n : Nat} (v : Vector UInt8 n) : arrayFromSlice n v.toList = .ok v := by
  rw [arrayFromSlice, dif_pos v.length_toList]
  rfl

/-- Secret keys are not all zero. -/
abbrev SampleKey := { v : Vector UInt8 32 // v ≠ Vector.replicate 32 0 }

def sampleSign (m : Bytes) (key : SampleKey) : Vector UInt8 64 := ⟨(fit 32 m ++ key.1.toList).toArray, by simp⟩

def sampleVerify (sig : Vector UInt8 64) (m : Bytes) (pk : Vector UInt8 32) : Except Unit Unit :=
  if sig.toList = m ++ pk.toList then .ok () else .error ()

/-- A crate to run the model with: a signature is the message it was made on with the key it was
made under. -/
def sample : Secp256k1 where
  Error := Unit
  SecretKey := SampleKey
  Keypair := SampleKey
  XOnlyPublicKey := Vector UInt8 32
  Signature := Vector UInt8 64
  secretKeyFromSlice bs := do
    let v ← arrayFromSlice 32 bs
    if h : v ≠ Vector.replicate 32 0 then .ok ⟨v, h⟩ else .error ()
  secretKeyAsRef sk := sk.1
  keypairFromSecretKey sk := sk
  xOnlyFromKeypair keypair := keypair.1
  xOnlyFromSlice := arrayFromSlice 32
  xOnlySerialize pk := pk
  signatureFromSlice := arrayFromSlice 64
  signatureAsRef sig := sig
  signSchnorrNoAuxRand := sampleSign
  verifySchnorr := sampleVerify

theorem sample_roundTrips : sample.RoundTrips where
  secretKey sk := by
    show (arrayFromSlice 32 sk.1.toList >>= _) = _
    rw [arrayFromSlice_toList]
    exact dif_pos sk.2
  xOnly := arrayFromSlice_toList
  signature := arrayFromSlice_toList

theorem fit_of_length {n : Nat} {bs : Bytes} (h : bs.length = n) : fit n bs = bs := by
  have htake := take_fit (Nat.le_refl n) (Nat.le_of_eq h.symm)
  rwa [List.take_of_length_le (Nat.le_of_eq (length_fit n bs)), List.take_of_length_le (Nat.le_of_eq h)] at htake

theorem sampleVerify_iff (key : SampleKey) {m m' : Bytes} (hm : m.length = 32) :
    sampleVerify (sampleSign m key) m' key.1 = .ok () ↔ m = m' := by
  have hsig : (sampleSign m key).toList = m ++ key.1.toList := by
    show (fit 32 m ++ key.1.toList).toArray.toList = _
    rw [fit_of_length hm]
  rw [sampleVerify, hsig, accept_ok_iff]
  exact ⟨fun h => List.append_cancel_right h.1, fun h => ⟨congrArg (· ++ key.1.toList) h, rfl⟩⟩

theorem sample_correct : sample.Correct := fun key _ hm => (sampleVerify_iff key hm).mpr rfl

theorem sample_binds : sample.Binds := fun key _ _ hm _ h => (sampleVerify_iff key hm).mp h

end Secp256k1

namespace Vendored

theorem sample_correct : sample.Correct where
  dilithium_keypair _ _ := rfl
  dilithium_sign _ _ _ _ _ _ := rfl
  dilithium_verify _ _ _ _ _ _ := if_pos (length_fit _ _)
  spx_keypair _ _ := rfl
  spx_sign _ _ _ _ _ := rfl
  spx_verify _ _ _ _ _ := if_pos (length_fit _ _)

theorem sample_exactSizes : sample.ExactSizes where
  dilithium _ _ _ _ _ := length_fit _ _
  spx _ _ _ _ := length_fit _ _

end Vendored

/-! ## The secp256k1 branches -/

section
variable (C : Secp256k1)

/-- The key pair `generate_keypair` builds around a secret key of the crate. -/
def secpKeys (sk : C.SecretKey) : KeyPair :=
  ⟨⟨.secp256k1Schnorr, (C.xOnlySerialize (C.xOnlyFromKeypair (C.keypairFromSecretKey sk))).toList⟩,
    ⟨.secp256k1Schnorr, (C.secretKeyAsRef sk).toList⟩⟩

/-- The signature `sign` builds on the first 32 bytes of a message. -/
def secpSig (sk : C.SecretKey) (message : Bytes) : C.Signature :=
  C.signSchnorrNoAuxRand (message.take 32) (C.keypairFromSecretKey sk)

theorem secp256k1View_secp {α : Type} (parse : Bytes → Except C.Error α) (bad : PqcError C.Error) (bytes : Bytes) :
    secp256k1View C parse bad .secp256k1Schnorr bytes = mapErr bad (parse bytes) := if_pos rfl

theorem generateKeypairSecp_ok_iff {randomData : Bytes} {kp : KeyPair} :
    generateKeypairSecp C randomData = .ok kp ↔
      32 ≤ randomData.length ∧ ∃ sk, C.secretKeyFromSlice (randomData.take 32) = .ok sk ∧ kp = secpKeys C sk := by
  simp only [generateKeypairSecp, secretKeySize, sizeOf, if_true, bind_ok_iff, reject_ok_iff, mapErr, renamed_ok_iff,
    pure_ok_iff, Except.ok.injEq, exists_eq_left', Nat.not_lt]
  exact and_congr_right fun _ => exists_congr fun _ => and_congr_right fun _ => eq_comm

variable {C} (hround : C.RoundTrips)
include hround

theorem signSecp_ok_iff {sk : C.SecretKey} {message : Bytes} {sig : Signature} :
    signSecp C (secpKeys C sk).secretKey message = .ok sig ↔
      32 ≤ message.length ∧ sig = ⟨.secp256k1Schnorr, (C.signatureAsRef (secpSig C sk message)).toList⟩ := by
  simp only [signSecp, SecretKey.secp256k1Key, secpKeys, secp256k1View_secp, hround.secretKey, bind_ok_iff,
    reject_ok_iff, mapErr, renamed_ok_iff, pure_ok_iff, Except.ok.injEq, exists_eq_left', Nat.not_lt]
  exact and_congr_right fun _ => eq_comm

/-- Verification looks at the first 32 bytes of a message that has them. -/
theorem verifySecp_ok_iff {sk : C.SecretKey} {message : Bytes} {sig : C.Signature} :
    verifySecp C (secpKeys C sk).publicKey message ⟨.secp256k1Schnorr, (C.signatureAsRef sig).toList⟩ = .ok () ↔
      32 ≤ message.length ∧
      C.verifySchnorr sig (message.take 32) (C.xOnlyFromKeypair (C.keypairFromSecretKey sk)) = .ok () := by
  simp only [verifySecp, PublicKey.secp256k1Key, Signature.secp256k1Signature, secpKeys, secp256k1View_secp,
    hround.xOnly, hround.signature, bind_ok_iff, reject_ok_iff, mapErr, renamed_ok_iff, Except.ok.injEq,
    exists_eq_left', Nat.not_lt]

end

/-- The secp256k1 branches leave the world alone. -/
theorem run_ofExcept {ε α : Type} {r : Except ε α} {w w' : World} {a : α} :
    (Exec.ofExcept r : ExceptT ε (Exec World) α).run w = some (.ok a, w') ↔ r = .ok a ∧ w' = w := by
  constructor
  · intro h
    have hr := Option.some.inj h
    exact ⟨congrArg Prod.fst hr, (congrArg Prod.snd hr).symm⟩
  · rintro ⟨rfl, rfl⟩
    rfl

section
variable {C : Secp256k1} {V : Vendored} {S : Sys} {w w' : World}

theorem generateKeypair_secp_iff {randomData : Bytes} {kp : KeyPair} :
    (generateKeypair C V S .secp256k1Schnorr randomData).run w = some (.ok kp, w') ↔
      (32 ≤ randomData.length ∧ ∃ sk, C.secretKeyFromSlice (randomData.take 32) = .ok sk ∧ kp = secpKeys C sk) ∧
      w' = w := by
  rw [generateKeypair, if_pos rfl, run_ofExcept, generateKeypairSecp_ok_iff]

variable (hround : C.RoundTrips)
include hround

theorem sign_secp_iff (sk : C.SecretKey) {message : Bytes} {sig : Signature} :
    (sign C V S (secpKeys C sk).secretKey message).run w = some (.ok sig, w') ↔
      (32 ≤ message.length ∧ sig = ⟨.secp256k1Schnorr, (C.signatureAsRef (secpSig C sk message)).toList⟩) ∧
      w' = w := by
  have htag : (secpKeys C sk).secretKey.algorithm = .secp256k1Schnorr := rfl
  rw [sign, if_pos htag, run_ofExcept, signSecp_ok_iff hround]

theorem verify_secp_iff (sk : C.SecretKey) {message : Bytes} {sig : C.Signature} :
    verify C V (secpKeys C sk).publicKey message ⟨.secp256k1Schnorr, (C.signatureAsRef sig).toList⟩ = .ok () ↔
      32 ≤ message.length ∧
      C.verifySchnorr sig (message.take 32) (C.xOnlyFromKeypair (C.keypairFromSecretKey sk)) = .ok () := by
  have htag : (secpKeys C sk).publicKey.algorithm = .secp256k1Schnorr := rfl
  rw [verify, if_neg (by rw [htag]; simp), if_pos htag, verifySecp_ok_iff hround]

end

/-! ## The two schemes of the C library -/

section
variable {V : Vendored} {S : Sys} {w : World} (hq : w.Quiet)
include hq

theorem keygenScheme_ml_draws {randomData : Bytes} (hlen : 128 ≤ randomData.length) :
    ∃ seed, seed.length = Dilithium.seedbytes ∧ keygenScheme V S w bitcoinPqcMlDsa44 randomData =
      some ((V.dilithiumKeypair seed).result, (V.dilithiumKeypair seed).pk, (V.dilithiumKeypair seed).sk) :=
  ⟨_, S.length_drawn (w := { w with ml := .install (.buf randomData) w.call })
    (.install (by omega) _) hq.slh_valid _, rfl⟩

theorem signScheme_ml_draws (m sk : Bytes) :
    ∃ rnd, rnd.length = Dilithium.rndbytes ∧ signScheme V S w bitcoinPqcMlDsa44 m sk =
      some (mlSigResult (V.dilithiumSignature m (contextPrefix []) rnd sk),
        (V.dilithiumSignature m (contextPrefix []) rnd sk).sig) :=
  ⟨_, S.length_drawn (w := { w with ml := .install (.buf (mlSeed V m sk)) w.call })
    (.install (by simp [mlSeed, seedSize]) _) hq.slh_valid _, rfl⟩

theorem signScheme_slh_draws (m sk : Bytes) :
    ∃ optrand, optrand.length = Spx.n ∧ signScheme V S w bitcoinPqcSlhDsaShake128s m sk =
      some ((V.spxSignature m sk optrand).result, (V.spxSignature m sk optrand).sig) :=
  ⟨_, S.length_drawn (w := { w with slh := .install (.buf (slhSeedIn S w m sk)) w.call }) hq.ml_valid
    (.install (by simp [slhSeedIn, seedSize]) _) _, rfl⟩

end

theorem mlSigResult_eq_zero {out : SigOut tempSigSize} :
    mlSigResult out = 0 ↔ out.result = 0 ∧ 0 < out.sig.length ∧ out.sig.length ≤ Dilithium.cryptoBytes := by
  unfold mlSigResult
  split
  · rename_i h
    exact ⟨nofun, fun h' => absurd h'.2 h.2⟩
  · rename_i h
    exact ⟨fun h0 => ⟨h0, by by_contra hlen; exact h ⟨h0, hlen⟩⟩, fun h' => h'.1⟩

/-- The scheme of a run: what the library calls makes keys that sign, and accepts. -/
def SchemeHonest (V : Vendored) (S : Sys) (w₁ w₂ : World) (a : AlgorithmT) (randomData message : Bytes) : Prop :=
  ∃ x y s, keygenScheme V S w₁ a randomData = some (0, x, y) ∧ y.length = bitcoinPqcSecretKeySize a ∧
    signScheme V S w₂ a message y = some (0, s) ∧ SchemeAccepts V a x message s

/-- The correct schemes, run as the wrappers run them. -/
theorem scheme_honest {V : Vendored} (hV : V.Correct) (hsizes : V.ExactSizes) {S : Sys} {w₁ w₂ : World}
    (hq₁ : w₁.Quiet) (hq₂ : w₂.Quiet) {algorithm : Algorithm} {a : AlgorithmT} (halg : algorithm.Pqc a)
    {randomData : Bytes} (hlen : 128 ≤ randomData.length) (message : Bytes) :
    SchemeHonest V S w₁ w₂ a randomData message := by
  cases halg with
  | mlDsa44 =>
    obtain ⟨seed, hseed, hkeys⟩ := keygenScheme_ml_draws (V := V) (S := S) hq₁ hlen
    obtain ⟨rnd, hrnd, hsig⟩ := signScheme_ml_draws (V := V) (S := S) hq₂ message (V.dilithiumKeypair seed).sk
    have hresult := hV.dilithium_sign seed rnd message (contextPrefix []) hseed hrnd
    have hsize := hsizes.dilithium message (contextPrefix []) rnd _ hresult
    have hzero : mlSigResult (V.dilithiumSignature message (contextPrefix []) rnd (V.dilithiumKeypair seed).sk) = 0 :=
      mlSigResult_eq_zero.mpr ⟨hresult, by rw [hsize]; decide, Nat.le_of_eq hsize⟩
    rw [hV.dilithium_keypair seed hseed] at hkeys
    rw [hzero] at hsig
    refine ⟨_, _, _, hkeys, (V.dilithiumKeypair seed).sk_length, hsig, (V.dilithiumKeypair seed).pk_length, hsize, ?_⟩
    have hverify := hV.dilithium_verify seed rnd message (contextPrefix []) hseed hrnd
    simp only [verifySwitch, algorithms_ne, if_true, if_false, mlDsa44Verify, CBuf.data]
    rw [if_neg (by rw [hsize]; decide), dilithiumVerify, if_neg (by decide), hverify]
  | slhDsa128s =>
    have hseed : (randomData.take Spx.cryptoSeedbytes).length = Spx.cryptoSeedbytes := by
      rw [List.length_take]
      exact Nat.min_eq_left (Nat.le_trans (by decide) hlen)
    generalize hs : randomData.take Spx.cryptoSeedbytes = seed at hseed
    have hkeys : keygenScheme V S w₁ bitcoinPqcSlhDsaShake128s randomData =
        some ((V.spxSeedKeypair seed).result, (V.spxSeedKeypair seed).pk, (V.spxSeedKeypair seed).sk) := by
      rw [← hs]
      rfl
    obtain ⟨optrand, hopt, hsig⟩ := signScheme_slh_draws (V := V) (S := S) hq₂ message (V.spxSeedKeypair seed).sk
    have hresult := hV.spx_sign seed optrand message hseed hopt
    have hsize := hsizes.spx message _ optrand hresult
    rw [hV.spx_keypair seed hseed] at hkeys
    rw [hresult] at hsig
    refine ⟨_, _, _, hkeys, (V.spxSeedKeypair seed).sk_length, hsig, (V.spxSeedKeypair seed).pk_length, hsize, ?_⟩
    have hverify := hV.spx_verify seed optrand message hseed hopt
    simp only [verifySwitch, algorithms_ne, if_true, if_false, slhDsaShake128sVerify, CBuf.data, hverify]

/-! ## Completeness -/

section
variable {C : Secp256k1} {V : Vendored} {S : Sys} {w₁ w₂ w₁' w₂' : World}

/-- A signature on a message verifies on every message with the same first 32 bytes. -/
theorem secp_verifies_first_bytes (hround : C.RoundTrips) (hsecp : C.Correct) {sk : C.SecretKey} {m m' : Bytes}
    {sig : Signature} (hsign : (sign C V S (secpKeys C sk).secretKey m).run w₂ = some (.ok sig, w₂'))
    (hlen : 32 ≤ m'.length) (hfirst : m'.take 32 = m.take 32) :
    verify C V (secpKeys C sk).publicKey m' sig = .ok () := by
  obtain ⟨⟨hm, rfl⟩, -⟩ := (sign_secp_iff hround _).mp hsign
  have htake : (m.take 32).length = 32 := by rw [List.length_take]; omega
  rw [verify_secp_iff hround sk, hfirst]
  exact ⟨hlen, hsecp sk _ htake⟩

theorem honest_secp_verifies (hround : C.RoundTrips) (hsecp : C.Correct) {randomData message : Bytes} {kp : KeyPair}
    {sig : Signature}
    (hkeys : (generateKeypair C V S .secp256k1Schnorr randomData).run w₁ = some (.ok kp, w₁'))
    (hsign : (sign C V S kp.secretKey message).run w₂ = some (.ok sig, w₂')) :
    verify C V kp.publicKey message sig = .ok () := by
  obtain ⟨⟨-, sk, -, rfl⟩, -⟩ := generateKeypair_secp_iff.mp hkeys
  have hlen := ((sign_secp_iff hround _).mp hsign).1.1
  exact secp_verifies_first_bytes hround hsecp hsign hlen rfl

/-- When the scheme of a run is honest, what the run signs verifies. -/
theorem honest_of_scheme (hq₁ : w₁.Quiet) (hq₂ : w₂.Quiet) {algorithm : Algorithm} {a : AlgorithmT} (halg : algorithm.Pqc a)
    {randomData message : Bytes} {kp : KeyPair} {sig : Signature}
    (hhonest : ∀ h₁, 128 ≤ randomData.length → SchemeHonest V S w₁ { w₂ with heap := h₁ } a randomData message)
    (hkeys : (generateKeypair C V S algorithm randomData).run w₁ = some (.ok kp, w₁'))
    (hsign : (sign C V S kp.secretKey message).run w₂ = some (.ok sig, w₂')) :
    verify C V kp.publicKey message sig = .ok () := by
  obtain ⟨-, -, hgen⟩ := (generateKeypair_wp C V S halg randomData hq₁).of_run hkeys
  obtain ⟨hlen, x, y, hscheme, -, -, rfl⟩ := hgen.of_ok kp rfl
  obtain ⟨-, -, hprod⟩ := (sign_wp C V S ⟨algorithm, y⟩ halg message hq₂).of_run hsign
  obtain ⟨-, h₁, s, hsig, rfl⟩ := hprod.of_ok sig rfl
  obtain ⟨x', y', s', hscheme', -, hsig', haccepts⟩ := hhonest h₁ hlen
  rw [hscheme] at hscheme'
  cases hscheme'
  rw [hsig] at hsig'
  cases hsig'
  exact (verify_ok_iff C V ⟨algorithm, x⟩ halg message _).mpr ⟨rfl, haccepts⟩

/-- And with memory there is such a run. -/
theorem served_of_scheme (hq₁ : w₁.Quiet) (hq₂ : w₂.Quiet) {algorithm : Algorithm} {a : AlgorithmT} (halg : algorithm.Pqc a)
    {randomData message : Bytes} (hlen : 128 ≤ randomData.length)
    (hhonest : ∀ h₁, SchemeHonest V S w₁ { w₂ with heap := h₁ } a randomData message)
    (hserves₁ : w₁.heap.Serves S.alloc [bitcoinPqcPublicKeySize a, bitcoinPqcSecretKeySize a])
    (hserves₂ : w₂.heap.Serves S.alloc [bitcoinPqcSignatureSize a]) :
    ∃ kp sig w₁' w₂', (generateKeypair C V S algorithm randomData).run w₁ = some (.ok kp, w₁') ∧
      (sign C V S kp.secretKey message).run w₂ = some (.ok sig, w₂') := by
  obtain ⟨p, h₁, hmalloc, -⟩ := hserves₂
  obtain ⟨x, y, s, hscheme, hy, hsig, -⟩ := hhonest h₁
  obtain ⟨r₁, w₁', hrun₁, -, -, hgen⟩ := generateKeypair_wp C V S halg randomData hq₁
  obtain ⟨r₂, w₂', hrun₂, -, -, hprod⟩ := sign_wp C V S ⟨algorithm, y⟩ halg message hq₂
  rw [hgen.served hlen hserves₁ x y hscheme] at hrun₁
  rw [hprod.served hy p h₁ s hmalloc hsig] at hrun₂
  exact ⟨_, _, w₁', w₂', hrun₁, hrun₂⟩

end

/-- **Honest signatures verify**, and with memory the two PQC algorithms always give one. -/
theorem honest_signatures_verify {C : Secp256k1} (hround : C.RoundTrips) (hsecp : C.Correct) {V : Vendored}
    (hV : V.Correct) (hsizes : V.ExactSizes) (S : Sys) {w₁ w₂ : World} (hq₁ : w₁.Quiet) (hq₂ : w₂.Quiet)
    {algorithm : Algorithm} (halg : algorithm.Valid) (randomData message : Bytes) :
    (∀ kp sig w₁' w₂', (generateKeypair C V S algorithm randomData).run w₁ = some (.ok kp, w₁') →
      (sign C V S kp.secretKey message).run w₂ = some (.ok sig, w₂') →
      verify C V kp.publicKey message sig = .ok ()) ∧
    (∀ a, algorithm.Pqc a → 128 ≤ randomData.length →
      w₁.heap.Serves S.alloc [bitcoinPqcPublicKeySize a, bitcoinPqcSecretKeySize a] →
      w₂.heap.Serves S.alloc [bitcoinPqcSignatureSize a] →
      ∃ kp sig w₁' w₂', (generateKeypair C V S algorithm randomData).run w₁ = some (.ok kp, w₁') ∧
        (sign C V S kp.secretKey message).run w₂ = some (.ok sig, w₂')) := by
  constructor
  · intro kp sig w₁' w₂' hkeys hsign
    rcases halg.cases with rfl | ⟨a, hpqc⟩
    · exact honest_secp_verifies hround hsecp hkeys hsign
    · exact honest_of_scheme hq₁ hq₂ hpqc
        (fun h₁ hlen => scheme_honest hV hsizes hq₁ (hq₂.heap h₁) hpqc hlen message) hkeys hsign
  · intro a hpqc hlen
    exact served_of_scheme hq₁ hq₂ hpqc hlen fun h₁ => scheme_honest hV hsizes hq₁ (hq₂.heap h₁) hpqc hlen message

def sampleKey : Secp256k1.SampleKey := ⟨Vector.replicate 32 1, by decide⟩

/-- The sample crate's key of 32 ones. -/
def sampleKeys : KeyPair := secpKeys .sample sampleKey

theorem sampleKeys_generated (w : World) :
    (generateKeypair .sample .sample (.sample .dilithium 0) .secp256k1Schnorr (List.replicate 32 1)).run w =
      some (.ok sampleKeys, w) :=
  generateKeypair_secp_iff.mpr ⟨⟨by decide, _, rfl, rfl⟩, rfl⟩

/-- Keys made of 128 zero bytes sign a message, under either PQC algorithm; and so does, under
secp256k1, the key of 32 ones a message of 40 bytes. -/
theorem honest_signatures_verify_sample :
    (∀ algorithm a, algorithm.Pqc a → ∃ kp sig w₁' w₂',
      (generateKeypair .sample .sample (.sample .dilithium 0) algorithm (List.replicate 128 0)).run .init =
        some (.ok kp, w₁') ∧
      (sign .sample .sample (.sample .dilithium 0) kp.secretKey [1, 2, 3]).run .init = some (.ok sig, w₂') ∧
      verify .sample .sample kp.publicKey [1, 2, 3] sig = .ok ()) ∧
    ∃ sig, (sign .sample .sample (.sample .dilithium 0) sampleKeys.secretKey (List.replicate 40 7)).run .init =
        some (.ok sig, .init) ∧
      verify .sample .sample sampleKeys.publicKey (List.replicate 40 7) sig = .ok () := by
  have hmain := fun (algorithm : Algorithm) (halg : algorithm.Valid) => honest_signatures_verify Secp256k1.sample_roundTrips
    Secp256k1.sample_correct Vendored.sample_correct Vendored.sample_exactSizes (.sample .dilithium 0) World.quiet_init
    World.quiet_init halg
  constructor
  · intro algorithm a hpqc
    have hrun := hmain algorithm hpqc.valid (List.replicate 128 0) [1, 2, 3]
    obtain ⟨kp, sig, w₁', w₂', hkeys, hsign⟩ := hrun.2 a hpqc (Nat.le_of_eq (List.length_replicate ..).symm)
      (Heap.bump_serves _ _ _) (Heap.bump_serves _ _ _)
    exact ⟨kp, sig, w₁', w₂', hkeys, hsign, hrun.1 kp sig w₁' w₂' hkeys hsign⟩
  · have hlong : 32 ≤ (List.replicate 40 (7 : UInt8)).length := by decide
    have hsign := (sign_secp_iff (V := .sample) (S := .sample .dilithium 0) (w := .init) Secp256k1.sample_roundTrips
      sampleKey).mpr ⟨⟨hlong, rfl⟩, rfl⟩
    exact ⟨_, hsign, (hmain _ (.inl rfl) (List.replicate 32 1) _).1 sampleKeys _ _ _ (sampleKeys_generated .init) hsign⟩

/-! ## Binding -/

/-- **A secp256k1 signature binds the first 32 bytes of its message**, and any message it verifies
on has them. -/
theorem secp256k1_binds_first_bytes {C : Secp256k1} (hround : C.RoundTrips) (hbinds : C.Binds) {V : Vendored} {S : Sys}
    {w₁ w₂ w₁' w₂' : World} {randomData m m' : Bytes} {kp : KeyPair} {sig : Signature}
    (hkeys : (generateKeypair C V S .secp256k1Schnorr randomData).run w₁ = some (.ok kp, w₁'))
    (hsign : (sign C V S kp.secretKey m).run w₂ = some (.ok sig, w₂'))
    (hverify : verify C V kp.publicKey m' sig = .ok ()) : 32 ≤ m'.length ∧ m'.take 32 = m.take 32 := by
  obtain ⟨⟨-, sk, -, rfl⟩, -⟩ := generateKeypair_secp_iff.mp hkeys
  obtain ⟨⟨hm, rfl⟩, -⟩ := (sign_secp_iff hround _).mp hsign
  obtain ⟨hm', haccept⟩ := (verify_secp_iff hround sk).mp hverify
  have hlen : ∀ {x : Bytes}, 32 ≤ x.length → (x.take 32).length = 32 := fun h => by rw [List.length_take]; omega
  exact ⟨hm', (hbinds sk _ _ (hlen hm) (hlen hm') haccept).symm⟩

/-- The sample key signs `m`, and the signature verifies on every `m'` with its first 32 bytes. -/
theorem sampleKeys_sign (w : World) (m m' : Bytes) (hm : 32 ≤ m.length) (hm' : 32 ≤ m'.length)
    (hfirst : m'.take 32 = m.take 32) :
    ∃ sig, (sign .sample .sample (.sample .dilithium 0) sampleKeys.secretKey m).run w = some (.ok sig, w) ∧
      verify .sample .sample sampleKeys.publicKey m' sig = .ok () := by
  have hsign := (sign_secp_iff (V := .sample) (S := .sample .dilithium 0) (w := w) Secp256k1.sample_roundTrips
    sampleKey).mpr ⟨⟨hm, rfl⟩, rfl⟩
  exact ⟨_, hsign, secp_verifies_first_bytes Secp256k1.sample_roundTrips Secp256k1.sample_correct hsign hm' hfirst⟩

/-- A signature on 40 bytes verifies on the first 33 of them. -/
theorem secp256k1_binds_first_bytes_of_40_bytes :
    ∃ sig, (sign .sample .sample (.sample .dilithium 0) sampleKeys.secretKey (List.replicate 40 7)).run .init =
        some (.ok sig, .init) ∧
      verify .sample .sample sampleKeys.publicKey (List.replicate 33 7) sig = .ok () ∧
      (List.replicate 33 (7 : UInt8)).take 32 = (List.replicate 40 7).take 32 := by
  obtain ⟨sig, hsign, hverify⟩ := sampleKeys_sign .init (List.replicate 40 7) (List.replicate 33 7)
    (by decide) (by decide) (by decide)
  exact ⟨sig, hsign, hverify, (secp256k1_binds_first_bytes Secp256k1.sample_roundTrips Secp256k1.sample_binds
    (sampleKeys_generated .init) hsign hverify).2⟩

/-- Two messages of 33 bytes that differ in the last one share a signature. -/
theorem secp256k1_whole_message_not_bound :
    ¬ ∀ (C : Secp256k1) (V : Vendored) (S : Sys) (w₁ w₂ w₁' w₂' : World) (randomData m m' : Bytes) (kp : KeyPair)
        (sig : Signature), C.RoundTrips → C.Binds →
      (generateKeypair C V S .secp256k1Schnorr randomData).run w₁ = some (.ok kp, w₁') → m ≠ m' →
      (sign C V S kp.secretKey m).run w₂ = some (.ok sig, w₂') → verify C V kp.publicKey m' sig ≠ .ok () := by
  intro h
  obtain ⟨sig, hsign, hverify⟩ := sampleKeys_sign .init (List.replicate 33 0)
    (List.replicate 32 0 ++ [1]) (by decide) (by decide) (by decide)
  exact h _ _ _ _ _ _ _ _ _ _ _ _ Secp256k1.sample_roundTrips Secp256k1.sample_binds (sampleKeys_generated .init)
    (by decide) hsign hverify

end BitcoinPqc
