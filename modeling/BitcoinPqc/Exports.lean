import BitcoinPqc.SignVerify

/-!
# Export and re-import

Keys and signatures leave the library as bytes or as hex text, and come back through
`try_from_slice` and `from_str`. The producers take lengths from the C structures or from the crate's
arrays, the constructors from the size tables; `exports_reimport` says that they agree on everything
the library makes.
-/
namespace BitcoinPqc
open CSem Checks

/-- The parsers accept what the serialisers wrote. -/
structure Secp256k1.ParsersAccept (C : Secp256k1) : Prop where
  secretKey : ∀ sk, ∃ sk', C.secretKeyFromSlice (C.secretKeyAsRef sk).toList = .ok sk'
  xOnly : ∀ pk, ∃ pk', C.xOnlyFromSlice (C.xOnlySerialize pk).toList = .ok pk'
  signature : ∀ sig, ∃ sig', C.signatureFromSlice (C.signatureAsRef sig).toList = .ok sig'

theorem Secp256k1.RoundTrips.parsersAccept {C : Secp256k1} (h : C.RoundTrips) : C.ParsersAccept where
  secretKey sk := ⟨sk, h.secretKey sk⟩
  xOnly pk := ⟨pk, h.xOnly pk⟩
  signature sig := ⟨sig, h.signature sig⟩

section
variable (C : Secp256k1) {H : Hex.Codec}

/-- What a constructor asks of the bytes: the length is the table's, and for secp256k1 the crate
parses them. -/
structure Fits {α : Type} (size : Algorithm → Except (Stop C.Error) Nat) (parse : Bytes → Except C.Error α)
    (algorithm : Algorithm) (bytes : Bytes) : Prop where
  size : size algorithm = .ok bytes.length
  parse : algorithm = .secp256k1Schnorr → ∃ x, parse bytes = .ok x

theorem tryFromSlice_ok {α β : Type} {size : Algorithm → Except (Stop C.Error) Nat}
    {parse : Bytes → Except C.Error α} {algorithm : Algorithm} {bytes : Bytes} (bad : PqcError C.Error)
    (make : Algorithm → Bytes → β) (h : Fits C size parse algorithm bytes) :
    tryFromSlice C size parse bad make algorithm bytes = .ok (make algorithm bytes) := by
  simp only [tryFromSlice, h.size, bind_ok_iff, reject_ok_iff, Except.ok.injEq, exists_eq_left', not_true,
    not_false_iff, ne_eq, true_and]
  split
  · rename_i hsecp
    obtain ⟨x, hx⟩ := h.parse hsecp
    exact bind_ok_iff.mpr ⟨x, renamed_ok_iff.mpr hx, rfl⟩
  · rfl

theorem fromStr_encode (hH : H.Inverse) {β : Type} (ofSlice : Algorithm → Bytes → Except (Stop C.Error) β)
    (algorithm : Algorithm) (bytes : Bytes) : fromStr C H ofSlice algorithm (H.encode bytes) = ofSlice algorithm bytes := by
  rw [fromStr, hH bytes]
  rfl

/-- Both constructors give `v` back from its bytes. -/
def Reimports {β : Type} (ofSlice : Algorithm → Bytes → Except (Stop C.Error) β)
    (ofStr : Algorithm → String → Except (Stop C.Error) β) (H : Hex.Codec) (algorithm : Algorithm) (bytes : Bytes)
    (v : β) : Prop :=
  ofSlice algorithm bytes = .ok v ∧ ofStr algorithm (H.encode bytes) = .ok v

variable {C}

theorem reimports {α β : Type} (hH : H.Inverse) {size : Algorithm → Except (Stop C.Error) Nat}
    {parse : Bytes → Except C.Error α} {algorithm : Algorithm} {bytes : Bytes} (bad : PqcError C.Error)
    (make : Algorithm → Bytes → β) (h : Fits C size parse algorithm bytes) :
    Reimports C (tryFromSlice C size parse bad make) (fromStr C H (tryFromSlice C size parse bad make)) H
      algorithm bytes (make algorithm bytes) := by
  have hslice := tryFromSlice_ok C bad make h
  exact ⟨hslice, by rw [fromStr_encode C hH, hslice]⟩

end

/-! ## What the library makes has the sizes of the tables -/

theorem signScheme_length {V : Vendored} (hV : V.ExactSizes) {S : Sys} {w : World} {algorithm : Algorithm}
    {a : AlgorithmT} (halg : algorithm.Pqc a) {m sk s : Bytes} (h : signScheme V S w a m sk = some (0, s)) :
    s.length = bitcoinPqcSignatureSize a := by
  cases halg with
  | mlDsa44 =>
    simp only [signScheme, if_true, Option.some.injEq, Prod.mk.injEq] at h
    obtain ⟨hresult, rfl⟩ := h
    exact hV.dilithium _ _ _ _ (mlSigResult_eq_zero.mp hresult).1
  | slhDsa128s =>
    simp only [signScheme, algorithms_ne, if_true, if_false, Option.some.injEq, Prod.mk.injEq] at h
    obtain ⟨hresult, rfl⟩ := h
    exact hV.spx _ _ _ hresult

theorem signSecp_shape {C : Secp256k1} {key : SecretKey} {message : Bytes} {sig : Signature}
    (h : signSecp C key message = .ok sig) : ∃ s, sig = ⟨.secp256k1Schnorr, (C.signatureAsRef s).toList⟩ := by
  simp only [signSecp, bind_ok_iff, reject_ok_iff, pure_ok_iff] at h
  obtain ⟨-, sk, -, rfl⟩ := h
  exact ⟨_, rfl⟩

section
variable {C : Secp256k1} {H : Hex.Codec} {V : Vendored} {S : Sys} {w w' : World} {algorithm : Algorithm}

/-- The bytes of a generated key pair have the table's sizes and parse. -/
theorem generated_keys_fit (hC : C.ParsersAccept) (hq : w.Quiet) (halg : algorithm.Valid) {randomData : Bytes}
    {kp : KeyPair} (hkeys : (generateKeypair C V S algorithm randomData).run w = some (.ok kp, w')) :
    (kp.publicKey.algorithm = algorithm ∧ Fits C publicKeySize C.xOnlyFromSlice algorithm kp.publicKey.bytes) ∧
    (kp.secretKey.algorithm = algorithm ∧
      Fits C secretKeySize C.secretKeyFromSlice algorithm kp.secretKey.bytes) := by
  rcases halg.cases with rfl | ⟨a, hpqc⟩
  · obtain ⟨⟨-, sk, -, rfl⟩, -⟩ := generateKeypair_secp_iff.mp hkeys
    refine ⟨⟨rfl, ⟨?_, fun _ => hC.xOnly _⟩⟩, ⟨rfl, ⟨?_, fun _ => hC.secretKey _⟩⟩⟩
    · simp [publicKeySize, sizeOf, secpKeys]
    · simp [secretKeySize, sizeOf, secpKeys]
  · obtain ⟨-, -, hgen⟩ := (generateKeypair_wp C V S hpqc randomData hq).of_run hkeys
    obtain ⟨-, x, y, -, hx, hy, rfl⟩ := hgen.of_ok kp rfl
    have hsecp := hpqc.ne_secp
    refine ⟨⟨rfl, ⟨?_, fun h => absurd h hsecp⟩⟩, ⟨rfl, ⟨?_, fun h => absurd h hsecp⟩⟩⟩
    · rw [publicKeySize, hpqc.sizeOf, hx]
    · rw [secretKeySize, hpqc.sizeOf, hy]

/-- The same of a signature made with a key of a valid algorithm. -/
theorem signature_fits (hC : C.ParsersAccept) (hV : V.ExactSizes) (hq : w.Quiet) {key : SecretKey}
    (halg : key.algorithm.Valid) {message : Bytes} {sig : Signature}
    (hsign : (sign C V S key message).run w = some (.ok sig, w')) :
    sig.algorithm = key.algorithm ∧ Fits C signatureSize C.signatureFromSlice key.algorithm sig.bytes := by
  rcases halg.cases with hsecp | ⟨a, hpqc⟩
  · rw [sign, if_pos hsecp, run_ofExcept] at hsign
    obtain ⟨s, rfl⟩ := signSecp_shape hsign.1
    refine ⟨hsecp.symm, ⟨?_, fun _ => hC.signature s⟩⟩
    simp [signatureSize, sizeOf, hsecp]
  · obtain ⟨-, -, hprod⟩ := (sign_wp C V S _ hpqc message hq).of_run hsign
    obtain ⟨-, h₁, s, hscheme, rfl⟩ := hprod.of_ok sig rfl
    refine ⟨rfl, ⟨?_, fun h => absurd h hpqc.ne_secp⟩⟩
    rw [signatureSize, hpqc.sizeOf, signScheme_length hV hpqc hscheme]

end

/-- **Everything the library makes survives export and re-import**, as bytes and as hex text. -/
theorem exports_reimport {C : Secp256k1} (hC : C.ParsersAccept) {H : Hex.Codec} (hH : H.Inverse) {V : Vendored}
    (hV : V.ExactSizes) {S : Sys} {w₁ w₂ : World} (hq₁ : w₁.Quiet) (hq₂ : w₂.Quiet) {algorithm : Algorithm}
    (halg : algorithm.Valid) {randomData : Bytes} {kp : KeyPair} {w₁' : World}
    (hkeys : (generateKeypair C V S algorithm randomData).run w₁ = some (.ok kp, w₁')) (message : Bytes) :
    Reimports C (PublicKey.tryFromSlice C) (PublicKey.fromStr C H) H algorithm kp.publicKey.bytes kp.publicKey ∧
    Reimports C (SecretKey.tryFromSlice C) (SecretKey.fromStr C H) H algorithm kp.secretKey.bytes kp.secretKey ∧
    ∀ sig w₂', (sign C V S kp.secretKey message).run w₂ = some (.ok sig, w₂') →
      Reimports C (Signature.tryFromSlice C) (Signature.fromStr C H) H algorithm sig.bytes sig := by
  obtain ⟨⟨hpk, hpkfits⟩, ⟨hsk, hskfits⟩⟩ := generated_keys_fit hC hq₁ halg hkeys
  refine ⟨?_, ?_, fun sig w₂' hsign => ?_⟩
  · have h := reimports hH .badKey PublicKey.mk hpkfits
    rwa [show PublicKey.mk algorithm kp.publicKey.bytes = kp.publicKey by rw [← hpk]] at h
  · have h := reimports hH .badKey SecretKey.mk hskfits
    rwa [show SecretKey.mk algorithm kp.secretKey.bytes = kp.secretKey by rw [← hsk]] at h
  · obtain ⟨hsig, hfits⟩ := signature_fits hC hV hq₂ (by rw [hsk]; exact halg) hsign
    rw [hsk] at hsig hfits
    have h := reimports hH .badSignature Signature.mk hfits
    rwa [show Signature.mk algorithm sig.bytes = sig by rw [← hsig]] at h

/-- The sample key pair and a signature on 32 bytes, through bytes and lower-case hex. -/
theorem exports_reimport_sample :
    Reimports .sample (PublicKey.tryFromSlice .sample) (PublicKey.fromStr .sample .lower) .lower .secp256k1Schnorr
      sampleKeys.publicKey.bytes sampleKeys.publicKey ∧
    ∃ sig, (sign .sample .sample (.sample .dilithium 0) sampleKeys.secretKey (List.replicate 32 7)).run .init =
        some (.ok sig, .init) ∧
      Reimports .sample (Signature.tryFromSlice .sample) (Signature.fromStr .sample .lower) .lower .secp256k1Schnorr
        sig.bytes sig := by
  have hmain := exports_reimport Secp256k1.sample_roundTrips.parsersAccept Hex.Codec.lower_inverse
    Vendored.sample_exactSizes World.quiet_init World.quiet_init (.inl rfl) (sampleKeys_generated .init)
    (List.replicate 32 7)
  obtain ⟨sig, hsign, -⟩ := sampleKeys_sign .init (List.replicate 32 7) (List.replicate 32 7)
    (by decide) (by decide) rfl
  exact ⟨hmain.1, sig, hsign, hmain.2.2 sig _ hsign⟩

end BitcoinPqc
