import BitcoinPqc.RustApi
import BitcoinPqc.Lib.Serde

/-!
# The serde formats

With the feature `serde`, keys and signatures derive a format of two fields, the algorithm and the
hex text of the bytes. The algorithm is serialised as a string and its field is flattened into the
object around it; a flattened field must be a map or a struct, so nothing of this becomes JSON and
no JSON becomes any of it (`serde_never_round_trips`).

| here | there |
| --- | --- |
| `hexBytes` | src/lib.rs:20-39 |
| `Algorithm.intoString`, `Algorithm.tryFromString` | src/lib.rs:143-167 |
| `PublicKey.format`, … | src/lib.rs:192-202, :244-254, :308-318 |
| `KeyPair.format` | src/lib.rs:358-365 |
-/
namespace BitcoinPqc
open Serde Checks

/-! ## Algorithms -/

namespace Algorithm

/-- src/lib.rs:158 -/
def intoString (algorithm : Algorithm) : Except Error String :=
  if algorithm = secp256k1Schnorr then .ok "SECP256K1_SCHNORR"
  else if algorithm = mlDsa44 then .ok "ML_DSA_44"
  else if algorithm = slhDsa128s then .ok "SLH_DSA_128S"
  else .error (.panic "Invalid algorithm variant")

/-- src/lib.rs:146 -/
def tryFromString (s : String) : Except Error Algorithm :=
  if s = "SECP256K1_SCHNORR" then .ok secp256k1Schnorr
  else if s = "ML_DSA_44" then .ok mlDsa44
  else if s = "SLH_DSA_128S" then .ok slhDsa128s
  else .error (.custom ("Unknown algorithm string: " ++ s))

def format : Format Algorithm := .viaString intoString tryFromString

/-- By itself the tag round-trips. -/
theorem format_roundTrips {algorithm : Algorithm} (h : algorithm.Valid) : format.RoundTrips algorithm := by
  rcases h with rfl | rfl | rfl <;> exact ⟨_, rfl, rfl⟩

end Algorithm

/-! ## Keys and signatures -/

variable (X : Flattening) (H : Hex.Codec)

/-- The module `hex_bytes`, the `with` of the field `bytes`. -/
def hexBytes : Format Bytes where
  serialize bytes := .ok (.str (H.encode bytes))
  deserialize D := do
    let s ← D.string
    (H.decode s).mapError fun e => .custom (H.message e)

theorem hexBytes_roundTrips (hH : H.Inverse) (bytes : Bytes) : (hexBytes H).RoundTrips bytes := by
  refine ⟨_, rfl, ?_⟩
  show (H.decode (H.encode bytes)).mapError _ = _
  rw [hH bytes]
  rfl

def PublicKey.format : Format PublicKey :=
  .flattenedStruct X "bytes" Algorithm.format (hexBytes H) (fun k => (k.algorithm, k.bytes)) .mk

def SecretKey.format : Format SecretKey :=
  .flattenedStruct X "bytes" Algorithm.format (hexBytes H) (fun k => (k.algorithm, k.bytes)) .mk

def Signature.format : Format Signature :=
  .flattenedStruct X "bytes" Algorithm.format (hexBytes H) (fun s => (s.algorithm, s.bytes)) .mk

def KeyPair.format : Format KeyPair :=
  .struct "KeyPair" "public_key" "secret_key" (PublicKey.format X H) (SecretKey.format X H)
    (fun kp => (kp.publicKey, kp.secretKey)) .mk

/-- A key pair would round-trip exactly when both keys did. -/
theorem keyPair_roundTrips_iff (kp : KeyPair) :
    (KeyPair.format X H).RoundTrips kp ↔
      (PublicKey.format X H).RoundTrips kp.publicKey ∧ (SecretKey.format X H).RoundTrips kp.secretKey :=
  Format.struct_roundTrips_iff (by decide) (fun _ _ => rfl) (fun _ => rfl) kp

section
variable {X} (hX : X.MapsOnly)
include hX

/-- Nor is any of them read back from JSON, whatever wrote it. -/
theorem no_json_deserializes (j : Json) :
    (∀ key, (PublicKey.format X H).fromJson j ≠ .ok key) ∧ (∀ key, (SecretKey.format X H).fromJson j ≠ .ok key) ∧
    (∀ sig, (Signature.format X H).fromJson j ≠ .ok sig) ∧ (∀ kp, (KeyPair.format X H).fromJson j ≠ .ok kp) := by
  refine ⟨Format.flattened_string_fromJson hX j, Format.flattened_string_fromJson hX j,
    Format.flattened_string_fromJson hX j, fun kp h => ?_⟩
  simp only [Format.fromJson, KeyPair.format, Format.struct, bind_ok_iff] at h
  obtain ⟨_, -, x, -, key, hkey, -⟩ := h
  exact Format.flattened_string_fromJson hX x key hkey

/-- **Nothing round-trips**: no key, signature or key pair, for any hex codec. -/
theorem serde_never_round_trips :
    (∀ key, ¬(PublicKey.format X H).RoundTrips key) ∧ (∀ key, ¬(SecretKey.format X H).RoundTrips key) ∧
    (∀ sig, ¬(Signature.format X H).RoundTrips sig) ∧ (∀ kp, ¬(KeyPair.format X H).RoundTrips kp) := by
  refine ⟨Format.flattened_string_not_roundTrips hX, Format.flattened_string_not_roundTrips hX,
    Format.flattened_string_not_roundTrips hX, fun kp h => ?_⟩
  have hkey := ((keyPair_roundTrips_iff X H kp).mp h).1
  exact Format.flattened_string_not_roundTrips hX kp.publicKey hkey

end

/-- With serde's own flattening, and any hex codec. -/
theorem serde_never_round_trips_serde : Flattening.serde.MapsOnly ∧ ∀ H : Hex.Codec,
    (∀ key, ¬(PublicKey.format .serde H).RoundTrips key) ∧ (∀ key, ¬(SecretKey.format .serde H).RoundTrips key) ∧
    (∀ sig, ¬(Signature.format .serde H).RoundTrips sig) ∧ (∀ kp, ¬(KeyPair.format .serde H).RoundTrips kp) :=
  ⟨Flattening.serde_mapsOnly, fun H => serde_never_round_trips H Flattening.serde_mapsOnly⟩

/-- An empty ML-DSA-44 public key does not, in lower-case hex. -/
theorem serde_round_trip_fails :
    ¬ ∀ (X : Flattening) (H : Hex.Codec), X.MapsOnly → H.Inverse →
      (∀ key : PublicKey, key.algorithm.Valid → (PublicKey.format X H).RoundTrips key) ∧
      (∀ key : SecretKey, key.algorithm.Valid → (SecretKey.format X H).RoundTrips key) ∧
      (∀ sig : Signature, sig.algorithm.Valid → (Signature.format X H).RoundTrips sig) ∧
      (∀ kp : KeyPair, kp.publicKey.algorithm.Valid → kp.secretKey.algorithm.Valid →
        (KeyPair.format X H).RoundTrips kp) := by
  intro h
  exact Format.flattened_string_not_roundTrips Flattening.serde_mapsOnly (⟨.mlDsa44, []⟩ : PublicKey)
    ((h .serde .lower Flattening.serde_mapsOnly Hex.Codec.lower_inverse).1 ⟨.mlDsa44, []⟩ (by decide))

end BitcoinPqc
