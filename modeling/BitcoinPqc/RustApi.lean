import BitcoinPqc.CApiProofs
import BitcoinPqc.Lib.Hex

/-!
# The Rust API

`src/lib.rs` puts one algorithm tag over the C library and the secp256k1 crate. The crate and the
hex codec are parameters. A function ends in a value, in an error, or in a panic: the conversion
of the tag into the C enum has no case for other bit patterns.

| here | there |
| --- | --- |
| `PqcError`, `resultOfC` | src/lib.rs:47-111 |
| `Algorithm`, `Algorithm.toC` | src/lib.rs:113-140 |
| `PublicKey`, `SecretKey`, `Signature`, `KeyPair` | src/lib.rs:192-365 |
| `generateKeypair`, `sign`, `verify` | src/lib.rs:380, :499, :590 |
| `publicKeySize`, `secretKeySize`, `signatureSize` | src/lib.rs:658-698 |

Slices and vectors hand out a pointer that is never null, also when they are empty. That a secret
key is zeroed when it is dropped is left out: no function here reads a dropped key.
-/
namespace BitcoinPqc
open CSem

/-- What the API uses of the secp256k1 crate. Serialised values are arrays of a fixed size. -/
structure Secp256k1 where
  Error : Type
  SecretKey : Type
  Keypair : Type
  XOnlyPublicKey : Type
  Signature : Type
  secretKeyFromSlice : Bytes → Except Error SecretKey
  secretKeyAsRef : SecretKey → Vector UInt8 32
  keypairFromSecretKey : SecretKey → Keypair
  /-- The parity that comes with it is dropped by the caller. -/
  xOnlyFromKeypair : Keypair → XOnlyPublicKey
  xOnlyFromSlice : Bytes → Except Error XOnlyPublicKey
  xOnlySerialize : XOnlyPublicKey → Vector UInt8 32
  signatureFromSlice : Bytes → Except Error Signature
  signatureAsRef : Signature → Vector UInt8 64
  signSchnorrNoAuxRand : Bytes → Keypair → Signature
  verifySchnorr : Signature → Bytes → XOnlyPublicKey → Except Error Unit

/-- src/lib.rs:47, over the crate's own errors. -/
inductive PqcError (ε : Type) where
  | badArgument | insufficientData | badKey | badSignature | notImplemented | algorithmMismatch
  | secp256k1Error (e : ε)
  | other (code : Int)
  deriving DecidableEq

/-- How a function ends without a value. -/
inductive Stop (ε : Type) where
  | err (e : PqcError ε)
  | panic (message : String)
  deriving DecidableEq

/-- `bitmask(u8)`: the named values are 1, 2 and 4, and any other byte is a value too. -/
structure Algorithm where
  bits : UInt8
  deriving DecidableEq

namespace Algorithm

def secp256k1Schnorr : Algorithm := ⟨1⟩
def mlDsa44 : Algorithm := ⟨2⟩
def slhDsa128s : Algorithm := ⟨4⟩

/-- The three algorithms the crate names. -/
def Valid (algorithm : Algorithm) : Prop :=
  algorithm = secp256k1Schnorr ∨ algorithm = mlDsa44 ∨ algorithm = slhDsa128s

instance (algorithm : Algorithm) : Decidable algorithm.Valid := inferInstanceAs (Decidable (_ ∨ _))

/-- src/lib.rs:131 -/
def toC {ε : Type} (algorithm : Algorithm) : Except (Stop ε) AlgorithmT :=
  if algorithm = secp256k1Schnorr then .ok bitcoinPqcSecp256k1Schnorr
  else if algorithm = mlDsa44 then .ok bitcoinPqcMlDsa44
  else if algorithm = slhDsa128s then .ok bitcoinPqcSlhDsaShake128s
  else .error (.panic "Invalid algorithm")

end Algorithm

section
variable {ε : Type}

/-! ## Sizes -/

/-- The three size functions: a literal for secp256k1, else the table of the C library. -/
def sizeOf (secp : Nat) (table : AlgorithmT → Nat) (algorithm : Algorithm) : Except (Stop ε) Nat :=
  if algorithm = .secp256k1Schnorr then .ok secp else algorithm.toC.map table

/-- src/lib.rs:658 -/
def publicKeySize : Algorithm → Except (Stop ε) Nat := sizeOf 32 bitcoinPqcPublicKeySize

/-- src/lib.rs:675 -/
def secretKeySize : Algorithm → Except (Stop ε) Nat := sizeOf 32 bitcoinPqcSecretKeySize

/-- src/lib.rs:692 -/
def signatureSize : Algorithm → Except (Stop ε) Nat := sizeOf 64 bitcoinPqcSignatureSize

/-! ## Error codes of the C library -/

/-- src/lib.rs:101 -/
def resultOfC : ErrorT → Except (Stop ε) Unit
  | .ok => .ok ()
  | .badArg => .error (.err .badArgument)
  | .badKey => .error (.err .badKey)
  | .badSignature => .error (.err .badSignature)
  | .notImplemented => .error (.err .notImplemented)

/-- src/lib.rs:441-448: a key generation is not expected to report a bad signature. -/
def keygenError : ErrorT → PqcError ε
  | .badArg => .badArgument
  | .badKey => .badKey
  | .notImplemented => .notImplemented
  | e => .other e.code

/-- src/lib.rs:549-559 -/
def signError : ErrorT → PqcError ε
  | .badArg => .badArgument
  | .badKey => .badKey
  | .badSignature => .badSignature
  | .notImplemented => .notImplemented
  | e => .other e.code

end

/-- `map_err(|_| e)` -/
def mapErr {α δ ε : Type} (e : PqcError ε) (r : Except δ α) : Except (Stop ε) α := r.mapError fun _ => .err e

/-! ## Keys and signatures -/

structure PublicKey where
  algorithm : Algorithm
  bytes : Bytes
  deriving DecidableEq

structure SecretKey where
  algorithm : Algorithm
  bytes : Bytes
  deriving DecidableEq

structure Signature where
  algorithm : Algorithm
  bytes : Bytes
  deriving DecidableEq

structure KeyPair where
  publicKey : PublicKey
  secretKey : SecretKey
  deriving DecidableEq

variable (C : Secp256k1) (H : Hex.Codec)

/-- The three `try_from_slice`: a length from the table, for secp256k1 also the crate's parser, and
one error for both. -/
def tryFromSlice {α β : Type} (size : Algorithm → Except (Stop C.Error) Nat) (parse : Bytes → Except C.Error α)
    (bad : PqcError C.Error) (make : Algorithm → Bytes → β) (algorithm : Algorithm) (bytes : Bytes) :
    Except (Stop C.Error) β := do
  let expectedLen ← size algorithm
  if bytes.length ≠ expectedLen then .error (.err bad)
  else if algorithm = .secp256k1Schnorr then do
    let _ ← mapErr bad (parse bytes)
    pure (make algorithm bytes)
  else pure (make algorithm bytes)

/-- The three `from_str`. -/
def fromStr {β : Type} (ofSlice : Algorithm → Bytes → Except (Stop C.Error) β) (algorithm : Algorithm) (s : String) :
    Except (Stop C.Error) β := do
  let bytes ← mapErr .badArgument (H.decode s)
  ofSlice algorithm bytes

/-- src/lib.rs:208 -/
def PublicKey.tryFromSlice : Algorithm → Bytes → Except (Stop C.Error) PublicKey :=
  BitcoinPqc.tryFromSlice C publicKeySize C.xOnlyFromSlice .badKey .mk

/-- src/lib.rs:226 -/
def PublicKey.fromStr : Algorithm → String → Except (Stop C.Error) PublicKey :=
  BitcoinPqc.fromStr C H (PublicKey.tryFromSlice C)

/-- src/lib.rs:265 -/
def SecretKey.tryFromSlice : Algorithm → Bytes → Except (Stop C.Error) SecretKey :=
  BitcoinPqc.tryFromSlice C secretKeySize C.secretKeyFromSlice .badKey .mk

/-- src/lib.rs:256 -/
def SecretKey.fromStr : Algorithm → String → Except (Stop C.Error) SecretKey :=
  BitcoinPqc.fromStr C H (SecretKey.tryFromSlice C)

/-- src/lib.rs:322 -/
def Signature.tryFromSlice : Algorithm → Bytes → Except (Stop C.Error) Signature :=
  BitcoinPqc.tryFromSlice C signatureSize C.signatureFromSlice .badSignature .mk

/-- src/lib.rs:341 -/
def Signature.fromStr : Algorithm → String → Except (Stop C.Error) Signature :=
  BitcoinPqc.fromStr C H (Signature.tryFromSlice C)

/-- The three accessors for the crate's own types. -/
def secp256k1View {α : Type} (parse : Bytes → Except C.Error α) (bad : PqcError C.Error) (algorithm : Algorithm)
    (bytes : Bytes) : Except (Stop C.Error) α :=
  if algorithm = .secp256k1Schnorr then mapErr bad (parse bytes) else .error (.err .algorithmMismatch)

/-- src/lib.rs:232 -/
def PublicKey.secp256k1Key (key : PublicKey) : Except (Stop C.Error) C.XOnlyPublicKey :=
  secp256k1View C C.xOnlyFromSlice .badKey key.algorithm key.bytes

/-- src/lib.rs:284 -/
def SecretKey.secp256k1Key (key : SecretKey) : Except (Stop C.Error) C.SecretKey :=
  secp256k1View C C.secretKeyFromSlice .badKey key.algorithm key.bytes

/-- src/lib.rs:347 -/
def Signature.secp256k1Signature (sig : Signature) : Except (Stop C.Error) C.Signature :=
  secp256k1View C C.signatureFromSlice .badSignature sig.algorithm sig.bytes

/-! ## The three operations -/

variable (V : Vendored) (S : Sys)

/-- `std::slice::from_raw_parts`, which must not be given null or more than the block holds. -/
def fromRawParts : Option Ptr → Nat → Exec World Bytes
  | none, _ => Exec.fault
  | some p, size => onHeap (Heap.read p size)

/-- The secp256k1 branch of `generate_keypair` (lib.rs:381-414). -/
def generateKeypairSecp (randomData : Bytes) : Except (Stop C.Error) KeyPair := do
  let requiredSize ← secretKeySize .secp256k1Schnorr
  if randomData.length < requiredSize then .error (.err .insufficientData)
  else do
    let keyData := randomData.take requiredSize
    let sk ← mapErr .badKey (C.secretKeyFromSlice keyData)
    let keypair := C.keypairFromSecretKey sk
    let pk := C.xOnlyFromKeypair keypair
    pure ⟨⟨.secp256k1Schnorr, (C.xOnlySerialize pk).toList⟩, ⟨.secp256k1Schnorr, (C.secretKeyAsRef sk).toList⟩⟩

/-- src/lib.rs:380 -/
def generateKeypair (algorithm : Algorithm) (randomData : Bytes) : ExceptT (Stop C.Error) (Exec World) KeyPair :=
  if algorithm = .secp256k1Schnorr then Exec.ofExcept (generateKeypairSecp C randomData)
  else if randomData.length < 128 then throw (.err .insufficientData)
  else do
    let alg ← Exec.ofExcept algorithm.toC
    let (result, keypair) ← bitcoinPqcKeygen V S alg (some ⟨alg, none, none, 0, 0⟩) (.buf randomData)
    if result ≠ .ok then do
      let _ ← bitcoinPqcKeypairFree keypair
      throw (.err (keygenError result))
    else do
      let kp ← (Exec.ofOption keypair : Exec World KeypairT)
      let pkBytes ← fromRawParts kp.publicKey kp.publicKeySize
      let skBytes ← fromRawParts kp.secretKey kp.secretKeySize
      let _ ← bitcoinPqcKeypairFree (some kp)
      pure ⟨⟨algorithm, pkBytes⟩, ⟨algorithm, skBytes⟩⟩

/-- The secp256k1 branch of `sign` (lib.rs:501-529). -/
def signSecp (secretKey : SecretKey) (message : Bytes) : Except (Stop C.Error) Signature :=
  let requiredSize := 32
  if message.length < requiredSize then .error (.err .insufficientData)
  else do
    let msgData := message.take requiredSize
    let sk ← secretKey.secp256k1Key C
    let keypair := C.keypairFromSecretKey sk
    let schnorrSig := C.signSchnorrNoAuxRand msgData keypair
    pure ⟨.secp256k1Schnorr, (C.signatureAsRef schnorrSig).toList⟩

/-- src/lib.rs:499. On a failure the C structure still has its null pointer and is not freed. -/
def sign (secretKey : SecretKey) (message : Bytes) : ExceptT (Stop C.Error) (Exec World) Signature :=
  if secretKey.algorithm = .secp256k1Schnorr then Exec.ofExcept (signSecp C secretKey message)
  else do
    let alg ← Exec.ofExcept secretKey.algorithm.toC
    let (result, signature) ← bitcoinPqcSign V S alg (.buf secretKey.bytes) (.buf message) (some ⟨alg, none, 0⟩)
    if result ≠ .ok then throw (.err (signError result))
    else do
      let sig ← (Exec.ofOption signature : Exec World SignatureT)
      let sigBytes ← fromRawParts sig.signature sig.signatureSize
      let _ ← bitcoinPqcSignatureFree (some sig)
      pure ⟨secretKey.algorithm, sigBytes⟩

/-- The secp256k1 branch of `verify` (lib.rs:601-621). -/
def verifySecp (publicKey : PublicKey) (message : Bytes) (signature : Signature) : Except (Stop C.Error) Unit :=
  let requiredSize := 32
  if message.length < requiredSize then .error (.err .insufficientData)
  else do
    let msgData := message.take requiredSize
    let pk ← publicKey.secp256k1Key C
    let sig ← signature.secp256k1Signature C
    (C.verifySchnorr sig msgData pk).mapError fun e => .err (.secp256k1Error e)

/-- src/lib.rs:590. The length of the signature is left to the C library. -/
def verify (publicKey : PublicKey) (message : Bytes) (signature : Signature) : Except (Stop C.Error) Unit :=
  if publicKey.algorithm ≠ signature.algorithm then .error (.err .algorithmMismatch)
  else if publicKey.algorithm = .secp256k1Schnorr then verifySecp C publicKey message signature
  else do
    let expectedLen ← publicKeySize publicKey.algorithm
    if publicKey.bytes.length ≠ expectedLen then .error (.err .badKey)
    else do
      let alg ← publicKey.algorithm.toC
      resultOfC (bitcoinPqcVerify V alg (.buf publicKey.bytes) (.buf message) (.buf signature.bytes))

end BitcoinPqc
