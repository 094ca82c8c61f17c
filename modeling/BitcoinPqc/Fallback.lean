import BitcoinPqc.Agreement

/-!
# When the native library does not load

Both modules then go on with a stand-in of their own. Node's only pretends: it accepts whatever has
the sizes of the algorithm. Python's compares the beginning of the signature with a hash of the
message, which its own `sign` writes there; the key plays no part. With the library, Node accepts
nothing the library does not (`fallback_verdicts`).

| here | there |
| --- | --- |
| `Node.getLibrary`, `Node.mock` | nodejs/src/library.ts:5-12, :48-177 |
| `Python.selectLib`, `Python.mockLib` | python/bitcoinpqc/bitcoinpqc.py:98-144, :162-311 |

SHA-256 of `hashlib` is a parameter, and so is the stand-in's `keygen` in Python, which hands out
pointers into the interpreter's own objects.
-/
namespace BitcoinPqc
open CSem Checks

/-! ## Node -/

namespace Node

structure KeySizeConfig where
  publicKey : Nat
  secretKey : Nat
  signature : Nat

/-- library.ts:50 -/
def mockKeySizes (algorithm : AlgorithmT) : Option KeySizeConfig :=
  if algorithm = Algorithm.secp256k1Schnorr.value then some ⟨32, 32, 64⟩
  else if algorithm = Algorithm.mlDsa44.value then some ⟨1312, 2528, 2420⟩
  else if algorithm = Algorithm.slhDsaShake128s.value then some ⟨32, 64, 7856⟩
  else none

def mockPublicKeySize (algorithm : AlgorithmT) : Nat := ((mockKeySizes algorithm).map (·.publicKey)).getD 0

def mockSecretKeySize (algorithm : AlgorithmT) : Nat := ((mockKeySizes algorithm).map (·.secretKey)).getD 0

def mockSignatureSize (algorithm : AlgorithmT) : Nat := ((mockKeySizes algorithm).map (·.signature)).getD 0

/-- `size` cells of a new array; those below the length of `randomData` are read from it from
`start` on. Past its end it reads as `undefined`, which an array of bytes stores as 0. -/
def mockFill (size start : Nat) (randomData : Bytes) : Bytes :=
  (List.range size).map fun i => if i < randomData.length then randomData[i + start]?.getD 0 else 0

variable (E : Host)

/-- library.ts:80 -/
def mockKeygen (algorithm : AlgorithmT) (randomData : Uint8Array) : ExceptT Thrown (Exec World) KeygenResult :=
  let randomData := randomData.contents
  if randomData.length < 128 then pure ⟨E.newUint8Array [], E.newUint8Array [], badArgument⟩
  else if algorithm < 0 ∨ algorithm > 3 then pure ⟨E.newUint8Array [], E.newUint8Array [], badArgument⟩
  else pure ⟨E.newUint8Array (mockFill (mockPublicKeySize algorithm) 0 randomData),
    E.newUint8Array (mockFill (mockSecretKeySize algorithm) (randomData.length / 2) randomData), ok⟩

/-- library.ts:150: "Here we're just pretending it's valid". -/
def mockVerify (algorithm : AlgorithmT) (publicKey _message signature : Uint8Array) : Int :=
  if algorithm < 0 ∨ algorithm > 3 then badArgument
  else if publicKey.contents.length ≠ mockPublicKeySize algorithm then badKey
  else if signature.contents.length ≠ mockSignatureSize algorithm then badSignature
  else ok

def mock : Native := ⟨mockKeygen E, mockVerify⟩

/-- library.ts:175: `none` when `require` threw. -/
def getLibrary (nativeAddon : Option Native) : Native := nativeAddon.getD (mock E)

def SignatureArg.sigBytes : SignatureArg → Uint8Array
  | .signature s => s.bytes
  | .bytes bs => bs

theorem verify_ok_iff (lib : Native) (publicKey : PublicKey) (message : Uint8Array) (sig : SignatureArg) :
    verify lib publicKey message sig = .ok () ↔
      lib.verify publicKey.algorithm.value publicKey.bytes message sig.sigBytes = ok := by
  have hverify : verify lib publicKey message sig =
      let result := lib.verify publicKey.algorithm.value publicKey.bytes message sig.sigBytes
      if result ≠ ok then .error (.pqc (.ofCode result)) else .ok () := by cases sig <;> rfl
  rw [hverify, reject_ok_iff, not_not]
  exact and_iff_left rfl

/-- The stand-in has the library's sizes for public keys and signatures. -/
theorem mock_sizes (a : Algorithm) : mockPublicKeySize a.value = bitcoinPqcPublicKeySize a.value ∧
    mockSignatureSize a.value = bitcoinPqcSignatureSize a.value ∧ ¬(a.value < 0 ∨ a.value > 3) := by
  cases a <;> decide

theorem mockVerify_iff (a : Algorithm) (pk m sig : Uint8Array) :
    mockVerify a.value pk m sig = ok ↔
      pk.contents.length = bitcoinPqcPublicKeySize a.value ∧ sig.contents.length = bitcoinPqcSignatureSize a.value := by
  obtain ⟨hpk, hsig, hrange⟩ := mock_sizes a
  unfold mockVerify
  rw [if_neg hrange, hpk, hsig]
  split
  · rename_i h
    exact iff_of_false (by decide) fun hc => h hc.1
  split
  · rename_i h
    exact iff_of_false (by decide) fun hc => h hc.2
  · rename_i hpk' hsig'
    exact iff_of_true rfl ⟨not_not.mp hpk', not_not.mp hsig'⟩

end Node

/-! ## Python -/

namespace Python

/-- `sizes.get(algorithm, other)` -/
def sizesGet (secp fn ml slh other : Nat) (algorithm : AlgorithmT) : Nat :=
  if algorithm = Algorithm.secp256k1Schnorr.value then secp
  else if algorithm = Algorithm.fnDsa512.value then fn
  else if algorithm = Algorithm.mlDsa44.value then ml
  else if algorithm = Algorithm.slhDsaShake128s.value then slh
  else other

/-- bitcoinpqc.py:173 -/
def mockPublicKeySize : AlgorithmT → Nat := sizesGet 32 897 1312 32 32

/-- bitcoinpqc.py:191 -/
def mockSignatureSize : AlgorithmT → Nat := sizesGet 64 666 2420 7856 64

variable (sha256 : Bytes → Vector UInt8 32)

/-- bitcoinpqc.py:269 -/
def mockVerify (algorithm : AlgorithmT) (publicKey message signature : Bytes) : Int :=
  if publicKey.length ≠ mockPublicKeySize algorithm then -2
  else if signature.length ≠ mockSignatureSize algorithm then -3
  else
    let digest := (sha256 message).toList
    if (List.range (min 16 (min signature.length digest.length))).any fun i => signature[i]? ≠ digest[i]? then -3
    else 0

def mockLib (keygen : AlgorithmT → KeypairT → Bytes → Exec World (Int × KeypairT)) : Lib :=
  ⟨keygen, mockVerify sha256⟩

/-- What `ctypes.CDLL` does: it raises, or finds a library that has some functions. -/
inductive Found where
  | raised
  | library (has : String → Bool)

def requiredFunctions : List String :=
  ["bitcoin_pqc_public_key_size", "bitcoin_pqc_secret_key_size", "bitcoin_pqc_signature_size", "bitcoin_pqc_keygen",
    "bitcoin_pqc_keypair_free", "bitcoin_pqc_sign", "bitcoin_pqc_signature_free", "bitcoin_pqc_verify"]

/-- bitcoinpqc.py:101-144. What the second attempt finds is not checked; the prototypes declared
after it name every function, and one that is missing there ends the import. -/
def selectLib (native mock : Lib) (atPath byName : Found) : Option Lib :=
  match atPath with
  | .library has => if requiredFunctions.all has then some native else some mock
  | .raised =>
    match byName with
    | .library has => if requiredFunctions.all has then some native else none
    | .raised => some mock

def SignatureArg.sigBytes : SignatureArg → Bytes
  | .signature s => s.signature
  | .bytes bs => bs

theorem verify_iff (lib : Lib) (algorithm : Algorithm) (pk m : Bytes) (sig : SignatureArg) :
    verify lib algorithm pk m sig = true ↔ lib.verify algorithm.value pk m sig.sigBytes = 0 := by
  have hverify : verify lib algorithm pk m sig = decide (lib.verify algorithm.value pk m sig.sigBytes = 0) := by
    cases sig <;> rfl
  rw [hverify, decide_eq_true_iff]

theorem selectLib_cases {native mock lib : Lib} {atPath byName : Found}
    (h : selectLib native mock atPath byName = some lib) : lib = native ∨ lib = mock := by
  unfold selectLib at h
  split at h
  · split at h
    · exact .inl (Option.some.inj h).symm
    · exact .inr (Option.some.inj h).symm
  · split at h
    · split at h
      · exact .inl (Option.some.inj h).symm
      · cases h
    · exact .inr (Option.some.inj h).symm

theorem any_differs_iff (xs ys : Bytes) (n : Nat) :
    ((List.range n).any fun i => xs[i]? ≠ ys[i]?) = false ↔ xs.take n = ys.take n := by
  have hany : ((List.range n).any fun i => xs[i]? ≠ ys[i]?) = false ↔ ∀ i < n, xs[i]? = ys[i]? := by
    simp
  rw [hany]
  constructor
  · intro h
    apply List.ext_getElem?
    intro i
    rw [List.getElem?_take, List.getElem?_take]
    split
    · rename_i hi
      exact h i hi
    · rfl
  · intro h i hi
    have hget := congrArg (·[i]?) h
    simpa [List.getElem?_take, hi] using hget

/-- No signature size is below the 16 bytes the loop looks at. -/
theorem mockSignatureSize_ge (a : Algorithm) : 16 ≤ mockSignatureSize a.value := by
  cases a <;> decide

theorem mockVerify_iff (a : Algorithm) (pk m sig : Bytes) :
    mockVerify sha256 a.value pk m sig = 0 ↔ pk.length = mockPublicKeySize a.value ∧
      sig.length = mockSignatureSize a.value ∧ sig.take 16 = (sha256 m).toList.take 16 := by
  have hfirst : sig.length = mockSignatureSize a.value → min 16 (min sig.length (sha256 m).toList.length) = 16 := by
    intro h
    have hge := mockSignatureSize_ge a
    rw [Vector.length_toList]
    omega
  unfold mockVerify
  split
  · rename_i h
    exact iff_of_false (by decide) fun hc => h hc.1
  split
  · rename_i h
    exact iff_of_false (by decide) fun hc => h hc.2.1
  rename_i hpk hsig
  have hsizes : pk.length = mockPublicKeySize a.value ∧ sig.length = mockSignatureSize a.value :=
    ⟨not_not.mp hpk, not_not.mp hsig⟩
  simp only [hfirst hsizes.2]
  rw [← any_differs_iff]
  cases ((List.range 16).any fun i => sig[i]? ≠ (sha256 m).toList[i]?) <;> simp [hsizes]

end Python

/-! ## The verdicts -/

section
variable (E : Node.Host) (V : Vendored) (S : Sys) (sha256 : Bytes → Vector UInt8 32)
  (keygen : AlgorithmT → KeypairT → Bytes → Exec World (Int × KeypairT))

theorem node_native_sound (n : PqcName) (pk m : Node.Uint8Array) (sig : Node.SignatureArg)
    (h : Node.verify (Node.getLibrary E (some (Node.addon E V S))) ⟨n.node, pk⟩ m sig = .ok ()) :
    bitcoinPqcVerify V n.c (.buf pk.contents) (.buf m.contents) (.buf sig.sigBytes.contents) = .ok := by
  rw [Node.verify_ok_iff, n.node_value] at h
  exact (bitcoinPqcVerify_ok_iff V).mpr (addonVerify_iff n |>.mp h).1

theorem node_mock_iff (n : PqcName) (pk m : Node.Uint8Array) (sig : Node.SignatureArg) :
    Node.verify (Node.getLibrary E none) ⟨n.node, pk⟩ m sig = .ok () ↔
      pk.contents.length = bitcoinPqcPublicKeySize n.c ∧ sig.sigBytes.contents.length = bitcoinPqcSignatureSize n.c := by
  rw [Node.verify_ok_iff, ← n.node_value]
  exact Node.mockVerify_iff n.node pk m sig.sigBytes

/-- Python's stand-in has the sizes of the algorithm a name stands for. -/
theorem python_mock_sizes (n : PqcName) : Python.mockPublicKeySize n.python.value = bitcoinPqcPublicKeySize n.c ∧
    Python.mockSignatureSize n.python.value = bitcoinPqcSignatureSize n.c := by
  cases n <;> decide

/-- **What a success means under each backend** that loading may select. The sizes in Python's
stand-in are those of the algorithm a name stands for. -/
theorem fallback_verdicts :
    (∀ n pk m sig, Node.verify (Node.getLibrary E (some (Node.addon E V S))) ⟨PqcName.node n, pk⟩ m sig = .ok () →
      bitcoinPqcVerify V n.c (.buf pk.contents) (.buf m.contents) (.buf sig.sigBytes.contents) = .ok) ∧
    (∀ n pk m sig, Node.verify (Node.getLibrary E none) ⟨PqcName.node n, pk⟩ m sig = .ok () ↔
      pk.contents.length = bitcoinPqcPublicKeySize n.c ∧
      sig.sigBytes.contents.length = bitcoinPqcSignatureSize n.c) ∧
    (∀ n : PqcName, Python.mockPublicKeySize n.python.value = bitcoinPqcPublicKeySize n.c ∧
      Python.mockSignatureSize n.python.value = bitcoinPqcSignatureSize n.c) ∧
    ∀ atPath byName lib,
      Python.selectLib (Python.ctypes V S) (Python.mockLib sha256 keygen) atPath byName = some lib →
      (lib = Python.ctypes V S ∧ ∀ a pk m sig, Python.verify lib a pk m sig = true ↔
        bitcoinPqcVerify V a.value (.buf pk) (.buf m) (.buf sig.sigBytes) = .ok) ∨
      (lib = Python.mockLib sha256 keygen ∧ ∀ a pk m sig, Python.verify lib a pk m sig = true ↔
        pk.length = Python.mockPublicKeySize a.value ∧ sig.sigBytes.length = Python.mockSignatureSize a.value ∧
        sig.sigBytes.take 16 = (sha256 m).toList.take 16) := by
  refine ⟨fun n pk m sig => node_native_sound E V S n pk m sig, node_mock_iff E, python_mock_sizes, ?_⟩
  intro atPath byName lib hselect
  rcases Python.selectLib_cases hselect with rfl | rfl
  · refine .inl ⟨rfl, fun a pk m sig => ?_⟩
    rw [Python.verify_iff]
    exact ErrorT.code_eq_zero
  · refine .inr ⟨rfl, fun a pk m sig => ?_⟩
    rw [Python.verify_iff]
    exact Python.mockVerify_iff sha256 a pk m sig.sigBytes

end

/-- Schemes whose ML-DSA verifier accepts nothing. -/
def Vendored.rejecting : Vendored := { Vendored.sample with dilithiumVerify := fun _ _ _ _ => -1 }

theorem rejecting_rejects (pk m sig : Bytes) :
    bitcoinPqcVerify .rejecting bitcoinPqcMlDsa44 (.buf pk) (.buf m) (.buf sig) ≠ .ok := by
  rw [Ne, bitcoinPqcVerify_ok_iff]
  rintro ⟨-, hsize, hverify⟩
  rw [verifySwitch_sized .rejecting .mlDsa44 hsize] at hverify
  cases hverify

/-- A key and a signature of zeros. -/
theorem mock_accepts_what_is_rejected :
    ¬ ∀ (E : Node.Host) (V : Vendored) (S : Sys) (nativeAddon : Option Node.Native) (n : PqcName)
        (pk m sig : Node.Uint8Array), nativeAddon = none ∨ nativeAddon = some (Node.addon E V S) →
      Node.verify (Node.getLibrary E nativeAddon) ⟨n.node, pk⟩ m (.bytes sig) = .ok () →
      bitcoinPqcVerify V n.c (.buf pk.contents) (.buf m.contents) (.buf sig.contents) = .ok := by
  intro h
  have haccepted := (node_mock_iff .sample .mlDsa44 (.sample (List.replicate 1312 0)) (.sample [1])
    (.bytes (.sample (List.replicate 2420 0)))).mpr ⟨List.length_replicate .., List.length_replicate ..⟩
  exact rejecting_rejects _ _ _ (h .sample .rejecting (.sample .dilithium 0) none .mlDsa44 _ _ _ (.inl rfl) haccepted)

end BitcoinPqc
