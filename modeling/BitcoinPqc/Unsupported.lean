import BitcoinPqc.SignVerify

/-!
# Algorithms without an implementation

The Rust tag is a byte of which three values are named; converting any other into the C enum
panics, and every function panics where it converts (`panics_iff`). The C entry points meet an
unimplemented algorithm at different checks: key generation and signing never get to the branch
that reports it, verification only with empty key and signature (`not_implemented_iff`).
-/
namespace BitcoinPqc
open CSem

/-! ## Panics of the Rust API -/

section
variable {ε α β : Type}

/-- The stop is one of the API's own errors. -/
def IsErr (stop : Stop ε) : Prop := ∃ e, stop = .err e

/-- A value or an error, no panic. -/
def Returns (r : Except (Stop ε) α) : Prop := ∀ stop, r = .error stop → IsErr stop

/-- A panic of the conversion if `c`, else a value or an error. -/
structure PanicsWhen (c : Prop) (r : Except (Stop ε) α) : Prop where
  panics : c → r = .error (.panic "Invalid algorithm")
  returns : ¬c → Returns r

theorem returns_ok (a : α) : Returns (.ok a : Except (Stop ε) α) := by
  rintro stop ⟨⟩

theorem returns_err (e : PqcError ε) : Returns (.error (.err e) : Except (Stop ε) α) := by
  rintro stop ⟨⟩
  exact ⟨e, rfl⟩

theorem Returns.bind {x : Except (Stop ε) α} {f : α → Except (Stop ε) β} (hx : Returns x) (hf : ∀ a, Returns (f a)) :
    Returns (x >>= f) := by
  cases x with
  | error stop =>
    rintro _ ⟨⟩
    exact hx stop rfl
  | ok a => exact hf a

theorem returns_mapErr {δ : Type} (e : PqcError ε) (r : Except δ α) : Returns (mapErr e r) := by
  cases r with
  | error d => exact returns_err e
  | ok a => exact returns_ok a

theorem returns_mapError {δ : Type} (f : δ → PqcError ε) (r : Except δ α) :
    Returns (r.mapError fun d => .err (f d)) := by
  cases r with
  | error d => exact returns_err (f d)
  | ok a => exact returns_ok a

namespace PanicsWhen
variable {c d : Prop} {x r : Except (Stop ε) α} {f : α → Except (Stop ε) β}

theorem never (h : Returns r) (hc : ¬c) : PanicsWhen c r := ⟨fun h => absurd h hc, fun _ => h⟩

theorem congr (h : PanicsWhen c r) (hcd : d ↔ c) : PanicsWhen d r := by
  rwa [propext hcd]

/-- What follows a conversion that succeeded does not panic. -/
theorem bind (hx : PanicsWhen c x) (hf : ¬c → ∀ a, Returns (f a)) : PanicsWhen c (x >>= f) := by
  refine ⟨?_, fun hc => (hx.returns hc).bind (hf hc)⟩
  intro hc
  rw [hx.panics hc]
  rfl

/-- A check before a conversion. -/
theorem checked {p : Prop} [Decidable p] {e : PqcError ε} (hr : PanicsWhen c r) :
    PanicsWhen (¬p ∧ c) (if p then .error (.err e) else r) := by
  split
  · rename_i hp
    exact never (returns_err e) fun h => h.1 hp
  · rename_i hp
    exact hr.congr (and_iff_right hp)

end PanicsWhen

theorem toC_panics (algorithm : Algorithm) :
    PanicsWhen (¬algorithm.Valid) (algorithm.toC : Except (Stop ε) AlgorithmT) := by
  constructor
  · intro hnot
    simp only [Algorithm.Valid, not_or] at hnot
    simp only [Algorithm.toC, hnot, if_false]
  · intro hvalid
    rcases not_not.mp hvalid with rfl | rfl | rfl <;> exact returns_ok _

theorem secp_valid : Algorithm.secp256k1Schnorr.Valid := .inl rfl

theorem ne_secp_of_not_valid {algorithm : Algorithm} (h : ¬algorithm.Valid) : algorithm ≠ .secp256k1Schnorr := by
  rintro rfl
  exact h secp_valid

/-- A size function returns a number, or panics. -/
theorem sizeOf_panics (secp : Nat) (table : AlgorithmT → Nat) (algorithm : Algorithm) :
    PanicsWhen (¬algorithm.Valid) (sizeOf secp table algorithm : Except (Stop ε) Nat) := by
  unfold sizeOf
  split
  · rename_i h
    exact .never (returns_ok _) (by rw [h]; exact not_not.mpr secp_valid)
  · exact (toC_panics algorithm).bind fun _ a => returns_ok (table a)

theorem sizeOf_valid (secp : Nat) (table : AlgorithmT → Nat) {algorithm : Algorithm} (h : algorithm.Valid) :
    ∃ n, (sizeOf secp table algorithm : Except (Stop ε) Nat) = .ok n := by
  rcases h.cases with rfl | ⟨a, ha⟩
  · exact ⟨secp, rfl⟩
  · exact ⟨table a, ha.sizeOf secp table⟩

end

section
variable (C : Secp256k1) (H : Hex.Codec)

theorem tryFromSlice_panics {α β : Type} {size : Algorithm → Except (Stop C.Error) Nat}
    (parse : Bytes → Except C.Error α) (bad : PqcError C.Error) (make : Algorithm → Bytes → β)
    {algorithm : Algorithm} (bytes : Bytes) (hsize : PanicsWhen (¬algorithm.Valid) (size algorithm)) :
    PanicsWhen (¬algorithm.Valid) (tryFromSlice C size parse bad make algorithm bytes) := by
  refine hsize.bind fun _ expectedLen => ?_
  split
  · exact returns_err bad
  split
  · exact (returns_mapErr bad _).bind fun _ => returns_ok _
  · exact returns_ok _

theorem slices_panic (algorithm : Algorithm) (bytes : Bytes) :
    PanicsWhen (¬algorithm.Valid) (PublicKey.tryFromSlice C algorithm bytes) ∧
    PanicsWhen (¬algorithm.Valid) (SecretKey.tryFromSlice C algorithm bytes) ∧
    PanicsWhen (¬algorithm.Valid) (Signature.tryFromSlice C algorithm bytes) :=
  ⟨tryFromSlice_panics C _ _ _ bytes (sizeOf_panics _ _ _), tryFromSlice_panics C _ _ _ bytes (sizeOf_panics _ _ _),
    tryFromSlice_panics C _ _ _ bytes (sizeOf_panics _ _ _)⟩

theorem fromStr_panics {β : Type} {ofSlice : Algorithm → Bytes → Except (Stop C.Error) β} {algorithm : Algorithm}
    (s : String) (hslice : ∀ bytes, PanicsWhen (¬algorithm.Valid) (ofSlice algorithm bytes)) :
    PanicsWhen (¬algorithm.Valid ∧ ∃ bytes, H.decode s = .ok bytes) (fromStr C H ofSlice algorithm s) := by
  unfold fromStr
  cases hs : H.decode s with
  | error e => exact .never (returns_err _) (by simp)
  | ok bytes => exact (hslice bytes).congr (by simp)

theorem secp256k1View_returns {α : Type} (parse : Bytes → Except C.Error α) (bad : PqcError C.Error)
    (algorithm : Algorithm) (bytes : Bytes) : Returns (secp256k1View C parse bad algorithm bytes) := by
  unfold secp256k1View
  split
  · exact returns_mapErr bad _
  · exact returns_err _

theorem generateKeypairSecp_returns (randomData : Bytes) : Returns (generateKeypairSecp C randomData) := by
  refine ((sizeOf_panics 32 bitcoinPqcSecretKeySize _).returns (not_not.mpr secp_valid)).bind fun requiredSize => ?_
  split
  · exact returns_err _
  · exact (returns_mapErr _ _).bind fun sk => returns_ok _

theorem signSecp_returns (secretKey : SecretKey) (message : Bytes) : Returns (signSecp C secretKey message) := by
  unfold signSecp
  dsimp only
  split
  · exact returns_err _
  · exact (secp256k1View_returns C _ _ _ _).bind fun sk => returns_ok _

theorem verifySecp_returns (publicKey : PublicKey) (message : Bytes) (signature : Signature) :
    Returns (verifySecp C publicKey message signature) := by
  unfold verifySecp
  dsimp only
  split
  · exact returns_err _
  · refine (secp256k1View_returns C _ _ _ _).bind fun pk => ?_
    exact (secp256k1View_returns C _ _ _ _).bind fun sig => returns_mapError _ _

theorem resultOfC_returns {ε : Type} (e : ErrorT) : Returns (resultOfC e : Except (Stop ε) Unit) := by
  cases e
  · exact returns_ok ()
  all_goals exact returns_err _

variable (V : Vendored) (S : Sys)

theorem verify_panics (publicKey : PublicKey) (message : Bytes) (signature : Signature) :
    PanicsWhen (publicKey.algorithm = signature.algorithm ∧ ¬publicKey.algorithm.Valid)
      (verify C V publicKey message signature) := by
  unfold verify
  refine (PanicsWhen.checked (c := ¬publicKey.algorithm.Valid) ?_).congr (by rw [not_not])
  split
  · rename_i h
    exact .never (verifySecp_returns C publicKey message signature) (by rw [h]; exact not_not.mpr secp_valid)
  · refine (sizeOf_panics 32 bitcoinPqcPublicKeySize _).bind fun hvalid expectedLen => ?_
    split
    · exact returns_err _
    · exact ((toC_panics _).returns hvalid).bind fun alg => resultOfC_returns _

/-! The two operations on the world: that they are defined is known, that they end in no panic is
read off their text. -/

theorem generateKeypair_stops (algorithm : Algorithm) (hvalid : algorithm.Valid) (randomData : Bytes) :
    Stops IsErr (generateKeypair C V S algorithm randomData) := by
  unfold generateKeypair
  split
  · exact .ofExcept (generateKeypairSecp_returns C randomData)
  split
  · exact .throw ⟨_, rfl⟩
  refine .bind (.ofExcept ((toC_panics algorithm).returns (not_not.mpr hvalid))) fun alg => ?_
  refine .step fun r => ?_
  split
  split
  · exact .step fun _ => .throw ⟨_, rfl⟩
  · exact .step fun kp => .step fun pkBytes => .step fun skBytes => .step fun _ => .pure _

theorem sign_stops (secretKey : SecretKey) (hvalid : secretKey.algorithm.Valid) (message : Bytes) :
    Stops IsErr (sign C V S secretKey message) := by
  unfold sign
  split
  · exact .ofExcept (signSecp_returns C secretKey message)
  refine .bind (.ofExcept ((toC_panics _).returns (not_not.mpr hvalid))) fun alg => ?_
  refine .step fun r => ?_
  split
  split
  · exact .throw ⟨_, rfl⟩
  · exact .step fun sig => .step fun sigBytes => .step fun _ => .pure _

theorem generateKeypair_panics {w : World} (hq : w.Quiet) (algorithm : Algorithm) (randomData : Bytes) :
    wp (generateKeypair C V S algorithm randomData).run w fun r _ =>
      PanicsWhen (¬algorithm.Valid ∧ 128 ≤ randomData.length) r := by
  by_cases hvalid : algorithm.Valid
  · have hdefined : wp (generateKeypair C V S algorithm randomData).run w fun _ _ => True := by
      rcases hvalid.cases with rfl | ⟨a, ha⟩
      · exact wp_run_ofExcept trivial
      · exact wp_mono (generateKeypair_wp C V S ha randomData hq) fun _ _ _ => trivial
    exact wp_mono ((generateKeypair_stops C V S algorithm hvalid randomData).wp hdefined) fun r _ h =>
      .never h fun hc => hc.1 hvalid
  · unfold generateKeypair
    rw [if_neg (ne_secp_of_not_valid hvalid)]
    split
    · rename_i hshort
      exact wp_run_throw (.never (returns_err _) fun hc => Nat.not_lt.mpr hc.2 hshort)
    · rename_i hlong
      refine wp_run_bind (wp_run_ofExcept ?_)
      rw [(toC_panics algorithm).panics hvalid]
      exact ⟨fun _ => rfl, fun hc => absurd ⟨hvalid, Nat.not_lt.mp hlong⟩ hc⟩

theorem sign_panics {w : World} (hq : w.Quiet) (secretKey : SecretKey) (message : Bytes) :
    wp (sign C V S secretKey message).run w fun r _ => PanicsWhen (¬secretKey.algorithm.Valid) r := by
  by_cases hvalid : secretKey.algorithm.Valid
  · have hdefined : wp (sign C V S secretKey message).run w fun _ _ => True := by
      rcases hvalid.cases with h | ⟨a, ha⟩
      · unfold sign
        rw [if_pos h]
        exact wp_run_ofExcept trivial
      · exact wp_mono (sign_wp C V S secretKey ha message hq) fun _ _ _ => trivial
    exact wp_mono ((sign_stops C V S secretKey hvalid message).wp hdefined) fun r _ h =>
      .never h (not_not.mpr hvalid)
  · unfold sign
    rw [if_neg (ne_secp_of_not_valid hvalid)]
    refine wp_run_bind (wp_run_ofExcept ?_)
    rw [(toC_panics _).panics hvalid]
    exact ⟨fun _ => rfl, fun hc => absurd hvalid hc⟩

end

/-- How the calls of the API end for one tag, from a world between two calls: each is defined, and
panics exactly when it gets to convert a tag without a name. -/
structure PanicsOnConversion (C : Secp256k1) (H : Hex.Codec) (V : Vendored) (S : Sys) (w : World)
    (algorithm : Algorithm) : Prop where
  generateKeypair : ∀ randomData, wp (generateKeypair C V S algorithm randomData).run w fun r _ =>
    PanicsWhen (¬algorithm.Valid ∧ 128 ≤ randomData.length) r
  sign : ∀ bytes message, wp (sign C V S ⟨algorithm, bytes⟩ message).run w fun r _ => PanicsWhen (¬algorithm.Valid) r
  verify : ∀ bytes message signature, PanicsWhen (algorithm = signature.algorithm ∧ ¬algorithm.Valid)
    (verify C V ⟨algorithm, bytes⟩ message signature)
  tryFromSlice : ∀ bytes, PanicsWhen (¬algorithm.Valid) (PublicKey.tryFromSlice C algorithm bytes) ∧
    PanicsWhen (¬algorithm.Valid) (SecretKey.tryFromSlice C algorithm bytes) ∧
    PanicsWhen (¬algorithm.Valid) (Signature.tryFromSlice C algorithm bytes)
  fromStr : ∀ s,
    PanicsWhen (¬algorithm.Valid ∧ ∃ bytes, H.decode s = .ok bytes) (PublicKey.fromStr C H algorithm s) ∧
    PanicsWhen (¬algorithm.Valid ∧ ∃ bytes, H.decode s = .ok bytes) (SecretKey.fromStr C H algorithm s) ∧
    PanicsWhen (¬algorithm.Valid ∧ ∃ bytes, H.decode s = .ok bytes) (Signature.fromStr C H algorithm s)
  sizes : PanicsWhen (¬algorithm.Valid) (publicKeySize algorithm : Except (Stop C.Error) Nat) ∧
    PanicsWhen (¬algorithm.Valid) (secretKeySize algorithm : Except (Stop C.Error) Nat) ∧
    PanicsWhen (¬algorithm.Valid) (signatureSize algorithm : Except (Stop C.Error) Nat)
  numbers : algorithm.Valid → (∃ n, (publicKeySize algorithm : Except (Stop C.Error) Nat) = .ok n) ∧
    (∃ n, (secretKeySize algorithm : Except (Stop C.Error) Nat) = .ok n) ∧
    ∃ n, (signatureSize algorithm : Except (Stop C.Error) Nat) = .ok n

/-- **Where the Rust API panics**: for every bit pattern of the tag, all bytes, strings and
messages, and whatever the crate, the schemes and the system do. -/
theorem panics_iff (C : Secp256k1) (H : Hex.Codec) (V : Vendored) (S : Sys) {w : World} (hq : w.Quiet)
    (algorithm : Algorithm) : PanicsOnConversion C H V S w algorithm where
  generateKeypair := generateKeypair_panics C V S hq algorithm
  sign bytes := sign_panics C V S hq ⟨algorithm, bytes⟩
  verify bytes := verify_panics C V ⟨algorithm, bytes⟩
  tryFromSlice := slices_panic C algorithm
  fromStr s := ⟨fromStr_panics C H s fun bytes => (slices_panic C algorithm bytes).1,
    fromStr_panics C H s fun bytes => (slices_panic C algorithm bytes).2.1,
    fromStr_panics C H s fun bytes => (slices_panic C algorithm bytes).2.2⟩
  sizes := ⟨sizeOf_panics _ _ _, sizeOf_panics _ _ _, sizeOf_panics _ _ _⟩
  numbers h := ⟨sizeOf_valid _ _ h, sizeOf_valid _ _ h, sizeOf_valid _ _ h⟩

/-- For the union of two named tags. -/
theorem panics_iff_union :
    PanicsOnConversion .sample .lower .sample (.sample .dilithium 0) .init ⟨3⟩ :=
  panics_iff .sample .lower .sample (.sample .dilithium 0) World.quiet_init ⟨3⟩

/-- `SECP256K1_SCHNORR | ML_DSA_44` -/
theorem union_panics :
    ¬Returns (publicKeySize ⟨3⟩ : Except (Stop Unit) Nat) ∧
    ¬Returns (PublicKey.tryFromSlice Secp256k1.sample ⟨3⟩ []) := by
  constructor
  · intro h
    obtain ⟨e, he⟩ := h (.panic "Invalid algorithm") rfl
    cases he
  · intro h
    obtain ⟨e, he⟩ := h (.panic "Invalid algorithm") rfl
    cases he

/-! ## The code for an unimplemented algorithm -/

section
variable (V : Vendored) (S : Sys) {a : AlgorithmT} (hml : a ≠ bitcoinPqcMlDsa44) (hslh : a ≠ bitcoinPqcSlhDsaShake128s)
include hml hslh

/-- Beside secp256k1 the size tables have nothing for it. -/
theorem sizes_eq_zero (hsecp : a ≠ bitcoinPqcSecp256k1Schnorr) :
    bitcoinPqcPublicKeySize a = 0 ∧ bitcoinPqcSignatureSize a = 0 :=
  ⟨(sizeSwitch_eq_zero (by decide) (by decide) (by decide) a).mpr ⟨hsecp, hml, hslh⟩,
    (sizeSwitch_eq_zero (by decide) (by decide) (by decide) a).mpr ⟨hsecp, hml, hslh⟩⟩

/-- The size checks and the placeholder for secp256k1 come before the default branch. -/
theorem bitcoinPqcKeygen_unsupported {w : World} {bytes : Bytes} (hlen : 128 ≤ bytes.length)
    (hserves : w.heap.Serves S.alloc [bitcoinPqcPublicKeySize a, bitcoinPqcSecretKeySize a]) (old : KeypairT) :
    wp (bitcoinPqcKeygen V S a (some old) (.buf bytes)) w fun r _ =>
      r.1 = if a = bitcoinPqcSecp256k1Schnorr then .badKey else .badArg := by
  have hlong : ¬(CBuf.buf bytes).size < 128 := Nat.not_lt.mpr hlen
  unfold bitcoinPqcKeygen
  rw [if_neg (by simp [CBuf.data]), if_neg hlong]
  dsimp only
  by_cases hsecp : a = bitcoinPqcSecp256k1Schnorr
  · subst hsecp
    rw [if_neg (by decide)]
    refine malloc_pair_wp S.alloc (fun _ _ hnot => absurd hserves hnot) ?_
    intro pk sk b₁ b₂ h₂ hne hpk hsk hb₁ hb₂ h₂eq
    refine wp_bind (wp_pure ?_)
    dsimp only
    rw [if_pos (by decide)]
    refine wp_bind (wp_mono (free_pair_wp hne hpk hsk h₂eq fun h₃ _ => ?_) fun _ _ h => wp_bind h)
    exact wp_pure rfl
  · rw [if_pos (.inl (sizes_eq_zero hml hslh hsecp).1), if_neg hsecp]
    exact wp_pure rfl

theorem bitcoinPqcSign_unsupported {w : World} {sk : Bytes}
    (hserves : w.heap.Serves S.alloc [bitcoinPqcSignatureSize a]) (m : Bytes) (old : SignatureT) :
    wp (bitcoinPqcSign V S a (.buf sk) (.buf m) (some old)) w fun r _ =>
      r.1 = if sk.length ≠ bitcoinPqcSecretKeySize a then .badKey
        else if a = bitcoinPqcSecp256k1Schnorr then .badSignature else .badArg := by
  unfold bitcoinPqcSign
  rw [if_neg (by simp [CBuf.data])]
  by_cases hsize : (CBuf.buf sk).size ≠ bitcoinPqcSecretKeySize a
  · have hlen : sk.length ≠ bitcoinPqcSecretKeySize a := hsize
    rw [if_pos hsize, if_pos hlen]
    exact wp_pure rfl
  have hlen : ¬sk.length ≠ bitcoinPqcSecretKeySize a := hsize
  rw [if_neg hsize, if_neg hlen]
  dsimp only
  by_cases hsecp : a = bitcoinPqcSecp256k1Schnorr
  · subst hsecp
    rw [if_neg (by decide), if_pos rfl]
    refine wp_bind (onHeap_wp (Heap.malloc_wp (fun _ _ h => absurd h (Heap.serves_pick hserves)) ?_))
    intro p b h₁ _ hp hb h₁eq
    rw [if_neg (by simp)]
    refine wp_bind (wp_pure ?_)
    dsimp only
    rw [if_pos (by decide)]
    exact wp_bind (free_wp_world (b := b) (by rw [h₁eq, Function.update_self]) fun h₂ _ => wp_pure rfl)
  · rw [if_pos (sizes_eq_zero hml hslh hsecp).2, if_neg hsecp]
    exact wp_pure rfl

theorem bitcoinPqcVerify_unsupported (pk m sig : Bytes) :
    bitcoinPqcVerify V a (.buf pk) (.buf m) (.buf sig) =
      if pk.length ≠ bitcoinPqcPublicKeySize a then .badKey
      else if sig.length ≠ bitcoinPqcSignatureSize a then .badSignature
      else if a = bitcoinPqcSecp256k1Schnorr then .badSignature else .notImplemented := by
  rw [bitcoinPqcVerify_buf]
  by_cases hsecp : a = bitcoinPqcSecp256k1Schnorr <;> simp [verifySwitch, hsecp, hml, hslh]

end

/-- A call that reports `BITCOIN_PQC_ERROR_NOT_IMPLEMENTED`. -/
def ReportsNotImplemented {α : Type} (x : Exec World (ErrorT × α)) (w : World) : Prop :=
  wp x w fun r _ => r.1 = .notImplemented

theorem reportsNotImplemented_iff {α : Type} {x : Exec World (ErrorT × α)} {w : World} {e : ErrorT}
    (h : wp x w fun r _ => r.1 = e) : ReportsNotImplemented x w ↔ e = .notImplemented := by
  constructor
  · rintro ⟨r, w', hrun, hr⟩
    exact (h.of_run hrun).symm.trans hr
  · rintro rfl
    exact h

/-- **Which calls report an unimplemented algorithm**, under a number the library does not
implement, with pointers that are not null, enough entropy and memory: no key generation, no
signing, and a verification exactly when the number is not secp256k1's and key and signature are
empty. -/
theorem not_implemented_iff (V : Vendored) (S : Sys) {a : AlgorithmT} (hml : a ≠ bitcoinPqcMlDsa44)
    (hslh : a ≠ bitcoinPqcSlhDsaShake128s) {w : World} {bytes : Bytes} (hlen : 128 ≤ bytes.length)
    (hkeygen : w.heap.Serves S.alloc [bitcoinPqcPublicKeySize a, bitcoinPqcSecretKeySize a])
    (hsign : w.heap.Serves S.alloc [bitcoinPqcSignatureSize a]) (oldKeys : KeypairT) (oldSig : SignatureT)
    (pk sk m sig : Bytes) :
    (ReportsNotImplemented (bitcoinPqcKeygen V S a (some oldKeys) (.buf bytes)) w ↔ False) ∧
    (ReportsNotImplemented (bitcoinPqcSign V S a (.buf sk) (.buf m) (some oldSig)) w ↔ False) ∧
    (bitcoinPqcVerify V a (.buf pk) (.buf m) (.buf sig) = .notImplemented ↔
      a ≠ bitcoinPqcSecp256k1Schnorr ∧ pk.length = 0 ∧ sig.length = 0) := by
  refine ⟨?_, ?_, ?_⟩
  · rw [reportsNotImplemented_iff (bitcoinPqcKeygen_unsupported V S hml hslh hlen hkeygen oldKeys)]
    split <;> simp
  · rw [reportsNotImplemented_iff (bitcoinPqcSign_unsupported V S hml hslh hsign m oldSig)]
    split
    · simp
    split <;> simp
  · rw [bitcoinPqcVerify_unsupported V hml hslh]
    by_cases hsecp : a = bitcoinPqcSecp256k1Schnorr
    · refine iff_of_false ?_ fun h => h.1 hsecp
      rw [if_pos hsecp]
      split
      · simp
      split <;> simp
    · obtain ⟨hpk, hsig⟩ := sizes_eq_zero hml hslh hsecp
      rw [if_neg hsecp, hpk, hsig]
      by_cases hpk₀ : pk.length = 0 <;> by_cases hsig₀ : sig.length = 0 <;> simp [hsecp, hpk₀, hsig₀]

/-- An unknown number with empty key and signature, and no memory needed for it. -/
theorem not_implemented_iff_unknown :
    bitcoinPqcVerify .sample 7 (.buf []) (.buf [1]) (.buf []) = .notImplemented :=
  (not_implemented_iff .sample (.sample .dilithium 0) (by decide) (by decide)
    (Nat.le_of_eq (List.length_replicate (a := (0 : UInt8))).symm) (Heap.bump_serves _ _ World.init.heap)
    (Heap.bump_serves _ _ _) .zero .zero [] [] [1] []).2.2.mpr ⟨by decide, rfl, rfl⟩

/-- The number of secp256k1, with a key and a signature of its sizes. -/
theorem secp256k1_not_reported :
    ¬ ∀ (V : Vendored) (S : Sys) (a : AlgorithmT) (w : World) (bytes pk sk m sig : Bytes), a ≠ bitcoinPqcMlDsa44 →
      a ≠ bitcoinPqcSlhDsaShake128s → 128 ≤ bytes.length →
      w.heap.Serves S.alloc [bitcoinPqcPublicKeySize a, bitcoinPqcSecretKeySize a] →
      w.heap.Serves S.alloc [bitcoinPqcSignatureSize a] →
      ReportsNotImplemented (bitcoinPqcKeygen V S a (some .zero) (.buf bytes)) w ∧
      ReportsNotImplemented (bitcoinPqcSign V S a (.buf sk) (.buf m) (some .zero)) w ∧
      bitcoinPqcVerify V a (.buf pk) (.buf m) (.buf sig) = .notImplemented := by
  intro h
  have hlen : 128 ≤ (List.replicate 128 (0 : UInt8)).length := Nat.le_of_eq (List.length_replicate ..).symm
  have hreport := (h .sample (.sample .dilithium 0) bitcoinPqcSecp256k1Schnorr .init _ (List.replicate 32 0) [] []
    (List.replicate 64 0) (by decide) (by decide) hlen (Heap.bump_serves _ _ _) (Heap.bump_serves _ _ _)).2.2
  rw [bitcoinPqcVerify_unsupported .sample (by decide) (by decide), if_neg (by decide), if_neg (by decide),
    if_pos rfl] at hreport
  cases hreport

end BitcoinPqc
