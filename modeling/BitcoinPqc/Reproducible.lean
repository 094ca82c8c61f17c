import BitcoinPqc.Session

/-!
# What keys and signatures depend on

Under the link of the CMake build (`randombytes` of dilithium/ref, the first definition listed in
`CUSTOM_RANDOMBYTES`) both schemes draw from the ML-DSA source. Its seed reaches ML-DSA: keys
depend on the first 32 bytes of the caller's entropy (`keygen_reproducible`), signatures on key
and message. SLH-DSA key generation reads its 48 bytes from the caller's buffer, but SLH-DSA
signing installs its seed in the other source: the 16 bytes it draws come from the random device,
and two signatures on one key and message agree for every scheme only if the device repeats
itself (`sign_deterministic_iff`).
-/
namespace BitcoinPqc
open CSem

variable {ι κ : Type} [DecidableEq ι] [DecidableEq κ]

/-- A sequence of API calls leads from the start of the program to `w`. -/
def Reaches (S : Sys) (calls : List (Vendored × Call ι κ)) (w : World) : Prop :=
  ∃ s : Session ι κ, runAll (Session.step S) calls .init = some s ∧ s.world = w

theorem Reaches.quiet {S : Sys} {calls : List (Vendored × Call ι κ)} {w : World} (h : Reaches S calls w) :
    w.Quiet := by
  obtain ⟨s, hrun, rfl⟩ := h
  obtain ⟨s', hrun', hinv⟩ := Session.inv_run S calls Session.inv_init
  rw [hrun] at hrun'
  cases hrun'
  exact hinv.quiet

/-! ## Draws under the dilithium link -/

section
variable {S : Sys} (hl : S.link = .dilithium)
include hl

theorem drawn_ml (w : World) {b : Bytes} {n : Nat} (hpos : 0 < b.length) (hn : n ≤ b.length) (call : Nat) :
    S.drawn { w with ml := .install (.buf b) call } n = b.take n := by
  simp only [Sys.drawn, hl, Source.install_buf]
  rw [Source.delivers_seeded (b := ⟨b, call⟩) hpos, cyc_take hn]

theorem drawn_cleared {w : World} (hw : w.ml = .cleared) (slh : Source) (n : Nat) :
    S.drawn { w with slh := slh } n = deviceBytes S w.opens n := by
  simp only [Sys.drawn, hl, hw, Source.delivers_cleared]

variable (V : Vendored)

theorem keygenScheme_ml (w : World) {bytes : Bytes} (hlen : 128 ≤ bytes.length) :
    keygenScheme V S w bitcoinPqcMlDsa44 bytes =
      let out := V.dilithiumKeypair (bytes.take Dilithium.seedbytes)
      some (out.result, out.pk, out.sk) := by
  have hdraw : S.drawn { w with ml := .install (.buf bytes) w.call } Dilithium.seedbytes =
      bytes.take Dilithium.seedbytes := drawn_ml hl w (by omega) (Nat.le_trans (by decide) hlen) _
  simp only [keygenScheme, if_true, mlKeys, hdraw]

/-- ML-DSA signs with the first 32 bytes of SHAKE256 of key and message, under the empty context. -/
theorem signScheme_ml (w : World) (m sk : Bytes) :
    signScheme V S w bitcoinPqcMlDsa44 m sk =
      let rnd := shake256Of V.keccakF1600StatePermute (sk ++ m) Dilithium.rndbytes
      let out := V.dilithiumSignature m [0, 0] rnd sk
      some (mlSigResult out, out.sig) := by
  have hlen : (mlSeed V m sk).length = seedSize := length_shake256Of _ _ _
  have hdraw : S.drawn { w with ml := .install (.buf (mlSeed V m sk)) w.call } Dilithium.rndbytes =
      (mlSeed V m sk).take Dilithium.rndbytes :=
    drawn_ml hl w (by rw [hlen]; decide) (by rw [hlen]; decide) _
  have hrnd : (mlSeed V m sk).take Dilithium.rndbytes =
      shake256Of V.keccakF1600StatePermute (sk ++ m) Dilithium.rndbytes := shake256Of_take _ _ (by decide)
  simp only [signScheme, if_true, mlSig, hdraw, hrnd]
  rfl

theorem signScheme_slh {w : World} (hw : w.ml = .cleared) (m sk : Bytes) :
    signScheme V S w bitcoinPqcSlhDsaShake128s m sk =
      let out := V.spxSignature m sk (deviceBytes S w.opens Spx.n)
      some (out.result, out.sig) := by
  have hdraw := drawn_cleared hl hw (.install (.buf (slhSeedIn S w m sk)) w.call) Spx.n
  simp only [signScheme, algorithms_ne, if_true, if_false, slhSig, hdraw]

end

/-! ## Signing -/

/-- Two successful sign calls on one key and message return the same bytes, whatever the vendored
schemes compute. -/
def SignDeterministic (S₁ S₂ : Sys) (w₁ w₂ : World) (algorithm : AlgorithmT) (sk m : Bytes) : Prop :=
  ∀ (V : Vendored) (old₁ old₂ s₁ s₂ : SignatureT) (w₁' w₂' : World),
    bitcoinPqcSign V S₁ algorithm (.buf sk) (.buf m) (some old₁) w₁ = some ((.ok, some s₁), w₁') →
    bitcoinPqcSign V S₂ algorithm (.buf sk) (.buf m) (some old₂) w₂ = some ((.ok, some s₂), w₂') →
    s₁.bytes w₁' = s₂.bytes w₂'

/-- The bytes of a successful sign call are what the scheme computed. -/
theorem sign_bytes {V : Vendored} {S : Sys} {w w' : World} (hq : w.Quiet) {algorithm : AlgorithmT}
    {sk m : Bytes} {old s : SignatureT}
    (hrun : bitcoinPqcSign V S algorithm (.buf sk) (.buf m) (some old) w = some ((.ok, some s), w')) :
    ∃ p h₁ sig, w.heap.malloc S.alloc (bitcoinPqcSignatureSize algorithm) = some (some p, h₁) ∧
      signScheme V S { w with heap := h₁ } algorithm m sk = some (0, sig) ∧ s.bytes w' = some sig := by
  have hpost := (bitcoinPqcSign_wp V S algorithm (.buf sk) (.buf m) (some old) hq).of_run hrun
  obtain ⟨_, _, p, h₁, sig, _, ⟨⟩, ⟨⟩, -, hmalloc, hscheme, ⟨⟩, hbytes⟩ := hpost.2.ok
  exact ⟨p, h₁, sig, hmalloc, hscheme, hbytes⟩

section
variable {S₁ S₂ : Sys} (hl₁ : S₁.link = .dilithium) (hl₂ : S₂.link = .dilithium) {w₁ w₂ : World}
  (hq₁ : w₁.Quiet) (hq₂ : w₂.Quiet) {sk m : Bytes}
include hl₁ hl₂ hq₁ hq₂

theorem ml_sign_deterministic : SignDeterministic S₁ S₂ w₁ w₂ bitcoinPqcMlDsa44 sk m := by
  intro V old₁ old₂ s₁ s₂ w₁' w₂' hrun₁ hrun₂
  obtain ⟨_, _, sig₁, -, hs₁, hb₁⟩ := sign_bytes hq₁ hrun₁
  obtain ⟨_, _, sig₂, -, hs₂, hb₂⟩ := sign_bytes hq₂ hrun₂
  rw [signScheme_ml hl₁] at hs₁
  rw [signScheme_ml hl₂, hs₁] at hs₂
  cases hs₂
  rw [hb₁, hb₂]

theorem slh_sign_deterministic
    (hdev : deviceBytes S₁ w₁.opens Spx.n = deviceBytes S₂ w₂.opens Spx.n) :
    SignDeterministic S₁ S₂ w₁ w₂ bitcoinPqcSlhDsaShake128s sk m := by
  intro V old₁ old₂ s₁ s₂ w₁' w₂' hrun₁ hrun₂
  obtain ⟨_, h₁, sig₁, -, hs₁, hb₁⟩ := sign_bytes hq₁ hrun₁
  obtain ⟨_, h₂, sig₂, -, hs₂, hb₂⟩ := sign_bytes hq₂ hrun₂
  rw [signScheme_slh hl₁ V (w := { w₁ with heap := h₁ }) hq₁.1] at hs₁
  rw [signScheme_slh hl₂ V (w := { w₂ with heap := h₂ }) hq₂.1] at hs₂
  simp only [hdev] at hs₁
  rw [hs₁] at hs₂
  cases hs₂
  rw [hb₁, hb₂]

/-- A signer that puts its randomness into the signature tells two devices apart. -/
theorem slh_sign_not_deterministic (hsk : sk.length = Spx.skBytes)
    (hserves₁ : w₁.heap.Serves S₁.alloc [slhDsaShake128sSignatureSize])
    (hserves₂ : w₂.heap.Serves S₂.alloc [slhDsaShake128sSignatureSize])
    (hdev : deviceBytes S₁ w₁.opens Spx.n ≠ deviceBytes S₂ w₂.opens Spx.n) :
    ¬ SignDeterministic S₁ S₂ w₁ w₂ bitcoinPqcSlhDsaShake128s sk m := by
  intro hdet
  obtain ⟨p₁, h₁, hm₁, -⟩ := hserves₁
  obtain ⟨p₂, h₂, hm₂, -⟩ := hserves₂
  obtain ⟨s₁, w₁', hrun₁, -, hb₁⟩ := bitcoinPqcSign_served hq₁ hsk hm₁
    (signScheme_slh hl₁ .sample (w := { w₁ with heap := h₁ }) hq₁.1 m sk) .zero
  obtain ⟨s₂, w₂', hrun₂, -, hb₂⟩ := bitcoinPqcSign_served hq₂ hsk hm₂
    (signScheme_slh hl₂ .sample (w := { w₂ with heap := h₂ }) hq₂.1 m sk) .zero
  have hsame := hdet .sample .zero .zero s₁ s₂ w₁' w₂' hrun₁ hrun₂
  rw [hb₁ rfl, hb₂ rfl] at hsame
  have htake := congrArg (List.take Spx.n) (Option.some.inj hsame)
  simp only [Vendored.sample] at htake
  rw [take_fit (by decide) (by simp), take_fit (by decide) (by simp), List.take_of_length_le (by simp),
    List.take_of_length_le (by simp)] at htake
  exact hdev htake

end

/-- **When signing is deterministic.** After any two histories, two successful calls on one key
and message agree for all vendored schemes exactly when the algorithm is ML-DSA-44, or the device
delivers the same 16 bytes to both, or one of the calls gets no memory. -/
theorem sign_deterministic_iff {S₁ S₂ : Sys} (hl₁ : S₁.link = .dilithium) (hl₂ : S₂.link = .dilithium)
    {calls₁ calls₂ : List (Vendored × Call ι κ)} {w₁ w₂ : World} (h₁ : Reaches S₁ calls₁ w₁)
    (h₂ : Reaches S₂ calls₂ w₂) {algorithm : AlgorithmT}
    (halg : algorithm = bitcoinPqcMlDsa44 ∨ algorithm = bitcoinPqcSlhDsaShake128s) {sk : Bytes}
    (hsk : sk.length = bitcoinPqcSecretKeySize algorithm) (m : Bytes) :
    SignDeterministic S₁ S₂ w₁ w₂ algorithm sk m ↔
      algorithm = bitcoinPqcMlDsa44 ∨ deviceBytes S₁ w₁.opens Spx.n = deviceBytes S₂ w₂.opens Spx.n ∨
      ¬ w₁.heap.Serves S₁.alloc [slhDsaShake128sSignatureSize] ∨
      ¬ w₂.heap.Serves S₂.alloc [slhDsaShake128sSignatureSize] := by
  rcases halg with rfl | rfl
  · exact ⟨fun _ => .inl rfl, fun _ => ml_sign_deterministic hl₁ hl₂ h₁.quiet h₂.quiet⟩
  constructor
  · intro hdet
    by_contra hnot
    push Not at hnot
    obtain ⟨-, hdev, hserves₁, hserves₂⟩ := hnot
    exact slh_sign_not_deterministic hl₁ hl₂ h₁.quiet h₂.quiet hsk hserves₁ hserves₂ hdev hdet
  · rintro (h | h | h | h)
    · cases h
    · exact slh_sign_deterministic hl₁ hl₂ h₁.quiet h₂.quiet h
    · intro V old₁ old₂ s₁ s₂ w₁' w₂' hrun₁ hrun₂
      obtain ⟨p, h', -, hm, -⟩ := sign_bytes h₁.quiet hrun₁
      exact absurd ⟨p, h', hm, trivial⟩ h
    · intro V old₁ old₂ s₁ s₂ w₁' w₂' hrun₁ hrun₂
      obtain ⟨p, h', -, hm, -⟩ := sign_bytes h₂.quiet hrun₂
      exact absurd ⟨p, h', hm, trivial⟩ h

theorem reaches_init (S : Sys) : Reaches S ([] : List (Vendored × Call ι κ)) .init := ⟨.init, rfl, rfl⟩

/-- Every history leads somewhere. -/
theorem exists_reaches (S : Sys) (calls : List (Vendored × Call ι κ)) : ∃ w, Reaches S calls w := by
  obtain ⟨s, hrun, -⟩ := Session.inv_run S calls Session.inv_init
  exact ⟨s.world, s, hrun, rfl⟩

theorem deviceBytes_sample (link : Link) (byte : UInt8) (opens : Nat) :
    deviceBytes (.sample link byte) opens Spx.n = List.replicate Spx.n byte := rfl

/-- A key generation that fails and one that succeeds. -/
def sampleCalls : List (Vendored × Call Unit Unit) :=
  [(.sample, .keygen 3 (some ()) (.buf (List.replicate 128 1))),
    (.sample, .keygen bitcoinPqcMlDsa44 (some ()) (.buf (List.replicate 128 1)))]

/-- SLH-DSA signing, at the start and after two calls, on one device and on two. -/
theorem sign_deterministic_iff_sample : ∃ w, Reaches (.sample .dilithium 7) sampleCalls w ∧
    SignDeterministic (.sample .dilithium 7) (.sample .dilithium 7) w .init bitcoinPqcSlhDsaShake128s
      (List.replicate slhDsaShake128sSecretKeySize 0) [1, 2, 3] ∧
    ¬ SignDeterministic (.sample .dilithium 7) (.sample .dilithium 8) w .init bitcoinPqcSlhDsaShake128s
      (List.replicate slhDsaShake128sSecretKeySize 0) [1, 2, 3] := by
  obtain ⟨w, hw⟩ := exists_reaches (.sample .dilithium 7) sampleCalls
  have hstart : ∀ S, Reaches S ([] : List (Vendored × Call Unit Unit)) .init := reaches_init
  have hsk : (List.replicate slhDsaShake128sSecretKeySize (0 : UInt8)).length = bitcoinPqcSecretKeySize bitcoinPqcSlhDsaShake128s :=
    List.length_replicate ..
  refine ⟨w, hw, (sign_deterministic_iff rfl rfl hw (hstart _) (.inr rfl) hsk _).mpr (.inr (.inl rfl)), fun hdet => ?_⟩
  rcases (sign_deterministic_iff rfl rfl hw (hstart _) (.inr rfl) hsk _).mp hdet with h | h | h | h
  · cases h
  · rw [deviceBytes_sample, deviceBytes_sample] at h
    exact absurd h (by decide)
  · exact h (Heap.bump_serves _ _ _)
  · exact h (Heap.bump_serves _ _ _)

/-- Two devices, one all zeros and one all ones, give two SLH-DSA signatures on the zero key and
the empty message at the start of the program. -/
theorem sign_not_deterministic :
    ¬ ∀ (S₁ S₂ : Sys) (calls₁ calls₂ : List (Vendored × Call Unit Unit)) (w₁ w₂ : World)
        (algorithm : AlgorithmT) (sk m : Bytes), S₁.link = .dilithium → S₂.link = .dilithium →
      Reaches S₁ calls₁ w₁ → Reaches S₂ calls₂ w₂ →
      algorithm = bitcoinPqcMlDsa44 ∨ algorithm = bitcoinPqcSlhDsaShake128s →
      sk.length = bitcoinPqcSecretKeySize algorithm → SignDeterministic S₁ S₂ w₁ w₂ algorithm sk m := by
  intro h
  refine slh_sign_not_deterministic rfl rfl ⟨rfl, rfl⟩ ⟨rfl, rfl⟩ (by decide) (Heap.bump_serves _ _ _)
    (Heap.bump_serves _ _ _) (by decide)
    (h (.sample .dilithium 0) (.sample .dilithium 0xff) [] [] .init .init bitcoinPqcSlhDsaShake128s
      (List.replicate slhDsaShake128sSecretKeySize 0) [] rfl rfl (reaches_init _) (reaches_init _) (.inr rfl)
      (by decide))

/-! ## Key generation -/

/-- What a caller gets from a keygen call: the code, and the two keys after a success. -/
def keygenOutput (V : Vendored) (S : Sys) (w : World) (algorithm : AlgorithmT) (bytes : Bytes) (old : KeypairT) :
    Option (ErrorT × Option (Bytes × Bytes)) :=
  (bitcoinPqcKeygen V S algorithm (some old) (.buf bytes) w).map fun r =>
    (r.1.1, if r.1.1 = .ok then r.1.2.bind (·.bytes r.2) else none)

/-- How many bytes of `random_data` a key pair depends on. -/
def entropyUsed (algorithm : AlgorithmT) : Nat :=
  if algorithm = bitcoinPqcMlDsa44 then Dilithium.seedbytes else Spx.cryptoSeedbytes

/-- The SLH-DSA generator copies its seed to the beginning of the secret key
(sphincsplus/ref/sign.c:58). -/
def StoresSeed (V : Vendored) : Prop :=
  ∀ seed : Bytes, seed.length = Spx.cryptoSeedbytes → (V.spxSeedKeypair seed).sk.take Spx.cryptoSeedbytes = seed

/-- What the schemes compute from the prefix of the entropy they use. -/
def keysFrom (V : Vendored) (algorithm : AlgorithmT) (seed : Bytes) : Int × Bytes × Bytes :=
  if algorithm = bitcoinPqcMlDsa44 then
    let out := V.dilithiumKeypair seed
    (out.result, out.pk, out.sk)
  else
    let out := V.spxSeedKeypair seed
    (out.result, out.pk, out.sk)

/-- Under the dilithium link a scheme computes its keys from the prefix of the entropy alone. -/
theorem keygenScheme_eq {S : Sys} (hl : S.link = .dilithium) (V : Vendored) (w : World) {algorithm : AlgorithmT}
    (halg : algorithm = bitcoinPqcMlDsa44 ∨ algorithm = bitcoinPqcSlhDsaShake128s) {bytes : Bytes}
    (hlen : 128 ≤ bytes.length) :
    keygenScheme V S w algorithm bytes = some (keysFrom V algorithm (bytes.take (entropyUsed algorithm))) := by
  rcases halg with rfl | rfl
  · exact keygenScheme_ml hl V w hlen
  · rfl

theorem keygenOutput_eq {V : Vendored} {S : Sys} (hl : S.link = .dilithium) {w : World} (hq : w.Quiet)
    {algorithm : AlgorithmT} (halg : algorithm = bitcoinPqcMlDsa44 ∨ algorithm = bitcoinPqcSlhDsaShake128s)
    {bytes : Bytes} (hlen : 128 ≤ bytes.length)
    (hserves : w.heap.Serves S.alloc [bitcoinPqcPublicKeySize algorithm, bitcoinPqcSecretKeySize algorithm])
    (old : KeypairT) :
    keygenOutput V S w algorithm bytes old =
      let out := keysFrom V algorithm (bytes.take (entropyUsed algorithm))
      some (if out.1 = 0 then (.ok, some out.2) else (.badKey, none)) := by
  have hscheme := keygenScheme_eq hl V w halg hlen
  obtain ⟨kp, w', hrun, -, hbytes⟩ := bitcoinPqcKeygen_served hq hlen hserves hscheme old
  simp only [keygenOutput, hrun, Option.map_some]
  by_cases h0 : (keysFrom V algorithm (bytes.take (entropyUsed algorithm))).1 = 0
  · simp [h0, hbytes h0]
  · simp [h0]

/-- **Keys depend on a fixed prefix of the entropy, and on nothing else.** When the generator reports
no failure on the prefix, both calls return the keys it computes from it. For SLH-DSA the prefix is
also necessary for equal secret keys. -/
theorem keygen_reproducible {S₁ S₂ : Sys} (hl₁ : S₁.link = .dilithium) (hl₂ : S₂.link = .dilithium)
    {calls₁ calls₂ : List (Vendored × Call ι κ)} {w₁ w₂ : World} (h₁ : Reaches S₁ calls₁ w₁)
    (h₂ : Reaches S₂ calls₂ w₂) {algorithm : AlgorithmT}
    (halg : algorithm = bitcoinPqcMlDsa44 ∨ algorithm = bitcoinPqcSlhDsaShake128s) {bytes₁ bytes₂ : Bytes}
    (hlen₁ : 128 ≤ bytes₁.length) (hlen₂ : 128 ≤ bytes₂.length)
    (hserves₁ : w₁.heap.Serves S₁.alloc [bitcoinPqcPublicKeySize algorithm, bitcoinPqcSecretKeySize algorithm])
    (hserves₂ : w₂.heap.Serves S₂.alloc [bitcoinPqcPublicKeySize algorithm, bitcoinPqcSecretKeySize algorithm])
    (V : Vendored) (old₁ old₂ : KeypairT) :
    (bytes₁.take (entropyUsed algorithm) = bytes₂.take (entropyUsed algorithm) →
      ∃ out, keygenOutput V S₁ w₁ algorithm bytes₁ old₁ = some out ∧
        keygenOutput V S₂ w₂ algorithm bytes₂ old₂ = some out ∧
        ((keysFrom V algorithm (bytes₁.take (entropyUsed algorithm))).1 = 0 →
          out = (.ok, some (keysFrom V algorithm (bytes₁.take (entropyUsed algorithm))).2))) ∧
    (algorithm = bitcoinPqcSlhDsaShake128s → StoresSeed V →
      ((keysFrom V algorithm (bytes₁.take (entropyUsed algorithm))).1 = 0 →
        (keysFrom V algorithm (bytes₂.take (entropyUsed algorithm))).1 = 0 → ∃ pk₁ sk₁ pk₂ sk₂,
        keygenOutput V S₁ w₁ algorithm bytes₁ old₁ = some (.ok, some (pk₁, sk₁)) ∧
        keygenOutput V S₂ w₂ algorithm bytes₂ old₂ = some (.ok, some (pk₂, sk₂))) ∧
      ∀ pk₁ pk₂ sk,
        keygenOutput V S₁ w₁ algorithm bytes₁ old₁ = some (.ok, some (pk₁, sk)) →
        keygenOutput V S₂ w₂ algorithm bytes₂ old₂ = some (.ok, some (pk₂, sk)) →
        bytes₁.take (entropyUsed algorithm) = bytes₂.take (entropyUsed algorithm)) := by
  rw [keygenOutput_eq hl₁ h₁.quiet halg hlen₁ hserves₁, keygenOutput_eq hl₂ h₂.quiet halg hlen₂ hserves₂]
  refine ⟨fun h => ⟨_, rfl, by rw [h], fun hzero => if_pos hzero⟩, ?_⟩
  rintro rfl hstores
  refine ⟨fun hzero₁ hzero₂ => ⟨_, _, _, _, congrArg some (if_pos hzero₁), congrArg some (if_pos hzero₂)⟩, ?_⟩
  intro pk₁ pk₂ sk hok₁ hok₂
  have hsk : ∀ {bytes pk : Bytes}, 128 ≤ bytes.length →
      (let out := keysFrom V bitcoinPqcSlhDsaShake128s (bytes.take (entropyUsed bitcoinPqcSlhDsaShake128s))
       some (if out.1 = 0 then (ErrorT.ok, some out.2) else (.badKey, none))) = some (.ok, some (pk, sk)) →
      bytes.take (entropyUsed bitcoinPqcSlhDsaShake128s) = sk.take Spx.cryptoSeedbytes := by
    intro bytes pk hlen hok
    dsimp only at hok
    split at hok
    · cases hok
      exact (hstores _ (by rw [List.length_take]; exact Nat.min_eq_left (Nat.le_trans (by decide) hlen))).symm
    · cases hok
  rw [hsk hlen₁ hok₁, hsk hlen₂ hok₂]

theorem storesSeed_sample : StoresSeed .sample := by
  intro seed h
  show (fit Spx.skBytes seed).take Spx.cryptoSeedbytes = seed
  rw [take_fit (by decide) (Nat.le_of_eq h.symm), List.take_of_length_le (Nat.le_of_eq h)]

/-- Two buffers of different length that agree on 48 bytes, on two devices, at the start and after two
calls: one SLH-DSA key pair. Another byte among the 48 gives another secret key. -/
theorem keygen_reproducible_sample : ∃ w, Reaches (.sample .dilithium 0) sampleCalls w ∧
    keygenOutput .sample (.sample .dilithium 0) w bitcoinPqcSlhDsaShake128s (List.replicate 128 7) .zero =
      some (.ok, some (List.replicate 16 7 ++ List.replicate 16 0, List.replicate 48 7 ++ List.replicate 16 0)) ∧
    keygenOutput .sample (.sample .dilithium 0xff) .init bitcoinPqcSlhDsaShake128s
      (List.replicate 48 7 ++ List.replicate 200 9) .zero =
      some (.ok, some (List.replicate 16 7 ++ List.replicate 16 0, List.replicate 48 7 ++ List.replicate 16 0)) ∧
    StoresSeed .sample ∧ ∃ pk₁ sk₁ pk₂ sk₂,
      keygenOutput .sample (.sample .dilithium 0) w bitcoinPqcSlhDsaShake128s (List.replicate 128 7) .zero =
        some (.ok, some (pk₁, sk₁)) ∧
      keygenOutput .sample (.sample .dilithium 0xff) .init bitcoinPqcSlhDsaShake128s (8 :: List.replicate 127 7) .zero =
        some (.ok, some (pk₂, sk₂)) ∧ sk₁ ≠ sk₂ := by
  obtain ⟨w, hw⟩ := exists_reaches (.sample .dilithium 0) sampleCalls
  have hstart : Reaches (.sample .dilithium 0xff) ([] : List (Vendored × Call Unit Unit)) .init := reaches_init _
  have hlen₁ : 128 ≤ (List.replicate 128 (7 : UInt8)).length := Nat.le_of_eq (List.length_replicate ..).symm
  have hlen₂ : 128 ≤ (List.replicate 48 (7 : UInt8) ++ List.replicate 200 9).length := by
    rw [List.length_append, List.length_replicate, List.length_replicate]
    omega
  have hlen₃ : 128 ≤ ((8 : UInt8) :: List.replicate 127 7).length := by
    simp
  obtain ⟨out, hout₁, hout₂, hok⟩ := (keygen_reproducible rfl rfl hw hstart (.inr rfl) hlen₁ hlen₂
    (Heap.bump_serves _ _ _) (Heap.bump_serves _ _ _) .sample .zero .zero).1 (by decide)
  obtain ⟨hkeys, hsame⟩ := (keygen_reproducible rfl rfl hw hstart (.inr rfl) hlen₁ hlen₃
    (Heap.bump_serves _ _ _) (Heap.bump_serves _ _ _) .sample .zero .zero).2 rfl storesSeed_sample
  obtain ⟨pk₁, sk₁, pk₂, sk₂, hrun₁, hrun₂⟩ := hkeys rfl rfl
  obtain rfl := hok rfl
  refine ⟨w, hw, hout₁.trans (by decide), hout₂.trans (by decide), storesSeed_sample, pk₁, sk₁, pk₂, sk₂, hrun₁, hrun₂, ?_⟩
  rintro rfl
  exact absurd (hsame _ _ _ hrun₁ hrun₂) (by decide)

end BitcoinPqc
