import BitcoinPqc.CApiProofs

/-!
# What an ML-DSA signature is

Linked with the `randombytes` of dilithium/ref, `ml_dsa_44_sign` installs its seed before the
vendored signer draws, so neither what the sources held before nor the random device has any part
in the signature: it is the vendored signature under the prefix `0, 0` and the first 32 bytes of
SHAKE256 of key and message (`ml_dsa_signature`). Nothing is assumed about the world the call
starts in.
-/
namespace BitcoinPqc
open CSem

section
variable (V : Vendored)

/-- The randomness of an ML-DSA signature. -/
def mlRnd (m sk : Bytes) : Bytes := shake256Of V.keccakF1600StatePermute (sk ++ m) Dilithium.rndbytes

variable {S : Sys} (hl : S.link = .dilithium)
include hl

/-- What the signer draws from a seed that was just installed. -/
theorem randombytes_installed (w : World) {seed : Bytes} {n : Nat} (hn : 0 < n) (hlen : n ≤ seed.length) :
    wp (randombytes S n) { w with ml := .install (.buf seed) w.call } fun out w' =>
      out = seed.take n ∧ w'.heap = w.heap := by
  have hoff : 0 < (Installed.mk seed w.call).bytes.length := Nat.lt_of_lt_of_le hn hlen
  have hrun := customRandombytesImpl_seeded S (w := { w with ml := .install (.buf seed) w.call }) hn hoff rfl
  unfold randombytes
  rw [hl]
  exact wp_of_eq hrun ⟨cyc_take hlen, rfl⟩

theorem mlDsa44Sign_any_wp {w : World} {sig : Ptr} {b m sk : Bytes}
    (hsk : sk.length = Dilithium.cryptoSecretkeybytes) (hsig : w.heap.block sig = some b)
    (hb : b.length = Dilithium.cryptoBytes) :
    wp (mlDsa44Sign V S (some sig) (.buf m) (some sk)) w fun r w' =>
      let out := V.dilithiumSignature m [0, 0] (mlRnd V m sk) sk
      Signed (mlSigResult out) out.sig sig Dilithium.cryptoBytes w r w' := by
  have hrnd : (mlSeed V m sk).take Dilithium.rndbytes = mlRnd V m sk := shake256Of_take _ _ (by decide)
  have hlen : Dilithium.rndbytes ≤ (mlSeed V m sk).length := by rw [mlSeed, length_shake256Of]; decide
  refine wp_mono (mlDsa44Sign_of_draw V S hsk hsig hb (randombytes_installed hl w (by decide) hlen)) ?_
  rintro r w' ⟨_, w₁, h', rfl, -, hsigned⟩
  rw [hrnd] at hsigned
  exact hsigned

end

/-- The vendored signer never fails and always writes a whole signature. -/
def Vendored.SignsInFull (V : Vendored) : Prop :=
  ∀ m pre rnd sk, (V.dilithiumSignature m pre rnd sk).result = 0 ∧
    (V.dilithiumSignature m pre rnd sk).sig.length = Dilithium.cryptoBytes

/-- **The exact ML-DSA signature**, from any world: whatever the sources hold and whatever the
device would deliver. -/
theorem ml_dsa_signature {V : Vendored} (hV : V.SignsInFull) {S : Sys} (hl : S.link = .dilithium) (w : World)
    {sk : Bytes} (hsk : sk.length = 2560) (m : Bytes)
    (hserves : w.heap.Serves S.alloc [mlDsa44SignatureSize]) (old : SignatureT) :
    ∃ s w' sig, bitcoinPqcSign V S bitcoinPqcMlDsa44 (.buf sk) (.buf m) (some old) w = some ((.ok, some s), w') ∧
      sig = (V.dilithiumSignature m [0, 0] (shake256Of V.keccakF1600StatePermute (sk ++ m) 32) sk).sig ∧
      s.bytes w' = some sig ∧ s.signatureSize = sig.length ∧ sig.length = 2420 := by
  suffices hwp : wp (bitcoinPqcSign V S bitcoinPqcMlDsa44 (.buf sk) (.buf m) (some old)) w fun r w' => ∃ s,
      r = (.ok, some s) ∧ s.bytes w' = some (V.dilithiumSignature m [0, 0] (mlRnd V m sk) sk).sig ∧
        s.signatureSize = (V.dilithiumSignature m [0, 0] (mlRnd V m sk) sk).sig.length by
    obtain ⟨_, w', hrun, s, rfl, hbytes, hsize⟩ := hwp
    exact ⟨s, w', _, hrun, rfl, hbytes, hsize, (hV _ _ _ _).2⟩
  obtain ⟨hresult, hlen⟩ := hV m [0, 0] (mlRnd V m sk) sk
  generalize hout : V.dilithiumSignature m [0, 0] (mlRnd V m sk) sk = out at hresult hlen
  have hcode : mlSigResult out = 0 := by
    unfold mlSigResult
    rw [hresult, hlen, if_neg (by decide)]
  have hkey : ¬(CBuf.buf sk).size ≠ bitcoinPqcSecretKeySize bitcoinPqcMlDsa44 := not_not.mpr hsk
  unfold bitcoinPqcSign
  rw [if_neg (by simp [CBuf.data]), if_neg hkey]
  dsimp only
  rw [if_neg (by decide)]
  refine wp_bind (onHeap_wp (Heap.malloc_wp (fun _ _ h => absurd h (Heap.serves_pick hserves)) ?_))
  intro p b h₁ _ _ hb h₁eq
  rw [if_neg (by simp)]
  simp only [signSwitch, algorithms_ne, if_true, if_false]
  refine wp_bind (wp_map (wp_mono (mlDsa44Sign_any_wp V hl (w := { w with heap := h₁ }) hsk (b := b)
    (by rw [h₁eq, Function.update_self]) hb) ?_))
  rintro ⟨result, len⟩ w' hsigned
  simp only [hout] at hsigned
  obtain ⟨hlen', -⟩ := hsigned.siglen hcode
  obtain ⟨b', -, hblock, htake⟩ := hsigned.block
  obtain rfl : result = 0 := hsigned.result.trans hcode
  obtain rfl : len = some out.sig.length := hlen'
  refine wp_bind (wp_ofOption rfl (wp_pure ⟨_, rfl, ?_, rfl⟩))
  simp [SignatureT.bytes, hblock, htake hcode]

theorem signsInFull_sample : Vendored.sample.SignsInFull := fun _ _ _ _ => ⟨rfl, length_fit _ _⟩

/-- In a world where the ML-DSA source still points into a buffer of another call. -/
theorem ml_dsa_signature_sample :
    ∃ s w' sig, bitcoinPqcSign .sample (.sample .dilithium 0) bitcoinPqcMlDsa44 (.buf (List.replicate 2560 0))
        (.buf [1]) (some .zero) { World.init with ml := ⟨some ⟨[7, 7], 0⟩, 2, 1⟩ } = some ((.ok, some s), w') ∧
      sig = (Vendored.sample.dilithiumSignature [1] [0, 0] (shake256Of Vendored.sample.keccakF1600StatePermute
        (List.replicate 2560 0 ++ [1]) 32) (List.replicate 2560 0)).sig ∧
      s.bytes w' = some sig ∧ s.signatureSize = sig.length ∧ sig.length = 2420 :=
  ml_dsa_signature signsInFull_sample rfl _ (List.length_replicate ..) [1] (Heap.bump_serves _ _ _) .zero

end BitcoinPqc
