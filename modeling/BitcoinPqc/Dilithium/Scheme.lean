import BitcoinPqc.Dilithium.Verification

/-!
# Key generation, signing and verification together

What sign.c promises its callers, for any permutation in place of Keccak's: keys are an instance of the
ring's problem (`keypair_lwe`), signatures of a key pair verify and open, verification decides validity
on whatever bytes it is given, and signing is defined for whatever bytes the secret key holds. Fuel
stands for loops without a bound; results do not depend on how much there was.
-/
namespace BitcoinPqc.Dilithium
open CSem Keccak

variable (perm : Lanes → Lanes)

/-! ## Fuel -/

section
variable {fuel fuel' : Nat} (h : fuel ≤ fuel')
include h

theorem cryptoSignKeypair_below (seed : Bytes) : Below (cryptoSignKeypair perm fuel seed) (cryptoSignKeypair perm fuel' seed) :=
  (Below.refl _).bind fun _ => (matrixExpand_below perm h _).bind fun _ => (uniformEta_below perm h l _ _).bind fun _ =>
    (uniformEta_below perm h k _ _).bind fun _ => Below.refl _

theorem signer_below (m pre rnd sk : Bytes) : Below (signer perm fuel m pre rnd sk) (signer perm fuel' m pre rnd sk) :=
  (Below.refl _).bind fun _ => (Below.refl _).bind fun _ => (Below.refl _).bind fun _ => (matrixExpand_below perm h _).bind
    fun _ => Below.refl _

theorem signAttempt_below (x : Signer) (nonce : UInt16) : Below (signAttempt perm fuel x nonce) (signAttempt perm fuel' x nonce) :=
  (Below.refl _).bind fun _ => (polyChallenge_below perm h _).bind fun _ => Below.refl _

theorem signLoop_below (x : Signer) {tries tries' : Nat} (htries : tries ≤ tries') (nonce : UInt16) :
    Below (signLoop perm fuel x tries nonce) (signLoop perm fuel' x tries' nonce) := by
  induction tries generalizing tries' nonce with
  | zero =>
    intro sig hsig
    cases hsig
  | succ tries ih =>
    obtain ⟨tries', rfl⟩ : ∃ t, tries' = t + 1 := ⟨tries' - 1, by omega⟩
    refine (signAttempt_below perm h x nonce).bind fun r => ?_
    cases r with
    | none => exact ih (by omega) (nonce + 1)
    | some sig => exact Below.refl _

theorem cryptoSignSignatureInternal_below (m pre rnd sk : Bytes) :
    Below (cryptoSignSignatureInternal perm fuel m pre rnd sk) (cryptoSignSignatureInternal perm fuel' m pre rnd sk) :=
  (signer_below perm h m pre rnd sk).bind fun x => signLoop_below perm h x h 0

end

/-! ## Keys -/

theorem signInternal_spec (fuel : Nat) (m pre rnd : Bytes) {sk : Bytes} (hsk : sk.length = cryptoSecretkeybytes) :
    Sound (fun sig => ∃ s x y c w1 w0 w cp cpHat z h, unpackSk sk = .ok s ∧ Prepared perm fuel s m pre x ∧
      Signed perm fuel x sig y c w1 w0 w cp cpHat z h) (cryptoSignSignatureInternal perm fuel m pre rnd sk) := by
  refine (signer_spec perm fuel m pre rnd hsk).bind fun x _ hx => ?_
  obtain ⟨s, hs, hprep⟩ := hx
  refine (signLoop_spec perm fuel hprep.valid fuel 0).mono fun sig _ hsig => ?_
  obtain ⟨y, c, w1, w0, w, cp, cpHat, z, h, hsigned⟩ := hsig
  exact ⟨s, x, y, c, w1, w0, w, cp, cpHat, z, h, hs, hprep, hsigned⟩

/-- **Honest signatures are accepted.** -/
theorem signInternal_accepted {fuel fuel' : Nat} {seed pk sk : Bytes} (hkeys : cryptoSignKeypair perm fuel seed = .ok (pk, sk))
    {m pre rnd sig : Bytes} (hsig : cryptoSignSignatureInternal perm fuel m pre rnd sk = .ok sig) (hle : fuel ≤ fuel') :
    cryptoSignVerifyInternal perm fuel' sig m pre pk = .ok 0 := by
  obtain ⟨t1, s, mat, -, -, hkey⟩ := (keypair_spec perm fuel seed).of_ok hkeys
  obtain ⟨s', x, y, c, w1, w0, w, cp, cpHat, z, h, hs', hprep, hsigned⟩ :=
    (signInternal_spec perm fuel m pre rnd hkey.sk_length).of_ok hsig
  obtain rfl : s' = s := Except.ok.inj (hs'.symm.trans hkey.unpack_sk)
  exact Honest.accepted ⟨hkey, hprep, hsigned⟩ hle

/-! ## The nonce -/

/-- The nonces of the four masks are `4*nonce` to `4*nonce + 3`, in 16 bits. -/
theorem polyveclUniformGamma1_period (seed : Bytes) (nonce : UInt16) :
    polyveclUniformGamma1 perm seed (nonce + 16384) = polyveclUniformGamma1 perm seed nonce := by
  have hwrap : ∀ i : Fin l, UInt16.ofNat (l * (nonce + 16384).toNat + i) = UInt16.ofNat (l * nonce.toNat + i) := by
    intro i
    refine UInt16.toNat_inj.mp ?_
    simp only [UInt16.toNat_ofNat', UInt16.toNat_add, UInt16.reduceToNat, l]
    omega
  simp only [polyveclUniformGamma1, hwrap]

theorem signAttempt_period (fuel : Nat) (x : Signer) (nonce : UInt16) :
    signAttempt perm fuel x (nonce + 16384) = signAttempt perm fuel x nonce := by
  rw [signAttempt, signAttempt, signCommit, signCommit, polyveclUniformGamma1_period]

/-- The loop ends at the first attempt that is not rejected. -/
theorem signLoop_eq_ok_iff (fuel : Nat) (x : Signer) (sig : Bytes) : ∀ (tries : Nat) (nonce : UInt16),
    signLoop perm fuel x tries nonce = .ok sig ↔ ∃ j < tries, (∀ i < j, signAttempt perm fuel x (nonce + UInt16.ofNat i) = .ok none) ∧
      signAttempt perm fuel x (nonce + UInt16.ofNat j) = .ok (some sig)
  | 0, nonce => by simp [signLoop]
  | tries + 1, nonce => by
    have hshift : ∀ i, nonce + 1 + UInt16.ofNat i = nonce + UInt16.ofNat (i + 1) := fun i => by
      rw [UInt16.ofNat_add, UInt16.add_assoc, UInt16.add_comm (UInt16.ofNat i)]
      rfl
    have hfirst : nonce + UInt16.ofNat 0 = nonce := UInt16.add_zero nonce
    constructor
    · intro h
      cases hattempt : signAttempt perm fuel x nonce with
      | error e =>
        rw [signLoop, hattempt] at h
        cases h
      | ok r =>
        rw [signLoop, bind_of_ok hattempt] at h
        cases r with
        | some sig' =>
          cases h
          exact ⟨0, Nat.succ_pos _, fun i hi => absurd hi (Nat.not_lt_zero i), by rw [hfirst]; exact hattempt⟩
        | none =>
          obtain ⟨j, hj, hbefore, hlast⟩ := (signLoop_eq_ok_iff fuel x sig tries (nonce + 1)).mp h
          refine ⟨j + 1, Nat.succ_lt_succ hj, fun i hi => ?_, by rw [← hshift]; exact hlast⟩
          cases i with
          | zero => rw [hfirst]; exact hattempt
          | succ i => rw [← hshift]; exact hbefore i (Nat.lt_of_succ_lt_succ hi)
    · rintro ⟨j, hj, hbefore, hlast⟩
      cases j with
      | zero =>
        rw [hfirst] at hlast
        rw [signLoop, bind_of_ok hlast]
      | succ j =>
        have hattempt := hbefore 0 (Nat.succ_pos j)
        rw [hfirst] at hattempt
        rw [signLoop, bind_of_ok hattempt]
        refine (signLoop_eq_ok_iff fuel x sig tries (nonce + 1)).mpr ⟨j, Nat.lt_of_succ_lt_succ hj, fun i hi => ?_, ?_⟩
        · rw [hshift]
          exact hbefore (i + 1) (Nat.succ_lt_succ hi)
        · rw [hshift]
          exact hlast

/-- **Signing ends within 16384 attempts or never**: after that the masks repeat. -/
theorem signLoop_period (fuel tries : Nat) (x : Signer) : Below (signLoop perm fuel x tries 0) (signLoop perm fuel x 16384 0) := by
  intro sig hsig
  obtain ⟨j, hj, hbefore, hlast⟩ := (signLoop_eq_ok_iff perm fuel x sig tries 0).mp hsig
  refine (signLoop_eq_ok_iff perm fuel x sig 16384 0).mpr ⟨j, ?_, hbefore, hlast⟩
  by_contra hge
  have hsame : (0 : UInt16) + UInt16.ofNat j = 0 + UInt16.ofNat (j - 16384) + 16384 := by
    rw [UInt16.add_assoc, show (16384 : UInt16) = UInt16.ofNat 16384 from rfl, ← UInt16.ofNat_add, Nat.sub_add_cancel (by omega)]
  rw [hsame, signAttempt_period, hbefore (j - 16384) (by omega)] at hlast
  cases hlast

/-! ## A run

Under `samplePerm` the secret vectors are zero, so that no attempt is rejected: every key generation and
every signing returns.
-/

theorem sampleMask_within : Within (gamma1 - beta - 1) sampleMask := by
  intro j hj
  rw [sampleMask, Vector.getElem_ofFn]
  dsimp only
  split <;> decide

/-- A commitment to the masks of the run. -/
def sampleCommitment : Poly := Vector.ofFn fun j => if j.1 % 2 = 0 then 2994786 else 1713884

theorem hat_sampleCommitment {t : Nat} (ht : t < 256) :
    rowDot (Vector.replicate l (Vector.replicate 256 2236962)) (Vector.replicate l sampleMask) t = hat sampleCommitment t := by
  rw [hat_scale (a := sampleCommitment) (b := sampleMask) (d := Vector.replicate 256 0) (c := ((8947848 : Int) : Zq))
    (fun j hj => ?_) t, hat_zero, Pi.zero_apply, add_zero, rowDot]
  · have hterm : ∀ j : Fin l, res ((Vector.replicate l (Vector.replicate 256 2236962)).get j) t *
        hat ((Vector.replicate l sampleMask).get j) t = ((2236962 : Int) : Zq) * hat sampleMask t := fun j => by
      rw [get_fin _ j.2, get_fin _ j.2, Vector.getElem_replicate, Vector.getElem_replicate, res_lt _ ht, Vector.getElem_replicate]
    rw [Finset.sum_congr rfl fun j _ => hterm j, Finset.sum_const, Finset.card_univ, Fintype.card_fin, nsmul_eq_mul, ← mul_assoc]
    rfl
  · rw [res_zero, Pi.zero_apply, add_zero, res_lt _ hj, res_lt _ hj, ← Int.cast_mul]
    refine cast_eq ?_
    rw [sampleCommitment, sampleMask, Vector.getElem_ofFn, Vector.getElem_ofFn]
    dsimp only
    split <;> decide

theorem sample_low {x : Signer} (hmat : x.mat = Vector.replicate k (Vector.replicate l (Vector.replicate 256 2236962)))
    {c : Bytes} {w1 w0 w : Polyveck} (h : Committed samplePerm x (Vector.replicate l sampleMask) c w1 w0 w) :
    AllWithin (gamma2 - beta - 1) w0 := by
  intro i hi j hj
  have hres := res_eq_of_hat (a := w[i]) (b := sampleCommitment) (fun t ht => by
    rw [h.transform i hi t ht, hmat, Vector.getElem_replicate, hat_sampleCommitment ht]) j hj
  rw [res_lt _ hj, res_lt _ hj] at hres
  have hmod := mod_eq_of_cast hres
  have hhigh := (h.parts i hi j hj).high
  have hlow := (h.parts i hi j hj).low
  have hcell : sampleCommitment[j] = 2994786 ∨ sampleCommitment[j] = 1713884 := by
    rw [sampleCommitment, Vector.getElem_ofFn]
    dsimp only
    split
    · exact .inl rfl
    · exact .inr rfl
  rw [show gamma2 - beta - 1 = 95153 by decide]
  unfold q at hmod hlow
  -- nothing else between `-gamma2` and `q` is congruent to the commitment
  have hw : w[i][j] = sampleCommitment[j] := by omega
  omega

/-- **Keys are made and messages are signed**, at the first attempt. -/
theorem sample_returns (fuel : Nat) (seed m ctx rnd : Bytes) (hctx : ctx.length ≤ 255) :
    ∃ keys sig, cryptoSignKeypair samplePerm (fuel + 1) seed = .ok keys ∧
      cryptoSignSignature samplePerm (fuel + 1) m ctx rnd keys.2 = .ok (some sig) := by
  obtain ⟨keys, hkeys⟩ := (keypair_returns_iff samplePerm (fuel + 1) seed).mpr
    ⟨⟨_, sample_expand _ _⟩, ⟨_, sample_secrets _ _ _ _⟩, _, sample_secrets _ _ _ _⟩
  obtain ⟨t1, s, mat, hs1, hs2, hkey⟩ := (keypair_spec samplePerm (fuel + 1) seed).of_ok hkeys
  obtain ⟨x, hx⟩ := signer_returns samplePerm (fun rho => ⟨_, sample_expand (fuel + 1) rho⟩) m (0 :: UInt8.ofNat ctx.length :: ctx) rnd
    hkey.sk_length
  obtain ⟨s', hs', hprep⟩ := (signer_spec samplePerm (fuel + 1) m _ rnd hkey.sk_length).of_ok hx
  obtain rfl : s' = s := Except.ok.inj (hs'.symm.trans hkey.unpack_sk)
  have hblank : x.Blank := hkey.blank samplePerm (Except.ok.inj (hs1.symm.trans (sample_secrets _ _ _ _)))
    (Except.ok.inj (hs2.symm.trans (sample_secrets _ _ _ _))) hprep
  have hmasks : AllWithin (gamma1 - beta - 1) (Vector.replicate l sampleMask) := fun i hi => by
    rw [Vector.getElem_replicate]
    exact sampleMask_within
  have hmat := Except.ok.inj (hprep.expand.symm.trans (sample_expand _ _))
  obtain ⟨sig, hsig⟩ := signAttempt_blank samplePerm hprep.valid hblank (sample_challenge fuel) (sample_masks x.rhoprime 0) hmasks
    fun c w1 w0 w h => sample_low hmat h
  refine ⟨keys, sig, hkeys, ?_⟩
  rw [cryptoSignSignature, if_neg (by omega), cryptoSignSignatureInternal, bind_of_ok hx, signLoop, bind_of_ok hsig]
  rfl

/-! ## The interface -/

theorem signature_accepted {fuel₁ : Nat} {seed : Bytes} {keys : Bytes × Bytes} (hkeys : cryptoSignKeypair perm fuel₁ seed = .ok keys)
    (fuel₂ : Nat) (m ctx rnd : Bytes) :
    Sound (fun r => ∀ sig, r = some sig → sig.length = cryptoBytes ∧ ∀ fuel, fuel₁ ≤ fuel → fuel₂ ≤ fuel →
      cryptoSignVerify perm fuel sig m ctx keys.1 = .ok 0) (cryptoSignSignature perm fuel₂ m ctx rnd keys.2) := by
  obtain ⟨t1, s, mat, -, -, hkey⟩ := (keypair_spec perm fuel₁ seed).of_ok hkeys
  rw [cryptoSignSignature]
  split
  · exact Sound.ok fun _ h => by cases h
  · rename_i hctx
    refine (signInternal_spec perm fuel₂ m _ rnd hkey.sk_length).bind fun sig hsig hspec => Sound.ok fun sig' he => ?_
    obtain ⟨_, _, _, _, _, _, _, _, _, _, _, -, -, hsigned⟩ := hspec
    cases he
    refine ⟨hsigned.length, fun fuel h₁ h₂ => ?_⟩
    rw [cryptoSignVerify, if_neg hctx]
    exact signInternal_accepted perm (cryptoSignKeypair_below perm h₁ seed keys hkeys)
      (cryptoSignSignatureInternal_below perm h₂ m _ rnd keys.2 sig hsig) (Nat.le_refl fuel)

/-- **Signatures of a key pair verify.** -/
theorem honest_accepted (fuel₁ fuel₂ : Nat) (seed m ctx rnd : Bytes) :
    Sound (fun keys => Sound (fun r => ∀ sig, r = some sig → ∀ fuel, fuel₁ ≤ fuel → fuel₂ ≤ fuel →
      cryptoSignVerify perm fuel sig m ctx keys.1 = .ok 0) (cryptoSignSignature perm fuel₂ m ctx rnd keys.2))
      (cryptoSignKeypair perm fuel₁ seed) := by
  refine (keypair_spec perm fuel₁ seed).mono fun keys hkeys _ => ?_
  exact (signature_accepted perm hkeys fuel₂ m ctx rnd).mono fun r _ hr sig hsig => (hr sig hsig).2

theorem honest_accepted_sample : ∃ keys sig, cryptoSignKeypair samplePerm 1 (List.replicate 32 0) = .ok keys ∧
    cryptoSignSignature samplePerm 1 [1, 2, 3] [7] (List.replicate 32 0) keys.2 = .ok (some sig) ∧
    cryptoSignVerify samplePerm 1 sig [1, 2, 3] [7] keys.1 = .ok 0 := by
  obtain ⟨keys, sig, hkeys, hsig⟩ := sample_returns 0 (List.replicate 32 0) [1, 2, 3] [7] (List.replicate 32 0) (by decide)
  have haccepted := (honest_accepted samplePerm 1 1 (List.replicate 32 0) [1, 2, 3] [7] (List.replicate 32 0)).of_ok hkeys |>.of_ok hsig
  exact ⟨keys, sig, hkeys, hsig, haccepted sig rfl 1 (Nat.le_refl 1) (Nat.le_refl 1)⟩

/-- **Signed messages open.** -/
theorem honest_opened (fuel₁ fuel₂ : Nat) (seed m ctx rnd : Bytes) :
    Sound (fun keys => Sound (fun r => ∀ sm, r = some sm → ∀ fuel, fuel₁ ≤ fuel → fuel₂ ≤ fuel →
      cryptoSignOpen perm fuel sm ctx keys.1 = .ok (0, m)) (cryptoSign perm fuel₂ m ctx rnd keys.2))
      (cryptoSignKeypair perm fuel₁ seed) := by
  refine (keypair_spec perm fuel₁ seed).mono fun keys hkeys _ => ?_
  refine (signature_accepted perm hkeys fuel₂ m ctx rnd).bind fun r _ hr => ?_
  cases r with
  | none => exact Sound.ok fun _ h => by cases h
  | some sig =>
    obtain ⟨hlen, haccepted⟩ := hr sig rfl
    refine Sound.ok fun sm he fuel h₁ h₂ => ?_
    cases he
    rw [cryptoSignOpen, if_neg (by rw [List.length_append]; omega), List.take_left' hlen, List.drop_left' hlen,
      bind_of_ok (haccepted fuel h₁ h₂)]
    rfl

theorem honest_opened_sample : ∃ keys sm, cryptoSignKeypair samplePerm 1 (List.replicate 32 0) = .ok keys ∧
    cryptoSign samplePerm 1 [1, 2, 3] [7] (List.replicate 32 0) keys.2 = .ok (some sm) ∧
    cryptoSignOpen samplePerm 1 sm [7] keys.1 = .ok (0, [1, 2, 3]) := by
  obtain ⟨keys, sig, hkeys, hsig⟩ := sample_returns 0 (List.replicate 32 0) [1, 2, 3] [7] (List.replicate 32 0) (by decide)
  have hsm : cryptoSign samplePerm 1 [1, 2, 3] [7] (List.replicate 32 0) keys.2 = .ok (some (sig ++ [1, 2, 3])) := by
    rw [cryptoSign, bind_of_ok hsig]
  have hopened := ((honest_opened samplePerm 1 1 (List.replicate 32 0) [1, 2, 3] [7] (List.replicate 32 0)).of_ok hkeys).of_ok hsm
  exact ⟨keys, _, hkeys, hsm, hopened _ rfl 1 (Nat.le_refl 1) (Nat.le_refl 1)⟩

/-- **Signing is defined for whatever bytes the secret key holds.** It fails exactly for a context that
is too long; a signature it returns has the right length, is decoded, and keeps to the bounds the
verifier checks. -/
theorem sign_defined (fuel : Nat) (sk : Vector UInt8 cryptoSecretkeybytes) (m ctx rnd : Bytes) :
    (cryptoSignSignature perm fuel m ctx rnd sk.toList = .ok none ↔ 255 < ctx.length) ∧
    Sound (fun r => ∀ sig, r = some sig → sig.length = cryptoBytes ∧
      ∃ c z h, unpackSig sig = .ok (some (c, z, h)) ∧ AllWithin (gamma1 - beta - 1) z ∧ IsHint h)
      (cryptoSignSignature perm fuel m ctx rnd sk.toList) := by
  rw [cryptoSignSignature]
  split
  · rename_i hctx
    exact ⟨iff_of_true rfl hctx, Sound.ok fun _ h => by cases h⟩
  · rename_i hctx
    constructor
    · refine iff_of_false (fun hnone => ?_) hctx
      cases hsig : cryptoSignSignatureInternal perm fuel m (0 :: UInt8.ofNat ctx.length :: ctx) rnd sk.toList with
      | error e =>
        rw [hsig] at hnone
        cases hnone
      | ok sig =>
        rw [bind_of_ok hsig] at hnone
        cases hnone
    · refine (signInternal_spec perm fuel m _ rnd sk.length_toList).bind fun sig _ hspec => Sound.ok fun sig' he => ?_
      obtain ⟨_, _, _, c, _, _, _, _, _, z, h, -, -, hsigned⟩ := hspec
      cases he
      exact ⟨hsigned.length, c, z, h, hsigned.unpack, hsigned.responded.bound, hsigned.responded.hint⟩

/-! ## Verifying any bytes -/

/-- Valid under a context; the source refuses one of more than 255 bytes. -/
def ValidIn (pk sig m ctx : Bytes) : Prop := ctx.length ≤ 255 ∧ Valid perm pk sig m (0 :: UInt8.ofNat ctx.length :: ctx)

section
variable {pk : Bytes} (hpk : pk.length = cryptoPublickeybytes) (sig m ctx : Bytes)
include hpk

theorem cryptoSignVerify_decides (fuel : Nat) :
    Sound (fun r => r = 0 ∧ ValidIn perm pk sig m ctx ∨ r = -1 ∧ ¬ ValidIn perm pk sig m ctx)
      (cryptoSignVerify perm fuel sig m ctx pk) := by
  rw [cryptoSignVerify]
  split
  · rename_i hctx
    exact Sound.ok (.inr ⟨rfl, fun h => absurd h.1 (by omega)⟩)
  · rename_i hctx
    refine (verifyInternal_decides perm fuel hpk sig m _).mono fun r _ hr => hr.imp ?_ ?_
    · exact fun ⟨hr, hvalid⟩ => ⟨hr, by omega, hvalid⟩
    · exact fun ⟨hr, hno⟩ => ⟨hr, fun h => hno h.2⟩

theorem cryptoSignVerify_returns_iff :
    (∃ fuel r, cryptoSignVerify perm fuel sig m ctx pk = .ok r) ↔ (ctx.length ≤ 255 → Sampled perm pk sig) := by
  by_cases hctx : ctx.length > 255
  · refine iff_of_true ⟨0, -1, ?_⟩ fun h => absurd h (by omega)
    rw [cryptoSignVerify, if_pos hctx]
  · simp only [cryptoSignVerify, if_neg hctx, verifyInternal_returns_iff perm hpk sig m]
    exact ⟨fun h _ => h, fun h => h (by omega)⟩

theorem cryptoSignVerify_accepts_iff :
    (∃ fuel, cryptoSignVerify perm fuel sig m ctx pk = .ok 0) ↔ ValidIn perm pk sig m ctx := by
  have hdecides := fun fuel => cryptoSignVerify_decides perm hpk sig m ctx fuel
  refine ⟨fun ⟨fuel, hrun⟩ => ?_, fun hvalid => ?_⟩
  · rcases (hdecides fuel).of_ok hrun with ⟨-, h⟩ | ⟨h, -⟩
    · exact h
    · exact absurd h (by decide)
  · obtain ⟨fuel, r, hrun⟩ := (cryptoSignVerify_returns_iff perm hpk sig m ctx).mpr fun _ => hvalid.2.sampled
    rcases (hdecides fuel).of_ok hrun with ⟨rfl, -⟩ | ⟨-, h⟩
    · exact ⟨fuel, hrun⟩
    · exact absurd hvalid h

theorem cryptoSignVerify_rejects_iff :
    (∃ fuel, cryptoSignVerify perm fuel sig m ctx pk = .ok (-1)) ↔
      ¬ ValidIn perm pk sig m ctx ∧ (ctx.length ≤ 255 → Sampled perm pk sig) := by
  have hdecides := fun fuel => cryptoSignVerify_decides perm hpk sig m ctx fuel
  have hreturns := cryptoSignVerify_returns_iff perm hpk sig m ctx
  refine ⟨fun ⟨fuel, hrun⟩ => ⟨?_, hreturns.mp ⟨fuel, _, hrun⟩⟩, fun ⟨hno, hsampled⟩ => ?_⟩
  · rcases (hdecides fuel).of_ok hrun with ⟨h, -⟩ | ⟨-, h⟩
    · exact absurd h (by decide)
    · exact h
  · obtain ⟨fuel, r, hrun⟩ := hreturns.mpr hsampled
    rcases (hdecides fuel).of_ok hrun with ⟨-, h⟩ | ⟨rfl, -⟩
    · exact absurd h hno
    · exact ⟨fuel, hrun⟩

/-- A context that is too long, or a signature that does not decode. -/
theorem cryptoSignVerify_reject (hbad : ctx.length ≤ 255 → ¬ ∃ rho t1 c z h, Decodes pk sig rho t1 c z h) (fuel : Nat) :
    cryptoSignVerify perm fuel sig m ctx pk = .ok (-1) := by
  rw [cryptoSignVerify]
  split
  · rfl
  · rename_i hctx
    exact verifyInternal_reject hpk (hbad (by omega)) m _

end

/-- **Verification decides validity** on whatever bytes it is given. It accepts exactly what is valid;
it rejects what is not once the samplers return, and at once what they are not needed for. -/
theorem verify_decides (pk : Vector UInt8 cryptoPublickeybytes) (sig m ctx : Bytes) :
    (∀ fuel, Sound (fun r => r = 0 ∧ ctx.length ≤ 255 ∧ Valid perm pk.toList sig m (0 :: UInt8.ofNat ctx.length :: ctx) ∨
      r = -1 ∧ ¬ (ctx.length ≤ 255 ∧ Valid perm pk.toList sig m (0 :: UInt8.ofNat ctx.length :: ctx)))
      (cryptoSignVerify perm fuel sig m ctx pk.toList)) ∧
    ((∃ fuel, cryptoSignVerify perm fuel sig m ctx pk.toList = .ok 0) ↔
      ctx.length ≤ 255 ∧ Valid perm pk.toList sig m (0 :: UInt8.ofNat ctx.length :: ctx)) ∧
    ((∃ fuel, cryptoSignVerify perm fuel sig m ctx pk.toList = .ok (-1)) ↔
      ¬ (ctx.length ≤ 255 ∧ Valid perm pk.toList sig m (0 :: UInt8.ofNat ctx.length :: ctx)) ∧
      (ctx.length ≤ 255 → Sampled perm pk.toList sig)) ∧
    ((ctx.length ≤ 255 → ¬ ∃ rho t1 c z h, Decodes pk.toList sig rho t1 c z h) →
      ∀ fuel, cryptoSignVerify perm fuel sig m ctx pk.toList = .ok (-1)) :=
  ⟨cryptoSignVerify_decides perm pk.length_toList sig m ctx, cryptoSignVerify_accepts_iff perm pk.length_toList sig m ctx,
    cryptoSignVerify_rejects_iff perm pk.length_toList sig m ctx, cryptoSignVerify_reject perm pk.length_toList sig m ctx⟩

/-- From the code of the verification on. -/
theorem cryptoSignOpen_ok_iff {sm : Bytes} (hlong : cryptoBytes ≤ sm.length) (fuel : Nat) (ctx pk : Bytes) (out : Int × Bytes) :
    cryptoSignOpen perm fuel sm ctx pk = .ok out ↔
      ∃ r, cryptoSignVerify perm fuel (sm.take cryptoBytes) (sm.drop cryptoBytes) ctx pk = .ok r ∧
        out = if r ≠ 0 then (-1, List.replicate sm.length 0) else (0, sm.drop cryptoBytes) := by
  rw [cryptoSignOpen, if_neg (by omega)]
  cases cryptoSignVerify perm fuel (sm.take cryptoBytes) (sm.drop cryptoBytes) ctx pk with
  | error e => exact ⟨nofun, fun ⟨_, h, _⟩ => nomatch h⟩
  | ok r =>
    have hcode : (if r ≠ 0 then Except.ok (-1, List.replicate sm.length 0) else .ok (0, sm.drop cryptoBytes) : Eval (Int × Bytes)) =
        .ok (if r ≠ 0 then (-1, List.replicate sm.length 0) else (0, sm.drop cryptoBytes)) := by
      split <;> rfl
    refine (Eq.congr_left hcode).trans ⟨fun h => ⟨r, rfl, (Except.ok.inj h).symm⟩, ?_⟩
    rintro ⟨_, ⟨⟩, rfl⟩
    rfl

/-- **Opening returns the message of a valid signature**, and zeros otherwise. -/
theorem open_decides (pk : Vector UInt8 cryptoPublickeybytes) (sm ctx : Bytes) :
    (∀ fuel, Sound (fun r =>
      r = (0, sm.drop cryptoBytes) ∧ cryptoBytes ≤ sm.length ∧ ctx.length ≤ 255 ∧
        Valid perm pk.toList (sm.take cryptoBytes) (sm.drop cryptoBytes) (0 :: UInt8.ofNat ctx.length :: ctx) ∨
      r = (-1, List.replicate sm.length 0) ∧ ¬ (ctx.length ≤ 255 ∧
        Valid perm pk.toList (sm.take cryptoBytes) (sm.drop cryptoBytes) (0 :: UInt8.ofNat ctx.length :: ctx)))
      (cryptoSignOpen perm fuel sm ctx pk.toList)) ∧
    ((∃ fuel, cryptoSignOpen perm fuel sm ctx pk.toList = .ok (0, sm.drop cryptoBytes)) ↔ ctx.length ≤ 255 ∧
      Valid perm pk.toList (sm.take cryptoBytes) (sm.drop cryptoBytes) (0 :: UInt8.ofNat ctx.length :: ctx)) ∧
    ((∃ fuel, cryptoSignOpen perm fuel sm ctx pk.toList = .ok (-1, List.replicate sm.length 0)) ↔ ¬ (ctx.length ≤ 255 ∧
      Valid perm pk.toList (sm.take cryptoBytes) (sm.drop cryptoBytes) (0 :: UInt8.ofNat ctx.length :: ctx)) ∧
      (ctx.length ≤ 255 → Sampled perm pk.toList (sm.take cryptoBytes))) ∧
    (sm.length < cryptoBytes → ∀ fuel, cryptoSignOpen perm fuel sm ctx pk.toList = .ok (-1, List.replicate sm.length 0)) := by
  have hshort : sm.length < cryptoBytes → ∀ fuel,
      cryptoSignOpen perm fuel sm ctx pk.toList = .ok (-1, List.replicate sm.length 0) := fun h fuel => if_pos h
  by_cases hlong : sm.length < cryptoBytes
  · have hno : ¬ ValidIn perm pk.toList (sm.take cryptoBytes) (sm.drop cryptoBytes) ctx := by
      rintro ⟨-, _, _, _, _, _, _, _, _, hlen, -⟩
      rw [List.length_take] at hlen
      omega
    have hsampled : Sampled perm pk.toList (sm.take cryptoBytes) := fun _ _ _ _ _ hd => by
      have hlen := hd.length
      rw [List.length_take] at hlen
      omega
    refine ⟨fun fuel => ?_, iff_of_false ?_ hno, iff_of_true ⟨0, hshort hlong 0⟩ ⟨hno, fun _ => hsampled⟩, hshort⟩
    · rw [hshort hlong fuel]
      exact Sound.ok (.inr ⟨rfl, hno⟩)
    · rintro ⟨fuel, hrun⟩
      rw [hshort hlong fuel] at hrun
      cases hrun
  · have hok := fun fuel => cryptoSignOpen_ok_iff perm (show cryptoBytes ≤ sm.length by omega) fuel ctx pk.toList
    have hdecides := fun fuel =>
      cryptoSignVerify_decides perm pk.length_toList (sm.take cryptoBytes) (sm.drop cryptoBytes) ctx fuel
    refine ⟨fun fuel => ?_, ?_, ?_, hshort⟩
    · rw [cryptoSignOpen, if_neg hlong]
      refine (hdecides fuel).bind fun r _ hr => ?_
      rcases hr with ⟨rfl, hvalid⟩ | ⟨rfl, hno⟩
      · exact Sound.ok (.inl ⟨rfl, by omega, hvalid⟩)
      · exact Sound.ok (.inr ⟨rfl, hno⟩)
    · refine Iff.trans ?_ (cryptoSignVerify_accepts_iff perm pk.length_toList _ _ ctx)
      refine exists_congr fun fuel => (hok fuel _).trans ⟨?_, fun hrun => ⟨0, hrun, rfl⟩⟩
      rintro ⟨r, hrun, hout⟩
      by_cases h0 : r = 0
      · rwa [h0] at hrun
      · rw [if_pos h0] at hout
        cases hout
    · refine Iff.trans ?_ (cryptoSignVerify_rejects_iff perm pk.length_toList _ _ ctx)
      refine exists_congr fun fuel => (hok fuel _).trans ⟨?_, fun hrun => ⟨-1, hrun, rfl⟩⟩
      rintro ⟨r, hrun, hout⟩
      rcases (hdecides fuel).of_ok hrun with ⟨rfl, -⟩ | ⟨rfl, -⟩
      · cases hout
      · exact hrun

end BitcoinPqc.Dilithium
