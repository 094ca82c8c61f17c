import BitcoinPqc.Dilithium.Signing
import BitcoinPqc.Dilithium.Valid

/-!
# Signatures verify

In the transform domain the verifier's `Az - ct` is the signer's `w` up to `cs2` and the low bits of
`ct`, an error the four checks keep below `2*gamma2`; so the hints give the verifier the signer's high
bits, and with them the same challenge (`honest_accepted`).
-/
namespace BitcoinPqc.Dilithium
open CSem Keccak

variable (perm : Lanes → Lanes)

/-! ## The verifier's commitment -/

/-- `Az - ct`, in standard representatives. -/
structure Recovered (mat : Matrix) (t1 : Polyveck) (cp : Poly) (z : Polyvecl) (v : Polyveck) : Prop where
  standard : ∀ i (h : i < k), Standard v[i]
  transform : ∀ i (h : i < k), ∀ t < 256, hat v[i] t = rowDot mat[i] z t - hat cp t * ((8192 : Int) * hat t1[i] t)

/-- **The verifier's commitment** is made from the high parts of `Az - ct`, moved where there is a hint. -/
theorem verifyCommit_spec {mat : Matrix} (hmat : ∀ i (hi : i < k) j (hj : j < l), Standard mat[i][j]) {t1 : Polyveck}
    (ht1 : ∀ i (h : i < k), Between 0 1024 t1[i]) {cp : Poly} (hcp : Within 1 cp) {z : Polyvecl} (hz : AllWithin 131072 z)
    (h : Polyveck) :
    Returns (fun buf => ∃ v, Recovered mat t1 cp z v ∧ polyveckPackW1 (hintedVec v h) = .ok buf) (verifyCommit mat t1 cp z h) := by
  refine (vecNtt_spec (by decide) hz).bind fun zhat hzhat => ?_
  refine (matrix_spec (A := q - 1) (by decide) (fun i hi j hj => (hmat i hi j hj).within) hzhat.1).bind fun w₁ hw₁ => ?_
  refine (ntt_spec (by decide) hcp).bind fun chat hchat => ?_
  refine (vecShiftl_spec ht1).bind fun t₁ ht₁ => ?_
  refine (vecNtt_spec (by decide) ht₁.1).bind fun that hthat => ?_
  refine (vecPointwise_spec (by decide) hchat.1 hthat.1).bind fun ct hct => ?_
  refine (vecSub_spec (by decide) hw₁.1 hct.1).bind fun w₂ hw₂ => ?_
  refine (vecReduce_spec (hw₂.1.mono (by decide))).bind fun w₃ hw₃ => ?_
  refine (vecInvntt_spec (by decide) (by decide) hw₃.1).bind fun w₄ hw₄ => ?_
  refine (vecCaddq_spec (hw₄.1.mono (by decide))).bind fun v hv => ?_
  have hstd : ∀ i (hi : i < k), Standard v[i] := fun i hi => (hv i hi).1
  obtain ⟨buf, hbuf, -⟩ := vecPackW1_spec (hintedVec_range hstd h)
  refine ⟨buf, (bind_of_ok (polyveckUseHint_eq hstd h)).trans hbuf, v, ⟨hstd, fun i hi t ht => ?_⟩, hbuf⟩
  rw [hat_congr (hv i hi).2, ← dot_of_ntt fun j hj => hzhat.2 j hj t ht, ← ht₁.2 i hi t]
  refine mont_cancel ?_ (hw₄.2 i hi t ht)
  rw [hw₃.2 i hi, hw₂.2 i hi, Pi.sub_apply, hw₁.2 i hi t ht, hct.2 i hi t ht, hchat.2 t ht, hthat.2 i hi t ht]
  ring

theorem Recovered.equation {mat : Matrix} {t1 : Polyveck} {cp : Poly} {z : Polyvecl} {v : Polyveck} (h : Recovered mat t1 cp z v)
    {i : Nat} (hi : i < k) : toRq v[i] = rowMul mat[i] z - toRq cp * (8192 * toRq t1[i]) := by
  refine rq_ext fun t => ?_
  rw [map_sub, map_mul, map_mul, map_ofNat, pointRq_rowMul, pointRq_toRq, pointRq_toRq, pointRq_toRq, h.transform i hi t t.2,
    Int.cast_ofNat]

/-! ## What is accepted -/

/-- From the challenge polynomial on; `mu` is known. -/
def verifyRest (fuel : Nat) (mu rho : Bytes) (t1 : Polyveck) (c : Bytes) (z : Polyvecl) (h : Polyveck) : Eval Int := do
  let cp ← polyChallenge perm fuel c
  let mat ← matrixExpand perm fuel rho
  let buf ← verifyCommit mat t1 cp z h
  .ok (if c = shake256Of perm (mu ++ buf) ctildebytes then 0 else -1)

section
variable {perm} {fuel : Nat} {mu rho c : Bytes} {t1 : Polyveck} {z : Polyvecl} {h : Polyveck}

theorem verifyInternal_eq {pk sig : Bytes} (hpk : pk.length = cryptoPublickeybytes) (hd : Decodes pk sig rho t1 c z h)
    (m pre : Bytes) :
    cryptoSignVerifyInternal perm fuel sig m pre pk = verifyRest perm fuel (messageHash perm pk pre m) rho t1 c z h := by
  obtain ⟨bad, hbad, hiff⟩ := vecChknorm_spec (B := gamma1 - beta) (by decide) (hd.bound.mono (by decide))
  obtain rfl : bad = false := hiff.mpr hd.bound
  obtain ⟨tr, htr, rfl⟩ := ofOption_shake256 perm trbytes pk
  have hmu : shake256Of perm [shake256Of perm pk trbytes, pre, m].flatten crhbytes = messageHash perm pk pre m := by
    simp [messageHash]
  rw [cryptoSignVerifyInternal, if_neg (by rw [not_not]; exact hd.length)]
  refine (bind_of_ok (take?_ok hpk)).trans ((bind_of_ok hd.key).trans ((bind_of_ok hd.parts).trans ((bind_of_ok hbad).trans ?_)))
  refine (bind_of_ok htr).trans ((bind_of_ok (shake256Pieces_eq perm _ _)).trans ?_)
  rw [hmu]
  refine bind_congr fun cp => bind_congr fun mat => bind_congr fun buf => ?_
  refine (bind_of_ok (shake256Pieces_eq perm _ _)).trans ?_
  simp

/-- What does not decode is rejected at once. -/
theorem verifyInternal_reject {pk sig : Bytes} (hpk : pk.length = cryptoPublickeybytes)
    (hbad : ¬ ∃ rho t1 c z h, Decodes pk sig rho t1 c z h) (m pre : Bytes) :
    cryptoSignVerifyInternal perm fuel sig m pre pk = .ok (-1) := by
  by_cases hlen : sig.length = cryptoBytes
  · obtain ⟨⟨rho, t1⟩, hkey, -⟩ := unpackPk_spec hpk
    obtain ⟨r, hsig, hparts⟩ := unpackSig_spec hlen
    rw [cryptoSignVerifyInternal, if_neg (by rw [not_not]; exact hlen)]
    refine (bind_of_ok (take?_ok hpk)).trans ((bind_of_ok hkey).trans ((bind_of_ok hsig).trans ?_))
    cases r with
    | none => rfl
    | some parts =>
      obtain ⟨c, z, h⟩ := parts
      have hzB : AllWithin 131072 z := fun i hi => ((hparts c z h rfl).2.1 i hi).within (by decide) (by decide)
      obtain ⟨bad, hnorm, hiff⟩ := vecChknorm_spec (B := gamma1 - beta) (by decide) (hzB.mono (by decide))
      cases bad with
      | true => exact bind_of_ok hnorm
      | false => exact absurd ⟨rho, t1, c, z, h, hlen, hkey, hsig, hiff.mp rfl⟩ hbad
  · exact if_pos hlen

/-- With what the samplers return, the equation decides. -/
theorem verifyRest_decides (mu : Bytes) (h : Polyveck) {mat : Matrix} {cp : Poly} (hcp : polyChallenge perm fuel c = .ok cp)
    (hexpand : matrixExpand perm fuel rho = .ok mat) (ht1 : ∀ i (hi : i < k), Between 0 1024 t1[i]) (hz : AllWithin 131072 z) :
    Returns (fun r => r = 0 ∧ (∃ w, Commits perm mu rho t1 c z h mat cp w) ∨
      r = -1 ∧ ¬ ∃ mat cp w, Commits perm mu rho t1 c z h mat cp w) (verifyRest perm fuel mu rho t1 c z h) := by
  have hmat := (matrixExpand_spec perm fuel rho).of_ok hexpand
  have hsparse := (polyChallenge_sparse perm fuel c).of_ok hcp
  rw [verifyRest, bind_of_ok hcp, bind_of_ok hexpand]
  refine (verifyCommit_spec hmat ht1 (hsparse.small.within (by decide) (by decide)) hz h).bind fun buf hbuf => Returns.ok ?_
  obtain ⟨v, hv, hbuf⟩ := hbuf
  split
  · rename_i heq
    exact .inl ⟨rfl, v, ⟨fuel, hexpand⟩, ⟨fuel, hcp⟩, hv.standard, fun i hi => hv.equation hi, buf, hbuf, heq⟩
  · rename_i hne
    refine .inr ⟨rfl, fun ⟨mat', cp', w, hw⟩ => hne ?_⟩
    obtain rfl := hw.expands.unique perm ⟨fuel, hexpand⟩
    obtain rfl := hw.challenge.unique perm ⟨fuel, hcp⟩
    obtain rfl : w = v := Vector.ext fun i hi =>
      (hw.standard i hi).eq_of_toRq (hv.standard i hi) ((hw.equation i hi).trans (hv.equation hi).symm)
    obtain ⟨buf', hbuf', hc⟩ := hw.hash
    cases hbuf.symm.trans hbuf'
    exact hc

end

/-- **Verification decides validity**, whatever the bytes are. -/
theorem verifyInternal_decides (fuel : Nat) {pk : Bytes} (hpk : pk.length = cryptoPublickeybytes) (sig m pre : Bytes) :
    Sound (fun r => r = 0 ∧ Valid perm pk sig m pre ∨ r = -1 ∧ ¬ Valid perm pk sig m pre)
      (cryptoSignVerifyInternal perm fuel sig m pre pk) := by
  by_cases hread : ∃ rho t1 c z h, Decodes pk sig rho t1 c z h
  · obtain ⟨rho, t1, c, z, h, hd⟩ := hread
    rw [verifyInternal_eq hpk hd, verifyRest]
    refine (polyChallenge_sparse perm fuel c).bind fun cp hcp _ => ?_
    refine (matrixExpand_spec perm fuel rho).bind fun mat hexpand _ => ?_
    have hrest := verifyRest_decides (messageHash perm pk pre m) h hcp hexpand (unpackPk_range hpk hd.key)
      (hd.bound.mono (by decide))
    rw [verifyRest, bind_of_ok hcp, bind_of_ok hexpand] at hrest
    refine hrest.sound.mono fun r _ hr => hr.imp ?_ ?_
    · rintro ⟨rfl, w, hw⟩
      exact ⟨rfl, rho, t1, c, z, h, mat, cp, w, hd.length, hd.key, hd.parts, hd.bound, hw⟩
    · rintro ⟨rfl, hno⟩
      refine ⟨rfl, fun hvalid => hno ?_⟩
      obtain ⟨rho', t1', c', z', h', mat', cp', w, hd', hw⟩ := hvalid.decodes
      obtain ⟨rfl, rfl, rfl, rfl, rfl⟩ := hd.unique hd'
      exact ⟨mat', cp', w, hw⟩
  · rw [verifyInternal_reject hpk hread]
    refine Sound.ok (.inr ⟨rfl, fun hvalid => hread ?_⟩)
    obtain ⟨rho, t1, c, z, h, _, _, _, hd, _⟩ := hvalid.decodes
    exact ⟨rho, t1, c, z, h, hd⟩

/-- **Verification returns exactly when its samplers do**, given enough fuel. -/
theorem verifyInternal_returns_iff {pk : Bytes} (hpk : pk.length = cryptoPublickeybytes) (sig m pre : Bytes) :
    (∃ fuel r, cryptoSignVerifyInternal perm fuel sig m pre pk = .ok r) ↔ Sampled perm pk sig := by
  constructor
  · rintro ⟨fuel, r, hrun⟩ rho t1 c z h hd
    rw [verifyInternal_eq hpk hd, verifyRest] at hrun
    cases hcp : polyChallenge perm fuel c with
    | error e =>
      rw [hcp] at hrun
      cases hrun
    | ok cp =>
      rw [bind_of_ok hcp] at hrun
      cases hexpand : matrixExpand perm fuel rho with
      | error e =>
        rw [hexpand] at hrun
        cases hrun
      | ok mat => exact ⟨⟨mat, fuel, hexpand⟩, cp, fuel, hcp⟩
  · intro hsampled
    by_cases hread : ∃ rho t1 c z h, Decodes pk sig rho t1 c z h
    · obtain ⟨rho, t1, c, z, h, hd⟩ := hread
      obtain ⟨⟨mat, fuel₁, hexpand⟩, cp, fuel₂, hcp⟩ := hsampled rho t1 c z h hd
      have hexpand := matrixExpand_below perm (Nat.le_max_left fuel₁ fuel₂) rho mat hexpand
      have hcp := polyChallenge_below perm (Nat.le_max_right fuel₁ fuel₂) c cp hcp
      obtain ⟨r, hrun, -⟩ := verifyRest_decides (messageHash perm pk pre m) h hcp hexpand (unpackPk_range hpk hd.key)
        (hd.bound.mono (by decide))
      exact ⟨_, r, (verifyInternal_eq hpk hd m pre).trans hrun⟩
    · exact ⟨0, -1, verifyInternal_reject hpk hread m pre⟩

theorem Valid.sampled {pk sig m pre : Bytes} (h : Valid perm pk sig m pre) : Sampled perm pk sig := by
  intro rho t1 c z h' hd
  obtain ⟨rho', t1', c', z', _, mat, cp, w, hd', hw⟩ := h.decodes
  obtain ⟨rfl, -, rfl, -⟩ := hd.unique hd'
  exact ⟨⟨mat, hw.expands⟩, cp, hw.challenge⟩

/-! ## The signer's high bits -/

theorem rowDot_response {row y s z : Polyvecl} {c : Zq} {t : Nat}
    (h : ∀ j (hj : j < l), hat z[j] t = hat y[j] t + c * hat s[j] t) : rowDot row z t = rowDot row y t + c * rowDot row s t := by
  simp only [rowDot, Finset.mul_sum, ← Finset.sum_add_distrib]
  refine Finset.sum_congr rfl fun j _ => ?_
  rw [get_fin, get_fin, get_fin, get_fin, h j j.2]
  ring

theorem Decomposed.mod {a a1 a0 : Int} (h : Decomposed a a1 a0) : (a - (a1 * 190464 + a0)) % q = 0 := by
  have hlow := h.low
  unfold q at *
  omega

/-- A signature made with the secret key of a pair. -/
structure Honest (fuel : Nat) (pk sk m pre sig rho : Bytes) (t1 : Polyveck) (s : SecretKey) (mat : Matrix) (x : Signer)
    (y : Polyvecl) (c : Bytes) (w1 w0 w : Polyveck) (cp cpHat : Poly) (z : Polyvecl) (h : Polyveck) : Prop where
  key : KeyPair perm fuel pk sk rho t1 s mat
  prepared : Prepared perm fuel s m pre x
  signed : Signed perm fuel x sig y c w1 w0 w cp cpHat z h

section
variable {perm} {fuel : Nat} {pk sk m pre sig rho : Bytes} {t1 : Polyveck} {s : SecretKey} {mat : Matrix} {x : Signer}
  {y : Polyvecl} {c : Bytes} {w1 w0 w : Polyveck} {cp cpHat : Poly} {z : Polyvecl} {h : Polyveck}

theorem Honest.mat_eq (hh : Honest perm fuel pk sk m pre sig rho t1 s mat x y c w1 w0 w cp cpHat z h) : x.mat = mat :=
  Except.ok.inj (hh.prepared.expand.symm.trans (hh.key.rho_eq ▸ hh.key.expand))

/-- **What the verifier recovers is the signer's `w`**, up to the error the hints are made from. -/
theorem Honest.recovered (hh : Honest perm fuel pk sk m pre sig rho t1 s mat x y c w1 w0 w cp cpHat z h) {v e : Polyveck}
    (hv : Recovered mat t1 cp z v)
    (he : ∀ i (hi : i < k), ∀ t < 256, hat e[i] t = hat w0[i] t - res cpHat t * res x.s2[i] t + res cpHat t * res x.t0[i] t) :
    ∀ i (hi : i < k) j (hj : j < 256), (v[i][j] - (w1[i][j] * 190464 + e[i][j])) % q = 0 := by
  intro i hi j hj
  have hhat : ∀ t < 256, hat v[i] t = hat w[i] t + (hat e[i] t - hat w0[i] t) := by
    intro t ht
    have hz : rowDot mat[i] z t = rowDot mat[i] y t + hat cp t * rowDot mat[i] s.s1 t := rowDot_response fun j hj => by
      rw [hh.signed.responded.transform j hj t ht, hh.signed.transform t ht, hh.prepared.s1 j hj t ht]
    have hw := hh.signed.committed.transform i hi t ht
    have hrel := hh.key.relation i hi t ht
    simp only [hh.mat_eq] at hw
    rw [hv.transform i hi t ht, he i hi t ht, hh.signed.transform t ht, hh.prepared.s2 i hi t ht, hh.prepared.t0 i hi t ht, hz, hw]
    linear_combination -hat cp t * hrel
  have hres := Ntt.eq_of_forward 8 zetaInvOf_mul inv256_mul (a := res v[i]) (b := res w[i] + (res e[i] - res w0[i]))
    (fun t ht => by rw [map_add, map_sub]; exact hhat t ht) j hj
  rw [Pi.add_apply, Pi.sub_apply, res_lt _ hj, res_lt _ hj, res_lt _ hj, res_lt _ hj] at hres
  have hvw := mod_eq_of_cast (x := v[i][j]) (y := w[i][j] + (e[i][j] - w0[i][j])) (by push_cast; exact hres)
  have hdec := (hh.signed.committed.parts i hi j hj).mod
  unfold q at *
  omega

/-- **The hints give the signer's high bits.** -/
theorem Honest.useHint (hh : Honest perm fuel pk sk m pre sig rho t1 s mat x y c w1 w0 w cp cpHat z h) {v : Polyveck}
    (hv : Recovered mat t1 cp z v) : polyveckUseHint v h = .ok w1 := by
  obtain ⟨e, heB, he, hmake⟩ := hh.signed.responded.error
  refine vecUseHint_eq fun i hi j hj => ?_
  have hb := heB i hi j hj
  rw [hmake i hi j hj]
  exact useHint_makeHint (hv.standard i hi j hj).1 (hv.standard i hi j hj).2 (hh.signed.committed.parts i hi j hj).high
    ⟨by omega, by omega⟩ (hh.recovered hv he i hi j hj)

/-- **An honest signature is accepted**, with any fuel that was enough for the signer. -/
theorem Honest.accepted (hh : Honest perm fuel pk sk m pre sig rho t1 s mat x y c w1 w0 w cp cpHat z h) {fuel' : Nat}
    (hfuel : fuel ≤ fuel') : cryptoSignVerifyInternal perm fuel' sig m pre pk = .ok 0 := by
  have hresp := hh.signed.responded
  have hchallenge := polyChallenge_below perm hfuel c cp hh.signed.challenge
  have hexpand := matrixExpand_below perm hfuel rho mat hh.key.expand
  have hmat := (matrixExpand_spec perm fuel rho).of_ok hh.key.expand
  have hsparse := (polyChallenge_sparse perm fuel c).of_ok hh.signed.challenge
  obtain ⟨buf, hbuf, hc⟩ := hh.signed.committed.hash
  obtain ⟨buf', hcommit, v, hv, hbuf'⟩ := verifyCommit_spec hmat (unpackPk_range hh.key.pk_length hh.key.unpack_pk)
    (hsparse.small.within (by decide) (by decide)) (hresp.bound.mono (by decide)) h
  have hhigh : hintedVec v h = w1 := Except.ok.inj ((polyveckUseHint_eq hv.standard h).symm.trans (hh.useHint hv))
  rw [hhigh] at hbuf'
  obtain rfl : buf = buf' := Except.ok.inj (hbuf.symm.trans hbuf')
  have hmu : x.mu = messageHash perm pk pre m := by rw [hh.prepared.mu, hh.key.tr, messageHash]
  rw [verifyInternal_eq hh.key.pk_length ⟨hh.signed.length, hh.key.unpack_pk, hh.signed.unpack, hresp.bound⟩, verifyRest,
    bind_of_ok hchallenge, bind_of_ok hexpand, bind_of_ok hcommit, ← hmu, if_pos hc]

end

end BitcoinPqc.Dilithium
