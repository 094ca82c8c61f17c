import BitcoinPqc.Dilithium.Ring
import BitcoinPqc.Dilithium.Sign

/-!
# What key generation and signing compute

Relations at the points of the transform, where the matrix product is a sum: `t = As + e` between the
two keys (`KeyPair`), `w = Ay` for a commitment, and the response with the error its hints are made
from. On the way every operation is shown to keep to 32 bits, whatever bytes the secret key holds.
-/
namespace BitcoinPqc.Dilithium
open CSem Keccak

variable (perm : Lanes → Lanes)

theorem Standard.within {a : Poly} (h : Standard a) : Within (q - 1) a := Between.within (by decide) (by decide) h

/-! ## The signer -/

/-- Rows of standard representatives; secrets as far from zero as any unpacked key has them. -/
structure Signer.Valid (x : Signer) : Prop where
  mat : ∀ i (hi : i < k) j (hj : j < l), Standard x.mat[i][j]
  s1 : AllWithin (5 + 8 * q) x.s1
  s2 : AllWithin (5 + 8 * q) x.s2
  t0 : AllWithin (4096 + 8 * q) x.t0

/-- The commitment: `w` is the matrix times the masks, cut in two, and the high parts are hashed. -/
structure Committed (x : Signer) (y : Polyvecl) (c : Bytes) (w1 w0 w : Polyveck) : Prop where
  masks : ∀ i (h : i < l), Between (-131071) 131073 y[i]
  transform : ∀ i (h : i < k), ∀ t < 256, hat w[i] t = rowDot x.mat[i] y t
  parts : ∀ i (h : i < k) j (hj : j < 256), Decomposed w[i][j] w1[i][j] w0[i][j]
  hash : ∃ buf, polyveckPackW1 w1 = .ok buf ∧ c = shake256Of perm (x.mu ++ buf) ctildebytes

theorem vecDecompose_spec {v : Polyveck} (hv : ∀ i (h : i < k), Standard v[i]) :
    Returns (fun p : Polyveck × Polyveck => ∀ i (h : i < k) j (hj : j < 256), Decomposed v[i][j] p.1[i][j] p.2[i][j])
      (polyveckDecompose v) := by
  refine (polyvecPairs_spec (R := fun i a1 a0 => ∀ h : i < k, ∀ j (hj : j < 256), Decomposed v[i][j] a1[j] a0[j])
    fun i hi => ?_).mono fun p hp i hi => hp i hi hi
  exact (polyDecompose_spec (hv i hi)).mono fun p hp _ => hp

theorem vecPackW1_spec {w1 : Polyveck} (h : ∀ i (h : i < k), Between 0 44 w1[i]) :
    Returns (fun buf => buf.length = k * polyw1Packedbytes) (polyveckPackW1 w1) := by
  refine (Returns.ofFnM (R := fun _ bs => List.length bs = polyw1Packedbytes) fun i => ?_).bind fun parts hparts => Returns.ok ?_
  · exact polyw1Pack_spec (h i i.2)
  · exact length_ofBlocks fun i hi => by simpa [hi] using hparts i hi

theorem signCommit_spec {x : Signer} (hx : x.Valid) (nonce : UInt16) :
    Returns (fun r => polyveclUniformGamma1 perm x.rhoprime nonce = .ok r.1 ∧ ∃ w, Committed perm x r.1 r.2.1 r.2.2.1 r.2.2.2 w)
      (signCommit perm x nonce) := by
  obtain ⟨y, hrun, hy⟩ := polyveclUniformGamma1_spec perm x.rhoprime nonce
  rw [signCommit, bind_of_ok hrun]
  have hyB : AllWithin 131072 y := fun i hi => (hy i hi).within (by decide) (by decide)
  refine (vecNtt_spec (by decide) hyB).bind fun z hz => ?_
  refine (matrix_spec (A := q - 1) (by decide) (fun i hi j hj => (hx.mat i hi j hj).within) hz.1).bind fun w₁ hw₁ => ?_
  refine (vecReduce_spec (hw₁.1.mono (by decide))).bind fun w₂ hw₂ => ?_
  refine (vecInvntt_spec (by decide) (by decide) hw₂.1).bind fun w₃ hw₃ => ?_
  refine (vecCaddq_spec (hw₃.1.mono (by decide))).bind fun w hw => ?_
  refine (vecDecompose_spec fun i hi => (hw i hi).1).bind fun p hp => ?_
  obtain ⟨w1, w0⟩ := p
  dsimp only at hp ⊢
  have hrange : ∀ i (hi : i < k), Between 0 44 w1[i] := fun i hi j hj => by
    have := (hp i hi j hj).high
    omega
  obtain ⟨buf, hbuf, -⟩ := vecPackW1_spec hrange
  refine Returns.bind (P := (· = buf)) ⟨buf, hbuf, rfl⟩ ?_
  rintro buf rfl
  refine Returns.bind (P := (· = _)) ⟨_, shake256Pieces_eq perm ctildebytes [x.mu, buf], rfl⟩ ?_
  rintro _ rfl
  refine Returns.ok ⟨hrun, w, hy, fun i hi t ht => ?_, hp, buf, hbuf, ?_⟩
  · rw [hat_congr (hw i hi).2, ← dot_of_ntt fun j hj => hz.2 j hj t ht]
    exact mont_cancel (hw₁.2 i hi t ht) (by rw [hw₃.2 i hi t ht, hw₂.2 i hi])
  · simp

/-- The response to a challenge: the checks, and what the hints are made from. -/
structure Responded (x : Signer) (cp : Poly) (y : Polyvecl) (w1 w0 : Polyveck) (z : Polyvecl) (h : Polyveck) : Prop where
  bound : AllWithin (gamma1 - beta - 1) z
  transform : ∀ i (hi : i < l), ∀ t < 256, hat z[i] t = hat y[i] t + res cp t * res x.s1[i] t
  hint : IsHint h
  error : ∃ e : Polyveck, AllWithin 190463 e ∧
    (∀ i (hi : i < k), ∀ t < 256, hat e[i] t = hat w0[i] t - res cp t * res x.s2[i] t + res cp t * res x.t0[i] t) ∧
    ∀ i (hi : i < k) j (hj : j < 256), h[i][j] = makeHint e[i][j] w1[i][j]

theorem Responded.range {x : Signer} {cp : Poly} {y : Polyvecl} {w1 w0 : Polyveck} {z : Polyvecl} {h : Polyveck}
    (hresp : Responded x cp y w1 w0 z h) : ∀ i (hi : i < l), Between (-131071) 131073 z[i] := fun i hi j hj => by
  have hbound := hresp.bound i hi j hj
  unfold gamma1 beta at hbound
  omega

theorem vecChknorm_spec {m : Nat} {B : Int} (hB : B ≤ 1047552) {v : Vector Poly m} (hv : AllWithin 1073741823 v) :
    Returns (fun bad => bad = false ↔ AllWithin (B - 1) v) (chknormVec B v.toList) := chknorm_spec hB hv

theorem signRespond_spec {x : Signer} (hx : x.Valid) {cp : Poly} (hcp : Within (1 + 8 * q) cp) {y : Polyvecl}
    (hy : AllWithin 131072 y) (w1 : Polyveck) {w0 : Polyveck} (hw0 : AllWithin 95232 w0) :
    Returns (fun r => ∀ z h, r = some (z, h) → Responded x cp y w1 w0 z h) (signRespond x cp y w1 w0) := by
  refine returns_product (by decide) hcp hx.s1 fun cs1 hcs1 hs1 => ?_
  refine (vecAdd_spec (by decide) hcs1 hy).bind fun z₀ hz₀ => ?_
  refine (vecReduce_spec (hz₀.1.mono (by decide))).bind fun z hz => ?_
  refine (vecChknorm_spec (by decide) (hz.1.mono (by decide))).bind fun bad hbad => ?_
  cases bad with
  | true => exact Returns.ok fun _ _ h => by cases h
  | false =>
    have hzB := hbad.mp rfl
    refine returns_product (by decide) hcp hx.s2 fun cs2 hcs2 hs2 => ?_
    refine (vecSub_spec (by decide) hw0 hcs2).bind fun w₀ hw₀ => ?_
    refine (vecReduce_spec (hw₀.1.mono (by decide))).bind fun w₀' hw₀' => ?_
    refine (vecChknorm_spec (by decide) (hw₀'.1.mono (by decide))).bind fun bad hbad => ?_
    cases bad with
    | true => exact Returns.ok fun _ _ h => by cases h
    | false =>
      have hwB := hbad.mp rfl
      refine returns_product (by decide) hcp hx.t0 fun ct0 hct0 ht0 => ?_
      refine (vecReduce_spec (hct0.mono (by decide))).bind fun h₀ hh₀ => ?_
      refine (vecChknorm_spec (by decide) (hh₀.1.mono (by decide))).bind fun bad hbad => ?_
      cases bad with
      | true => exact Returns.ok fun _ _ h => by cases h
      | false =>
        have hhB := hbad.mp rfl
        refine (vecAdd_spec (by decide) hwB hhB).bind fun e he => ?_
        dsimp only
        split
        · exact Returns.ok fun _ _ h => by cases h
        · rename_i hfew
          refine Returns.ok fun z' h' hr => ?_
          cases hr
          refine ⟨hzB, fun i hi t ht => ?_, polyveckMakeHint_isHint (by omega), e, he.1.mono (by decide), fun i hi t ht => ?_,
            (polyveckMakeHint_spec e w1).1⟩
          · rw [hat_congr (hz.2 i hi), hat_add (hz₀.2 i hi), Pi.add_apply, hs1 i hi t ht]
            ring
          · rw [hat_add (he.2 i hi), Pi.add_apply, hat_congr (hw₀'.2 i hi), hat_sub (hw₀.2 i hi), Pi.sub_apply,
              hat_congr (hh₀.2 i hi), hs2 i hi t ht, ht0 i hi t ht]

/-- No secrets: they are zero at every point of the transform. -/
structure Signer.Blank (x : Signer) : Prop where
  s1 : ∀ i (h : i < l), ∀ t < 256, res x.s1[i] t = 0
  s2 : ∀ i (h : i < k), ∀ t < 256, res x.s2[i] t = 0
  t0 : ∀ i (h : i < k), ∀ t < 256, res x.t0[i] t = 0

/-- **Without secrets the response is the mask.** -/
theorem signRespond_blank {x : Signer} (hx : x.Valid) (hblank : x.Blank) {cp : Poly} (hcp : Within (1 + 8 * q) cp) {y : Polyvecl}
    (hy : AllWithin (gamma1 - beta - 1) y) (w1 : Polyveck) {w0 : Polyveck} (hw0 : AllWithin (gamma2 - beta - 1) w0) :
    Returns (fun r => ∃ h, r = some (y, h)) (signRespond x cp y w1 w0) := by
  refine returns_product (by decide) hcp hx.s1 fun cs1 hcs1 hs1 => ?_
  refine (vecAdd_spec (by decide) hcs1 hy).bind fun z₀ hz₀ => ?_
  refine (vecReduce_spec (hz₀.1.mono (by decide))).bind fun z hz => ?_
  have hzy : z = y := vec_eq_of_hat (by decide) hz.1 hy fun i hi t ht => by
    rw [hat_congr (hz.2 i hi), hat_add (hz₀.2 i hi), Pi.add_apply, hs1 i hi t ht,
      hblank.s1 i hi t ht, mul_zero, zero_add]
  subst hzy
  refine (vecChknorm_spec (by decide) (hz.1.mono (by decide))).bind fun bad hbad => ?_
  rw [show bad = false from hbad.mpr hy]
  refine returns_product (by decide) hcp hx.s2 fun cs2 hcs2 hs2 => ?_
  refine (vecSub_spec (by decide) hw0 hcs2).bind fun w₀ hw₀ => ?_
  refine (vecReduce_spec (hw₀.1.mono (by decide))).bind fun w₀' hw₀' => ?_
  have hww : w₀' = w0 := vec_eq_of_hat (by decide) hw₀'.1 hw0 fun i hi t ht => by
    rw [hat_congr (hw₀'.2 i hi), hat_sub (hw₀.2 i hi), Pi.sub_apply, hs2 i hi t ht,
      hblank.s2 i hi t ht, mul_zero, sub_zero]
  subst hww
  refine (vecChknorm_spec (by decide) (hw₀'.1.mono (by decide))).bind fun bad hbad => ?_
  rw [show bad = false from hbad.mpr hw0]
  refine returns_product (by decide) hcp hx.t0 fun ct0 hct0 ht0 => ?_
  refine (vecReduce_spec (hct0.mono (by decide))).bind fun h₀ hh₀ => ?_
  have hzeros : AllWithin 0 (Vector.replicate k (Vector.replicate 256 (0 : Int))) := fun i hi j hj => by
    rw [Vector.getElem_replicate, Vector.getElem_replicate]
    exact ⟨Int.le_refl 0, Int.le_refl 0⟩
  have hh0 : h₀ = Vector.replicate k (Vector.replicate 256 0) := vec_eq_of_hat (by decide) hh₀.1 hzeros fun i hi t ht => by
    rw [hat_congr (hh₀.2 i hi), ht0 i hi t ht, hblank.t0 i hi t ht, mul_zero,
      Vector.getElem_replicate, hat_zero, Pi.zero_apply]
  subst hh0
  refine (vecChknorm_spec (by decide) (hh₀.1.mono (by decide))).bind fun bad hbad => ?_
  rw [show bad = false from hbad.mpr (hzeros.mono (by decide))]
  refine (vecAdd_spec (by decide) hw0 hzeros).bind fun e he => ?_
  dsimp only
  rw [if_neg (by rw [makeHint_none (he.1.mono (by decide))]; decide)]
  exact Returns.ok ⟨_, rfl⟩

/-! ## Keys -/

/-- Two keys that belong together, unpacked, with the matrix: `t = As + e` at every point of the
transform. -/
structure KeyPair (fuel : Nat) (pk sk : Bytes) (rho : Bytes) (t1 : Polyveck) (s : SecretKey) (mat : Matrix) : Prop where
  pk_length : pk.length = cryptoPublickeybytes
  sk_length : sk.length = cryptoSecretkeybytes
  unpack_pk : unpackPk pk = .ok (rho, t1)
  unpack_sk : unpackSk sk = .ok s
  rho_eq : s.rho = rho
  tr : s.tr = shake256Of perm pk trbytes
  expand : matrixExpand perm fuel rho = .ok mat
  short1 : ∀ i (h : i < l), Between (-2) 3 s.s1[i]
  short2 : ∀ i (h : i < k), Between (-2) 3 s.s2[i]
  low : ∀ i (h : i < k), Between (-4095) 4097 s.t0[i]
  canonical : ∀ i (h : i < k) j (hj : j < 256), 0 ≤ t1[i][j] * (8192 : Int) + s.t0[i][j] ∧
    t1[i][j] * (8192 : Int) + s.t0[i][j] < q
  relation : ∀ i (h : i < k), ∀ t < 256, (8192 : Int) * hat t1[i] t + hat s.t0[i] t = rowDot mat[i] s.s1 t + hat s.s2[i] t

theorem ofOption_shake256 (outlen : Nat) (inp : Bytes) :
    Returns (· = shake256Of perm inp outlen) (ofOption (shake256 perm outlen inp)) := by
  rw [shake256, shake_eq perm shake256Rate_pos (by decide)]
  exact ⟨_, rfl, rfl⟩

/-- What key generation expands its seed to: `rho`, `rhoprime` and `key`. -/
def seedbufOf (seed : Bytes) : Bytes :=
  shake256Of perm (seed ++ [UInt8.ofNat k, UInt8.ofNat l]) (2 * seedbytes + crhbytes)

def rhoOf (seed : Bytes) : Bytes := (seedbufOf perm seed).take seedbytes

def rhoprimeOf (seed : Bytes) : Bytes := ((seedbufOf perm seed).drop seedbytes).take crhbytes

def keyOf (seed : Bytes) : Bytes := ((seedbufOf perm seed).drop (seedbytes + crhbytes)).take seedbytes

theorem length_rhoOf (seed : Bytes) : (rhoOf perm seed).length = seedbytes := by
  rw [rhoOf, List.length_take, seedbufOf, length_shake256Of]
  rfl

theorem length_keyOf (seed : Bytes) : (keyOf perm seed).length = seedbytes := by
  rw [keyOf, List.length_take, List.length_drop, seedbufOf, length_shake256Of]
  rfl

/-- From the secret vectors on. -/
def keypairRest (rho key : Bytes) (mat : Matrix) (s1 : Polyvecl) (s2 : Polyveck) : Eval (Bytes × Bytes) := do
  let s1hat ← polyveclNtt s1
  let t1 ← polyvecMatrixPointwiseMontgomery mat s1hat
  let t1 ← polyveckReduce t1
  let t1 ← polyveckInvnttTomont t1
  let t1 ← polyveckAdd t1 s2
  let t1 ← polyveckCaddq t1
  let (t1, t0) ← polyveckPower2round t1
  let pk ← packPk rho t1
  let tr ← ofOption (shake256 perm trbytes pk)
  let sk ← packSk { rho, tr, key, t0, s1, s2 }
  .ok (pk, sk)

theorem cryptoSignKeypair_eq (fuel : Nat) (seed : Bytes) : cryptoSignKeypair perm fuel seed = (do
    let mat ← matrixExpand perm fuel (rhoOf perm seed)
    let s1 ← polyveclUniformEta perm fuel (rhoprimeOf perm seed) 0
    let s2 ← polyveckUniformEta perm fuel (rhoprimeOf perm seed) (UInt16.ofNat l)
    keypairRest perm (rhoOf perm seed) (keyOf perm seed) mat s1 s2) := by
  obtain ⟨seedbuf, hseedbuf, rfl⟩ :=
    ofOption_shake256 perm (2 * seedbytes + crhbytes) (seed ++ [UInt8.ofNat k, UInt8.ofNat l])
  exact bind_of_ok hseedbuf

/-- **From the vectors on key generation returns**, and the keys belong together. -/
theorem keypairRest_spec {fuel : Nat} {rho key : Bytes} (hrho : rho.length = seedbytes) (hkey : key.length = seedbytes)
    {mat : Matrix} (hexpand : matrixExpand perm fuel rho = .ok mat) {s1 : Polyvecl} (hs1 : ∀ i (h : i < l), Between (-2) 3 s1[i])
    {s2 : Polyveck} (hs2 : ∀ i (h : i < k), Between (-2) 3 s2[i]) :
    Returns (fun p => ∃ t1 s, s.s1 = s1 ∧ s.s2 = s2 ∧ KeyPair perm fuel p.1 p.2 rho t1 s mat)
      (keypairRest perm rho key mat s1 s2) := by
  have hmat := (matrixExpand_spec perm fuel rho).of_ok hexpand
  have hs1B : AllWithin 2 s1 := fun i hi => (hs1 i hi).within (by decide) (by decide)
  have hs2B : AllWithin 2 s2 := fun i hi => (hs2 i hi).within (by decide) (by decide)
  refine (vecNtt_spec (by decide) hs1B).bind fun s1hat hs1hat => ?_
  refine (matrix_spec (A := q - 1) (by decide) (fun i hi j hj => (hmat i hi j hj).within) hs1hat.1).bind fun t₁ ht₁ => ?_
  refine (vecReduce_spec (ht₁.1.mono (by decide))).bind fun t₂ ht₂ => ?_
  refine (vecInvntt_spec (by decide) (by decide) ht₂.1).bind fun t₃ ht₃ => ?_
  refine (vecAdd_spec (by decide) ht₃.1 hs2B).bind fun t₄ ht₄ => ?_
  refine (vecCaddq_spec (ht₄.1.mono (by decide))).bind fun t ht => ?_
  refine (vecPower2round_spec fun i hi => (ht i hi).1).bind fun p hp => ?_
  obtain ⟨t1, t0⟩ := p
  dsimp only at hp ⊢
  refine (packPk_spec hrho fun i hi => (hp i hi).1).bind fun pk hpk => ?_
  refine (ofOption_shake256 perm _ _).bind ?_
  rintro tr htr
  have hvalid : SecretKey.Valid { rho, tr, key, t0, s1, s2 } :=
    { rho := hrho
      tr := by rw [htr, length_shake256Of]
      key := hkey
      t0 := fun i hi => (hp i hi).2.1
      s1 := fun i hi j hj => by have := hs1 i hi j hj; dsimp only; omega
      s2 := fun i hi j hj => by have := hs2 i hi j hj; dsimp only; omega }
  refine (packSk_spec hvalid).bind fun sk hsk => Returns.ok ?_
  refine ⟨t1, _, rfl, rfl, hpk.1, hsk.1, hpk.2, hsk.2, rfl, htr, hexpand, hs1, hs2, hvalid.t0, fun i hi j hj => ?_,
    fun i hi x hx => ?_⟩
  · dsimp only
    rw [← (hp i hi).2.2.1 j hj]
    exact (ht i hi).1 j hj
  · have hAs : hat t₃[i] x = rowDot mat[i] s1 x := by
      rw [← dot_of_ntt fun j hj => hs1hat.2 j hj x hx]
      exact mont_cancel (ht₁.2 i hi x hx) (by rw [ht₃.2 i hi x hx, ht₂.2 i hi])
    dsimp only
    rw [← (hp i hi).2.2.2 x, hat_congr (ht i hi).2, hat_add (ht₄.2 i hi), Pi.add_apply, hAs]

theorem keypair_spec (fuel : Nat) (seed : Bytes) :
    Sound (fun p => ∃ t1 s mat, polyveclUniformEta perm fuel (rhoprimeOf perm seed) 0 = .ok s.s1 ∧
      polyveckUniformEta perm fuel (rhoprimeOf perm seed) (UInt16.ofNat l) = .ok s.s2 ∧
      KeyPair perm fuel p.1 p.2 (rhoOf perm seed) t1 s mat) (cryptoSignKeypair perm fuel seed) := by
  rw [cryptoSignKeypair_eq]
  refine (matrixExpand_spec perm fuel _).bind fun mat hexpand _ => ?_
  refine (uniformEta_spec perm l fuel _ _).bind fun s1 hrun1 hs1 => ?_
  refine (uniformEta_spec perm k fuel _ _).bind fun s2 hrun2 hs2 => ?_
  refine (keypairRest_spec perm (length_rhoOf perm seed) (length_keyOf perm seed) hexpand hs1 hs2).sound.mono fun p _ hp => ?_
  obtain ⟨t1, s, rfl, rfl, hkey⟩ := hp
  exact ⟨t1, s, mat, hrun1, hrun2, hkey⟩

/-- **Key generation returns exactly when its samplers do.** -/
theorem keypair_returns_iff (fuel : Nat) (seed : Bytes) :
    (∃ keys, cryptoSignKeypair perm fuel seed = .ok keys) ↔
      (∃ mat, matrixExpand perm fuel (rhoOf perm seed) = .ok mat) ∧
      (∃ s1, polyveclUniformEta perm fuel (rhoprimeOf perm seed) 0 = .ok s1) ∧
      ∃ s2, polyveckUniformEta perm fuel (rhoprimeOf perm seed) (UInt16.ofNat l) = .ok s2 := by
  constructor
  · rintro ⟨keys, hrun⟩
    obtain ⟨t1, s, mat, hs1, hs2, hkey⟩ := (keypair_spec perm fuel seed).of_ok hrun
    exact ⟨⟨mat, hkey.expand⟩, ⟨s.s1, hs1⟩, s.s2, hs2⟩
  · rintro ⟨⟨mat, hexpand⟩, ⟨s1, hs1⟩, s2, hs2⟩
    rw [cryptoSignKeypair_eq, bind_of_ok hexpand, bind_of_ok hs1, bind_of_ok hs2]
    obtain ⟨keys, hrun, -⟩ := keypairRest_spec perm (length_rhoOf perm seed) (length_keyOf perm seed) hexpand
      ((uniformEta_spec perm l fuel _ _).of_ok hs1) ((uniformEta_spec perm k fuel _ _).of_ok hs2)
    exact ⟨keys, hrun⟩

/-! ## Signing -/

/-- What signing derives from the key and the message. -/
structure Prepared (fuel : Nat) (s : SecretKey) (m pre : Bytes) (x : Signer) : Prop where
  valid : x.Valid
  expand : matrixExpand perm fuel s.rho = .ok x.mat
  s1 : ∀ i (h : i < l), ∀ t < 256, res x.s1[i] t = hat s.s1[i] t
  s2 : ∀ i (h : i < k), ∀ t < 256, res x.s2[i] t = hat s.s2[i] t
  t0 : ∀ i (h : i < k), ∀ t < 256, res x.t0[i] t = hat s.t0[i] t
  mu : x.mu = shake256Of perm (s.tr ++ pre ++ m) crhbytes

/-- From the matrix on. -/
theorem signer_transform {fuel : Nat} {s : SecretKey} (hvalid : s.Valid) {mat : Matrix}
    (hexpand : matrixExpand perm fuel s.rho = .ok mat) {m pre mu : Bytes}
    (hmu : mu = shake256Of perm (s.tr ++ pre ++ m) crhbytes) (rhoprime : Bytes) :
    Returns (Prepared perm fuel s m pre) (do
      let s1 ← polyveclNtt s.s1
      let s2 ← polyveckNtt s.s2
      let t0 ← polyveckNtt s.t0
      .ok { mat, s1, s2, t0, mu, rhoprime }) := by
  have hmat := (matrixExpand_spec perm fuel s.rho).of_ok hexpand
  have hs1B : AllWithin 5 s.s1 := fun i hi => (hvalid.s1 i hi).within (by decide) (by decide)
  have hs2B : AllWithin 5 s.s2 := fun i hi => (hvalid.s2 i hi).within (by decide) (by decide)
  have ht0B : AllWithin 4096 s.t0 := fun i hi => (hvalid.t0 i hi).within (by decide) (by decide)
  refine (vecNtt_spec (by decide) hs1B).bind fun s1 hs1 => ?_
  refine (vecNtt_spec (by decide) hs2B).bind fun s2 hs2 => ?_
  refine (vecNtt_spec (by decide) ht0B).bind fun t0 ht0 => Returns.ok ?_
  exact ⟨⟨hmat, hs1.1, hs2.1, ht0.1⟩, hexpand, hs1.2, hs2.2, ht0.2, hmu⟩

theorem signer_spec (fuel : Nat) (m pre rnd : Bytes) {sk : Bytes} (hsk : sk.length = cryptoSecretkeybytes) :
    Sound (fun x => ∃ s, unpackSk sk = .ok s ∧ Prepared perm fuel s m pre x) (signer perm fuel m pre rnd sk) := by
  refine (unpackSk_spec hsk).sound.bind fun s hs hvalid => ?_
  obtain ⟨hvalid, -⟩ := hvalid
  refine Sound.bind (P := (· = shake256Of perm (s.tr ++ pre ++ m) crhbytes)) ?_ ?_
  · rw [shake256Pieces_eq]
    exact Sound.ok (by simp)
  rintro mu - hmu
  refine Sound.bind (P := fun _ => True) ?_ fun rhoprime _ _ => ?_
  · rw [shake256Pieces_eq]
    exact Sound.ok trivial
  refine (matrixExpand_spec perm fuel s.rho).bind fun mat hexpand _ => ?_
  exact (signer_transform perm hvalid hexpand hmu rhoprime).sound.mono fun x _ hx => ⟨s, hs, hx⟩

theorem signer_returns {fuel : Nat} (hexpand : ∀ rho, ∃ mat, matrixExpand perm fuel rho = .ok mat) (m pre rnd : Bytes) {sk : Bytes}
    (hsk : sk.length = cryptoSecretkeybytes) : ∃ x, signer perm fuel m pre rnd sk = .ok x := by
  obtain ⟨s, hs, hvalid, -⟩ := unpackSk_spec hsk
  obtain ⟨mat, hmat⟩ := hexpand s.rho
  have hmu : shake256Of perm [s.tr, pre, m].flatten crhbytes = shake256Of perm (s.tr ++ pre ++ m) crhbytes := by simp
  obtain ⟨x, hx, -⟩ := signer_transform perm hvalid hmat hmu
    (shake256Of perm [s.key, rnd, shake256Of perm [s.tr, pre, m].flatten crhbytes].flatten crhbytes)
  refine ⟨x, ?_⟩
  rw [signer, bind_of_ok hs, shake256Pieces_eq, bind_of_ok rfl, shake256Pieces_eq, bind_of_ok rfl, bind_of_ok hmat]
  exact hx

/-- Secret vectors of zeros leave nothing to round away. -/
theorem KeyPair.blank {fuel : Nat} {pk sk rho : Bytes} {t1 : Polyveck} {s : SecretKey} {mat : Matrix}
    (hkey : KeyPair perm fuel pk sk rho t1 s mat) (h1 : s.s1 = Vector.replicate l (Vector.replicate 256 0))
    (h2 : s.s2 = Vector.replicate k (Vector.replicate 256 0)) {m pre : Bytes} {x : Signer} (hprep : Prepared perm fuel s m pre x) :
    x.Blank := by
  have hs1 : ∀ i (hi : i < l), hat s.s1[i] = 0 := fun i hi => by rw [← hat_zero, h1, Vector.getElem_replicate]
  have hs2 : ∀ i (hi : i < k), hat s.s2[i] = 0 := fun i hi => by rw [← hat_zero, h2, Vector.getElem_replicate]
  have ht0 : ∀ i (hi : i < k), s.t0[i] = Vector.replicate 256 0 := by
    intro i hi
    let t : Poly := Vector.ofFn fun j => t1[i][j] * (8192 : Int) + s.t0[i][j]
    have hcell : ∀ j (hj : j < 256), t[j] = t1[i][j] * (8192 : Int) + s.t0[i][j] := fun j hj => Vector.getElem_ofFn hj
    have hzero : ∀ x < 256, hat t x = hat (Vector.replicate 256 0) x := by
      intro x hx
      rw [hat_scale (a := t) (b := t1[i]) (d := s.t0[i]) (c := ((8192 : Int) : Zq)) (fun j hj => ?_) x, hkey.relation i hi x hx,
        hs2 i hi, hat_zero, Pi.zero_apply, add_zero, rowDot]
      · refine Finset.sum_eq_zero fun j _ => ?_
        rw [get_fin s.s1 j.2, hs1 j j.2, Pi.zero_apply, mul_zero]
      · rw [res_lt t hj, res_lt _ hj, res_lt _ hj, hcell j hj, Int.cast_add, Int.cast_mul, mul_comm]
    refine Vector.ext fun j hj => ?_
    have hres := res_eq_of_hat hzero j hj
    rw [res_lt t hj, res_lt _ hj, hcell j hj, Vector.getElem_replicate] at hres
    have hmod := mod_eq_of_cast hres
    have hrange := hkey.canonical i hi j hj
    have hlow := hkey.low i hi j hj
    rw [Vector.getElem_replicate]
    unfold q at hmod hrange
    omega
  refine ⟨fun i hi t ht => ?_, fun i hi t ht => ?_, fun i hi t ht => ?_⟩
  · rw [hprep.s1 i hi t ht, hs1 i hi, Pi.zero_apply]
  · rw [hprep.s2 i hi t ht, hs2 i hi, Pi.zero_apply]
  · rw [hprep.t0 i hi t ht, ht0 i hi, hat_zero, Pi.zero_apply]

/-- An attempt that was not rejected. -/
structure Signed (fuel : Nat) (x : Signer) (sig : Bytes) (y : Polyvecl) (c : Bytes) (w1 w0 w : Polyveck) (cp cpHat : Poly)
    (z : Polyvecl) (h : Polyveck) : Prop where
  committed : Committed perm x y c w1 w0 w
  challenge : polyChallenge perm fuel c = .ok cp
  transform : ∀ t < 256, res cpHat t = hat cp t
  responded : Responded x cpHat y w1 w0 z h
  length : sig.length = cryptoBytes
  unpack : unpackSig sig = .ok (some (c, z, h))

theorem signAttempt_spec (fuel : Nat) {x : Signer} (hx : x.Valid) (nonce : UInt16) :
    Sound (fun r => ∀ sig, r = some sig → ∃ y c w1 w0 w cp cpHat z h, Signed perm fuel x sig y c w1 w0 w cp cpHat z h)
      (signAttempt perm fuel x nonce) := by
  refine (signCommit_spec perm hx nonce).sound.bind fun r _ hr => ?_
  obtain ⟨y, c, w1, w0⟩ := r
  obtain ⟨-, w, hcommit⟩ := hr
  dsimp only at hcommit ⊢
  refine (polyChallenge_sparse perm fuel c).bind fun cp hcp hsparse => ?_
  refine (ntt_spec (B := 1) (by decide) (hsparse.small.within (by decide) (by decide))).sound.bind fun cpHat _ hhat => ?_
  have hyB : AllWithin 131072 y := fun i hi => (hcommit.masks i hi).within (by decide) (by decide)
  have hw0B : AllWithin 95232 w0 := fun i hi j hj => by
    have := (hcommit.parts i hi j hj).low
    omega
  refine (signRespond_spec hx hhat.1 hyB w1 hw0B).sound.bind fun r _ hr => ?_
  cases r with
  | none => exact Sound.ok fun _ h => by cases h
  | some p =>
    obtain ⟨z, h⟩ := p
    have hresp := hr z h rfl
    obtain ⟨buf, -, hc⟩ := hcommit.hash
    refine (packSig_spec (by rw [hc, length_shake256Of]) hresp.range hresp.hint).sound.bind fun sig _ hsig => Sound.ok ?_
    intro sig' he
    cases he
    exact ⟨y, c, w1, w0, w, cp, cpHat, z, h, hcommit, hcp, hhat.2, hresp, hsig.1, hsig.2⟩

/-- **Without secrets an attempt is as good as its mask.** -/
theorem signAttempt_blank {fuel : Nat} {x : Signer} (hx : x.Valid) (hblank : x.Blank)
    (hchallenge : ∀ c, ∃ cp, polyChallenge perm fuel c = .ok cp) {nonce : UInt16} {y : Polyvecl}
    (hrun : polyveclUniformGamma1 perm x.rhoprime nonce = .ok y) (hy : AllWithin (gamma1 - beta - 1) y)
    (hlow : ∀ c w1 w0 w, Committed perm x y c w1 w0 w → AllWithin (gamma2 - beta - 1) w0) :
    ∃ sig, signAttempt perm fuel x nonce = .ok (some sig) := by
  obtain ⟨⟨y', c, w1, w0⟩, hcommit, hrun', w, hcommitted⟩ := signCommit_spec perm hx nonce
  dsimp only at hrun' hcommitted
  obtain rfl : y' = y := Except.ok.inj (hrun'.symm.trans hrun)
  obtain ⟨cp, hcp⟩ := hchallenge c
  have hsmall := ((polyChallenge_sparse perm fuel c).of_ok hcp).small
  obtain ⟨cpHat, hntt, hhat⟩ : Returns _ (polyNtt cp) := ntt_spec (B := 1) (by decide) (hsmall.within (by decide) (by decide))
  have hw0 := hlow c w1 w0 w hcommitted
  obtain ⟨_, hrespond, h, rfl⟩ := signRespond_blank hx hblank hhat.1 hy w1 hw0
  have hresp := (signRespond_spec hx hhat.1 (hy.mono (by decide)) w1 (hw0.mono (by decide))).sound.of_ok hrespond y' h rfl
  obtain ⟨buf, -, hc⟩ := hcommitted.hash
  obtain ⟨sig, hsig, -⟩ := packSig_spec (c := c) (by rw [hc, length_shake256Of]) hresp.range hresp.hint
  refine ⟨sig, ?_⟩
  rw [signAttempt, bind_of_ok hcommit]
  dsimp only
  rw [bind_of_ok hcp, bind_of_ok hntt, bind_of_ok hrespond]
  dsimp only
  rw [bind_of_ok hsig]

theorem signLoop_spec (fuel : Nat) {x : Signer} (hx : x.Valid) : ∀ (tries : Nat) (nonce : UInt16),
    Sound (fun sig => ∃ y c w1 w0 w cp cpHat z h, Signed perm fuel x sig y c w1 w0 w cp cpHat z h)
      (signLoop perm fuel x tries nonce)
  | 0, _ => Sound.fuel
  | tries + 1, nonce => by
    refine (signAttempt_spec perm fuel hx nonce).bind fun r _ hr => ?_
    cases r with
    | none => exact signLoop_spec fuel hx tries (nonce + 1)
    | some sig => exact Sound.ok (hr sig rfl)

end BitcoinPqc.Dilithium
