import BitcoinPqc.Dilithium.Ring
import BitcoinPqc.Dilithium.Sign

/-!
# Valid signatures

What verification is to decide (`Valid`), without transforms, Montgomery factors or reciprocals: an
equation of the ring, the high part by division, one hash. The samplers appear as relations
(`Expands`, `Challenges`): their loops have no bound.
-/
namespace BitcoinPqc.Dilithium
open CSem Keccak

/-! ## Rounding -/

/-- The remainder nearest to zero. -/
def centered (m r : Int) : Int := if r % m ≤ m / 2 then r % m else r % m - m

/-- `r` is the first part times `2*gamma2` and the second; the last interval belongs to high part 0. -/
def highLow (r : Int) : Int × Int :=
  let r0 := centered (2 * gamma2) r
  if r - r0 = q - 1 then (0, r0 - 1) else ((r - r0) / (2 * gamma2), r0)

/-- The high part, moved in the direction of the low part where there is a hint. -/
def hinted (r hint : Int) : Int :=
  if hint = 0 then (highLow r).1 else if 0 < (highLow r).2 then ((highLow r).1 + 1) % 44 else ((highLow r).1 - 1) % 44

theorem highLow_decomposed {a a1 a0 : Int} (h : 0 ≤ a) (hlt : a < q) (hd : Decomposed a a1 a0) : highLow a = (a1, a0) := by
  obtain ⟨hhigh, hlow⟩ := hd
  have hgamma : gamma2 = 95232 := by decide
  unfold q at *
  rw [highLow, hgamma]
  have hcentered : centered (2 * 95232) a = if a1 = 0 ∧ a0 + 8380417 = a then a0 + 1 else a0 := by
    unfold centered
    split <;> split <;> omega
  rw [hcentered]
  by_cases hwrap : a1 = 0 ∧ a0 + 8380417 = a
  · rw [if_pos hwrap, if_pos (by unfold q; omega), hwrap.1, add_sub_cancel_right]
  · rw [if_neg hwrap, if_neg (by unfold q; omega)]
    exact Prod.ext (by dsimp only; omega) rfl

/-- **The reciprocal divides**, on every standard representative. -/
theorem decompose_eq {a : Int} (h : 0 ≤ a) (hlt : a < q) : decompose a = .ok (highLow a) := by
  obtain ⟨⟨a1, a0⟩, hrun, hd⟩ := decompose_spec h hlt
  rw [hrun, highLow_decomposed h hlt hd]

theorem highLow_range {a : Int} (h : 0 ≤ a) (hlt : a < q) : 0 ≤ (highLow a).1 ∧ (highLow a).1 ≤ 43 := by
  obtain ⟨⟨a1, a0⟩, -, hd⟩ := decompose_spec h hlt
  rw [highLow_decomposed h hlt hd]
  exact hd.high

theorem useHint_eq {a : Int} (h : 0 ≤ a) (hlt : a < q) (hint : Int) : useHint a hint = .ok (hinted a hint) := by
  have hrange := highLow_range h hlt
  rw [useHint, decompose_eq h hlt, hinted]
  generalize highLow a = p at hrange
  obtain ⟨a1, a0⟩ := p
  show (if hint = 0 then Except.ok a1 else if a0 > 0 then Except.ok (if a1 = 43 then 0 else a1 + 1)
    else Except.ok (if a1 = 0 then 43 else a1 - 1)) = _
  dsimp only at hrange ⊢
  split
  · rfl
  · split
    · refine congrArg Except.ok ?_
      split <;> omega
    · refine congrArg Except.ok ?_
      split <;> omega

def hintedVec (v h : Polyveck) : Polyveck := Vector.ofFn fun i => Vector.ofFn fun j => hinted ((v.get i).get j) ((h.get i).get j)

theorem getElem_hintedVec (v h : Polyveck) {i : Nat} (hi : i < k) {j : Nat} (hj : j < 256) :
    (hintedVec v h)[i][j] = hinted v[i][j] h[i][j] := by
  rw [hintedVec, Vector.getElem_ofFn, Vector.getElem_ofFn]
  rfl

theorem hintedVec_range {v : Polyveck} (hv : ∀ i (h : i < k), Standard v[i]) (h : Polyveck) :
    ∀ i (hi : i < k), Between 0 44 (hintedVec v h)[i] := by
  intro i hi j hj
  have hrange := highLow_range (hv i hi j hj).1 (hv i hi j hj).2
  rw [getElem_hintedVec v h hi hj, hinted]
  split
  · omega
  · split <;> omega

theorem polyveckUseHint_eq {v : Polyveck} (hv : ∀ i (h : i < k), Standard v[i]) (h : Polyveck) :
    polyveckUseHint v h = .ok (hintedVec v h) :=
  vecUseHint_eq fun i hi j hj => by rw [useHint_eq (hv i hi j hj).1 (hv i hi j hj).2, getElem_hintedVec v h hi hj]

/-! ## Validity -/

variable (perm : Lanes → Lanes)

def Expands (rho : Bytes) (mat : Matrix) : Prop := ∃ fuel, matrixExpand perm fuel rho = .ok mat

def Challenges (c : Bytes) (cp : Poly) : Prop := ∃ fuel, polyChallenge perm fuel c = .ok cp

theorem Expands.unique {rho : Bytes} {mat mat' : Matrix} (h : Expands perm rho mat) (h' : Expands perm rho mat') : mat = mat' := by
  obtain ⟨fuel, h⟩ := h
  obtain ⟨fuel', h'⟩ := h'
  exact Below.unique (fun hle => matrixExpand_below perm hle rho) h h'

theorem Challenges.unique {c : Bytes} {cp cp' : Poly} (h : Challenges perm c cp) (h' : Challenges perm c cp') : cp = cp' := by
  obtain ⟨fuel, h⟩ := h
  obtain ⟨fuel', h'⟩ := h'
  exact Below.unique (fun hle => polyChallenge_below perm hle c) h h'

/-- `mu`, the hash of the public key, the framed context and the message. -/
def messageHash (pk pre m : Bytes) : Bytes := shake256Of perm (shake256Of perm pk trbytes ++ pre ++ m) crhbytes

/-- `w = Az - c·t1·2^d`, and the hash of its hinted high parts is the challenge. -/
structure Commits (mu rho : Bytes) (t1 : Polyveck) (c : Bytes) (z : Polyvecl) (h : Polyveck) (mat : Matrix) (cp : Poly)
    (w : Polyveck) : Prop where
  expands : Expands perm rho mat
  challenge : Challenges perm c cp
  standard : ∀ i (hi : i < k), Standard w[i]
  equation : ∀ i (hi : i < k), toRq w[i] = rowMul mat[i] z - toRq cp * (8192 * toRq t1[i])
  hash : ∃ buf, polyveckPackW1 (hintedVec w h) = .ok buf ∧ c = shake256Of perm (mu ++ buf) ctildebytes

/-- **Validity** of a signature; `pre` frames the context. -/
def Valid (pk sig m pre : Bytes) : Prop :=
  ∃ rho t1 c z h mat cp w, sig.length = cryptoBytes ∧ unpackPk pk = .ok (rho, t1) ∧ unpackSig sig = .ok (some (c, z, h)) ∧
    AllWithin (gamma1 - beta - 1) z ∧ Commits perm (messageHash perm pk pre m) rho t1 c z h mat cp w

/-- What a verifier reads off the key and the signature before it samples. -/
structure Decodes (pk sig rho : Bytes) (t1 : Polyveck) (c : Bytes) (z : Polyvecl) (h : Polyveck) : Prop where
  length : sig.length = cryptoBytes
  key : unpackPk pk = .ok (rho, t1)
  parts : unpackSig sig = .ok (some (c, z, h))
  bound : AllWithin (gamma1 - beta - 1) z

/-- The samplers return on what is read off a key and a signature; what does not decode is not sampled for. -/
def Sampled (pk sig : Bytes) : Prop :=
  ∀ rho t1 c z h, Decodes pk sig rho t1 c z h → (∃ mat, Expands perm rho mat) ∧ ∃ cp, Challenges perm c cp

theorem Valid.decodes {pk sig m pre : Bytes} (h : Valid perm pk sig m pre) :
    ∃ rho t1 c z h mat cp w, Decodes pk sig rho t1 c z h ∧ Commits perm (messageHash perm pk pre m) rho t1 c z h mat cp w := by
  obtain ⟨rho, t1, c, z, h, mat, cp, w, hlen, hkey, hsig, hbound, hw⟩ := h
  exact ⟨rho, t1, c, z, h, mat, cp, w, ⟨hlen, hkey, hsig, hbound⟩, hw⟩

theorem Decodes.unique {pk sig rho rho' c c' : Bytes} {t1 t1' h h' : Polyveck} {z z' : Polyvecl}
    (hd : Decodes pk sig rho t1 c z h) (hd' : Decodes pk sig rho' t1' c' z' h') :
    rho' = rho ∧ t1' = t1 ∧ c' = c ∧ z' = z ∧ h' = h := by
  cases hd.key.symm.trans hd'.key
  cases hd.parts.symm.trans hd'.parts
  exact ⟨rfl, rfl, rfl, rfl, rfl⟩

end BitcoinPqc.Dilithium
