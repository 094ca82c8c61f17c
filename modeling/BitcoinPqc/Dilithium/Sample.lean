import BitcoinPqc.Dilithium.Packing
import BitcoinPqc.Keccak.Shake

/-!
# Sampling

Polynomials read off the output of SHAKE. Three of the samplers reject candidates and read on until
they have enough; nothing bounds how far. They run on fuel, and what they return does not depend on
how much there was (`Below`).

| here | there |
| --- | --- |
| `streamInit` | dilithium/ref/symmetric-shake.c:6, :18 |
| `rejUniform`, …, `polyChallenge` | dilithium/ref/poly.c:309-529 |
| `matrixExpand`, …, `polyveckUniformEta` | dilithium/ref/polyvec.c:16, :35, :42, :153 |
-/
namespace BitcoinPqc.Dilithium
open CSem Keccak

def ofOption {α : Type} : Option α → Eval α
  | some a => .ok a
  | none => .error .fuel

variable (perm : Lanes → Lanes)

/-! ## Hashing -/

/-- `_init`, one `_absorb` a piece, `_finalize`. -/
def absorbPieces (r : Nat) (pieces : List Bytes) : Eval KeccakState := do
  .ok (shakeFinalize r (← ofOption (pieces.foldlM (shakeAbsorb perm r) shakeInit)))

/-- The same, and `shake256_squeeze`. -/
def shake256Pieces (outlen : Nat) (pieces : List Bytes) : Eval Bytes := do
  let state ← absorbPieces perm shake256Rate pieces
  .ok (← ofOption (shakeSqueeze perm shake256Rate outlen state)).1

/-- `stream128_init` and `stream256_init` at their rates. -/
def streamInit (r : Nat) (seed : Bytes) (nonce : UInt16) : Eval KeccakState :=
  absorbPieces perm r [seed, [nonce.toUInt8, (nonce >>> 8).toUInt8]]

/-! ## Uniform modulo q -/

/-- The coefficients written, at most `len`. -/
def rejUniform : (len : Nat) → Bytes → List Int
  | len, b0 :: b1 :: b2 :: buf =>
    if len = 0 then []
    else
      let t : Int := ((b0.toNat ||| b1.toNat <<< 8 ||| b2.toNat <<< 16) &&& 0x7FFFFF : Nat)
      if t < q then t :: rejUniform (len - 1) buf else rejUniform len buf
  | _, _ => []

/-- `while(ctr < N)`; the bytes left over go to the front of the next buffer. -/
def polyUniformLoop : Nat → List Int → Bytes → KeccakState → Eval (List Int)
  | fuel, a, buf, state =>
    if a.length < n then
      match fuel with
      | 0 => .error .fuel
      | fuel + 1 =>
        let off := buf.length % 3
        let (block, state) := shakeSqueezeblocks perm shake128Rate 1 state
        let buf := buf.drop (buf.length - off) ++ block
        polyUniformLoop fuel (a ++ rejUniform (n - a.length) buf) buf state
    else .ok a

/-- The array of the coefficients written. -/
def ofList (a : List Int) : Poly := Vector.ofFn fun i => a[i.1]?.getD 0

def polyUniformNblocks : Nat := (768 + shake128Rate - 1) / shake128Rate

def polyUniform (fuel : Nat) (seed : Bytes) (nonce : UInt16) : Eval Poly := do
  let state ← streamInit perm shake128Rate seed nonce
  let (buf, state) := shakeSqueezeblocks perm shake128Rate polyUniformNblocks state
  .ok (ofList (← polyUniformLoop perm fuel (rejUniform n buf) buf state))

/-! ## Small -/

/-- `2 - (t - (205*t >> 10)*5)`: two minus `t` modulo 5. -/
def etaOf (t : Nat) : Int := toI32 (2 - (t - ((205 * t) >>> 10 : Nat) * 5))

/-- `ETA == 2`. -/
def rejEta : (len : Nat) → Bytes → List Int
  | _, [] => []
  | len, b :: buf =>
    if len = 0 then []
    else
      let t0 := b.toNat &&& 0x0F
      let t1 := b.toNat >>> 4
      let first := if t0 < 15 then [etaOf t0] else []
      let both := if t1 < 15 ∧ first.length < len then first ++ [etaOf t1] else first
      both ++ rejEta (len - both.length) buf

def polyUniformEtaLoop : Nat → List Int → KeccakState → Eval (List Int)
  | fuel, a, state =>
    if a.length < n then
      match fuel with
      | 0 => .error .fuel
      | fuel + 1 =>
        let (buf, state) := shakeSqueezeblocks perm shake256Rate 1 state
        polyUniformEtaLoop fuel (a ++ rejEta (n - a.length) buf) state
    else .ok a

def polyUniformEtaNblocks : Nat := (136 + shake256Rate - 1) / shake256Rate

def polyUniformEta (fuel : Nat) (seed : Bytes) (nonce : UInt16) : Eval Poly := do
  let state ← streamInit perm shake256Rate seed nonce
  let (buf, state) := shakeSqueezeblocks perm shake256Rate polyUniformEtaNblocks state
  .ok (ofList (← polyUniformEtaLoop perm fuel (rejEta n buf) state))

/-! ## Masks -/

def polyUniformGamma1Nblocks : Nat := (polyzPackedbytes + shake256Rate - 1) / shake256Rate

def polyUniformGamma1 (seed : Bytes) (nonce : UInt16) : Eval Poly := do
  let state ← streamInit perm shake256Rate seed nonce
  .ok (polyzUnpack (shakeSqueezeblocks perm shake256Rate polyUniformGamma1Nblocks state).1)

/-! ## The challenge -/

/-- The buffer, the position in it, and the state it came from. -/
structure Reader where
  buf : Bytes
  pos : Nat
  state : KeccakState

def Reader.refill (rd : Reader) : Reader :=
  if rd.pos ≥ shake256Rate then
    let (buf, state) := shakeSqueezeblocks perm shake256Rate 1 rd.state
    ⟨buf, 0, state⟩
  else rd

/-- `do { … } while(b > i);` -/
def challengeIndex : Nat → Nat → Reader → Eval (Nat × Reader)
  | 0, _, _ => .error .fuel
  | fuel + 1, i, rd =>
    let rd := rd.refill perm
    let b := (rd.buf[rd.pos]?.getD 0).toNat
    let rd := { rd with pos := rd.pos + 1 }
    if b > i then challengeIndex fuel i rd else .ok (b, rd)

structure ChallengeState where
  c : Poly
  signs : UInt64
  reader : Reader

def challengeStep (fuel : Nat) (i : Nat) (st : ChallengeState) : Eval ChallengeState := do
  let (b, reader) ← challengeIndex perm fuel i st.reader
  let c ← put? st.c i (← at? st.c b)
  let c ← put? c b (toI32 (1 - 2 * (st.signs &&& 1).toNat))
  .ok ⟨c, st.signs >>> 1, reader⟩

def polyChallenge (fuel : Nat) (seed : Bytes) : Eval Poly := do
  let state ← absorbPieces perm shake256Rate [seed]
  let (buf, state) := shakeSqueezeblocks perm shake256Rate 1 state
  let signs := load64 buf
  let st ← forEval tau (fun t st => challengeStep perm fuel (n - tau + t) st) ⟨Vector.replicate 256 0, signs, ⟨buf, 8, state⟩⟩
  .ok st.c

/-! ## Vectors -/

def matrixExpand (fuel : Nat) (rho : Bytes) : Eval Matrix :=
  Vector.ofFnM fun i => Vector.ofFnM fun j => polyUniform perm fuel rho (UInt16.ofNat ((i.1 <<< 8) + j.1))

/-- `nonce++` after every component. -/
def uniformEta (m : Nat) (fuel : Nat) (seed : Bytes) (nonce : UInt16) : Eval (Vector Poly m) :=
  Vector.ofFnM fun i => polyUniformEta perm fuel seed (nonce + UInt16.ofNat i)

def polyveclUniformEta (fuel : Nat) (seed : Bytes) (nonce : UInt16) : Eval Polyvecl := uniformEta perm l fuel seed nonce
def polyveckUniformEta (fuel : Nat) (seed : Bytes) (nonce : UInt16) : Eval Polyveck := uniformEta perm k fuel seed nonce

/-- `L*nonce + i` is converted to 16 bits. -/
def polyveclUniformGamma1 (seed : Bytes) (nonce : UInt16) : Eval Polyvecl :=
  Vector.ofFnM fun i => polyUniformGamma1 perm seed (UInt16.ofNat (l * nonce.toNat + i))

/-! ## The hash functions -/

theorem shake128Rate_pos : 0 < shake128Rate := by decide
theorem shake256Rate_pos : 0 < shake256Rate := by decide

theorem absorbPieces_eq {r : Nat} (hr : 0 < r) (pieces : List Bytes) :
    absorbPieces perm r pieces = .ok ⟨(shakeStart perm r pieces.flatten).1, r⟩ := by
  rw [absorbPieces, shakeAbsorb_pieces perm hr]
  rfl

/-- **One hash of the pieces one after another.** -/
theorem shake256Pieces_eq (outlen : Nat) (pieces : List Bytes) :
    shake256Pieces perm outlen pieces = .ok (shake256Of perm pieces.flatten outlen) := by
  have hsqueeze := keccakSqueeze_squeeze perm shake256Rate_pos (outlen + 1) outlen (shakeStart perm shake256Rate pieces.flatten).1
    shake256Rate [] (Nat.le_refl _) (Nat.lt_succ_self _)
  rw [shake256Pieces, absorbPieces_eq perm shake256Rate_pos]
  show (do Except.ok (← ofOption (shakeSqueeze perm shake256Rate outlen ⟨_, shake256Rate⟩)).1) = _
  rw [shakeSqueeze, hsqueeze]
  rfl

theorem length_shakeSqueezeblocks {r : Nat} (hr : 0 < r) (h8 : 8 ∣ r) (nblocks : Nat) (state : KeccakState) :
    (shakeSqueezeblocks perm r nblocks state).1.length = nblocks * r := by
  rw [shakeSqueezeblocks, (keccakSqueezeblocks_eq perm hr h8 nblocks state.s).1, Sponge.length_squeeze]

/-! ## Rejection -/

theorem rejUniform_spec : ∀ (len : Nat) (buf : Bytes),
    (rejUniform len buf).length ≤ len ∧ ∀ x ∈ rejUniform len buf, 0 ≤ x ∧ x < q
  | len, b0 :: b1 :: b2 :: buf => by
    rw [rejUniform]
    by_cases h0 : len = 0
    · simp [h0]
    · rw [if_neg h0]
      dsimp only
      split
      · rename_i hlt
        obtain ⟨hlen, hall⟩ := rejUniform_spec (len - 1) buf
        refine ⟨by rw [List.length_cons]; omega, fun x hx => ?_⟩
        rcases List.mem_cons.mp hx with rfl | hx
        · exact ⟨Int.natCast_nonneg _, hlt⟩
        · exact hall x hx
      · exact rejUniform_spec len buf
  | len, [] => by simp [rejUniform]
  | len, [_] => by simp [rejUniform]
  | len, [_, _] => by simp [rejUniform]

theorem etaOf_range : ∀ t < 15, -2 ≤ etaOf t ∧ etaOf t ≤ 2 := by decide

theorem rejEta_spec : ∀ (buf : Bytes) (len : Nat), (rejEta len buf).length ≤ len ∧ ∀ x ∈ rejEta len buf, -2 ≤ x ∧ x ≤ 2
  | [], len => by simp [rejEta]
  | b :: buf, len => by
    rw [rejEta]
    by_cases h0 : len = 0
    · simp [h0]
    · rw [if_neg h0]
      dsimp only
      generalize b.toNat &&& 0x0F = t0
      generalize b.toNat >>> 4 = t1
      -- one byte gives at most two coefficients
      have hbyte : ∀ first both : List Int, first = (if t0 < 15 then [etaOf t0] else []) →
          both = (if t1 < 15 ∧ first.length < len then first ++ [etaOf t1] else first) →
          both.length ≤ len ∧ ∀ x ∈ both, -2 ≤ x ∧ x ≤ 2 := by
        rintro first both rfl rfl
        have h := etaOf_range
        grind
      obtain ⟨hlen, hboth⟩ := hbyte _ _ rfl rfl
      obtain ⟨hrest, hall⟩ := rejEta_spec buf (len - (if t1 < 15 ∧ (if t0 < 15 then [etaOf t0] else []).length < len then
        (if t0 < 15 then [etaOf t0] else []) ++ [etaOf t1] else (if t0 < 15 then [etaOf t0] else [])).length)
      refine ⟨by rw [List.length_append]; omega, fun x hx => ?_⟩
      rcases List.mem_append.mp hx with hx | hx
      · exact hboth x hx
      · exact hall x hx

theorem between_ofList {lo hi : Int} {a : List Int} (hlen : a.length = n) (h : ∀ x ∈ a, lo ≤ x ∧ x < hi) :
    Between lo hi (ofList a) := by
  intro i hi
  have hget : i < a.length := by rw [hlen]; exact hi
  rw [ofList, Vector.getElem_ofFn, List.getElem?_eq_getElem hget]
  exact h _ (List.getElem_mem hget)

theorem polyUniformLoop_done (fuel : Nat) {a : List Int} (h : n ≤ a.length) (buf : Bytes) (state : KeccakState) :
    polyUniformLoop perm fuel a buf state = .ok a := by
  cases fuel <;> rw [polyUniformLoop, if_neg (by omega)]

theorem polyUniformEtaLoop_done (fuel : Nat) {a : List Int} (h : n ≤ a.length) (state : KeccakState) :
    polyUniformEtaLoop perm fuel a state = .ok a := by
  cases fuel <;> rw [polyUniformEtaLoop, if_neg (by omega)]

theorem polyUniformLoop_spec : ∀ (fuel : Nat) (a : List Int) (buf : Bytes) (state : KeccakState), a.length ≤ n →
    (∀ x ∈ a, 0 ≤ x ∧ x < q) →
    Sound (fun a => a.length = n ∧ ∀ x ∈ a, 0 ≤ x ∧ x < q) (polyUniformLoop perm fuel a buf state) := by
  intro fuel
  induction fuel with
  | zero =>
    intro a buf state hlen hall
    rw [polyUniformLoop]
    split
    · exact Sound.fuel
    · exact Sound.ok ⟨by omega, hall⟩
  | succ fuel ih =>
    intro a buf state hlen hall
    rw [polyUniformLoop]
    split
    · refine ih _ _ _ ?_ fun x hx => ?_
      · rw [List.length_append]
        exact Nat.le_trans (Nat.add_le_add_left (rejUniform_spec _ _).1 _) (by omega)
      · rcases List.mem_append.mp hx with hx | hx
        · exact hall x hx
        · exact (rejUniform_spec _ _).2 x hx
    · exact Sound.ok ⟨by omega, hall⟩

/-- **The matrix entries are standard representatives.** -/
theorem polyUniform_spec (fuel : Nat) (seed : Bytes) (nonce : UInt16) : Sound Standard (polyUniform perm fuel seed nonce) := by
  rw [polyUniform, streamInit, absorbPieces_eq perm shake128Rate_pos]
  refine (polyUniformLoop_spec perm fuel _ _ _ (rejUniform_spec n _).1 (rejUniform_spec n _).2).bind fun a _ ha => ?_
  exact Sound.ok (between_ofList ha.1 ha.2)

theorem polyUniformEtaLoop_spec : ∀ (fuel : Nat) (a : List Int) (state : KeccakState), a.length ≤ n →
    (∀ x ∈ a, -2 ≤ x ∧ x ≤ 2) →
    Sound (fun a => a.length = n ∧ ∀ x ∈ a, -2 ≤ x ∧ x ≤ 2) (polyUniformEtaLoop perm fuel a state) := by
  intro fuel
  induction fuel with
  | zero =>
    intro a state hlen hall
    rw [polyUniformEtaLoop]
    split
    · exact Sound.fuel
    · exact Sound.ok ⟨by omega, hall⟩
  | succ fuel ih =>
    intro a state hlen hall
    rw [polyUniformEtaLoop]
    split
    · refine ih _ _ ?_ fun x hx => ?_
      · rw [List.length_append]
        exact Nat.le_trans (Nat.add_le_add_left (rejEta_spec _ _).1 _) (by omega)
      · rcases List.mem_append.mp hx with hx | hx
        · exact hall x hx
        · exact (rejEta_spec _ _).2 x hx
    · exact Sound.ok ⟨by omega, hall⟩

/-- **The secrets are small.** -/
theorem polyUniformEta_spec (fuel : Nat) (seed : Bytes) (nonce : UInt16) :
    Sound (Between (-2) 3) (polyUniformEta perm fuel seed nonce) := by
  rw [polyUniformEta, streamInit, absorbPieces_eq perm shake256Rate_pos]
  refine (polyUniformEtaLoop_spec perm fuel _ _ (rejEta_spec _ n).1 (rejEta_spec _ n).2).bind fun a _ ha => ?_
  exact Sound.ok (between_ofList ha.1 fun x hx => ⟨(ha.2 x hx).1, by have := ha.2 x hx; omega⟩)

theorem polyUniformGamma1_spec (seed : Bytes) (nonce : UInt16) :
    Returns (Between (-131071) 131073) (polyUniformGamma1 perm seed nonce) := by
  rw [polyUniformGamma1, streamInit, absorbPieces_eq perm shake256Rate_pos]
  refine Returns.ok (polyzUnpack_range ?_)
  rw [length_shakeSqueezeblocks perm shake256Rate_pos (by decide)]
  decide

/-! ## A constant permutation -/

/-- Not Keccak's: every stream is `0x22`s, and no sampler needs a second block. -/
def samplePerm : Lanes → Lanes := fun _ => Vector.replicate 25 0x2222222222222222

theorem sample_block : ∀ r ∈ [shake128Rate, shake256Rate], ∀ s,
    (List.range (r / 8)).flatMap (fun i => store64 (lane (samplePerm s) i)) = List.replicate r 0x22 := by
  intro r hr s
  change (List.range (r / 8)).flatMap (fun i => store64 (lane (Vector.replicate 25 0x2222222222222222) i)) = _
  revert r
  decide +kernel

theorem sample_squeezeblocks {r : Nat} (hr : r ∈ [shake128Rate, shake256Rate]) (nblocks : Nat) (state : KeccakState) :
    (shakeSqueezeblocks samplePerm r nblocks state).1 = List.replicate (nblocks * r) 0x22 := by
  obtain ⟨s, pos⟩ := state
  show (keccakSqueezeblocks samplePerm r nblocks s).1 = _
  induction nblocks generalizing s with
  | zero => rw [Nat.zero_mul]; rfl
  | succ nblocks ih =>
    rw [keccakSqueezeblocks]
    dsimp only
    rw [sample_block r hr, ih, ← List.replicate_add, Nat.succ_mul, Nat.add_comm]

theorem ofList_replicate (x : Int) : ofList (List.replicate n x) = Vector.replicate 256 x := by
  refine Vector.ext fun i hi => ?_
  rw [ofList, Vector.getElem_ofFn, Vector.getElem_replicate, List.getElem?_replicate_of_lt (by exact hi)]
  rfl

theorem sample_uniform (fuel : Nat) (seed : Bytes) (nonce : UInt16) :
    polyUniform samplePerm fuel seed nonce = .ok (Vector.replicate 256 2236962) := by
  have hread : rejUniform n (List.replicate (polyUniformNblocks * shake128Rate) 0x22) = List.replicate n 2236962 := by decide +kernel
  rw [polyUniform, streamInit, absorbPieces_eq samplePerm shake128Rate_pos, bind_of_ok rfl]
  dsimp only
  rw [sample_squeezeblocks (by decide), hread, polyUniformLoop_done _ _ (by rw [List.length_replicate]), bind_of_ok rfl,
    ofList_replicate]

theorem sample_uniformEta (fuel : Nat) (seed : Bytes) (nonce : UInt16) :
    polyUniformEta samplePerm fuel seed nonce = .ok (Vector.replicate 256 0) := by
  have hread : rejEta n (List.replicate (polyUniformEtaNblocks * shake256Rate) 0x22) = List.replicate n 0 := by decide +kernel
  rw [polyUniformEta, streamInit, absorbPieces_eq samplePerm shake256Rate_pos, bind_of_ok rfl]
  dsimp only
  rw [sample_squeezeblocks (by decide), hread, polyUniformEtaLoop_done _ _ (by rw [List.length_replicate]), bind_of_ok rfl,
    ofList_replicate]

/-- The two coefficients that take turns in a mask. -/
def sampleMask : Poly := Vector.ofFn fun j => if j.1 % 2 = 0 then -8738 else 96120

theorem sample_uniformGamma1 (seed : Bytes) (nonce : UInt16) : polyUniformGamma1 samplePerm seed nonce = .ok sampleMask := by
  have hcodes : zPacking.unpackAll 64 (List.replicate (polyUniformGamma1Nblocks * shake256Rate) 0x22) =
      (List.replicate 64 [139810, 34952, 139810, 34952]).flatten := by decide +kernel
  have hcells : ∀ j < 256, (List.replicate 64 [139810, 34952, 139810, 34952]).flatten[j]?.getD 0 =
      if j % 2 = 0 then 139810 else 34952 := by decide +kernel
  have hread : polyzUnpack (List.replicate (polyUniformGamma1Nblocks * shake256Rate) 0x22) = sampleMask := by
    refine Vector.ext fun j hj => ?_
    rw [polyzUnpack, unpackPoly, hcodes, sampleMask, Vector.getElem_ofFn, Vector.getElem_ofFn]
    dsimp only
    rw [hcells j hj]
    split <;> rfl
  rw [polyUniformGamma1, streamInit, absorbPieces_eq samplePerm shake256Rate_pos, bind_of_ok rfl, sample_squeezeblocks (by decide),
    hread]

/-! ## The challenge -/

theorem challengeIndex_spec : ∀ (fuel i : Nat) (rd : Reader), Sound (fun r => r.1 ≤ i) (challengeIndex perm fuel i rd)
  | 0, _, _ => Sound.fuel
  | fuel + 1, i, rd => by
    rw [challengeIndex]
    split
    · exact challengeIndex_spec fuel i _
    · exact Sound.ok (by omega)

/-- `t` coefficients are 1 or -1, all of them before `lim`; the others are 0. -/
structure Sparse (t lim : Nat) (p : Poly) : Prop where
  small : Between (-1) 2 p
  zero : ∀ j (h : j < 256), lim ≤ j → p[j] = 0
  count : p.countP (· ≠ 0) = t

theorem sign_cases (signs : UInt64) :
    toI32 (1 - 2 * ((signs &&& 1).toNat : Int)) = 1 ∨ toI32 (1 - 2 * ((signs &&& 1).toNat : Int)) = -1 := by
  rw [UInt64.toNat_and, show (1 : UInt64).toNat = 1 from rfl, Nat.and_one_is_mod]
  rcases Nat.mod_two_eq_zero_or_one signs.toNat with h | h
  · rw [h]; exact .inl (by decide)
  · rw [h]; exact .inr (by decide)

/-- One swap: the coefficient at `b` moves to `i`, which was 0, and a sign takes its place. -/
theorem Sparse.step {t i b : Nat} {p : Poly} (h : Sparse t i p) (hi : i < 256) (hb : b ≤ i) {s : Int} (hs : s = 1 ∨ s = -1) :
    Sparse (t + 1) (i + 1) ((p.set i p[b]).set b s) := by
  have hzero := h.zero i hi (Nat.le_refl i)
  have hmoved : (p.set i p[b])[b] = p[b] := by
    rw [Vector.getElem_set]
    split
    · rfl
    · rfl
  have hsne : (decide (s ≠ 0)) = true := by
    rcases hs with rfl | rfl <;> rfl
  refine ⟨fun j hj => ?_, fun j hj hle => ?_, ?_⟩
  · rw [Vector.getElem_set]
    split
    · rcases hs with rfl | rfl <;> decide
    · rw [Vector.getElem_set]
      split
      · exact h.small b (by omega)
      · exact h.small j hj
  · rw [Vector.getElem_set, if_neg (by omega), Vector.getElem_set, if_neg (by omega)]
    exact h.zero j hj (by omega)
  · have hcount : (if decide ((p.set i p[b])[b] ≠ 0) then 1 else 0) ≤ (p.set i p[b]).countP fun x => decide (x ≠ 0) :=
      Vector.boole_getElem_le_countP (p := fun x : Int => decide (x ≠ 0)) (show b < 256 by omega)
    rw [hmoved] at hcount
    rw [Vector.countP_set (by omega), hmoved, if_pos hsne, Vector.countP_set hi, hzero, h.count]
    rw [Vector.countP_set hi, hzero, h.count] at hcount
    simp only [ne_eq, not_true_eq_false, decide_false, Bool.false_eq_true, if_false, Nat.sub_zero] at hcount ⊢
    omega

theorem challengeStep_spec (fuel : Nat) {t i : Nat} (hi : i < 256) {st : ChallengeState} (h : Sparse t i st.c) :
    Sound (fun st' => Sparse (t + 1) (i + 1) st'.c) (challengeStep perm fuel i st) := by
  refine (challengeIndex_spec perm fuel i st.reader).bind fun r _ hb => ?_
  obtain ⟨b, reader⟩ := r
  have hlt : b < 256 := by omega
  refine (returns_at? hlt).sound.bind ?_
  rintro _ - rfl
  refine (returns_put? hi _).sound.bind ?_
  rintro _ - rfl
  refine (returns_put? hlt _).sound.bind ?_
  rintro _ - rfl
  exact Sound.ok (h.step hi hb (sign_cases st.signs))

/-- **A challenge has exactly `TAU` coefficients 1 or -1**, and zeros. -/
theorem polyChallenge_sparse (fuel : Nat) (seed : Bytes) : Sound (Sparse tau 256) (polyChallenge perm fuel seed) := by
  rw [polyChallenge, absorbPieces_eq perm shake256Rate_pos]
  refine (Sound.forEval (fun t (st : ChallengeState) => Sparse t (n - tau + t) st.c) ⟨?_, ?_, ?_⟩ fun t ht st hst => ?_).bind
    fun st _ hst => Sound.ok hst
  · intro j hj
    rw [Vector.getElem_replicate]
    decide
  · intro j hj _
    rw [Vector.getElem_replicate]
  · simp
  · have hi : n - tau + t < 256 := by simp only [n, tau] at ht ⊢; omega
    exact challengeStep_spec perm fuel hi hst

/-- Among coefficients -1, 0 and 1, those that are not zero are the ones and the minus ones. -/
theorem countP_signs : ∀ {xs : List Int}, (∀ x ∈ xs, -1 ≤ x ∧ x < 2) →
    xs.countP (· ≠ 0) = xs.countP (· = 1) + xs.countP (· = -1) ∧ xs.countP (· = 0) + xs.countP (· ≠ 0) = xs.length
  | [], _ => ⟨rfl, rfl⟩
  | x :: xs, h => by
    obtain ⟨hx, hxs⟩ := List.forall_mem_cons.mp h
    obtain ⟨hsigns, hall⟩ := countP_signs hxs
    have hcases : x = -1 ∨ x = 0 ∨ x = 1 := by omega
    simp only [List.countP_cons, List.length_cons, decide_eq_true_eq]
    rcases hcases with rfl | rfl | rfl
    · rw [if_pos (by decide), if_neg (by decide), if_pos (by decide), if_neg (by decide)]
      omega
    · rw [if_neg (by decide), if_neg (by decide), if_neg (by decide), if_pos (by decide)]
      omega
    · rw [if_pos (by decide), if_pos (by decide), if_neg (by decide), if_neg (by decide)]
      omega

/-- **The weight of a challenge**, whatever it is made from: `TAU` ones and minus ones, and zeros. -/
theorem challenge_weight (fuel : Nat) (seed : Bytes) :
    Sound (fun p : Poly => Between (-1) 2 p ∧ p.toList.countP (· = 1) + p.toList.countP (· = -1) = tau ∧
      p.toList.countP (· = 0) = n - tau) (polyChallenge perm fuel seed) := by
  refine (polyChallenge_sparse perm fuel seed).mono fun p _ hp => ?_
  have hmem : ∀ x ∈ p.toList, -1 ≤ x ∧ x < 2 := fun x hx => by
    obtain ⟨i, hi, rfl⟩ := Vector.mem_iff_getElem.mp (Vector.mem_toList_iff.mp hx)
    exact hp.small i hi
  obtain ⟨hsigns, hall⟩ := countP_signs hmem
  have hcount : p.toList.countP (· ≠ 0) = tau := Vector.countP_toList.trans hp.count
  rw [hcount] at hsigns hall
  rw [Vector.length_toList] at hall
  refine ⟨hp.small, hsigns.symm, ?_⟩
  unfold n
  omega

theorem sample_challenge (fuel : Nat) (seed : Bytes) : ∃ c, polyChallenge samplePerm (fuel + 1) seed = .ok c := by
  rw [polyChallenge, absorbPieces_eq samplePerm shake256Rate_pos]
  -- every index read is 34, and there are enough of them in one block
  refine (Returns.forEval (fun t (st : ChallengeState) => st.reader.pos = 8 + t ∧ st.reader.buf = List.replicate shake256Rate 0x22)
    ⟨rfl, ?_⟩ fun t ht st hst => ?_).bind (Q := fun _ => True) (fun st _ => Returns.ok trivial) |>.imp fun _ h => h.1
  · exact sample_squeezeblocks (by decide) 1 _
  · obtain ⟨c, signs, ⟨buf, pos, state⟩⟩ := st
    obtain ⟨rfl, rfl⟩ := hst
    have hpos : 8 + t < shake256Rate := by simp only [tau, shake256Rate] at ht ⊢; omega
    have hi : n - tau + t < 256 := by simp only [n, tau] at ht ⊢; omega
    have hle : (0x22 : UInt8).toNat ≤ n - tau + t := Nat.le_add_right_of_le (by decide)
    have hrefill : Reader.refill samplePerm ⟨List.replicate shake256Rate 0x22, 8 + t, state⟩ =
        ⟨List.replicate shake256Rate 0x22, 8 + t, state⟩ := if_neg (Nat.not_le_of_lt hpos)
    have hindex : challengeIndex samplePerm (fuel + 1) (n - tau + t) ⟨List.replicate shake256Rate 0x22, 8 + t, state⟩ =
        .ok (34, ⟨List.replicate shake256Rate 0x22, 8 + t + 1, state⟩) := by
      rw [challengeIndex, hrefill]
      dsimp only
      rw [List.getElem?_replicate_of_lt hpos, Option.getD_some, if_neg (Nat.not_lt_of_le hle)]
      rfl
    rw [challengeStep, bind_of_ok hindex]
    refine (returns_at? (by omega)).bind fun _ _ => (returns_put? hi _).bind fun _ _ => ?_
    refine (returns_put? (by omega) _).bind fun _ _ => ?_
    exact Returns.ok ⟨by dsimp only; omega, rfl⟩

/-- One that returns. -/
theorem challenge_weight_sample : ∃ p : Poly, polyChallenge samplePerm 1 [1, 2, 3] = .ok p ∧
    p.toList.countP (· = 1) + p.toList.countP (· = -1) = 39 := by
  obtain ⟨p, hp⟩ := sample_challenge 0 [1, 2, 3]
  exact ⟨p, hp, ((challenge_weight samplePerm 1 [1, 2, 3]).of_ok hp).2.1⟩

/-! ## Vectors -/

theorem matrixExpand_spec (fuel : Nat) (rho : Bytes) :
    Sound (fun mat => ∀ i (hi : i < k) j (hj : j < l), Standard mat[i][j]) (matrixExpand perm fuel rho) := by
  refine (Sound.ofFnM (R := fun _ (row : Polyvecl) => ∀ j (hj : j < l), Standard row[j]) fun i => ?_).mono fun mat _ h => h
  exact Sound.ofFnM (R := fun _ a => Standard a) fun j => polyUniform_spec perm fuel rho _

theorem uniformEta_spec (m fuel : Nat) (seed : Bytes) (nonce : UInt16) :
    Sound (fun v : Vector Poly m => ∀ i (h : i < m), Between (-2) 3 v[i]) (uniformEta perm m fuel seed nonce) :=
  Sound.ofFnM (R := fun _ a => Between (-2) 3 a) fun _ => polyUniformEta_spec perm fuel seed _

theorem polyveclUniformGamma1_spec (seed : Bytes) (nonce : UInt16) :
    Returns (fun v : Polyvecl => ∀ i (h : i < l), Between (-131071) 131073 v[i]) (polyveclUniformGamma1 perm seed nonce) :=
  Returns.ofFnM (R := fun _ a => Between (-131071) 131073 a) fun _ => polyUniformGamma1_spec perm seed _

theorem sample_expand (fuel : Nat) (rho : Bytes) :
    matrixExpand samplePerm fuel rho = .ok (Vector.replicate k (Vector.replicate l (Vector.replicate 256 2236962))) :=
  ofFnM_replicate fun _ => ofFnM_replicate fun _ => sample_uniform fuel rho _

theorem sample_secrets (m fuel : Nat) (seed : Bytes) (nonce : UInt16) :
    uniformEta samplePerm m fuel seed nonce = .ok (Vector.replicate m (Vector.replicate 256 0)) :=
  ofFnM_replicate fun _ => sample_uniformEta fuel seed _

theorem sample_masks (seed : Bytes) (nonce : UInt16) :
    polyveclUniformGamma1 samplePerm seed nonce = .ok (Vector.replicate l sampleMask) :=
  ofFnM_replicate fun _ => sample_uniformGamma1 seed _

/-! ## Fuel -/

section
variable {fuel fuel' : Nat} (h : fuel ≤ fuel')
include h

theorem polyUniformLoop_below (a : List Int) (buf : Bytes) (state : KeccakState) :
    Below (polyUniformLoop perm fuel a buf state) (polyUniformLoop perm fuel' a buf state) := by
  induction fuel generalizing fuel' a buf state with
  | zero =>
    intro r hr
    rw [polyUniformLoop] at hr
    split at hr
    · cases hr
    · rename_i hdone
      rwa [polyUniformLoop_done perm fuel' (Nat.le_of_not_lt hdone)]
  | succ fuel ih =>
    obtain ⟨fuel', rfl⟩ : ∃ m, fuel' = m + 1 := ⟨fuel' - 1, by omega⟩
    intro r hr
    rw [polyUniformLoop] at hr ⊢
    split
    · rename_i hmore
      rw [if_pos hmore] at hr
      exact ih (Nat.le_of_succ_le_succ h) _ _ _ r hr
    · rename_i hdone
      rwa [if_neg hdone] at hr

theorem polyUniform_below (seed : Bytes) (nonce : UInt16) :
    Below (polyUniform perm fuel seed nonce) (polyUniform perm fuel' seed nonce) :=
  (Below.refl _).bind fun _ => (polyUniformLoop_below perm h _ _ _).bind fun _ => Below.refl _

theorem polyUniformEtaLoop_below (a : List Int) (state : KeccakState) :
    Below (polyUniformEtaLoop perm fuel a state) (polyUniformEtaLoop perm fuel' a state) := by
  induction fuel generalizing fuel' a state with
  | zero =>
    intro r hr
    rw [polyUniformEtaLoop] at hr
    split at hr
    · cases hr
    · rename_i hdone
      rwa [polyUniformEtaLoop_done perm fuel' (Nat.le_of_not_lt hdone)]
  | succ fuel ih =>
    obtain ⟨fuel', rfl⟩ : ∃ m, fuel' = m + 1 := ⟨fuel' - 1, by omega⟩
    intro r hr
    rw [polyUniformEtaLoop] at hr ⊢
    split
    · rename_i hmore
      rw [if_pos hmore] at hr
      exact ih (Nat.le_of_succ_le_succ h) _ _ r hr
    · rename_i hdone
      rwa [if_neg hdone] at hr

theorem polyUniformEta_below (seed : Bytes) (nonce : UInt16) :
    Below (polyUniformEta perm fuel seed nonce) (polyUniformEta perm fuel' seed nonce) :=
  (Below.refl _).bind fun _ => (polyUniformEtaLoop_below perm h _ _).bind fun _ => Below.refl _

theorem challengeIndex_below (i : Nat) (rd : Reader) : Below (challengeIndex perm fuel i rd) (challengeIndex perm fuel' i rd) := by
  induction fuel generalizing fuel' rd with
  | zero =>
    intro r hr
    cases hr
  | succ fuel ih =>
    obtain ⟨fuel', rfl⟩ : ∃ m, fuel' = m + 1 := ⟨fuel' - 1, by omega⟩
    intro r hr
    rw [challengeIndex] at hr ⊢
    split
    · rename_i hmore
      rw [if_pos hmore] at hr
      exact ih (Nat.le_of_succ_le_succ h) _ r hr
    · rename_i hdone
      rwa [if_neg hdone] at hr

theorem polyChallenge_below (seed : Bytes) : Below (polyChallenge perm fuel seed) (polyChallenge perm fuel' seed) :=
  (Below.refl _).bind fun _ => (Below.forEval (fun _ _ => (challengeIndex_below perm h _ _).bind fun _ => Below.refl _) _).bind
    fun _ => Below.refl _

theorem matrixExpand_below (rho : Bytes) : Below (matrixExpand perm fuel rho) (matrixExpand perm fuel' rho) :=
  Below.ofFnM fun _ => Below.ofFnM fun _ => polyUniform_below perm h _ _

theorem uniformEta_below (m : Nat) (seed : Bytes) (nonce : UInt16) :
    Below (uniformEta perm m fuel seed nonce) (uniformEta perm m fuel' seed nonce) :=
  Below.ofFnM fun _ => polyUniformEta_below perm h _ _

end

end BitcoinPqc.Dilithium
