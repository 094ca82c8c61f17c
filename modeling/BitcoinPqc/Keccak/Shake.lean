import BitcoinPqc.Keccak.Permutation

/-!
# Two copies of SHAKE

Both vendored schemes carry their own fips202.c. They differ in how they keep the position (bytes
used of a block there, bytes left here), in how they absorb a last block (byte by byte, or through a
padded buffer) and in how they squeeze (in whole blocks, or byte by byte). Whatever pieces the input
comes in and whatever pieces are read, both give the bytes of one output, `shakeOf`
(`dilithiumRun_eq`, `spxRun_eq`), and so do the functions that take everything at once (`shake_eq`,
`spxShake256_eq`).

| here | there |
| --- | --- |
| `load64`, `store64` | dilithium/ref/fips202.c:22, :40 and sphincsplus/ref/fips202.c:25, :42 |
| `keccakAbsorbOnce`, `keccakSqueezeblocks` | dilithium/ref/fips202.c:461, :500 |
| `shakeInit`, … at the rates of SHAKE128 and SHAKE256 | dilithium/ref/fips202.c:523-723 |
| `spxKeccakAbsorb`, `spxKeccakInc…`, `spxShake256` | sphincsplus/ref/fips202.c:347, :415-496, :580 |
-/
namespace BitcoinPqc.Keccak
open CSem

variable (perm : Lanes → Lanes)

def shake128Rate : Nat := 168

/-! ## dilithium/ref/fips202.c -/

def load64 (x : Bytes) : UInt64 := forRange 8 (fun i r => r ||| ((x[i]?.getD 0).toUInt64 <<< (8 * i).toUInt64)) 0

def store64 (u : UInt64) : Bytes := (List.range 8).map fun i => (u >>> (8 * i).toUInt64).toUInt8

/-- `for(i=0;i<count;i++) s[i] ^= load64(m+8*i);` -/
def xorLanes (s : Lanes) (count : Nat) (m : Bytes) : Lanes :=
  forRange count (fun i s => xorLane s i (load64 (m.drop (8 * i)))) s

/-- `while(inlen >= r)`; out of fuel it has not ended. Returns the lanes and the rest. -/
def keccakAbsorbBlocks (r : Nat) : Nat → Lanes → Bytes → Option (Lanes × Bytes)
  | 0, _, _ => none
  | fuel + 1, s, inp =>
    if inp.length ≥ r then keccakAbsorbBlocks r fuel (perm (xorLanes s (r / 8) inp)) (inp.drop r)
    else some (s, inp)

def keccakAbsorbOnce (r : Nat) (inp : Bytes) (p : UInt8) : Option Lanes :=
  (keccakAbsorbBlocks perm r (inp.length + 1) (Vector.replicate 25 0) inp).map fun (s, rest) =>
    let s := forRange rest.length (fun i s => xorByte s i (rest[i]?.getD 0)) s
    let s := xorByte s rest.length p
    xorLane s ((r - 1) / 8) ((1 : UInt64) <<< 63)

def keccakSqueezeblocks (r : Nat) : (nblocks : Nat) → Lanes → Bytes × Lanes
  | 0, s => ([], s)
  | nblocks + 1, s =>
    let s := perm s
    let (out, s') := keccakSqueezeblocks r nblocks s
    ((List.range (r / 8)).flatMap (fun i => store64 (lane s i)) ++ out, s')

/-- `shake128_…` and `shake256_…` at their rates. -/
def shakeInit : KeccakState := ⟨Vector.replicate 25 0, 0⟩

def shakeAbsorb (r : Nat) (state : KeccakState) (inp : Bytes) : Option KeccakState :=
  (keccakAbsorb perm r (inp.length + 1) state.s state.pos inp).map fun (s, pos) => ⟨s, pos⟩

def shakeFinalize (r : Nat) (state : KeccakState) : KeccakState := ⟨keccakFinalize state.s state.pos r 0x1F, r⟩

def shakeSqueeze (r outlen : Nat) (state : KeccakState) : Option (Bytes × KeccakState) :=
  (keccakSqueeze perm r (outlen + 1) outlen state.s state.pos []).map fun (out, s, pos) => (out, ⟨s, pos⟩)

def shakeAbsorbOnce (r : Nat) (inp : Bytes) : Option KeccakState :=
  (keccakAbsorbOnce perm r inp 0x1F).map fun s => ⟨s, r⟩

def shakeSqueezeblocks (r nblocks : Nat) (state : KeccakState) : Bytes × KeccakState :=
  let (out, s) := keccakSqueezeblocks perm r nblocks state.s
  (out, { state with s })

def shake (r outlen : Nat) (inp : Bytes) : Option Bytes := do
  let state ← shakeAbsorbOnce perm r inp
  let nblocks := outlen / r
  let (out, state) := shakeSqueezeblocks perm r nblocks state
  let (rest, _) ← shakeSqueeze perm r (outlen - nblocks * r) state
  some (out ++ rest)

/-- fips202.c:728 -/
def shake256 (outlen : Nat) (inp : Bytes) : Option Bytes := shake perm shake256Rate outlen inp

/-! ## sphincsplus/ref/fips202.c -/

/-- fips202.c:360. The last block is padded in `t`; where the message fills all but one byte of it,
the two paddings share that byte. -/
def spxKeccakAbsorb (r : Nat) (m : Bytes) (p : UInt8) : Option Lanes :=
  (keccakAbsorbBlocks perm r (m.length + 1) (Vector.replicate 25 0) m).map fun (s, rest) =>
    let t := (rest ++ List.replicate (r - rest.length) 0).set rest.length p
    let t := t.set (r - 1) (t[r - 1]?.getD 0 ||| 128)
    xorLanes s (r / 8) t

/-- The lanes, and the 26th value. -/
structure IncState where
  s : Lanes
  count : Nat

def spxKeccakIncInit : IncState := ⟨Vector.replicate 25 0, 0⟩

/-- The same loops as `keccak_absorb` over there. -/
def spxKeccakIncAbsorb (r : Nat) (st : IncState) (m : Bytes) : Option IncState :=
  (keccakAbsorb perm r (m.length + 1) st.s st.count m).map fun (s, pos) => ⟨s, pos⟩

def spxKeccakIncFinalize (r : Nat) (st : IncState) (p : UInt8) : IncState :=
  let s := xorByte st.s st.count p
  ⟨xorLane s ((r - 1) / 8) ((128 : UInt64) <<< (8 * ((r - 1) % 8)).toUInt64), 0⟩

/-- `while (outlen > 0)` -/
def spxSqueezeLoop (r : Nat) : Nat → Nat → Lanes → Nat → Bytes → Option (Bytes × IncState)
  | 0, _, _, _, _ => none
  | fuel + 1, outlen, s, count, h =>
    if outlen > 0 then
      let s := perm s
      let i := min outlen r
      spxSqueezeLoop r fuel (outlen - i) s (r - i) (h ++ (List.range i).map (laneByte s))
    else some (h, ⟨s, count⟩)

def spxKeccakIncSqueeze (r outlen : Nat) (st : IncState) : Option (Bytes × IncState) :=
  let i := min outlen st.count
  let h := (List.range i).map fun j => laneByte st.s (r - st.count + j)
  spxSqueezeLoop perm r (outlen + 1) (outlen - i) st.s (st.count - i) h

def spxShake256 (outlen : Nat) (inp : Bytes) : Option Bytes := do
  let s ← spxKeccakAbsorb perm shake256Rate inp 0x1F
  let nblocks := outlen / shake256Rate
  let (out, s) := keccakSqueezeblocks perm shake256Rate nblocks s
  let outlen := outlen - nblocks * shake256Rate
  if outlen ≠ 0 then
    let (t, _) := keccakSqueezeblocks perm shake256Rate 1 s
    some (out ++ t.take outlen)
  else some out

/-! ## The sponge behind them -/

def keccakSponge (r : Nat) : Sponge Lanes UInt8 := ⟨r, perm, xorByte, laneByte⟩

/-- The state and position after a message was absorbed and finalized. -/
def shakeStart (r : Nat) (inp : Bytes) : Lanes × Nat :=
  let st := (keccakSponge perm r).absorb (Vector.replicate 25 0, 0) inp
  (keccakFinalize st.1 st.2 r 0x1F, r)

def shakeOf (r : Nat) (inp : Bytes) (n : Nat) : Bytes := (keccakSponge perm r).squeeze (shakeStart perm r inp) n

theorem shakeOf_shake256Rate : shakeOf perm shake256Rate = shake256Of perm := rfl

@[simp] theorem length_shakeOf (r : Nat) (inp : Bytes) (n : Nat) : (shakeOf perm r inp n).length = n :=
  Sponge.length_squeeze _ n _

/-- Adding bytes within a block does not depend on the rate. -/
theorem addAll_rate (r r' : Nat) (xs : Bytes) : ∀ (s : Lanes) (pos : Nat),
    (keccakSponge perm r).addAll s pos xs = (keccakSponge perm r').addAll s pos xs := by
  induction xs with
  | nil => intro s pos; rfl
  | cons x xs ih => intro s pos; exact ih _ _

/-! ## Lanes as bytes -/

theorem xorLane_xorLane (s : Lanes) (i : Nat) (x y : UInt64) : xorLane (xorLane s i x) i y = xorLane s i (x ^^^ y) := by
  unfold xorLane lane
  by_cases hi : i < 25
  · simp [hi, UInt64.xor_assoc]
  · apply Vector.ext
    intro j hj
    have hne : i ≠ j := by omega
    simp [hne]

theorem xorByte_eq (s : Lanes) {i j : Nat} (hj : j < 8) (b : UInt8) :
    xorByte s (8 * i + j) b = xorLane s i (b.toUInt64 <<< (8 * j).toUInt64) := by
  rw [xorByte, show (8 * i + j) / 8 = i by omega, show (8 * i + j) % 8 = j by omega]

/-- The byte at offset `j` of a lane has no bit in common with the bytes below. -/
theorem or_eq_xor_byte {acc : UInt64} {j : Nat} (hj : j < 8) (h : ∀ k, 8 * j ≤ k → acc.toBitVec.getLsbD k = false)
    (b : UInt8) : acc ||| (b.toUInt64 <<< (8 * j).toUInt64) = acc ^^^ (b.toUInt64 <<< (8 * j).toUInt64) := by
  have hshift := toBitVec_shift (k := 8 * j) (by omega)
  apply UInt64.toBitVec_inj.mp
  apply BitVec.eq_of_getLsbD_eq
  intro k hk
  simp only [UInt64.toBitVec_or, UInt64.toBitVec_xor, UInt64.toBitVec_shiftLeft, BitVec.getLsbD_or, BitVec.getLsbD_xor,
    BitVec.shiftLeft_eq', hshift, BitVec.getLsbD_shiftLeft]
  by_cases hlow : k < 8 * j
  · simp [hlow]
  · simp [h k (by omega)]

theorem shifted_byte_high {j : Nat} (hj : j < 8) (b : UInt8) (k : Nat) (hk : 8 * (j + 1) ≤ k) :
    (b.toUInt64 <<< (8 * j).toUInt64).toBitVec.getLsbD k = false := by
  have hshift := toBitVec_shift (k := 8 * j) (by omega)
  have hbyte : b.toUInt64.toBitVec.getLsbD (k - 8 * j) = false := by
    simp only [UInt8.toBitVec_toUInt64, BitVec.getLsbD_setWidth]
    rw [BitVec.getLsbD_of_ge b.toBitVec _ (by omega), Bool.and_false]
  simp only [UInt64.toBitVec_shiftLeft, BitVec.shiftLeft_eq', hshift, BitVec.getLsbD_shiftLeft, hbyte, Bool.and_false]

theorem xorLane_zero (s : Lanes) (i : Nat) : xorLane s i 0 = s := by
  apply Vector.ext
  intro j hj
  unfold xorLane lane
  by_cases hne : i = j
  · subst hne
    simp [hj]
  · simp [hne]

/-- Eight bytes added one by one are one lane added. -/
theorem addAll_lane (r : Nat) (s : Lanes) (l : Nat) {bs : Bytes} (h : bs.length = 8) :
    (keccakSponge perm r).addAll s (8 * l) bs = xorLane s l (load64 bs) := by
  have hload : (∀ k, 8 * 8 ≤ k → (load64 bs).toBitVec.getLsbD k = false) ∧
      (keccakSponge perm r).addAll s (8 * l) (bs.take 8) = xorLane s l (load64 bs) := by
    refine forRange_inv (fun i acc => (∀ k, 8 * i ≤ k → acc.toBitVec.getLsbD k = false) ∧
      (keccakSponge perm r).addAll s (8 * l) (bs.take i) = xorLane s l acc) ?_ fun i hi acc hacc => ?_
    · exact ⟨fun k _ => by simp, (xorLane_zero s l).symm⟩
    · obtain ⟨hhigh, hadd⟩ := hacc
      have hib : i < bs.length := by omega
      have hlen : (bs.take i).length = i := by rw [List.length_take]; omega
      rw [List.getElem?_eq_getElem hib, Option.getD_some, or_eq_xor_byte hi hhigh]
      constructor
      · intro k hk
        rw [UInt64.toBitVec_xor, BitVec.getLsbD_xor, hhigh k (by omega), shifted_byte_high hi _ k hk, Bool.xor_false]
      · rw [List.take_succ_eq_append_getElem hib, Sponge.addAll_append, hadd, hlen, Sponge.addAll, Sponge.addAll]
        exact (xorByte_eq _ hi _).trans (xorLane_xorLane ..)
  rw [← hload.2, List.take_of_length_le (Nat.le_of_eq h)]

/-- Only the first eight bytes are loaded. -/
theorem load64_take (bs : Bytes) : load64 (bs.take 8) = load64 bs := by
  refine forRange_rel (fun _ x y => x = y) rfl fun i hi x y hxy => ?_
  rw [hxy, List.getElem?_take, if_pos hi]

/-- Whole lanes added are their bytes added. -/
theorem xorLanes_eq (r : Nat) (s : Lanes) {count : Nat} {m : Bytes} (h : 8 * count ≤ m.length) :
    xorLanes s count m = (keccakSponge perm r).addAll s 0 (m.take (8 * count)) := by
  refine forRange_inv (fun i s' => s' = (keccakSponge perm r).addAll s 0 (m.take (8 * i))) rfl fun i hi s' hs' => ?_
  have hlane : ((m.drop (8 * i)).take 8).length = 8 := by rw [List.length_take, List.length_drop]; omega
  have hlen : (m.take (8 * i)).length = 8 * i := by rw [List.length_take]; omega
  rw [hs', Nat.mul_succ, List.take_add, Sponge.addAll_append, hlen, Nat.zero_add, addAll_lane perm r _ i hlane, load64_take]

/-- Bytes added in a counted loop. -/
theorem addAll_eq_forRange (r : Nat) (s : Lanes) (m : Bytes) :
    (keccakSponge perm r).addAll s 0 m = forRange m.length (fun i s => xorByte s i (m[i]?.getD 0)) s := by
  have hloop : forRange m.length (fun i s => xorByte s i (m[i]?.getD 0)) s =
      (keccakSponge perm r).addAll s 0 (m.take m.length) := by
    refine forRange_inv (fun i s' => s' = (keccakSponge perm r).addAll s 0 (m.take i)) rfl fun i hi s' hs' => ?_
    have hlen : (m.take i).length = i := by rw [List.length_take]; omega
    rw [hs', List.take_succ_eq_append_getElem hi, Sponge.addAll_append, hlen, Nat.zero_add, List.getElem?_eq_getElem hi]
    rfl
  rw [hloop, List.take_of_length_le (Nat.le_refl _)]

/-! ## Absorbing -/

section
variable {r : Nat} (hr : 0 < r)
include hr

/-- The incremental loops, at any rate. -/
theorem keccakAbsorb_absorb : ∀ (fuel : Nat) (s : Lanes) (pos : Nat) (inp : Bytes), pos < r → inp.length < fuel →
    keccakAbsorb perm r fuel s pos inp = some ((keccakSponge perm r).absorb (s, pos) inp) := by
  intro fuel
  induction fuel with
  | zero => intro _ _ _ _ h; omega
  | succ fuel ih =>
    intro s pos inp hpos hfuel
    rw [keccakAbsorb]
    split
    · rename_i hge
      have hlen : (inp.take (r - pos)).length = r - pos := by rw [List.length_take]; omega
      have hfull := (keccakSponge perm r).absorb_full (s := s) hpos (show pos + (inp.take (r - pos)).length = r by omega)
      rw [ih _ 0 _ hr (by rw [List.length_drop]; omega), ← List.take_append_drop (r - pos) inp, Sponge.absorb_append, hfull,
        List.take_append_drop, addAll_rate perm r shake256Rate]
      rfl
    · rename_i hlt
      rw [(keccakSponge perm r).absorb_short (show pos + inp.length < r by omega), addAll_rate perm r shake256Rate]
      rfl

/-- The loop over whole blocks leaves less than a block. -/
theorem keccakAbsorbBlocks_spec (h8 : 8 ∣ r) : ∀ (fuel : Nat) (s : Lanes) (inp : Bytes), inp.length < fuel →
    ∃ s' rest, keccakAbsorbBlocks perm r fuel s inp = some (s', rest) ∧ rest.length < r ∧
      (keccakSponge perm r).absorb (s, 0) inp = ((keccakSponge perm r).addAll s' 0 rest, rest.length) := by
  intro fuel
  induction fuel with
  | zero => intro _ _ h; omega
  | succ fuel ih =>
    intro s inp hfuel
    rw [keccakAbsorbBlocks]
    split
    · rename_i hge
      have hlen : (inp.take r).length = r := by rw [List.length_take]; omega
      obtain ⟨s', rest, he, hrest, habs⟩ := ih (perm (xorLanes s (r / 8) inp)) (inp.drop r) (by rw [List.length_drop]; omega)
      refine ⟨s', rest, he, hrest, ?_⟩
      have hfull := (keccakSponge perm r).absorb_full (s := s) hr (show 0 + (inp.take r).length = r by omega)
      rw [← habs, ← List.take_append_drop r inp, Sponge.absorb_append, hfull, List.take_append_drop,
        xorLanes_eq perm r s (by rw [Nat.mul_div_cancel' h8]; exact hge), Nat.mul_div_cancel' h8]
      rfl
    · rename_i hlt
      exact ⟨s, inp, rfl, by omega, by
        rw [(keccakSponge perm r).absorb_short (show 0 + inp.length < r by omega), Nat.zero_add]⟩

/-- **Absorbing everything at once.** -/
theorem keccakAbsorbOnce_eq (h8 : 8 ∣ r) (inp : Bytes) (p : UInt8) :
    keccakAbsorbOnce perm r inp p =
      some (keccakFinalize ((keccakSponge perm r).absorb (Vector.replicate 25 0, 0) inp).1
        ((keccakSponge perm r).absorb (Vector.replicate 25 0, 0) inp).2 r p) := by
  obtain ⟨s, rest, he, -, habs⟩ := keccakAbsorbBlocks_spec perm hr h8 (inp.length + 1) (Vector.replicate 25 0) inp
    (Nat.lt_succ_self _)
  rw [keccakAbsorbOnce, he, habs, Option.map_some, keccakFinalize, addAll_eq_forRange, show (r - 1) / 8 = r / 8 - 1 by omega]

omit hr in
theorem xorByte_xorByte (s : Lanes) (i : Nat) (a b : UInt8) : xorByte (xorByte s i a) i b = xorByte s i (a ^^^ b) := by
  unfold xorByte
  rw [xorLane_xorLane, UInt8.toUInt64_xor, UInt64.shiftLeft_xor]

omit hr in
theorem addAll_zeros (s : Lanes) : ∀ (k pos : Nat), (keccakSponge perm r).addAll s pos (List.replicate k 0) = s
  | 0, _ => rfl
  | k + 1, pos => by
    rw [List.replicate_succ, Sponge.addAll, addAll_zeros _ k]
    have hzero : xorByte s pos 0 = s := by
      unfold xorByte
      simpa using xorLane_zero s (pos / 8)
    exact hzero

omit hr in
/-- What pads the message: 0x1F, zeros, and the top bit of the last byte, which may be the same. -/
theorem padding_eq (rest : Bytes) (k : Nat) :
    ((rest ++ List.replicate (k + 1) 0).set rest.length 0x1F).set (rest.length + k)
        (((rest ++ List.replicate (k + 1) 0).set rest.length 0x1F)[rest.length + k]?.getD 0 ||| 128) =
      rest ++ ((0x1F :: List.replicate k 0).set k ((0x1F :: List.replicate k 0)[k]?.getD 0 ||| 128)) := by
  have hfirst : (rest ++ List.replicate (k + 1) 0).set rest.length 0x1F = rest ++ 0x1F :: List.replicate k 0 := by
    rw [List.set_append_right _ _ (Nat.le_refl _), Nat.sub_self, List.replicate_succ, List.set_cons_zero]
  rw [hfirst, List.getElem?_append_right (by omega), List.set_append_right _ _ (by omega), Nat.add_sub_cancel_left]

omit hr in
theorem addAll_padding (s : Lanes) (pos : Nat) : ∀ k : Nat,
    (keccakSponge perm r).addAll s pos ((0x1F :: List.replicate k 0).set k ((0x1F :: List.replicate k 0)[k]?.getD 0 ||| 128)) =
      xorByte (xorByte s pos 0x1F) (pos + k) 128
  | 0 => by
    rw [Nat.add_zero, xorByte_xorByte]
    rfl
  | k + 1 => by
    have hlast : (List.replicate (k + 1) (0 : UInt8)).set k 128 = List.replicate k 0 ++ [128] := by
      rw [List.replicate_succ', List.set_append_right _ _ (by simp)]
      simp
    have hzero : (List.replicate (k + 1) (0 : UInt8))[k]?.getD 0 ||| 128 = 128 := by
      rw [List.getElem?_replicate, if_pos (Nat.lt_succ_self k)]
      rfl
    rw [List.getElem?_cons_succ, List.set_cons_succ, hzero, hlast, Sponge.addAll, Sponge.addAll_append, addAll_zeros,
      List.length_replicate, show pos + 1 + k = pos + (k + 1) by omega]
    rfl

/-- **Absorbing through a padded buffer** is the same. -/
theorem spxKeccakAbsorb_eq (h8 : 8 ∣ r) (inp : Bytes) :
    spxKeccakAbsorb perm r inp 0x1F =
      some (keccakFinalize ((keccakSponge perm r).absorb (Vector.replicate 25 0, 0) inp).1
        ((keccakSponge perm r).absorb (Vector.replicate 25 0, 0) inp).2 r 0x1F) := by
  obtain ⟨s, rest, he, hrest, habs⟩ := keccakAbsorbBlocks_spec perm hr h8 (inp.length + 1) (Vector.replicate 25 0) inp
    (Nat.lt_succ_self _)
  obtain ⟨k, hk⟩ : ∃ k, r = rest.length + k + 1 := ⟨r - rest.length - 1, by omega⟩
  have hblock : 8 * (r / 8) = r := Nat.mul_div_cancel' h8
  have hbyte : ∀ s, xorByte s (rest.length + k) 128 = xorLane s (r / 8 - 1) ((1 : UInt64) <<< 63) := by
    intro s
    rw [show rest.length + k = 8 * (r / 8 - 1) + 7 by omega, xorByte_eq s (by decide)]
    rfl
  rw [spxKeccakAbsorb, he, habs, Option.map_some, keccakFinalize]
  dsimp only
  rw [show r - rest.length = k + 1 by omega, show r - 1 = rest.length + k by omega, padding_eq, xorLanes_eq perm r s,
    List.take_of_length_le, Sponge.addAll_append, Nat.zero_add, addAll_padding, hbyte]
  · simp only [hblock, List.length_append, List.length_set, List.length_cons, List.length_replicate]
    omega
  · simp only [hblock, List.length_append, List.length_set, List.length_cons, List.length_replicate]
    omega

/-! ## Squeezing -/

omit hr in
/-- A block stored lane by lane. -/
theorem store64_block (s : Lanes) : ∀ count : Nat,
    (List.range count).flatMap (fun i => store64 (lane s i)) = (List.range (8 * count)).map (laneByte s)
  | 0 => rfl
  | count + 1 => by
    have hlane : store64 (lane s count) = ((List.range 8).map (8 * count + ·)).map (laneByte s) := by
      rw [store64, List.map_map]
      refine List.map_congr_left fun j hj => ?_
      have hj' := List.mem_range.mp hj
      rw [Function.comp_apply, laneByte, show (8 * count + j) / 8 = count by omega, show (8 * count + j) % 8 = j by omega]
    rw [List.range_succ, List.flatMap_append, store64_block s count, List.flatMap_singleton, hlane, Nat.mul_succ,
      List.range_add, List.map_append]

/-- A used up block is replaced. -/
theorem squeeze_refill (s : Lanes) {n : Nat} (hn : 0 < n) :
    (keccakSponge perm r).squeeze (s, r) n = (keccakSponge perm r).squeeze (perm s, 0) n ∧
      (keccakSponge perm r).after (s, r) n = (keccakSponge perm r).after (perm s, 0) n :=
  (keccakSponge perm r).squeeze_full s hn hr

omit hr in
/-- What is left of a block is read off the lanes. -/
theorem squeeze_within (s : Lanes) {pos k : Nat} (h : pos + k ≤ r) :
    (keccakSponge perm r).squeeze (s, pos) k = (List.range k).map (fun j => laneByte s (pos + j)) ∧
      (keccakSponge perm r).after (s, pos) k = (s, pos + k) := by
  have hblock := (keccakSponge perm r).squeeze_block s 0 k pos h
  rw [Nat.add_zero, Sponge.squeeze, List.append_nil, List.range'_eq_map_range, List.map_map] at hblock
  exact ⟨hblock, (keccakSponge perm r).after_block s k pos h⟩

/-- **Whole blocks** are the next output. -/
theorem keccakSqueezeblocks_eq (h8 : 8 ∣ r) : ∀ (nblocks : Nat) (s : Lanes),
    (keccakSqueezeblocks perm r nblocks s).1 = (keccakSponge perm r).squeeze (s, r) (nblocks * r) ∧
      ((keccakSqueezeblocks perm r nblocks s).2, r) = (keccakSponge perm r).after (s, r) (nblocks * r)
  | 0, s => by
    rw [Nat.zero_mul]
    exact ⟨rfl, rfl⟩
  | nblocks + 1, s => by
    obtain ⟨hout, hafter⟩ := keccakSqueezeblocks_eq h8 nblocks (perm s)
    obtain ⟨hfull, hfull'⟩ := squeeze_refill perm hr s hr
    obtain ⟨hcells, hend⟩ := squeeze_within perm (perm s) (Nat.le_of_eq (Nat.zero_add r))
    have hblock : (List.range (r / 8)).flatMap (fun i => store64 (lane (perm s) i)) = (keccakSponge perm r).squeeze (s, r) r := by
      rw [hfull, hcells, store64_block, Nat.mul_div_cancel' h8]
      simp only [Nat.zero_add]
    rw [Nat.zero_add] at hend
    rw [Nat.succ_mul, Nat.add_comm (nblocks * r), Sponge.squeeze_add, Sponge.after_add, hfull', hend, ← hout, ← hafter, ← hblock]
    exact ⟨rfl, rfl⟩

/-- The incremental loop, at any rate. -/
theorem keccakSqueeze_squeeze : ∀ (fuel outlen : Nat) (s : Lanes) (pos : Nat) (out : Bytes), pos ≤ r → outlen < fuel →
    keccakSqueeze perm r fuel outlen s pos out =
      some (out ++ (keccakSponge perm r).squeeze (s, pos) outlen, (keccakSponge perm r).after (s, pos) outlen) := by
  intro fuel
  induction fuel with
  | zero => intro _ _ _ _ _ h; omega
  | succ fuel ih =>
    -- one block, from a position inside it
    have hblock : ∀ (outlen : Nat) (s : Lanes) (pos : Nat) (out : Bytes), pos < r → 0 < outlen → outlen < fuel + 1 →
        keccakSqueeze perm r fuel (outlen - (min r (pos + outlen) - pos)) s (min r (pos + outlen))
            (out ++ (List.range' pos (min r (pos + outlen) - pos)).map (laneByte s)) =
          some (out ++ (keccakSponge perm r).squeeze (s, pos) outlen, (keccakSponge perm r).after (s, pos) outlen) := by
      intro outlen s pos out hpos h0 hfuel
      obtain ⟨k, hk, hkle, hend⟩ : ∃ k, min r (pos + outlen) = pos + k ∧ k ≤ outlen ∧ pos + k ≤ r :=
        ⟨min r (pos + outlen) - pos, by omega, by omega, by omega⟩
      obtain ⟨hcells, hafter⟩ := squeeze_within perm s hend
      have hsplit : outlen = k + (outlen - k) := by omega
      rw [hk, Nat.add_sub_cancel_left, ih _ _ _ _ (by omega) (by omega), List.append_assoc]
      conv => rhs; rw [hsplit, Sponge.squeeze_add, Sponge.after_add, hcells, hafter]
      rw [List.range'_eq_map_range, List.map_map]
      rfl
    intro outlen s pos out hpos hfuel
    rw [keccakSqueeze]
    split
    · rename_i hne
      by_cases hfull : pos = r
      · obtain ⟨hs, ha⟩ := squeeze_refill perm hr s (Nat.pos_of_ne_zero hne)
        rw [if_pos hfull, hfull, hs, ha]
        exact hblock outlen (perm s) 0 out hr (Nat.pos_of_ne_zero hne) hfuel
      · rw [if_neg hfull]
        exact hblock outlen s pos out (by omega) (Nat.pos_of_ne_zero hne) hfuel
    · rename_i h0
      obtain rfl : outlen = 0 := by omega
      rw [Sponge.squeeze, List.append_nil, Sponge.after]

/-- Over there, what counts is the bytes left. -/
def IncState.of (r : Nat) (st : Lanes × Nat) : IncState := ⟨st.1, r - st.2⟩

theorem spxSqueezeLoop_spec : ∀ (fuel outlen : Nat) (s : Lanes) (count : Nat) (h : Bytes), outlen < fuel →
    spxSqueezeLoop perm r fuel outlen s count h =
      some (h ++ (keccakSponge perm r).squeeze (s, r) outlen,
        if outlen = 0 then ⟨s, count⟩ else .of r ((keccakSponge perm r).after (s, r) outlen)) := by
  intro fuel
  induction fuel with
  | zero => intro _ _ _ _ h; omega
  | succ fuel ih =>
    intro outlen s count h hfuel
    rw [spxSqueezeLoop]
    split
    · rename_i hpos
      obtain ⟨hs, ha⟩ := squeeze_refill perm hr s hpos
      dsimp only
      rw [ih _ _ _ _ (by omega), if_neg (Nat.pos_iff_ne_zero.mp hpos), hs, ha]
      by_cases hle : outlen ≤ r
      · -- the last block
        obtain ⟨hcells, hafter⟩ := squeeze_within perm (perm s) (show 0 + outlen ≤ r by omega)
        rw [Nat.min_eq_left hle, Nat.sub_self, if_pos rfl, Sponge.squeeze, List.append_nil, hcells, hafter, Nat.zero_add]
        simp only [Nat.zero_add]
        rfl
      · obtain ⟨hcells, hafter⟩ := squeeze_within perm (perm s) (Nat.le_of_eq (Nat.zero_add r))
        simp only [Nat.zero_add] at hcells hafter
        rw [Nat.min_eq_right (by omega), if_neg (by omega)]
        conv => rhs; rw [show outlen = r + (outlen - r) by omega, Sponge.squeeze_add, Sponge.after_add, hcells, hafter]
        rw [List.append_assoc]
    · rename_i h0
      obtain rfl : outlen = 0 := by omega
      rw [Sponge.squeeze, List.append_nil, if_pos rfl]

theorem spxKeccakIncSqueeze_spec (outlen : Nat) {st : Lanes × Nat} (hst : st.2 ≤ r) :
    spxKeccakIncSqueeze perm r outlen (.of r st) =
      some ((keccakSponge perm r).squeeze st outlen, .of r ((keccakSponge perm r).after st outlen)) := by
  obtain ⟨s, pos⟩ := st
  rw [spxKeccakIncSqueeze]
  dsimp only [IncState.of]
  rw [spxSqueezeLoop_spec perm hr _ _ _ _ _ (by omega), show r - (r - pos) = pos by omega]
  by_cases hle : outlen ≤ r - pos
  · obtain ⟨hcells, hafter⟩ := squeeze_within perm s (show pos + outlen ≤ r by omega)
    rw [Nat.min_eq_left hle, Nat.sub_self, if_pos rfl, Sponge.squeeze, List.append_nil, hcells, hafter,
      show r - pos - outlen = r - (pos + outlen) by omega]
  · obtain ⟨hcells, hafter⟩ := squeeze_within perm s (show pos + (r - pos) ≤ r by omega)
    rw [show pos + (r - pos) = r by omega] at hafter
    rw [Nat.min_eq_right (by omega), if_neg (by omega)]
    conv => rhs; rw [show outlen = r - pos + (outlen - (r - pos)) by omega, Sponge.squeeze_add, Sponge.after_add, hcells, hafter]
    rfl

/-! ## Whole runs -/

/-- Read pieces of the given lengths one after another. -/
def readAll {σ : Type} (read : Nat → σ → Option (Bytes × σ)) : List Nat → σ → Option (List Bytes)
  | [], _ => some []
  | n :: ns, st => do
    let (out, st) ← read n st
    let rest ← readAll read ns st
    some (out :: rest)

/-- Absorb pieces, finalize, and read pieces: one run of the incremental interface. -/
def dilithiumRun (perm : Lanes → Lanes) (r : Nat) (pieces : List Bytes) (reads : List Nat) : Option (List Bytes) := do
  let state ← pieces.foldlM (shakeAbsorb perm r) shakeInit
  readAll (shakeSqueeze perm r) reads (shakeFinalize r state)

def spxRun (perm : Lanes → Lanes) (r : Nat) (pieces : List Bytes) (reads : List Nat) : Option (List Bytes) := do
  let st ← pieces.foldlM (spxKeccakIncAbsorb perm r) spxKeccakIncInit
  readAll (spxKeccakIncSqueeze perm r) reads (spxKeccakIncFinalize r st 0x1F)

/-- Cut the beginning of `bs` into pieces. -/
def cut : List Nat → Bytes → List Bytes
  | [], _ => []
  | n :: ns, bs => bs.take n :: cut ns (bs.drop n)

omit hr in
theorem readAll_spec {σ : Type} {read : Nat → σ → Option (Bytes × σ)} (R : σ → Lanes × Nat → Prop)
    (hread : ∀ n st sp, R st sp → ∃ st', read n st = some ((keccakSponge perm r).squeeze sp n, st') ∧
      R st' ((keccakSponge perm r).after sp n)) :
    ∀ (reads : List Nat) (st : σ) (sp : Lanes × Nat), R st sp →
      readAll read reads st = some (cut reads ((keccakSponge perm r).squeeze sp reads.sum))
  | [], _, _, _ => rfl
  | n :: reads, st, sp, hR => by
    obtain ⟨st', he, hR'⟩ := hread n st sp hR
    have hlen := (keccakSponge perm r).length_squeeze n sp
    rw [readAll, he, Option.bind_eq_bind, Option.bind_some]
    dsimp only
    rw [readAll_spec R hread reads st' _ hR', List.sum_cons, Sponge.squeeze_add, cut, List.take_left' hlen,
      List.drop_left' hlen]
    rfl

/-- **Absorbing in pieces** is absorbing their concatenation. -/
theorem absorb_pieces {σ : Type} {absorb : σ → Bytes → Option σ} (of : Lanes × Nat → σ)
    (habsorb : ∀ st, st.2 < r → ∀ inp, absorb (of st) inp = some (of ((keccakSponge perm r).absorb st inp))) :
    ∀ (pieces : List Bytes) (st : Lanes × Nat), st.2 < r →
      pieces.foldlM absorb (of st) = some (of ((keccakSponge perm r).absorb st pieces.flatten))
  | [], _, _ => rfl
  | piece :: pieces, st, hst => by
    have hpos := (keccakSponge perm r).absorb_pos hr piece st hst
    rw [List.foldlM_cons, habsorb st hst, Option.bind_eq_bind, Option.bind_some, absorb_pieces of habsorb pieces _ hpos,
      List.flatten_cons, Sponge.absorb_append]

theorem shakeAbsorb_pieces (pieces : List Bytes) :
    pieces.foldlM (shakeAbsorb perm r) shakeInit = some ⟨((keccakSponge perm r).absorb (Vector.replicate 25 0, 0) pieces.flatten).1,
      ((keccakSponge perm r).absorb (Vector.replicate 25 0, 0) pieces.flatten).2⟩ := by
  refine absorb_pieces perm hr (fun st => (⟨st.1, st.2⟩ : KeccakState)) (fun st hst inp => ?_) pieces (Vector.replicate 25 0, 0) hr
  rw [shakeAbsorb, keccakAbsorb_absorb perm hr _ _ _ _ hst (Nat.lt_succ_self _)]
  rfl

/-- **Every run of the incremental interface** cuts the one output of the concatenated input. -/
theorem dilithiumRun_eq (pieces : List Bytes) (reads : List Nat) :
    dilithiumRun perm r pieces reads = some (cut reads (shakeOf perm r pieces.flatten reads.sum)) := by
  rw [dilithiumRun, shakeAbsorb_pieces perm hr, Option.bind_eq_bind, Option.bind_some]
  refine readAll_spec perm (fun st sp => st = (⟨sp.1, sp.2⟩ : KeccakState) ∧ sp.2 ≤ r) ?_ reads _ (shakeStart perm r pieces.flatten)
    ⟨rfl, Nat.le_refl r⟩
  rintro n _ ⟨s, pos⟩ ⟨rfl, hpos⟩
  refine ⟨_, ?_, rfl, (keccakSponge perm r).after_pos hr n _ hpos⟩
  rw [shakeSqueeze, keccakSqueeze_squeeze perm hr _ _ _ _ _ hpos (Nat.lt_succ_self _)]
  rfl

/-- The last byte of a block is the top byte of its last lane. -/
theorem top_bit (h8 : 8 ∣ r) : (r - 1) / 8 = r / 8 - 1 ∧ (128 : UInt64) <<< (8 * ((r - 1) % 8)).toUInt64 = (1 : UInt64) <<< 63 := by
  rw [show (r - 1) % 8 = 7 by omega]
  exact ⟨by omega, rfl⟩

/-- **The other copy runs the same**, although it counts the other way round. -/
theorem spxRun_eq (h8 : 8 ∣ r) (pieces : List Bytes) (reads : List Nat) :
    spxRun perm r pieces reads = some (cut reads (shakeOf perm r pieces.flatten reads.sum)) := by
  have habsorb : ∀ st : Lanes × Nat, st.2 < r → ∀ inp, spxKeccakIncAbsorb perm r ⟨st.1, st.2⟩ inp =
      some ⟨((keccakSponge perm r).absorb st inp).1, ((keccakSponge perm r).absorb st inp).2⟩ := by
    intro st hst inp
    rw [spxKeccakIncAbsorb, keccakAbsorb_absorb perm hr _ _ _ _ hst (Nat.lt_succ_self _)]
    rfl
  have hpieces : pieces.foldlM (spxKeccakIncAbsorb perm r) spxKeccakIncInit = _ :=
    absorb_pieces perm hr (fun st => (⟨st.1, st.2⟩ : IncState)) habsorb pieces (Vector.replicate 25 0, 0) hr
  obtain ⟨hlane, hbit⟩ := top_bit hr h8
  have hstart : spxKeccakIncFinalize r ⟨((keccakSponge perm r).absorb (Vector.replicate 25 0, 0) pieces.flatten).1,
      ((keccakSponge perm r).absorb (Vector.replicate 25 0, 0) pieces.flatten).2⟩ 0x1F = .of r (shakeStart perm r pieces.flatten) := by
    rw [spxKeccakIncFinalize, hlane, hbit, IncState.of, shakeStart, Nat.sub_self]
    rfl
  rw [spxRun, hpieces, Option.bind_eq_bind, Option.bind_some, hstart]
  refine readAll_spec perm (fun st sp => st = IncState.of r sp ∧ sp.2 ≤ r) ?_ reads _ (shakeStart perm r pieces.flatten)
    ⟨rfl, Nat.le_refl r⟩
  rintro n _ sp ⟨rfl, hpos⟩
  exact ⟨_, spxKeccakIncSqueeze_spec perm hr n hpos, rfl, (keccakSponge perm r).after_pos hr n _ hpos⟩

/-! ## Everything at once -/

/-- **`shake256`** of the first copy, and `shake128` at its rate. -/
theorem shake_eq (h8 : 8 ∣ r) (outlen : Nat) (inp : Bytes) : shake perm r outlen inp = some (shakeOf perm r inp outlen) := by
  obtain ⟨hout, hafter⟩ := keccakSqueezeblocks_eq perm hr h8 (outlen / r) (shakeStart perm r inp).1
  have hle := Nat.div_mul_le_self outlen r
  have hstart : shakeAbsorbOnce perm r inp = some ⟨(shakeStart perm r inp).1, r⟩ := by
    rw [shakeAbsorbOnce, keccakAbsorbOnce_eq perm hr h8]
    rfl
  rw [shake, hstart, Option.bind_eq_bind, Option.bind_some]
  dsimp only [shakeSqueezeblocks]
  rw [shakeSqueeze, keccakSqueeze_squeeze perm hr _ _ _ _ _ (Nat.le_refl r) (Nat.lt_succ_self _), hafter, hout,
    Option.map_some, Option.bind_eq_bind, Option.bind_some, List.nil_append, ← Sponge.squeeze_add, Nat.add_sub_cancel' hle]
  rfl

end

/-- **`shake256` of the second copy.** -/
theorem spxShake256_eq (outlen : Nat) (inp : Bytes) : spxShake256 perm outlen inp = some (shake256Of perm inp outlen) := by
  have hr : 0 < shake256Rate := by decide
  have h8 : 8 ∣ shake256Rate := by decide
  obtain ⟨hout, hafter⟩ := keccakSqueezeblocks_eq perm hr h8 (outlen / shake256Rate) (shakeStart perm shake256Rate inp).1
  have hle := Nat.div_mul_le_self outlen shake256Rate
  have hstart : spxKeccakAbsorb perm shake256Rate inp 0x1F = some (shakeStart perm shake256Rate inp).1 :=
    spxKeccakAbsorb_eq perm hr h8 inp
  rw [spxShake256, hstart, Option.bind_eq_bind, Option.bind_some, ← shakeOf_shake256Rate]
  generalize hs : keccakSqueezeblocks perm shake256Rate (outlen / shake256Rate) (shakeStart perm shake256Rate inp).1 = blocks
    at hout hafter
  obtain ⟨out, s⟩ := blocks
  have hsplit := (keccakSponge perm shake256Rate).squeeze_add (outlen / shake256Rate * shake256Rate)
    (outlen - outlen / shake256Rate * shake256Rate) (shakeStart perm shake256Rate inp)
  rw [Nat.add_sub_cancel' hle] at hsplit
  dsimp only at hout hafter ⊢
  rw [hs]
  split
  · obtain ⟨hlast, -⟩ := keccakSqueezeblocks_eq perm hr h8 1 s
    have htake := (keccakSponge perm shake256Rate).squeeze_take (k := outlen - outlen / shake256Rate * shake256Rate)
      (n := 1 * shake256Rate) (by have := Nat.mod_lt outlen hr; rw [Nat.mod_eq_sub_div_mul] at this; omega) (s, shake256Rate)
    rw [hlast, htake, hout, hafter]
    exact congrArg some hsplit.symm
  · rename_i h0
    rw [show outlen - outlen / shake256Rate * shake256Rate = 0 by omega, Sponge.squeeze, List.append_nil] at hsplit
    rw [hout]
    exact congrArg some hsplit.symm

/-- **The two copies agree**: on every run of the incremental interface, and at once. They return
the reads cut off the sponge's output, whatever pieces went in. -/
theorem copies_agree (pieces : List Bytes) (reads : List Nat) (outlen : Nat) (inp : Bytes) :
    spxRun perm shake256Rate pieces reads = some (cut reads (shakeOf perm shake256Rate pieces.flatten reads.sum)) ∧
      dilithiumRun perm shake256Rate pieces reads = some (cut reads (shakeOf perm shake256Rate pieces.flatten reads.sum)) ∧
      spxShake256 perm outlen inp = some (shakeOf perm shake256Rate inp outlen) ∧
      shake256 perm outlen inp = some (shakeOf perm shake256Rate inp outlen) ∧
      shake256 perm outlen inp = (dilithiumRun perm shake256Rate [inp] [outlen]).map List.flatten := by
  have hr : 0 < shake256Rate := by decide
  have h8 : 8 ∣ shake256Rate := by decide
  have hshake : shake256 perm outlen inp = some (shakeOf perm shake256Rate inp outlen) := shake_eq perm hr h8 outlen inp
  have hall : (shakeOf perm shake256Rate inp outlen).take outlen = shakeOf perm shake256Rate inp outlen :=
    List.take_of_length_le (by rw [length_shakeOf])
  refine ⟨spxRun_eq perm hr h8 pieces reads, dilithiumRun_eq perm hr pieces reads, spxShake256_eq perm outlen inp, hshake, ?_⟩
  rw [hshake, dilithiumRun_eq perm hr]
  simp [cut, hall]

end BitcoinPqc.Keccak
