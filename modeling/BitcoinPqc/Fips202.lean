import BitcoinPqc.Lib.Sponge
import BitcoinPqc.Params

/-!
# Incremental SHAKE256

The vendored Keccak code keeps 25 lanes and a position inside the current block; input and output
pass through the lanes byte by byte, eight bytes to a lane, least significant first. The loops
are kept as they are written, a block at a time; `keccakAbsorb_eq` and `keccakSqueeze_eq` say that
they are the symbol-by-symbol sponge, so that absorbing in two pieces is absorbing the
concatenation.

| here | there |
| --- | --- |
| `xorByte`, `laneByte` | `s[i/8] ^= (uint64_t)*in++ << 8*(i%8)`, `s[i/8] >> 8*(i%8)` |
| `keccakAbsorb`, `keccakFinalize`, `keccakSqueeze` | dilithium/ref/fips202.c:373-448 |
| `shake256Init`, … | dilithium/ref/fips202.c:610-657 |

`KeccakF1600_StatePermute` (fips202.c:82) is a parameter `perm`: nothing here depends on which
permutation it is.
-/
namespace BitcoinPqc
open CSem

abbrev Lanes := Vector UInt64 25

def shake256Rate : Nat := 136

/-- `keccak_state` (fips202.h:14) -/
structure KeccakState where
  s : Lanes
  pos : Nat

/-- Every position the rate admits has a lane; the default is never read. -/
def lane (s : Lanes) (i : Nat) : UInt64 := s[i]?.getD 0

def xorLane (s : Lanes) (i : Nat) (x : UInt64) : Lanes := s.setIfInBounds i (lane s i ^^^ x)

def xorByte (s : Lanes) (i : Nat) (b : UInt8) : Lanes :=
  xorLane s (i / 8) (b.toUInt64 <<< (8 * (i % 8)).toUInt64)

def laneByte (s : Lanes) (i : Nat) : UInt8 := (lane s (i / 8) >>> (8 * (i % 8)).toUInt64).toUInt8

section
variable (perm : Lanes → Lanes)

/-- The sponge these functions implement. -/
def shake256Sponge : Sponge Lanes UInt8 := ⟨shake256Rate, perm, xorByte, laneByte⟩

/-- fips202.c:373; out of fuel the loop has not ended. -/
def keccakAbsorb (r : Nat) : Nat → Lanes → Nat → Bytes → Option (Lanes × Nat)
  | 0, _, _, _ => none
  | fuel + 1, s, pos, inp =>
    let xorAll := (shake256Sponge perm).addAll
    if pos + inp.length ≥ r then
      keccakAbsorb r fuel (perm (xorAll s pos (inp.take (r - pos)))) 0 (inp.drop (r - pos))
    else some (xorAll s pos inp, pos + inp.length)

/-- fips202.c:405 -/
def keccakFinalize (s : Lanes) (pos r : Nat) (p : UInt8) : Lanes :=
  xorLane (xorByte s pos p) (r / 8 - 1) ((1 : UInt64) <<< 63)

/-- fips202.c:426 -/
def keccakSqueeze (r : Nat) : Nat → Nat → Lanes → Nat → Bytes → Option (Bytes × Lanes × Nat)
  | 0, _, _, _, _ => none
  | fuel + 1, outlen, s, pos, out =>
    if outlen ≠ 0 then
      let (s, pos) := if pos = r then (perm s, 0) else (s, pos)
      let i := min r (pos + outlen)
      keccakSqueeze r fuel (outlen - (i - pos)) s i (out ++ (List.range' pos (i - pos)).map (laneByte s))
    else some (out, s, pos)

/-- fips202.c:610 -/
def shake256Init : KeccakState := ⟨Vector.replicate 25 0, 0⟩

/-- fips202.c:625 -/
def shake256Absorb (state : KeccakState) (inp : Bytes) : Option KeccakState :=
  (keccakAbsorb perm shake256Rate (inp.length + 1) state.s state.pos inp).map fun r => ⟨r.1, r.2⟩

/-- fips202.c:637 -/
def shake256Finalize (state : KeccakState) : KeccakState :=
  ⟨keccakFinalize state.s state.pos shake256Rate 0x1F, shake256Rate⟩

/-- fips202.c:653 -/
def shake256Squeeze (outlen : Nat) (state : KeccakState) : Option (Bytes × KeccakState) :=
  (keccakSqueeze perm shake256Rate (outlen + 1) outlen state.s state.pos []).map fun r => (r.1, ⟨r.2.1, r.2.2⟩)

/-! ## The loops are the sponge -/

theorem keccakAbsorb_eq : ∀ (fuel : Nat) (s : Lanes) (pos : Nat) (inp : Bytes), pos < shake256Rate →
    inp.length < fuel →
    keccakAbsorb perm shake256Rate fuel s pos inp = some ((shake256Sponge perm).absorb (s, pos) inp) := by
  intro fuel
  induction fuel with
  | zero => intro _ _ _ _ h; omega
  | succ fuel ih =>
    intro s pos inp hpos hfuel
    simp only [keccakAbsorb]
    split
    · rename_i hge
      have hlen : (inp.take (shake256Rate - pos)).length = shake256Rate - pos := by
        rw [List.length_take]; omega
      have hfill : pos + (inp.take (shake256Rate - pos)).length = shake256Rate := by rw [hlen]; omega
      have hfull := (shake256Sponge perm).absorb_full (s := s) hpos hfill
      have hdrop : (inp.drop (shake256Rate - pos)).length < fuel := by rw [List.length_drop]; omega
      rw [ih _ 0 _ (by decide) hdrop]
      conv => rhs; rw [← List.take_append_drop (shake256Rate - pos) inp, Sponge.absorb_append, hfull]
      rfl
    · rename_i hlt
      rw [(shake256Sponge perm).absorb_short (show pos + inp.length < shake256Rate by omega)]

theorem keccakSqueeze_eq : ∀ (fuel outlen : Nat) (s : Lanes) (pos : Nat) (out : Bytes), pos ≤ shake256Rate →
    outlen < fuel →
    ∃ st, keccakSqueeze perm shake256Rate fuel outlen s pos out =
      some (out ++ (shake256Sponge perm).squeeze (s, pos) outlen, st) := by
  intro fuel
  induction fuel with
  | zero => intro _ _ _ _ _ h; omega
  | succ fuel ih =>
    intro outlen s pos out hpos hfuel
    simp only [keccakSqueeze]
    split
    · rename_i hne
      obtain ⟨n, rfl⟩ : ∃ n, outlen = n + 1 := ⟨outlen - 1, by omega⟩
      generalize hst : (if pos = shake256Rate then (perm s, 0) else (s, pos)) = st
      have hlt : st.2 < shake256Rate := by
        split at hst <;> subst hst
        · exact (by decide : 0 < shake256Rate)
        · show pos < shake256Rate
          omega
      have hrefill : (shake256Sponge perm).squeeze (s, pos) (n + 1) = (shake256Sponge perm).squeeze st (n + 1) := by
        have hidem : (shake256Sponge perm).refill st = st := if_neg (Nat.ne_of_lt hlt)
        have hfirst : (shake256Sponge perm).refill (s, pos) = st := hst
        simp only [Sponge.squeeze, hfirst, hidem]
      have hle : min shake256Rate (st.2 + (n + 1)) - st.2 ≤ n + 1 := by omega
      have hblock := (shake256Sponge perm).squeeze_block st.1
        (n + 1 - (min shake256Rate (st.2 + (n + 1)) - st.2)) (min shake256Rate (st.2 + (n + 1)) - st.2) st.2
        (by show _ ≤ shake256Rate; omega)
      obtain ⟨st', hih⟩ := ih (n + 1 - (min shake256Rate (st.2 + (n + 1)) - st.2)) st.1
        (min shake256Rate (st.2 + (n + 1))) (out ++ (List.range' st.2 (min shake256Rate (st.2 + (n + 1)) - st.2)).map
          (laneByte st.1)) (by omega) (by omega)
      refine ⟨st', hih.trans ?_⟩
      rw [hrefill, List.append_assoc]
      rw [Nat.add_sub_cancel' hle, show st.2 + (min shake256Rate (st.2 + (n + 1)) - st.2) =
        min shake256Rate (st.2 + (n + 1)) by omega] at hblock
      rw [hblock]
      rfl
    · rename_i h0
      have h0 : outlen = 0 := by omega
      subst h0
      exact ⟨(s, pos), by simp [Sponge.squeeze]⟩

/-- SHAKE256 of a whole message. -/
def shake256Of (inp : Bytes) (n : Nat) : Bytes :=
  let st := (shake256Sponge perm).absorb (shake256Init.s, shake256Init.pos) inp
  (shake256Sponge perm).squeeze (keccakFinalize st.1 st.2 shake256Rate 0x1F, shake256Rate) n

@[simp] theorem length_shake256Of (inp : Bytes) (n : Nat) : (shake256Of perm inp n).length = n :=
  Sponge.length_squeeze _ n _

/-- A short output is the beginning of a long one. -/
theorem shake256Of_take (inp : Bytes) {k n : Nat} (h : k ≤ n) :
    (shake256Of perm inp n).take k = shake256Of perm inp k :=
  Sponge.squeeze_take _ h _

theorem shake256Absorb_eq {state : KeccakState} (h : state.pos < shake256Rate) (inp : Bytes) :
    shake256Absorb perm state inp =
      some ⟨((shake256Sponge perm).absorb (state.s, state.pos) inp).1,
        ((shake256Sponge perm).absorb (state.s, state.pos) inp).2⟩ := by
  unfold shake256Absorb
  rw [keccakAbsorb_eq perm _ _ _ _ h (Nat.lt_succ_self _)]
  rfl

/-- **Incremental use is one message**: absorbing two pieces and squeezing once hashes their
concatenation. -/
theorem shake256_two_pieces (a b : Bytes) (n : Nat) :
    ((shake256Absorb perm shake256Init a).bind fun st => (shake256Absorb perm st b).bind fun st =>
      (shake256Squeeze perm n (shake256Finalize st)).map (·.1)) = some (shake256Of perm (a ++ b) n) := by
  have hinit : shake256Init.pos < shake256Rate := by decide
  have hrate : 0 < (shake256Sponge perm).rate := (by decide : 0 < shake256Rate)
  have hpos := (shake256Sponge perm).absorb_pos hrate a (shake256Init.s, shake256Init.pos) hinit
  rw [shake256Absorb_eq perm hinit, Option.bind_some, shake256Absorb_eq perm hpos, Option.bind_some]
  unfold shake256Squeeze shake256Finalize shake256Of
  rw [Sponge.absorb_append]
  obtain ⟨st, h⟩ := keccakSqueeze_eq perm (n + 1) n
    (keccakFinalize
      ((shake256Sponge perm).absorb ((shake256Sponge perm).absorb (shake256Init.s, shake256Init.pos) a) b).1
      ((shake256Sponge perm).absorb ((shake256Sponge perm).absorb (shake256Init.s, shake256Init.pos) a) b).2
      shake256Rate 0x1F) shake256Rate [] (Nat.le_refl _) (Nat.lt_succ_self _)
  simp only [h]
  rfl

end

end BitcoinPqc
