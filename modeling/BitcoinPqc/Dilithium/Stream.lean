import BitcoinPqc.Dilithium.Sample

/-!
# Matrix entries and their streams

`poly_uniform` reads SHAKE128 block by block into a buffer, carries what a block leaves over to the next
and stops at 256 coefficients. The blocks are multiples of three bytes, so nothing is ever carried, and
the entry is the first 256 candidates below `q` of the stream (`polyUniform_stream`).
-/
namespace BitcoinPqc.Dilithium
open CSem Keccak

variable (perm : Lanes → Lanes)

/-! ## Candidates -/

/-- The candidates of a stream, three bytes each, that are below `q`. -/
def accepted : Bytes → List Int
  | b0 :: b1 :: b2 :: buf =>
    let t : Int := ((b0.toNat ||| b1.toNat <<< 8 ||| b2.toNat <<< 16) &&& 0x7FFFFF : Nat)
    if t < q then t :: accepted buf else accepted buf
  | _ => []

theorem rejUniform_eq : ∀ (len : Nat) (buf : Bytes), rejUniform len buf = (accepted buf).take len
  | len, b0 :: b1 :: b2 :: buf => by
    rw [rejUniform, accepted]
    by_cases h0 : len = 0
    · rw [if_pos h0, h0, List.take_zero]
    · obtain ⟨m, rfl⟩ : ∃ m, len = m + 1 := ⟨len - 1, by omega⟩
      rw [if_neg h0]
      dsimp only
      split
      · rw [List.take_succ_cons, Nat.add_sub_cancel, rejUniform_eq m buf]
      · exact rejUniform_eq (m + 1) buf
  | len, [] => by simp [rejUniform, accepted]
  | len, [_] => by simp [rejUniform, accepted]
  | len, [_, _] => by simp [rejUniform, accepted]

theorem accepted_append : ∀ {x : Bytes} (y : Bytes), 3 ∣ x.length → accepted (x ++ y) = accepted x ++ accepted y
  | [], y, _ => rfl
  | [_], _, h => by simp at h
  | [_, _], _, h => by simp at h
  | b0 :: b1 :: b2 :: x, y, h => by
    have hx : 3 ∣ x.length := by
      simp only [List.length_cons] at h
      omega
    have ih := accepted_append y hx
    simp only [List.cons_append, accepted, ih]
    split
    · rfl
    · rfl

/-- What the first `b` blocks of the stream hold. -/
def acceptedBlocks (inp : Bytes) (b : Nat) : List Int := accepted (shakeOf perm shake128Rate inp (b * shake128Rate))

/-- After `b` blocks: the state is to squeeze block `b`, and the array holds what the blocks before gave. -/
structure Read (inp : Bytes) (b : Nat) (a : List Int) (buf : Bytes) (state : KeccakState) : Prop where
  state : (state.s, shake128Rate) = (keccakSponge perm shake128Rate).after (shakeStart perm shake128Rate inp) (b * shake128Rate)
  aligned : 3 ∣ buf.length
  array : a = (acceptedBlocks perm inp b).take n

theorem squeezed_block {inp : Bytes} {b : Nat} {state : KeccakState}
    (h : (state.s, shake128Rate) = (keccakSponge perm shake128Rate).after (shakeStart perm shake128Rate inp) (b * shake128Rate)) (c : Nat) :
    shakeOf perm shake128Rate inp ((b + c) * shake128Rate) =
      shakeOf perm shake128Rate inp (b * shake128Rate) ++ (shakeSqueezeblocks perm shake128Rate c state).1 ∧
    ((shakeSqueezeblocks perm shake128Rate c state).2.s, shake128Rate) =
      (keccakSponge perm shake128Rate).after (shakeStart perm shake128Rate inp) ((b + c) * shake128Rate) := by
  obtain ⟨hout, hafter⟩ := keccakSqueezeblocks_eq perm shake128Rate_pos (by decide) c state.s
  rw [h] at hout hafter
  rw [Nat.add_mul]
  refine ⟨?_, ?_⟩
  · rw [shakeOf, shakeOf, Sponge.squeeze_add, shakeSqueezeblocks, ← hout]
  · rw [Sponge.after_add, ← hafter]
    rfl

theorem acceptedBlocks_succ {inp : Bytes} {b : Nat} {state : KeccakState}
    (h : (state.s, shake128Rate) = (keccakSponge perm shake128Rate).after (shakeStart perm shake128Rate inp) (b * shake128Rate)) :
    acceptedBlocks perm inp (b + 1) = acceptedBlocks perm inp b ++ accepted (shakeSqueezeblocks perm shake128Rate 1 state).1 := by
  rw [acceptedBlocks, (squeezed_block perm h 1).1, accepted_append, acceptedBlocks]
  rw [length_shakeOf]
  exact Dvd.dvd.mul_left (by decide) b

theorem acceptedBlocks_mono (inp : Bytes) (b c : Nat) : ∃ more, acceptedBlocks perm inp (b + c) = acceptedBlocks perm inp b ++ more := by
  refine ⟨accepted ((keccakSponge perm shake128Rate).squeeze
    ((keccakSponge perm shake128Rate).after (shakeStart perm shake128Rate inp) (b * shake128Rate)) (c * shake128Rate)), ?_⟩
  rw [acceptedBlocks, shakeOf, Nat.add_mul, Sponge.squeeze_add, accepted_append]
  · rfl
  · rw [Sponge.length_squeeze]
    exact Dvd.dvd.mul_left (by decide) b

/-- The first candidates do not change when more is read. -/
theorem acceptedBlocks_take {inp : Bytes} {b c : Nat} (hbc : b ≤ c) (hfull : n ≤ (acceptedBlocks perm inp b).length) :
    (acceptedBlocks perm inp c).take n = (acceptedBlocks perm inp b).take n := by
  obtain ⟨d, rfl⟩ := Nat.exists_eq_add_of_le hbc
  obtain ⟨more, hmore⟩ := acceptedBlocks_mono perm inp b d
  rw [hmore, List.take_append_of_le_length hfull]

/-- One more block. -/
theorem Read.next {inp : Bytes} {b : Nat} {a : List Int} {buf : Bytes} {state : KeccakState} (h : Read perm inp b a buf state)
    (hmore : a.length < n) :
    let off := buf.length % 3
    let (block, state) := shakeSqueezeblocks perm shake128Rate 1 state
    let buf := buf.drop (buf.length - off) ++ block
    Read perm inp (b + 1) (a ++ rejUniform (n - a.length) buf) buf state := by
  obtain ⟨hstate, haligned, rfl⟩ := h
  have hlen : (acceptedBlocks perm inp b).length < n := by
    rw [List.length_take] at hmore
    omega
  have htake : (acceptedBlocks perm inp b).take n = acceptedBlocks perm inp b := List.take_of_length_le (Nat.le_of_lt hlen)
  have hdrop : buf.drop (buf.length - buf.length % 3) = [] := by
    rw [Nat.mod_eq_zero_of_dvd haligned, Nat.sub_zero, List.drop_length]
  dsimp only
  rw [hdrop, List.nil_append, htake]
  refine ⟨(squeezed_block perm hstate 1).2, ?_, ?_⟩
  · rw [length_shakeSqueezeblocks perm shake128Rate_pos (by decide)]
    decide
  · rw [acceptedBlocks_succ perm hstate, List.take_append, rejUniform_eq, List.take_of_length_le (Nat.le_of_lt hlen)]

/-! ## The loop -/

/-- **The loop reads on until the stream has given enough.** -/
theorem polyUniformLoop_stream {inp : Bytes} : ∀ (fuel b : Nat) {a : List Int} {buf : Bytes} {state : KeccakState},
    Read perm inp b a buf state →
    (∀ r, polyUniformLoop perm fuel a buf state = .ok r →
      ∃ c, n ≤ (acceptedBlocks perm inp c).length ∧ r = (acceptedBlocks perm inp c).take n) ∧
    ∀ c ≤ b + fuel, n ≤ (acceptedBlocks perm inp c).length →
      polyUniformLoop perm fuel a buf state = .ok ((acceptedBlocks perm inp c).take n) := by
  intro fuel b a buf state hread
  induction fuel generalizing b a buf state with
  | zero =>
    have hlen : a.length = min n (acceptedBlocks perm inp b).length := by rw [hread.array, List.length_take]
    rw [polyUniformLoop]
    split
    · refine ⟨fun r hr => (by cases hr), fun c hc hfull => ?_⟩
      obtain ⟨more, hmore⟩ := acceptedBlocks_mono perm inp c (b - c)
      rw [Nat.add_sub_cancel' (by omega)] at hmore
      rw [hmore, List.length_append] at hlen
      omega
    · refine ⟨fun r hr => ?_, fun c hc hfull => ?_⟩
      · cases hr
        exact ⟨b, by omega, hread.array⟩
      · rw [hread.array, acceptedBlocks_take perm (by omega) hfull]
  | succ fuel ih =>
    have hlen : a.length = min n (acceptedBlocks perm inp b).length := by rw [hread.array, List.length_take]
    rw [polyUniformLoop]
    split
    · rename_i hmore
      obtain ⟨hsound, hlive⟩ := ih (b + 1) (hread.next perm hmore)
      exact ⟨hsound, fun c hc hfull => hlive c (by omega) hfull⟩
    · refine ⟨fun r hr => ?_, fun c hc hfull => ?_⟩
      · cases hr
        exact ⟨b, by omega, hread.array⟩
      · rcases Nat.le_total b c with hbc | hcb
        · rw [hread.array, acceptedBlocks_take perm hbc (by omega)]
        · rw [hread.array, acceptedBlocks_take perm hcb hfull]

/-- What `stream128_init` absorbs. -/
def streamInput (seed : Bytes) (nonce : UInt16) : Bytes := seed ++ [nonce.toUInt8, (nonce >>> 8).toUInt8]

/-- The blocks read before the loop, and the state after them. -/
def firstBlocks (seed : Bytes) (nonce : UInt16) : Bytes × KeccakState :=
  shakeSqueezeblocks perm shake128Rate polyUniformNblocks ⟨(shakeStart perm shake128Rate (streamInput seed nonce)).1, shake128Rate⟩

theorem firstBlocks_read (seed : Bytes) (nonce : UInt16) :
    Read perm (streamInput seed nonce) polyUniformNblocks (rejUniform n (firstBlocks perm seed nonce).1) (firstBlocks perm seed nonce).1
      (firstBlocks perm seed nonce).2 := by
  let start : KeccakState := ⟨(shakeStart perm shake128Rate (streamInput seed nonce)).1, shake128Rate⟩
  have hzero : (start.s, shake128Rate) =
      (keccakSponge perm shake128Rate).after (shakeStart perm shake128Rate (streamInput seed nonce)) (0 * shake128Rate) := by
    rw [Nat.zero_mul]
    rfl
  obtain ⟨hout, hafter⟩ := squeezed_block perm hzero polyUniformNblocks
  rw [Nat.zero_add] at hout hafter
  refine ⟨hafter, ?_, ?_⟩
  · rw [firstBlocks, length_shakeSqueezeblocks perm shake128Rate_pos (by decide)]
    decide
  · rw [rejUniform_eq, acceptedBlocks, hout, Nat.zero_mul]
    rfl

theorem polyUniform_eq (fuel : Nat) (seed : Bytes) (nonce : UInt16) : polyUniform perm fuel seed nonce =
    (do .ok (ofList (← polyUniformLoop perm fuel (rejUniform n (firstBlocks perm seed nonce).1) (firstBlocks perm seed nonce).1
      (firstBlocks perm seed nonce).2))) := by
  have hinput : [seed, [nonce.toUInt8, (nonce >>> 8).toUInt8]].flatten = streamInput seed nonce := by simp [streamInput]
  rw [polyUniform, streamInit, absorbPieces_eq perm shake128Rate_pos, hinput]
  rfl

/-- **A matrix entry is the first 256 candidates below `q` of its stream**, and is found if the stream ever has
that many. -/
theorem polyUniform_stream (seed : Bytes) (nonce : UInt16) (p : Poly) :
    (∃ fuel, polyUniform perm fuel seed nonce = .ok p) ↔
      ∃ b, n ≤ (acceptedBlocks perm (streamInput seed nonce) b).length ∧
        p = ofList ((acceptedBlocks perm (streamInput seed nonce) b).take n) := by
  have hread := firstBlocks_read perm seed nonce
  constructor
  · rintro ⟨fuel, hp⟩
    rw [polyUniform_eq] at hp
    cases hloop : polyUniformLoop perm fuel (rejUniform n (firstBlocks perm seed nonce).1) (firstBlocks perm seed nonce).1
      (firstBlocks perm seed nonce).2 with
    | error e =>
      rw [hloop] at hp
      cases hp
    | ok r =>
      rw [bind_of_ok hloop] at hp
      obtain ⟨b, hfull, rfl⟩ := (polyUniformLoop_stream perm fuel polyUniformNblocks hread).1 r hloop
      exact ⟨b, hfull, (Except.ok.inj hp).symm⟩
  · rintro ⟨b, hfull, rfl⟩
    exact ⟨b, by rw [polyUniform_eq, bind_of_ok ((polyUniformLoop_stream perm b polyUniformNblocks hread).2 b (by omega) hfull)]⟩

end BitcoinPqc.Dilithium
