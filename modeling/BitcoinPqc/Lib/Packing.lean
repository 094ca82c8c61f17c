import BitcoinPqc.Lib.Blocks
import Mathlib.Data.Nat.Digits.Lemmas

/-!
# Bit packing

Numbers of `w` bits packed into bytes, least significant bit first: numbers and bytes are the digits
of one value, in base `2^w` and in base `2^8`. A `Packing` is a pair of functions between `c` numbers
and `m` bytes that keep the value; digits are unique, so each function undoes the other, also when a
buffer is packed chunk by chunk (`unpackAll_packAll`, `packAll_unpackAll`).
-/
namespace CSem

/-- The value of digits of `w` bits, the least significant first. -/
def digitsValue (w : Nat) (xs : List Nat) : Nat := Nat.ofDigits (2 ^ w) xs

theorem digitsValue_inj {w : Nat} (hw : 0 < w) {xs ys : List Nat} (hlen : xs.length = ys.length)
    (hx : ∀ x ∈ xs, x < 2 ^ w) (hy : ∀ y ∈ ys, y < 2 ^ w) (h : digitsValue w xs = digitsValue w ys) : xs = ys :=
  Nat.ofDigits_inj_of_len_eq (Nat.one_lt_two_pow (by omega)) hlen hx hy h

theorem digitsValue_cons (w x : Nat) (xs : List Nat) : digitsValue w (x :: xs) = x + 2 ^ w * digitsValue w xs := by
  simp [digitsValue, Nat.ofDigits_cons]

theorem digitsValue_nil (w : Nat) : digitsValue w [] = 0 := rfl

def byteValues (bs : List UInt8) : List Nat := bs.map UInt8.toNat

theorem byteValues_lt (bs : List UInt8) : ∀ x ∈ byteValues bs, x < 2 ^ 8 := by
  intro x hx
  obtain ⟨b, -, rfl⟩ := List.mem_map.mp hx
  exact b.toNat_lt

theorem byteValues_inj {bs cs : List UInt8} (h : byteValues bs = byteValues cs) : bs = cs :=
  List.map_injective_iff.mpr (fun _ _ h => UInt8.toNat_inj.mp h) h

structure Packing (w c m : Nat) where
  pack : List Nat → List UInt8
  unpack : List UInt8 → List Nat
  length_pack : ∀ {xs : List Nat}, xs.length = c → (pack xs).length = m
  length_unpack : ∀ {bs : List UInt8}, bs.length = m → (unpack bs).length = c
  unpack_lt : ∀ {bs : List UInt8}, bs.length = m → ∀ x ∈ unpack bs, x < 2 ^ w
  pack_value : ∀ {xs : List Nat}, xs.length = c → (∀ x ∈ xs, x < 2 ^ w) →
    digitsValue 8 (byteValues (pack xs)) = digitsValue w xs
  unpack_value : ∀ {bs : List UInt8}, bs.length = m → digitsValue w (unpack bs) = digitsValue 8 (byteValues bs)

namespace Packing
variable {w c m : Nat} (P : Packing w c m)

theorem unpack_pack (hw : 0 < w) {xs : List Nat} (hlen : xs.length = c) (hlt : ∀ x ∈ xs, x < 2 ^ w) :
    P.unpack (P.pack xs) = xs := by
  have hpack := P.length_pack hlen
  refine digitsValue_inj hw (by rw [P.length_unpack hpack, hlen]) (P.unpack_lt hpack) hlt ?_
  rw [P.unpack_value hpack, P.pack_value hlen hlt]

theorem pack_unpack {bs : List UInt8} (hlen : bs.length = m) : P.pack (P.unpack bs) = bs := by
  have hunpack := P.length_unpack hlen
  refine byteValues_inj (digitsValue_inj (w := 8) (by decide) ?_ (byteValues_lt _) (byteValues_lt _) ?_)
  · rw [byteValues, byteValues, List.length_map, List.length_map, P.length_pack hunpack, hlen]
  · rw [P.pack_value hunpack (P.unpack_lt hlen), P.unpack_value hlen]

/-- Chunk after chunk. -/
def packAll (n : Nat) (xs : List Nat) : List UInt8 := ofBlocks n fun i => P.pack (block c i xs)

def unpackAll (n : Nat) (bs : List UInt8) : List Nat := ofBlocks n fun i => P.unpack (block m i bs)

variable {n : Nat}

theorem length_packAll {xs : List Nat} (hlen : xs.length = n * c) : (P.packAll n xs).length = n * m :=
  length_ofBlocks fun _ hi => P.length_pack (length_block hi (Nat.le_of_eq hlen.symm))

theorem length_unpackAll {bs : List UInt8} (hlen : n * m ≤ bs.length) : (P.unpackAll n bs).length = n * c :=
  length_ofBlocks fun _ hi => P.length_unpack (length_block hi hlen)

theorem unpackAll_lt {bs : List UInt8} (hlen : n * m ≤ bs.length) : ∀ x ∈ P.unpackAll n bs, x < 2 ^ w := by
  intro x hx
  obtain ⟨i, hi, hmem⟩ := List.mem_flatMap.mp hx
  exact P.unpack_lt (length_block (List.mem_range.mp hi) hlen) x hmem

/-- **What was packed is unpacked.** -/
theorem unpackAll_packAll (hw : 0 < w) {xs : List Nat} (hlen : xs.length = n * c) (hlt : ∀ x ∈ xs, x < 2 ^ w)
    (rest : List UInt8) : P.unpackAll n (P.packAll n xs ++ rest) = xs := by
  have hchunk : ∀ i < n, (P.pack (block c i xs)).length = m := fun i hi =>
    P.length_pack (length_block hi (Nat.le_of_eq hlen.symm))
  have heach : ∀ i < n, P.unpack (block m i (P.packAll n xs ++ rest)) = block c i xs := by
    intro i hi
    rw [block_append_left hi (P.length_packAll hlen), packAll, block_ofBlocks hchunk hi]
    refine P.unpack_pack hw (length_block hi (Nat.le_of_eq hlen.symm)) fun x hx => hlt x ?_
    exact List.mem_of_mem_drop (List.mem_of_mem_take hx)
  rw [unpackAll, ofBlocks_congr heach, ofBlocks_block, List.take_of_length_le (Nat.le_of_eq hlen)]

/-- **What was unpacked is packed again to the same bytes**: no two buffers unpack to one list. -/
theorem packAll_unpackAll {bs : List UInt8} (hlen : bs.length = n * m) : P.packAll n (P.unpackAll n bs) = bs := by
  have hchunk : ∀ i < n, (P.unpack (block m i bs)).length = c := fun i hi =>
    P.length_unpack (length_block hi (Nat.le_of_eq hlen.symm))
  have heach : ∀ i < n, P.pack (block c i (P.unpackAll n bs)) = block m i bs := by
    intro i hi
    rw [unpackAll, block_ofBlocks hchunk hi, P.pack_unpack (length_block hi (Nat.le_of_eq hlen.symm))]
  rw [packAll, ofBlocks_congr heach, ofBlocks_block, List.take_of_length_le (Nat.le_of_eq hlen)]

end Packing

/-! ## Bit operations as arithmetic -/

/-- Bits put above others. -/
theorem or_shiftLeft {x i : Nat} (h : x < 2 ^ i) (y : Nat) : x ||| y <<< i = x + y * 2 ^ i := by
  rw [Nat.or_comm, ← Nat.shiftLeft_add_eq_or_of_lt h, Nat.shiftLeft_eq, Nat.add_comm]

/-- What sticks out of the field is dropped. -/
theorem low_add_mod {x i w : Nat} (h : x < 2 ^ i) (hi : i ≤ w) (y : Nat) :
    (x + y * 2 ^ i) % 2 ^ w = x + 2 ^ i * (y % 2 ^ (w - i)) := by
  have hw : 2 ^ w = 2 ^ i * 2 ^ (w - i) := by rw [← Nat.pow_add, Nat.add_sub_cancel' hi]
  rw [Nat.mul_comm y, hw, Nat.mod_mul, Nat.add_mul_mod_self_left, Nat.mod_eq_of_lt h,
    Nat.add_mul_div_left _ _ (by positivity), Nat.div_eq_of_lt h, Nat.zero_add]

end CSem
