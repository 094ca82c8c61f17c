import BitcoinPqc.Lib.Packing
import BitcoinPqc.Dilithium.Poly

/-!
# Bit packing of polynomials

A coefficient is packed as its distance below an upper bound, in as many bits as that takes. The
chunks of the source, a few coefficients in a few bytes, are `Packing`s; with the codes they give the
round trips of the polynomials (`packPoly_spec`, `packPoly_unpackPoly`).

| here | there |
| --- | --- |
| `etaPack`, …, `w1Pack` | the loop bodies of dilithium/ref/poly.c:539-907 |
| `polyetaPack`, …, `polyw1Pack` | dilithium/ref/poly.c:532, :571, :617, :641, :664, :712, :776, :827, :888 |
-/
namespace BitcoinPqc.Dilithium
open CSem

/-! ## Chunks -/

def etaPack : List Nat → Bytes
  | [t0, t1, t2, t3, t4, t5, t6, t7] =>
    [.ofNat (t0 >>> 0 ||| t1 <<< 3 ||| t2 <<< 6),
      .ofNat (t2 >>> 2 ||| t3 <<< 1 ||| t4 <<< 4 ||| t5 <<< 7),
      .ofNat (t5 >>> 1 ||| t6 <<< 2 ||| t7 <<< 5)]
  | _ => []

def etaUnpack : List Nat → List Nat
  | [a0, a1, a2] =>
    [(a0 >>> 0) &&& 7,
      (a0 >>> 3) &&& 7,
      (a0 >>> 6 ||| a1 <<< 2) &&& 7,
      (a1 >>> 1) &&& 7,
      (a1 >>> 4) &&& 7,
      (a1 >>> 7 ||| a2 <<< 1) &&& 7,
      (a2 >>> 2) &&& 7,
      (a2 >>> 5) &&& 7]
  | _ => []

def t1Pack : List Nat → Bytes
  | [t0, t1, t2, t3] =>
    [.ofNat (t0 >>> 0),
      .ofNat (t0 >>> 8 ||| t1 <<< 2),
      .ofNat (t1 >>> 6 ||| t2 <<< 4),
      .ofNat (t2 >>> 4 ||| t3 <<< 6),
      .ofNat (t3 >>> 2)]
  | _ => []

def t1Unpack : List Nat → List Nat
  | [a0, a1, a2, a3, a4] =>
    [(a0 >>> 0 ||| a1 <<< 8) &&& 0x3FF,
      (a1 >>> 2 ||| a2 <<< 6) &&& 0x3FF,
      (a2 >>> 4 ||| a3 <<< 4) &&& 0x3FF,
      (a3 >>> 6 ||| a4 <<< 2) &&& 0x3FF]
  | _ => []

def t0Pack : List Nat → Bytes
  | [t0, t1, t2, t3, t4, t5, t6, t7] =>
    [.ofNat t0,
      .ofNat (t0 >>> 8 ||| t1 <<< 5),
      .ofNat (t1 >>> 3),
      .ofNat (t1 >>> 11 ||| t2 <<< 2),
      .ofNat (t2 >>> 6 ||| t3 <<< 7),
      .ofNat (t3 >>> 1),
      .ofNat (t3 >>> 9 ||| t4 <<< 4),
      .ofNat (t4 >>> 4),
      .ofNat (t4 >>> 12 ||| t5 <<< 1),
      .ofNat (t5 >>> 7 ||| t6 <<< 6),
      .ofNat (t6 >>> 2),
      .ofNat (t6 >>> 10 ||| t7 <<< 3),
      .ofNat (t7 >>> 5)]
  | _ => []

def t0Unpack : List Nat → List Nat
  | [a0, a1, a2, a3, a4, a5, a6, a7, a8, a9, a10, a11, a12] =>
    [(a0 ||| a1 <<< 8) &&& 0x1FFF,
      (a1 >>> 5 ||| a2 <<< 3 ||| a3 <<< 11) &&& 0x1FFF,
      (a3 >>> 2 ||| a4 <<< 6) &&& 0x1FFF,
      (a4 >>> 7 ||| a5 <<< 1 ||| a6 <<< 9) &&& 0x1FFF,
      (a6 >>> 4 ||| a7 <<< 4 ||| a8 <<< 12) &&& 0x1FFF,
      (a8 >>> 1 ||| a9 <<< 7) &&& 0x1FFF,
      (a9 >>> 6 ||| a10 <<< 2 ||| a11 <<< 10) &&& 0x1FFF,
      (a11 >>> 3 ||| a12 <<< 5) &&& 0x1FFF]
  | _ => []

def zPack : List Nat → Bytes
  | [t0, t1, t2, t3] =>
    [.ofNat t0,
      .ofNat (t0 >>> 8),
      .ofNat (t0 >>> 16 ||| t1 <<< 2),
      .ofNat (t1 >>> 6),
      .ofNat (t1 >>> 14 ||| t2 <<< 4),
      .ofNat (t2 >>> 4),
      .ofNat (t2 >>> 12 ||| t3 <<< 6),
      .ofNat (t3 >>> 2),
      .ofNat (t3 >>> 10)]
  | _ => []

def zUnpack : List Nat → List Nat
  | [a0, a1, a2, a3, a4, a5, a6, a7, a8] =>
    [(a0 ||| a1 <<< 8 ||| a2 <<< 16) &&& 0x3FFFF,
      (a2 >>> 2 ||| a3 <<< 6 ||| a4 <<< 14) &&& 0x3FFFF,
      (a4 >>> 4 ||| a5 <<< 4 ||| a6 <<< 12) &&& 0x3FFFF,
      (a6 >>> 6 ||| a7 <<< 2 ||| a8 <<< 10) &&& 0x3FFFF]
  | _ => []

/-- There is no unpacking. -/
def w1Pack : List Nat → Bytes
  | [t0, t1, t2, t3] =>
    [.ofNat (t0 ||| t1 <<< 6),
      .ofNat (t1 >>> 2 ||| t2 <<< 4),
      .ofNat (t2 >>> 4 ||| t3 <<< 2)]
  | _ => []

theorem and_7 (x : Nat) : x &&& 7 = x % 2 ^ 3 := Nat.and_two_pow_sub_one_eq_mod x 3
theorem and_3ff (x : Nat) : x &&& 0x3FF = x % 2 ^ 10 := Nat.and_two_pow_sub_one_eq_mod x 10
theorem and_1fff (x : Nat) : x &&& 0x1FFF = x % 2 ^ 13 := Nat.and_two_pow_sub_one_eq_mod x 13
theorem and_3ffff (x : Nat) : x &&& 0x3FFFF = x % 2 ^ 18 := Nat.and_two_pow_sub_one_eq_mod x 18

theorem etaPack_value {t0 t1 t2 t3 t4 t5 t6 t7 : Nat} (h0 : t0 < 2 ^ 3) (h1 : t1 < 2 ^ 3) (h2 : t2 < 2 ^ 3)
    (h3 : t3 < 2 ^ 3) (h4 : t4 < 2 ^ 3) (h5 : t5 < 2 ^ 3) (h6 : t6 < 2 ^ 3) (h7 : t7 < 2 ^ 3) :
    digitsValue 8 (byteValues (etaPack [t0, t1, t2, t3, t4, t5, t6, t7])) =
      digitsValue 3 [t0, t1, t2, t3, t4, t5, t6, t7] := by
  simp (disch := omega) only [etaPack, byteValues, List.map_cons, List.map_nil, UInt8.toNat_ofNat', or_shiftLeft,
    low_add_mod, Nat.shiftRight_eq_div_pow, digitsValue_cons, digitsValue_nil]
  have e0 : t0 = t0 / 2 ^ 0 := by omega
  have e2 : t2 = t2 % 2 ^ (8 - 6) + 4 * (t2 / 2 ^ 2) := by omega
  have e5 : t5 = t5 % 2 ^ (8 - 7) + 2 * (t5 / 2 ^ 1) := by omega
  have e7 : t7 = t7 % 2 ^ (8 - 5) := by omega
  linarith only [e0, e2, e5, e7]

theorem etaUnpack_value {a0 a1 a2 : Nat} (h0 : a0 < 2 ^ 8) (h1 : a1 < 2 ^ 8) (h2 : a2 < 2 ^ 8) :
    digitsValue 3 (etaUnpack [a0, a1, a2]) = digitsValue 8 [a0, a1, a2] := by
  simp (disch := omega) only [etaUnpack, and_7, or_shiftLeft, low_add_mod, Nat.shiftRight_eq_div_pow, digitsValue_cons,
    digitsValue_nil]
  have e0 : a0 = a0 / 2 ^ 0 % 2 ^ 3 + 8 * (a0 / 2 ^ 3 % 2 ^ 3) + 64 * (a0 / 2 ^ 6) := by omega
  have e1 : a1 = a1 % 2 ^ (3 - 2) + 2 * (a1 / 2 ^ 1 % 2 ^ 3) + 16 * (a1 / 2 ^ 4 % 2 ^ 3) + 128 * (a1 / 2 ^ 7) := by omega
  have e2 : a2 = a2 % 2 ^ (3 - 1) + 4 * (a2 / 2 ^ 2 % 2 ^ 3) + 32 * (a2 / 2 ^ 5 % 2 ^ 3) := by omega
  linarith only [e0, e1, e2]

theorem t1Pack_value {t0 t1 t2 t3 : Nat} (h0 : t0 < 2 ^ 10) (h1 : t1 < 2 ^ 10) (h2 : t2 < 2 ^ 10) (h3 : t3 < 2 ^ 10) :
    digitsValue 8 (byteValues (t1Pack [t0, t1, t2, t3])) = digitsValue 10 [t0, t1, t2, t3] := by
  simp (disch := omega) only [t1Pack, byteValues, List.map_cons, List.map_nil, UInt8.toNat_ofNat', or_shiftLeft,
    low_add_mod, Nat.shiftRight_eq_div_pow, digitsValue_cons, digitsValue_nil]
  have e0 : t0 = t0 / 2 ^ 0 % 2 ^ 8 + 256 * (t0 / 2 ^ 8) := by omega
  have e1 : t1 = t1 % 2 ^ (8 - 2) + 64 * (t1 / 2 ^ 6) := by omega
  have e2 : t2 = t2 % 2 ^ (8 - 4) + 16 * (t2 / 2 ^ 4) := by omega
  have e3 : t3 = t3 % 2 ^ (8 - 6) + 4 * (t3 / 2 ^ 2 % 2 ^ 8) := by omega
  linarith only [e0, e1, e2, e3]

theorem t1Unpack_value {a0 a1 a2 a3 a4 : Nat} (h0 : a0 < 2 ^ 8) (h1 : a1 < 2 ^ 8) (h2 : a2 < 2 ^ 8) (h3 : a3 < 2 ^ 8)
    (h4 : a4 < 2 ^ 8) :
    digitsValue 10 (t1Unpack [a0, a1, a2, a3, a4]) = digitsValue 8 [a0, a1, a2, a3, a4] := by
  simp (disch := omega) only [t1Unpack, and_3ff, or_shiftLeft, low_add_mod, Nat.shiftRight_eq_div_pow, digitsValue_cons,
    digitsValue_nil]
  have e0 : a0 = a0 / 2 ^ 0 := by omega
  have e1 : a1 = a1 % 2 ^ (10 - 8) + 4 * (a1 / 2 ^ 2) := by omega
  have e2 : a2 = a2 % 2 ^ (10 - 6) + 16 * (a2 / 2 ^ 4) := by omega
  have e3 : a3 = a3 % 2 ^ (10 - 4) + 64 * (a3 / 2 ^ 6) := by omega
  have e4 : a4 = a4 % 2 ^ (10 - 2) := by omega
  linarith only [e0, e1, e2, e3, e4]

theorem t0Pack_value {t0 t1 t2 t3 t4 t5 t6 t7 : Nat} (h0 : t0 < 2 ^ 13) (h1 : t1 < 2 ^ 13) (h2 : t2 < 2 ^ 13)
    (h3 : t3 < 2 ^ 13) (h4 : t4 < 2 ^ 13) (h5 : t5 < 2 ^ 13) (h6 : t6 < 2 ^ 13) (h7 : t7 < 2 ^ 13) :
    digitsValue 8 (byteValues (t0Pack [t0, t1, t2, t3, t4, t5, t6, t7])) =
      digitsValue 13 [t0, t1, t2, t3, t4, t5, t6, t7] := by
  simp (disch := omega) only [t0Pack, byteValues, List.map_cons, List.map_nil, UInt8.toNat_ofNat', or_shiftLeft,
    low_add_mod, Nat.shiftRight_eq_div_pow, digitsValue_cons, digitsValue_nil]
  have e0 : t0 = t0 % 2 ^ 8 + 256 * (t0 / 2 ^ 8) := by omega
  have e1 : t1 = t1 % 2 ^ (8 - 5) + 8 * (t1 / 2 ^ 3 % 2 ^ 8) + 2048 * (t1 / 2 ^ 11) := by omega
  have e2 : t2 = t2 % 2 ^ (8 - 2) + 64 * (t2 / 2 ^ 6) := by omega
  have e3 : t3 = t3 % 2 ^ (8 - 7) + 2 * (t3 / 2 ^ 1 % 2 ^ 8) + 512 * (t3 / 2 ^ 9) := by omega
  have e4 : t4 = t4 % 2 ^ (8 - 4) + 16 * (t4 / 2 ^ 4 % 2 ^ 8) + 4096 * (t4 / 2 ^ 12) := by omega
  have e5 : t5 = t5 % 2 ^ (8 - 1) + 128 * (t5 / 2 ^ 7) := by omega
  have e6 : t6 = t6 % 2 ^ (8 - 6) + 4 * (t6 / 2 ^ 2 % 2 ^ 8) + 1024 * (t6 / 2 ^ 10) := by omega
  have e7 : t7 = t7 % 2 ^ (8 - 3) + 32 * (t7 / 2 ^ 5 % 2 ^ 8) := by omega
  linarith only [e0, e1, e2, e3, e4, e5, e6, e7]

theorem t0Unpack_value {a0 a1 a2 a3 a4 a5 a6 a7 a8 a9 a10 a11 a12 : Nat} (h0 : a0 < 2 ^ 8) (h1 : a1 < 2 ^ 8)
    (h2 : a2 < 2 ^ 8) (h3 : a3 < 2 ^ 8) (h4 : a4 < 2 ^ 8) (h5 : a5 < 2 ^ 8) (h6 : a6 < 2 ^ 8) (h7 : a7 < 2 ^ 8)
    (h8 : a8 < 2 ^ 8) (h9 : a9 < 2 ^ 8) (h10 : a10 < 2 ^ 8) (h11 : a11 < 2 ^ 8) (h12 : a12 < 2 ^ 8) :
    digitsValue 13 (t0Unpack [a0, a1, a2, a3, a4, a5, a6, a7, a8, a9, a10, a11, a12]) =
      digitsValue 8 [a0, a1, a2, a3, a4, a5, a6, a7, a8, a9, a10, a11, a12] := by
  simp (disch := omega) only [t0Unpack, and_1fff, or_shiftLeft, low_add_mod, Nat.shiftRight_eq_div_pow, digitsValue_cons,
    digitsValue_nil]
  have e1 : a1 = a1 % 2 ^ (13 - 8) + 32 * (a1 / 2 ^ 5) := by omega
  have e3 : a3 = a3 % 2 ^ (13 - 11) + 4 * (a3 / 2 ^ 2) := by omega
  have e4 : a4 = a4 % 2 ^ (13 - 6) + 128 * (a4 / 2 ^ 7) := by omega
  have e6 : a6 = a6 % 2 ^ (13 - 9) + 16 * (a6 / 2 ^ 4) := by omega
  have e8 : a8 = a8 % 2 ^ (13 - 12) + 2 * (a8 / 2 ^ 1) := by omega
  have e9 : a9 = a9 % 2 ^ (13 - 7) + 64 * (a9 / 2 ^ 6) := by omega
  have e11 : a11 = a11 % 2 ^ (13 - 10) + 8 * (a11 / 2 ^ 3) := by omega
  have e12 : a12 = a12 % 2 ^ (13 - 5) := by omega
  linarith only [e1, e3, e4, e6, e8, e9, e11, e12]

theorem zPack_value {t0 t1 t2 t3 : Nat} (h0 : t0 < 2 ^ 18) (h1 : t1 < 2 ^ 18) (h2 : t2 < 2 ^ 18) (h3 : t3 < 2 ^ 18) :
    digitsValue 8 (byteValues (zPack [t0, t1, t2, t3])) = digitsValue 18 [t0, t1, t2, t3] := by
  simp (disch := omega) only [zPack, byteValues, List.map_cons, List.map_nil, UInt8.toNat_ofNat', or_shiftLeft,
    low_add_mod, Nat.shiftRight_eq_div_pow, digitsValue_cons, digitsValue_nil]
  have e0 : t0 = t0 % 2 ^ 8 + 256 * (t0 / 2 ^ 8 % 2 ^ 8) + 65536 * (t0 / 2 ^ 16) := by omega
  have e1 : t1 = t1 % 2 ^ (8 - 2) + 64 * (t1 / 2 ^ 6 % 2 ^ 8) + 16384 * (t1 / 2 ^ 14) := by omega
  have e2 : t2 = t2 % 2 ^ (8 - 4) + 16 * (t2 / 2 ^ 4 % 2 ^ 8) + 4096 * (t2 / 2 ^ 12) := by omega
  have e3 : t3 = t3 % 2 ^ (8 - 6) + 4 * (t3 / 2 ^ 2 % 2 ^ 8) + 1024 * (t3 / 2 ^ 10 % 2 ^ 8) := by omega
  linarith only [e0, e1, e2, e3]

theorem zUnpack_value {a0 a1 a2 a3 a4 a5 a6 a7 a8 : Nat} (h0 : a0 < 2 ^ 8) (h1 : a1 < 2 ^ 8) (h2 : a2 < 2 ^ 8)
    (h3 : a3 < 2 ^ 8) (h4 : a4 < 2 ^ 8) (h5 : a5 < 2 ^ 8) (h6 : a6 < 2 ^ 8) (h7 : a7 < 2 ^ 8) (h8 : a8 < 2 ^ 8) :
    digitsValue 18 (zUnpack [a0, a1, a2, a3, a4, a5, a6, a7, a8]) =
      digitsValue 8 [a0, a1, a2, a3, a4, a5, a6, a7, a8] := by
  simp (disch := omega) only [zUnpack, and_3ffff, or_shiftLeft, low_add_mod, Nat.shiftRight_eq_div_pow, digitsValue_cons,
    digitsValue_nil]
  have e2 : a2 = a2 % 2 ^ (18 - 16) + 4 * (a2 / 2 ^ 2) := by omega
  have e4 : a4 = a4 % 2 ^ (18 - 14) + 16 * (a4 / 2 ^ 4) := by omega
  have e6 : a6 = a6 % 2 ^ (18 - 12) + 64 * (a6 / 2 ^ 6) := by omega
  have e8 : a8 = a8 % 2 ^ (18 - 10) := by omega
  linarith only [e2, e4, e6, e8]

def etaPacking : Packing 3 8 3 where
  pack := etaPack
  unpack bs := etaUnpack (byteValues bs)
  length_pack {xs} h := match xs, h with | [_, _, _, _, _, _, _, _], _ => rfl
  length_unpack {bs} h := match bs, h with | [_, _, _], _ => rfl
  unpack_lt {bs} h := match bs, h with
    | [_, _, _], _ => by simp [etaUnpack, byteValues, and_7, Nat.mod_lt]
  pack_value {xs} h hlt := match xs, h with
    | [_, _, _, _, _, _, _, _], _ => by
      simp only [List.forall_mem_cons] at hlt
      obtain ⟨h0, h1, h2, h3, h4, h5, h6, h7, -⟩ := hlt
      exact etaPack_value h0 h1 h2 h3 h4 h5 h6 h7
  unpack_value {bs} h := match bs, h with
    | [a0, a1, a2], _ => etaUnpack_value a0.toNat_lt a1.toNat_lt a2.toNat_lt

def t1Packing : Packing 10 4 5 where
  pack := t1Pack
  unpack bs := t1Unpack (byteValues bs)
  length_pack {xs} h := match xs, h with | [_, _, _, _], _ => rfl
  length_unpack {bs} h := match bs, h with | [_, _, _, _, _], _ => rfl
  unpack_lt {bs} h := match bs, h with
    | [_, _, _, _, _], _ => by simp [t1Unpack, byteValues, and_3ff, Nat.mod_lt]
  pack_value {xs} h hlt := match xs, h with
    | [_, _, _, _], _ => by
      simp only [List.forall_mem_cons] at hlt
      obtain ⟨h0, h1, h2, h3, -⟩ := hlt
      exact t1Pack_value h0 h1 h2 h3
  unpack_value {bs} h := match bs, h with
    | [a0, a1, a2, a3, a4], _ => t1Unpack_value a0.toNat_lt a1.toNat_lt a2.toNat_lt a3.toNat_lt a4.toNat_lt

def t0Packing : Packing 13 8 13 where
  pack := t0Pack
  unpack bs := t0Unpack (byteValues bs)
  length_pack {xs} h := match xs, h with | [_, _, _, _, _, _, _, _], _ => rfl
  length_unpack {bs} h := match bs, h with | [_, _, _, _, _, _, _, _, _, _, _, _, _], _ => rfl
  unpack_lt {bs} h := match bs, h with
    | [_, _, _, _, _, _, _, _, _, _, _, _, _], _ => by simp [t0Unpack, byteValues, and_1fff, Nat.mod_lt]
  pack_value {xs} h hlt := match xs, h with
    | [_, _, _, _, _, _, _, _], _ => by
      simp only [List.forall_mem_cons] at hlt
      obtain ⟨h0, h1, h2, h3, h4, h5, h6, h7, -⟩ := hlt
      exact t0Pack_value h0 h1 h2 h3 h4 h5 h6 h7
  unpack_value {bs} h := match bs, h with
    | [a0, a1, a2, a3, a4, a5, a6, a7, a8, a9, a10, a11, a12], _ =>
      t0Unpack_value a0.toNat_lt a1.toNat_lt a2.toNat_lt a3.toNat_lt a4.toNat_lt a5.toNat_lt a6.toNat_lt a7.toNat_lt
        a8.toNat_lt a9.toNat_lt a10.toNat_lt a11.toNat_lt a12.toNat_lt

def zPacking : Packing 18 4 9 where
  pack := zPack
  unpack bs := zUnpack (byteValues bs)
  length_pack {xs} h := match xs, h with | [_, _, _, _], _ => rfl
  length_unpack {bs} h := match bs, h with | [_, _, _, _, _, _, _, _, _], _ => rfl
  unpack_lt {bs} h := match bs, h with
    | [_, _, _, _, _, _, _, _, _], _ => by simp [zUnpack, byteValues, and_3ffff, Nat.mod_lt]
  pack_value {xs} h hlt := match xs, h with
    | [_, _, _, _], _ => by
      simp only [List.forall_mem_cons] at hlt
      obtain ⟨h0, h1, h2, h3, -⟩ := hlt
      exact zPack_value h0 h1 h2 h3
  unpack_value {bs} h := match bs, h with
    | [a0, a1, a2, a3, a4, a5, a6, a7, a8], _ =>
      zUnpack_value a0.toNat_lt a1.toNat_lt a2.toNat_lt a3.toNat_lt a4.toNat_lt a5.toNat_lt a6.toNat_lt a7.toNat_lt
        a8.toNat_lt

/-! ## Polynomials -/

section
variable {w c m : Nat} (P : Packing w c m) (chunks : Nat)

/-- The loop over the chunks; `enc i x` is what is packed of `coeffs[i]`. -/
def packPoly (enc : Nat → Int → Eval Nat) (a : Poly) : Eval Bytes := do
  let t : Vector Nat 256 ← Vector.ofFnM fun i => enc i (a.get i)
  .ok (P.packAll chunks t.toList)

def unpackPoly (dec : Nat → Int) (bs : Bytes) : Poly :=
  let t := P.unpackAll chunks bs
  Vector.ofFn fun i => dec (t[i.1]?.getD 0)

/-- Coefficients that have a code of `w` bits. -/
def Coded (w : Nat) (dec : Nat → Int) (a : Poly) : Prop := ∀ i (h : i < 256), ∃ y < 2 ^ w, dec y = a[i]

variable {P chunks} {enc : Nat → Int → Eval Nat} {dec : Nat → Int} (hchunks : chunks * c = 256)
include hchunks

theorem unpackPoly_codes {bs : Bytes} (hlen : chunks * m ≤ bs.length) {i : Nat} (hi : i < 256) :
    ∃ y, (P.unpackAll chunks bs)[i]? = some y ∧ y < 2 ^ w ∧ dec y = (unpackPoly P chunks dec bs)[i] := by
  have hcount : (P.unpackAll chunks bs).length = 256 := by rw [P.length_unpackAll hlen, hchunks]
  have hget : (P.unpackAll chunks bs)[i]? = some (P.unpackAll chunks bs)[i] := List.getElem?_eq_getElem (by omega)
  refine ⟨_, hget, P.unpackAll_lt hlen _ (List.getElem_mem _), ?_⟩
  rw [unpackPoly, Vector.getElem_ofFn, hget, Option.getD_some]

theorem unpackPoly_coded {bs : Bytes} (hlen : chunks * m ≤ bs.length) : Coded w dec (unpackPoly P chunks dec bs) := by
  intro i hi
  obtain ⟨y, -, hy⟩ := unpackPoly_codes hchunks hlen hi
  exact ⟨y, hy⟩

variable (hcode : ∀ i y, y < 2 ^ w → enc i (dec y) = .ok y)
include hcode

/-- **A packed polynomial is unpacked.** -/
theorem packPoly_spec (hw : 0 < w) {a : Poly} (ha : Coded w dec a) :
    Returns (fun bs => bs.length = chunks * m ∧ unpackPoly P chunks dec bs = a) (packPoly P chunks enc a) := by
  refine (Returns.ofFnM (R := fun i y => y < 2 ^ w ∧ ∀ hi : i < 256, dec y = a[i]) fun i => ?_).bind fun t ht => ?_
  · obtain ⟨y, hlt, hy⟩ := ha i i.2
    exact ⟨y, by rw [get_fin, ← hy, hcode i y hlt], hlt, fun _ => hy⟩
  have hlen : t.toList.length = chunks * c := by rw [Vector.length_toList, hchunks]
  have hlt : ∀ y ∈ t.toList, y < 2 ^ w := by
    intro y hy
    obtain ⟨i, hi, rfl⟩ := Vector.mem_iff_getElem.mp (Vector.mem_toList_iff.mp hy)
    exact (ht i hi).1
  have hunpack := P.unpackAll_packAll hw hlen hlt []
  rw [List.append_nil] at hunpack
  refine Returns.ok ⟨P.length_packAll hlen, Vector.ext fun i hi => ?_⟩
  rw [unpackPoly, hunpack, Vector.getElem_ofFn, Vector.getElem?_toList, Vector.getElem?_eq_getElem hi]
  exact (ht i hi).2 hi

/-- **No other bytes unpack to it.** -/
theorem packPoly_unpackPoly {bs : Bytes} (hlen : bs.length = chunks * m) :
    packPoly P chunks enc (unpackPoly P chunks dec bs) = .ok bs := by
  have hcount : (P.unpackAll chunks bs).length = 256 := by rw [P.length_unpackAll (Nat.le_of_eq hlen.symm), hchunks]
  have hcodes : Returns (fun t : Vector Nat 256 => t.toList = P.unpackAll chunks bs)
      (Vector.ofFnM fun i : Fin 256 => enc i ((unpackPoly P chunks dec bs).get i)) := by
    refine (Returns.ofFnM (R := fun i y => (P.unpackAll chunks bs)[i]? = some y) fun i => ?_).mono fun t ht => ?_
    · obtain ⟨y, hget, hlt, hy⟩ : ∃ y, (P.unpackAll chunks bs)[i.1]? = some y ∧ y < 2 ^ w ∧ dec y = (unpackPoly P chunks dec bs)[i.1] :=
        unpackPoly_codes hchunks (Nat.le_of_eq hlen.symm) i.2
      exact ⟨y, by rw [get_fin, ← hy, hcode i y hlt], hget⟩
    · refine List.ext_getElem? fun i => ?_
      rw [Vector.getElem?_toList]
      rcases Nat.lt_or_ge i 256 with hi | hi
      · rw [Vector.getElem?_eq_getElem hi, ht i hi]
      · rw [Vector.getElem?_eq_none hi, List.getElem?_eq_none (by omega)]
  obtain ⟨t, ht, hlist⟩ := hcodes
  rw [packPoly, ht]
  exact congrArg Except.ok (by rw [hlist, P.packAll_unpackAll hlen])

end

/-- `(uint8_t)x`, `(uint32_t)x` -/
def toUnsigned (bits : Nat) (x : Int) : Nat := (x % 2 ^ bits).toNat

/-- `t[i] = top - a->coeffs[i];` -/
def below (bits : Nat) (top x : Int) : Eval Nat := do .ok (toUnsigned bits (← i32 (top - x)))

/-- A coefficient that is shifted left by `s`, which is undefined for a negative one. -/
def shifted (s : Nat) (x : Int) : Eval Nat :=
  if s = 0 ∨ 0 ≤ x ∧ InI32 (x * 2 ^ s) then .ok (toUnsigned 32 x) else .error .undefined

def polyw1Packedbytes : Nat := 192

def polyetaPack (a : Poly) : Eval Bytes := packPoly etaPacking 32 (fun _ => below 8 eta) a
def polyetaUnpack (bs : Bytes) : Poly := unpackPoly etaPacking 32 (fun y => eta - y) bs
def polyt1Pack (a : Poly) : Eval Bytes := packPoly t1Packing 64 (fun i => shifted (2 * (i % 4))) a
def polyt1Unpack (bs : Bytes) : Poly := unpackPoly t1Packing 64 (fun y => y) bs
def polyt0Pack (a : Poly) : Eval Bytes := packPoly t0Packing 32 (fun _ => below 32 (2 ^ (d - 1))) a
def polyt0Unpack (bs : Bytes) : Poly := unpackPoly t0Packing 32 (fun y => 2 ^ (d - 1) - y) bs
def polyzPack (a : Poly) : Eval Bytes := packPoly zPacking 64 (fun _ => below 32 gamma1) a
def polyzUnpack (bs : Bytes) : Poly := unpackPoly zPacking 64 (fun y => gamma1 - y) bs

def polyw1Pack (a : Poly) : Eval Bytes := do
  let t : Vector Nat 256 ← Vector.ofFnM fun i => shifted ((8 - 2 * (i.1 % 4)) % 8) (a.get i)
  .ok (ofBlocks 64 fun i => w1Pack (block 4 i t.toList))

/-! ### Codes -/

theorem below_code {bits w : Nat} (hw : w ≤ 31) (hbits : w ≤ bits) {top : Int} {y : Nat} (hy : y < 2 ^ w) :
    below bits top (top - y) = .ok y := by
  have hlt : y < 2 ^ 31 := Nat.lt_of_lt_of_le hy (Nat.pow_le_pow_right (by decide) hw)
  have hlow : y < 2 ^ bits := Nat.lt_of_lt_of_le hy (Nat.pow_le_pow_right (by decide) hbits)
  have hdiff : top - (top - y) = (y : Int) := by omega
  rw [below, hdiff, i32_ok (by unfold InI32; omega)]
  show Except.ok (toUnsigned bits y) = _
  rw [toUnsigned, Int.emod_eq_of_lt (by omega) (by exact_mod_cast hlow), Int.toNat_natCast]

theorem coded_below {w : Nat} {top lo hi : Int} (hlo : lo = top + 1 - 2 ^ w) (hhi : hi = top + 1) {a : Poly} :
    Coded w (fun y => top - y) a ↔ Between lo hi a := by
  have hpow : ((2 ^ w : Nat) : Int) = 2 ^ w := by push_cast; rfl
  constructor
  · intro h i hi
    obtain ⟨y, hy, hcoeff⟩ := h i hi
    dsimp only at hcoeff
    omega
  · intro h i hi
    have := h i hi
    refine ⟨(top - a[i]).toNat, ?_, ?_⟩
    · omega
    · dsimp only
      omega

theorem shifted_code {s w : Nat} (hw : w + s ≤ 31) {y : Nat} (hy : y < 2 ^ w) : shifted s (y : Int) = .ok y := by
  have hprod : y * 2 ^ s < 2 ^ 31 := calc
    y * 2 ^ s < 2 ^ w * 2 ^ s := Nat.mul_lt_mul_of_pos_right hy (Nat.two_pow_pos s)
    _ = 2 ^ (w + s) := (Nat.pow_add 2 w s).symm
    _ ≤ 2 ^ 31 := Nat.pow_le_pow_right (by decide) hw
  have hlt : y < 2 ^ 31 := Nat.lt_of_lt_of_le hy (Nat.pow_le_pow_right (by decide) (by omega))
  have hcast : (y : Int) * 2 ^ s = ((y * 2 ^ s : Nat) : Int) := by push_cast; rfl
  have hdefined : InI32 ((y : Int) * 2 ^ s) := by rw [hcast]; unfold InI32; omega
  rw [shifted, if_pos (Or.inr ⟨Int.natCast_nonneg y, hdefined⟩), toUnsigned,
    Int.emod_eq_of_lt (by omega) (by omega), Int.toNat_natCast]

theorem coded_nat {w : Nat} {hi : Int} (hhi : hi = 2 ^ w) {a : Poly} : Coded w (fun y => y) a ↔ Between 0 hi a := by
  have hpow : ((2 ^ w : Nat) : Int) = 2 ^ w := by push_cast; rfl
  constructor
  · intro h i hi
    obtain ⟨y, hy, hcoeff⟩ := h i hi
    dsimp only at hcoeff
    omega
  · intro h i hi
    have := h i hi
    refine ⟨a[i].toNat, ?_, ?_⟩
    · omega
    · dsimp only
      omega

/-! ### The formats -/

theorem polyetaPack_spec {a : Poly} (ha : Between (-5) 3 a) :
    Returns (fun bs => bs.length = polyetaPackedbytes ∧ polyetaUnpack bs = a) (polyetaPack a) :=
  packPoly_spec (P := etaPacking) rfl (fun _ _ => below_code (by decide) (by decide)) (by decide)
    ((coded_below (by decide) (by decide)).mpr ha)

theorem polyt1Pack_spec {a : Poly} (ha : Between 0 1024 a) :
    Returns (fun bs => bs.length = polyt1Packedbytes ∧ polyt1Unpack bs = a) (polyt1Pack a) :=
  packPoly_spec (P := t1Packing) rfl (fun _ _ => shifted_code (by omega)) (by decide) ((coded_nat (by decide)).mpr ha)

theorem polyt0Pack_spec {a : Poly} (ha : Between (-4095) 4097 a) :
    Returns (fun bs => bs.length = polyt0Packedbytes ∧ polyt0Unpack bs = a) (polyt0Pack a) :=
  packPoly_spec (P := t0Packing) rfl (fun _ _ => below_code (by decide) (by decide)) (by decide)
    ((coded_below (by decide) (by decide)).mpr ha)

theorem polyzPack_spec {a : Poly} (ha : Between (-131071) 131073 a) :
    Returns (fun bs => bs.length = polyzPackedbytes ∧ polyzUnpack bs = a) (polyzPack a) :=
  packPoly_spec (P := zPacking) rfl (fun _ _ => below_code (by decide) (by decide)) (by decide)
    ((coded_below (by decide) (by decide)).mpr ha)

theorem polyetaUnpack_range {bs : Bytes} (h : polyetaPackedbytes ≤ bs.length) : Between (-5) 3 (polyetaUnpack bs) :=
  (coded_below (by decide) (by decide)).mp (unpackPoly_coded (P := etaPacking) rfl h)

theorem polyt1Unpack_range {bs : Bytes} (h : polyt1Packedbytes ≤ bs.length) : Between 0 1024 (polyt1Unpack bs) :=
  (coded_nat (by decide)).mp (unpackPoly_coded (P := t1Packing) rfl h)

theorem polyt0Unpack_range {bs : Bytes} (h : polyt0Packedbytes ≤ bs.length) : Between (-4095) 4097 (polyt0Unpack bs) :=
  (coded_below (by decide) (by decide)).mp (unpackPoly_coded (P := t0Packing) rfl h)

theorem polyzUnpack_range {bs : Bytes} (h : polyzPackedbytes ≤ bs.length) : Between (-131071) 131073 (polyzUnpack bs) :=
  (coded_below (by decide) (by decide)).mp (unpackPoly_coded (P := zPacking) rfl h)

theorem polyetaPack_unpack {bs : Bytes} (h : bs.length = polyetaPackedbytes) : polyetaPack (polyetaUnpack bs) = .ok bs :=
  packPoly_unpackPoly (P := etaPacking) rfl (fun _ _ => below_code (by decide) (by decide)) h

theorem polyt1Pack_unpack {bs : Bytes} (h : bs.length = polyt1Packedbytes) : polyt1Pack (polyt1Unpack bs) = .ok bs :=
  packPoly_unpackPoly (P := t1Packing) rfl (fun _ _ => shifted_code (by omega)) h

theorem polyt0Pack_unpack {bs : Bytes} (h : bs.length = polyt0Packedbytes) : polyt0Pack (polyt0Unpack bs) = .ok bs :=
  packPoly_unpackPoly (P := t0Packing) rfl (fun _ _ => below_code (by decide) (by decide)) h

theorem polyzPack_unpack {bs : Bytes} (h : bs.length = polyzPackedbytes) : polyzPack (polyzUnpack bs) = .ok bs :=
  packPoly_unpackPoly (P := zPacking) rfl (fun _ _ => below_code (by decide) (by decide)) h

theorem polyw1Pack_spec {a : Poly} (ha : Between 0 44 a) : Returns (fun bs => bs.length = polyw1Packedbytes) (polyw1Pack a) := by
  refine (Returns.ofFnM (R := fun _ _ => True) fun i => ?_).bind fun t _ => Returns.ok ?_
  · obtain ⟨y, hy, hcoeff⟩ := (coded_nat (w := 6) rfl).mpr (fun i hi => ⟨(ha i hi).1, by have := ha i hi; omega⟩) i i.2
    exact ⟨y, by rw [get_fin, ← hcoeff, shifted_code (w := 6) (by omega) hy], trivial⟩
  · refine length_ofBlocks (k := 64) (n := 3) fun i hi => ?_
    have hlen : (block 4 i t.toList).length = 4 := length_block hi (by rw [Vector.length_toList])
    revert hlen
    generalize block 4 i t.toList = ts
    intro hlen
    match ts, hlen with
    | [_, _, _, _], _ => rfl

end BitcoinPqc.Dilithium
