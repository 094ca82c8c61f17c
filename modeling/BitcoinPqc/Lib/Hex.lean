import Mathlib.Tactic.Common

/-!
# Hexadecimal text

Two digits for each byte, lower case when written, either case when read. `Codec` is what a
program may assume of such a text form; `Codec.lower` is the usual one.
-/
namespace Hex

def digit (n : Nat) : Char := Char.ofNat (if n < 10 then 48 + n else 87 + n)

def digitVal (c : Char) : Option Nat :=
  if '0' ≤ c ∧ c ≤ '9' then some (c.toNat - 48)
  else if 'a' ≤ c ∧ c ≤ 'f' then some (c.toNat - 87)
  else if 'A' ≤ c ∧ c ≤ 'F' then some (c.toNat - 55)
  else none

theorem digitVal_digit : ∀ n < 16, digitVal (digit n) = some n := by decide

def encodeChars (bs : List UInt8) : List Char :=
  bs.flatMap fun b => [digit (b.toNat / 16), digit (b.toNat % 16)]

/-- `none` for an odd number of digits, or a character that is none. -/
def decodeChars : List Char → Option (List UInt8)
  | [] => some []
  | [_] => none
  | hi :: lo :: cs => do
    let h ← digitVal hi
    let l ← digitVal lo
    let bs ← decodeChars cs
    some (UInt8.ofNat (16 * h + l) :: bs)

theorem decodeChars_encodeChars (bs : List UInt8) : decodeChars (encodeChars bs) = some bs := by
  induction bs with
  | nil => rfl
  | cons b bs ih =>
    have hb : b.toNat < 256 := UInt8.toNat_lt_size b
    have hhi : digitVal (digit (b.toNat / 16)) = some (b.toNat / 16) := digitVal_digit _ (by omega)
    have hlo : digitVal (digit (b.toNat % 16)) = some (b.toNat % 16) := digitVal_digit _ (by omega)
    have hbyte : 16 * (b.toNat / 16) + b.toNat % 16 = b.toNat := by omega
    have hrest : decodeChars (bs.flatMap fun b => [digit (b.toNat / 16), digit (b.toNat % 16)]) = some bs := ih
    simp only [encodeChars, List.flatMap_cons, List.cons_append, List.nil_append, decodeChars, hhi, hlo, hrest,
      Option.bind_eq_bind, Option.bind_some, hbyte, UInt8.ofNat_toNat]

structure Codec where
  Error : Type
  encode : List UInt8 → String
  decode : String → Except Error (List UInt8)
  /-- The text of an error. -/
  message : Error → String

def Codec.Inverse (C : Codec) : Prop := ∀ bs, C.decode (C.encode bs) = .ok bs

def Codec.lower : Codec where
  Error := Unit
  encode bs := String.ofList (encodeChars bs)
  decode s := match decodeChars s.toList with
    | none => .error ()
    | some bs => .ok bs
  message _ := "odd number of digits, or a character that is none"

theorem Codec.lower_inverse : Codec.lower.Inverse := by
  intro bs
  simp only [Codec.lower, String.toList_ofList, decodeChars_encodeChars]

end Hex
