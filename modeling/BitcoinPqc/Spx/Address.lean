import BitcoinPqc.Params
import Mathlib.Algebra.Ring.Nat

/-!
# Hash addresses

A hash address is an `uint32_t addr[8]` written byte by byte at the offsets of shake_offsets.h. The
fields overlap: the chain number shares its byte with the height of a tree node, and the position
in a chain is the last byte of a node's index. Addresses are reused from one hash call to the next
and keep what was written before, so `AgreeOn` says on which bytes two of them agree.

| here | there |
| --- | --- |
| `ullToBytes`, `u32ToBytes`, `bytesToUll` | sphincsplus/ref/utils.c:13-45 |
| `setLayerAddr`, …, `setTreeIndex` | sphincsplus/ref/address.c |
| `offset…` | sphincsplus/ref/shake_offsets.h |
| `addrType…` | sphincsplus/ref/address.h:8-14 |
-/
namespace BitcoinPqc.Spx

def addrBytes : Nat := 32

abbrev Addr := Vector UInt8 addrBytes

/-- utils.c:13 -/
def ullToBytes : Nat → Nat → Bytes
  | 0, _ => []
  | outlen + 1, x => ullToBytes outlen (x >>> 8) ++ [UInt8.ofNat (x &&& 0xff)]

/-- utils.c:25 -/
def u32ToBytes (x : Nat) : Bytes :=
  [UInt8.ofNat (x >>> 24), UInt8.ofNat (x >>> 16), UInt8.ofNat (x >>> 8), UInt8.ofNat x]

/-- utils.c:36 -/
def bytesToUll : Bytes → Nat
  | [] => 0
  | b :: bs => (b.toNat <<< (8 * bs.length)) ||| bytesToUll bs

def offsetLayer : Nat := 3
def offsetTree : Nat := 8
def offsetType : Nat := 19
def offsetKpAddr : Nat := 20
def offsetChainAddr : Nat := 27
def offsetHashAddr : Nat := 31
def offsetTreeHgt : Nat := 27
def offsetTreeIndex : Nat := 28

def addrTypeWots : Nat := 0
def addrTypeWotspk : Nat := 1
def addrTypeHashtree : Nat := 2
def addrTypeForstree : Nat := 3
def addrTypeForspk : Nat := 4
def addrTypeWotsprf : Nat := 5
def addrTypeForsprf : Nat := 6

namespace Addr

/-- `uint32_t addr[8] = {0}` -/
def zero : Addr := Vector.replicate addrBytes 0

/-- `memcpy((unsigned char *)addr + off, bs, bs.length)` -/
def write (a : Addr) (off : Nat) (bs : Bytes) : Addr :=
  Vector.ofFn fun i => if off ≤ i.1 then bs[i.1 - off]?.getD a[i] else a[i]

end Addr

/-! ## address.c -/

def setLayerAddr (addr : Addr) (layer : Nat) : Addr := addr.write offsetLayer [UInt8.ofNat layer]

def setTreeAddr (addr : Addr) (tree : Nat) : Addr := addr.write offsetTree (ullToBytes 8 tree)

def setType (addr : Addr) (type : Nat) : Addr := addr.write offsetType [UInt8.ofNat type]

def copySubtreeAddr (out inp : Addr) : Addr := out.write 0 (inp.toList.take (offsetTree + 8))

def setKeypairAddr (addr : Addr) (keypair : Nat) : Addr := addr.write offsetKpAddr (u32ToBytes keypair)

def copyKeypairAddr (out inp : Addr) : Addr :=
  (out.write 0 (inp.toList.take (offsetTree + 8))).write offsetKpAddr ((inp.toList.drop offsetKpAddr).take 4)

def setChainAddr (addr : Addr) (chain : Nat) : Addr := addr.write offsetChainAddr [UInt8.ofNat chain]

def setHashAddr (addr : Addr) (hash : Nat) : Addr := addr.write offsetHashAddr [UInt8.ofNat hash]

def setTreeHeight (addr : Addr) (treeHeight : Nat) : Addr := addr.write offsetTreeHgt [UInt8.ofNat treeHeight]

def setTreeIndex (addr : Addr) (treeIndex : Nat) : Addr := addr.write offsetTreeIndex (u32ToBytes treeIndex)

/-! ## Integers as bytes -/

@[simp] theorem length_ullToBytes (n x : Nat) : (ullToBytes n x).length = n := by
  induction n generalizing x with
  | zero => rfl
  | succ n ih => simp [ullToBytes, ih]

@[simp] theorem length_u32ToBytes (x : Nat) : (u32ToBytes x).length = 4 := rfl

theorem bytesToUll_lt (bs : Bytes) : bytesToUll bs < 2 ^ (8 * bs.length) := by
  induction bs with
  | nil => simp [bytesToUll]
  | cons b bs ih =>
    have hb : b.toNat < 2 ^ 8 := b.toNat_lt
    rw [bytesToUll, List.length_cons]
    refine Nat.or_lt_two_pow ?_ (Nat.lt_of_lt_of_le ih (Nat.pow_le_pow_right (by decide) (by omega)))
    rw [Nat.shiftLeft_eq, show 8 * (bs.length + 1) = 8 + 8 * bs.length by omega, Nat.pow_add]
    exact Nat.mul_lt_mul_of_pos_right hb (Nat.two_pow_pos _)

/-- The bytes are disjoint, so `|=` adds them up. -/
theorem bytesToUll_cons (b : UInt8) (bs : Bytes) :
    bytesToUll (b :: bs) = b.toNat * 2 ^ (8 * bs.length) + bytesToUll bs := by
  rw [bytesToUll, ← Nat.shiftLeft_add_eq_or_of_lt (bytesToUll_lt bs), Nat.shiftLeft_eq]

theorem bytesToUll_append (bs cs : Bytes) : bytesToUll (bs ++ cs) = bytesToUll bs * 2 ^ (8 * cs.length) + bytesToUll cs := by
  induction bs with
  | nil => simp [bytesToUll]
  | cons b bs ih =>
    rw [List.cons_append, bytesToUll_cons, ih, bytesToUll_cons, List.length_append, Nat.mul_add, Nat.pow_add,
      Nat.add_mul, Nat.mul_assoc, Nat.add_assoc]

theorem toNat_ofNat_mod (x : Nat) : (UInt8.ofNat x).toNat = x % 2 ^ 8 := by simp

/-- Big-endian bytes read back. -/
theorem bytesToUll_ullToBytes (n x : Nat) : bytesToUll (ullToBytes n x) = x % 2 ^ (8 * n) := by
  induction n generalizing x with
  | zero => simp [ullToBytes, bytesToUll, Nat.mod_one]
  | succ n ih =>
    have hlow : bytesToUll [UInt8.ofNat (x &&& 0xff)] = x % 2 ^ 8 := by
      rw [bytesToUll_cons, toNat_ofNat_mod, show (0xff : Nat) = 2 ^ 8 - 1 by rfl, Nat.and_two_pow_sub_one_eq_mod]
      simp [bytesToUll]
    rw [ullToBytes, bytesToUll_append, ih, hlow, Nat.shiftRight_eq_div_pow, show 8 * (n + 1) = 8 + 8 * n by omega,
      Nat.pow_add, Nat.mod_mul, List.length_singleton, Nat.mul_one]
    rw [Nat.mul_comm, Nat.add_comm]

theorem u32ToBytes_eq (x : Nat) : u32ToBytes x = ullToBytes 4 x := by
  have hbyte : ∀ y, UInt8.ofNat (y &&& 0xff) = UInt8.ofNat y := by
    intro y
    apply UInt8.toNat_inj.mp
    rw [toNat_ofNat_mod, toNat_ofNat_mod, show (0xff : Nat) = 2 ^ 8 - 1 by rfl, Nat.and_two_pow_sub_one_eq_mod]
    exact Nat.mod_mod _ _
  simp only [u32ToBytes, ullToBytes, hbyte, ← Nat.shiftRight_add, List.nil_append, List.cons_append]

/-! ## Addresses byte by byte -/

namespace Addr

theorem getElem_write (a : Addr) (off : Nat) (bs : Bytes) {j : Nat} (hj : j < addrBytes) :
    (a.write off bs)[j] = if off ≤ j ∧ j < off + bs.length then bs[j - off]?.getD 0 else a[j] := by
  have hcell : (a.write off bs)[j] = if off ≤ j then bs[j - off]?.getD a[j] else a[j] := by
    simp only [write, Vector.getElem_ofFn]
    rfl
  rw [hcell]
  split
  · split
    · rw [List.getElem?_eq_getElem (by omega)]
      rfl
    · rw [List.getElem?_eq_none (by omega)]
      rfl
  · rw [if_neg (by omega)]

theorem getElem_write_one (a : Addr) (off : Nat) (x : UInt8) {j : Nat} (hj : j < addrBytes) :
    (a.write off [x])[j] = if j = off then x else a[j] := by
  rw [getElem_write _ _ _ hj, List.length_singleton]
  by_cases h : j = off
  · subst h
    simp
  · rw [if_neg (by omega), if_neg h]

/-- The bytes copied from another address. -/
theorem getElem_write_slice (a b : Addr) (off m : Nat) {j : Nat} (hj : j < addrBytes) :
    (a.write off ((b.toList.drop off).take m))[j] = if off ≤ j ∧ j < off + m then b[j] else a[j] := by
  rw [getElem_write _ _ _ hj]
  have hlen : ((b.toList.drop off).take m).length = min m (addrBytes - off) := by simp
  rw [hlen]
  split
  · rename_i h
    rw [if_pos (by omega), List.getElem?_eq_getElem (by omega), Option.getD_some]
    simp only [List.getElem_take, List.getElem_drop, Vector.getElem_toList, show off + (j - off) = j by omega]
  · rw [if_neg (by omega)]

@[simp, grind =] theorem getElem_zero {j : Nat} (hj : j < addrBytes) : Addr.zero[j] = 0 := by simp [zero]

end Addr

section
variable (a b : Addr) (x : Nat) {j : Nat} (hj : j < addrBytes)

@[simp, grind =] theorem getElem_setLayerAddr : (setLayerAddr a x)[j] = if j = 3 then UInt8.ofNat x else a[j] :=
  Addr.getElem_write_one _ _ _ hj

@[simp, grind =] theorem getElem_setType : (setType a x)[j] = if j = 19 then UInt8.ofNat x else a[j] :=
  Addr.getElem_write_one _ _ _ hj

@[simp, grind =] theorem getElem_setChainAddr : (setChainAddr a x)[j] = if j = 27 then UInt8.ofNat x else a[j] :=
  Addr.getElem_write_one _ _ _ hj

@[simp, grind =] theorem getElem_setHashAddr : (setHashAddr a x)[j] = if j = 31 then UInt8.ofNat x else a[j] :=
  Addr.getElem_write_one _ _ _ hj

@[simp, grind =] theorem getElem_setTreeHeight : (setTreeHeight a x)[j] = if j = 27 then UInt8.ofNat x else a[j] :=
  Addr.getElem_write_one _ _ _ hj

@[simp, grind =] theorem getElem_setTreeAddr :
    (setTreeAddr a x)[j] = if 8 ≤ j ∧ j < 16 then (ullToBytes 8 x)[j - 8]?.getD 0 else a[j] := by
  rw [setTreeAddr, Addr.getElem_write _ _ _ hj, length_ullToBytes]
  rfl

@[simp, grind =] theorem getElem_setKeypairAddr :
    (setKeypairAddr a x)[j] = if 20 ≤ j ∧ j < 24 then (u32ToBytes x)[j - 20]?.getD 0 else a[j] :=
  Addr.getElem_write _ _ _ hj

@[simp, grind =] theorem getElem_setTreeIndex :
    (setTreeIndex a x)[j] = if 28 ≤ j ∧ j < 32 then (u32ToBytes x)[j - 28]?.getD 0 else a[j] :=
  Addr.getElem_write _ _ _ hj

@[simp, grind =] theorem getElem_copySubtreeAddr : (copySubtreeAddr a b)[j] = if j < 16 then b[j] else a[j] := by
  have h := Addr.getElem_write_slice a b 0 (offsetTree + 8) hj
  simpa [copySubtreeAddr, offsetTree] using h

@[simp, grind =] theorem getElem_copyKeypairAddr :
    (copyKeypairAddr a b)[j] = if j < 16 ∨ 20 ≤ j ∧ j < 24 then b[j] else a[j] := by
  have h := Addr.getElem_write_slice (copySubtreeAddr a b) b offsetKpAddr 4 hj
  rw [getElem_copySubtreeAddr] at h
  rw [copyKeypairAddr, ← copySubtreeAddr, h, offsetKpAddr]
  grind

end

/-- A fresh address has the type of a one-time key. -/
@[simp, grind =] theorem ofNat_addrTypeWots : UInt8.ofNat addrTypeWots = 0 := rfl

/-! ## Addresses that agree -/

namespace Addr

def AgreeOn (P : Nat → Prop) (a b : Addr) : Prop := ∀ j (h : j < addrBytes), P j → a[j] = b[j]

variable {P P' : Nat → Prop} {a b c : Addr}

theorem AgreeOn.refl (P : Nat → Prop) (a : Addr) : AgreeOn P a a := fun _ _ _ => rfl

theorem AgreeOn.trans (h : AgreeOn P a b) (h' : AgreeOn P b c) : AgreeOn P a c :=
  fun j hj hP => (h j hj hP).trans (h' j hj hP)

end Addr

end BitcoinPqc.Spx
