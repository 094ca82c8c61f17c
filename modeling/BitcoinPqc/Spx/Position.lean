import BitcoinPqc.Spx.Treehash

/-!
# Positions in the hypertree

Every hash call is made at the address of a position. `Position.addr` is one to one as long as the
coordinates fit their fields (`addr_eq_iff`): no two positions share a tweak, although the
fields of an address overlap and the types share its bytes.
-/
namespace BitcoinPqc.Spx
open CSem Addr

/-- `layer` and `tree` name a tree of one-time keys, `keypair` a leaf of it; the few-time key below
a leaf of layer 0 has the coordinates of that leaf. -/
inductive Position where
  | wots (layer tree keypair chain hash : Nat)
  | wotsPk (layer tree keypair : Nat)
  | hashTree (layer tree height index : Nat)
  | forsTree (tree keypair height index : Nat)
  | forsPk (tree keypair : Nat)
  | wotsPrf (layer tree keypair chain : Nat)
  | forsPrf (tree keypair index : Nat)
  deriving DecidableEq

def subtreeAddr (layer tree : Nat) : Addr := setTreeAddr (setLayerAddr .zero layer) tree

def keypairAddr (type layer tree keypair : Nat) : Addr := setKeypairAddr (setType (subtreeAddr layer tree) type) keypair

def hashTreeAddr (layer tree : Nat) : Addr := setType (subtreeAddr layer tree) addrTypeHashtree

namespace Position

def addr : Position → Addr
  | wots layer tree keypair chain hash =>
    setHashAddr (setChainAddr (keypairAddr addrTypeWots layer tree keypair) chain) hash
  | wotsPk layer tree keypair => keypairAddr addrTypeWotspk layer tree keypair
  | hashTree layer tree height index => nodeAddr (hashTreeAddr layer tree) height index
  | forsTree tree keypair height index => nodeAddr (keypairAddr addrTypeForstree 0 tree keypair) height index
  | forsPk tree keypair => keypairAddr addrTypeForspk 0 tree keypair
  | wotsPrf layer tree keypair chain =>
    setHashAddr (setChainAddr (keypairAddr addrTypeWotsprf layer tree keypair) chain) 0
  | forsPrf tree keypair index => nodeAddr (keypairAddr addrTypeForsprf 0 tree keypair) 0 index

/-- Every coordinate fits its field. -/
def Fits : Position → Prop
  | wots layer tree keypair chain hash =>
    layer < 2 ^ 8 ∧ tree < 2 ^ 64 ∧ keypair < 2 ^ 32 ∧ chain < 2 ^ 8 ∧ hash < 2 ^ 8
  | wotsPk layer tree keypair => layer < 2 ^ 8 ∧ tree < 2 ^ 64 ∧ keypair < 2 ^ 32
  | hashTree layer tree height index => layer < 2 ^ 8 ∧ tree < 2 ^ 64 ∧ height < 2 ^ 8 ∧ index < 2 ^ 32
  | forsTree tree keypair height index => tree < 2 ^ 64 ∧ keypair < 2 ^ 32 ∧ height < 2 ^ 8 ∧ index < 2 ^ 32
  | forsPk tree keypair => tree < 2 ^ 64 ∧ keypair < 2 ^ 32
  | wotsPrf layer tree keypair chain => layer < 2 ^ 8 ∧ tree < 2 ^ 64 ∧ keypair < 2 ^ 32 ∧ chain < 2 ^ 8
  | forsPrf tree keypair index => tree < 2 ^ 64 ∧ keypair < 2 ^ 32 ∧ index < 2 ^ 32

end Position

/-! ## Reading an address -/

namespace Addr

def layer (a : Addr) : Nat := a[3].toNat
def tree (a : Addr) : Nat := bytesToUll [a[8], a[9], a[10], a[11], a[12], a[13], a[14], a[15]]
def type (a : Addr) : Nat := a[19].toNat
def keypair (a : Addr) : Nat := bytesToUll [a[20], a[21], a[22], a[23]]
/-- The chain number, or the height of a tree node. -/
def chain (a : Addr) : Nat := a[27].toNat
def hash (a : Addr) : Nat := a[31].toNat
def index (a : Addr) : Nat := bytesToUll [a[28], a[29], a[30], a[31]]

end Addr

theorem tree_bytes {x : Nat} (h : x < 2 ^ 64) (l : Bytes) (hl : l = ullToBytes 8 x) (h8 : l.length = 8) :
    bytesToUll [l[0], l[1], l[2], l[3], l[4], l[5], l[6], l[7]] = x := by
  have hlist : ∀ l : Bytes, (hl : l.length = 8) → [l[0], l[1], l[2], l[3], l[4], l[5], l[6], l[7]] = l
    | [_, _, _, _, _, _, _, _], _ => rfl
  rw [hlist l h8, hl, bytesToUll_ullToBytes, Nat.mod_eq_of_lt h]

theorem u32_bytes {x : Nat} (h : x < 2 ^ 32) :
    bytesToUll [(u32ToBytes x)[0]?.getD 0, (u32ToBytes x)[1]?.getD 0, (u32ToBytes x)[2]?.getD 0,
      (u32ToBytes x)[3]?.getD 0] = x := by
  rw [show [(u32ToBytes x)[0]?.getD 0, (u32ToBytes x)[1]?.getD 0, (u32ToBytes x)[2]?.getD 0,
    (u32ToBytes x)[3]?.getD 0] = u32ToBytes x from rfl, u32ToBytes_eq, bytesToUll_ullToBytes, Nat.mod_eq_of_lt h]

namespace Position

/-- The position an address names. -/
def ofAddr (a : Addr) : Position :=
  if a.type = addrTypeWots then wots a.layer a.tree a.keypair a.chain a.hash
  else if a.type = addrTypeWotspk then wotsPk a.layer a.tree a.keypair
  else if a.type = addrTypeHashtree then hashTree a.layer a.tree a.chain a.index
  else if a.type = addrTypeForstree then forsTree a.tree a.keypair a.chain a.index
  else if a.type = addrTypeForspk then forsPk a.tree a.keypair
  else if a.type = addrTypeWotsprf then wotsPrf a.layer a.tree a.keypair a.chain
  else forsPrf a.tree a.keypair a.index

theorem ofAddr_addr {p : Position} (hp : p.Fits) : ofAddr p.addr = p := by
  cases p with
  | wots layer tree keypair chain hash =>
    obtain ⟨hl, ht, hk, hc, hh⟩ := hp
    simpa [addr, ofAddr, Addr.type, Addr.layer, Addr.tree, Addr.keypair, Addr.chain, Addr.hash, keypairAddr, subtreeAddr,
      addrTypeWots] using ⟨hl, tree_bytes ht _ rfl (length_ullToBytes 8 tree), u32_bytes hk, hc, hh⟩
  | wotsPk layer tree keypair =>
    obtain ⟨hl, ht, hk⟩ := hp
    simpa [addr, ofAddr, Addr.type, Addr.layer, Addr.tree, Addr.keypair, keypairAddr, subtreeAddr, addrTypeWots,
      addrTypeWotspk] using ⟨hl, tree_bytes ht _ rfl (length_ullToBytes 8 tree), u32_bytes hk⟩
  | hashTree layer tree height index =>
    obtain ⟨hl, ht, hh, hi⟩ := hp
    simpa [addr, ofAddr, Addr.type, Addr.layer, Addr.tree, Addr.chain, Addr.index, hashTreeAddr, nodeAddr, subtreeAddr,
      addrTypeWots, addrTypeWotspk, addrTypeHashtree] using
      ⟨hl, tree_bytes ht _ rfl (length_ullToBytes 8 tree), hh, u32_bytes hi⟩
  | forsTree tree keypair height index =>
    obtain ⟨ht, hk, hh, hi⟩ := hp
    simpa [addr, ofAddr, Addr.type, Addr.tree, Addr.keypair, Addr.chain, Addr.index, keypairAddr, nodeAddr, subtreeAddr,
      addrTypeWots, addrTypeWotspk, addrTypeHashtree, addrTypeForstree] using
      ⟨tree_bytes ht _ rfl (length_ullToBytes 8 tree), u32_bytes hk, hh, u32_bytes hi⟩
  | forsPk tree keypair =>
    obtain ⟨ht, hk⟩ := hp
    simpa [addr, ofAddr, Addr.type, Addr.tree, Addr.keypair, keypairAddr, subtreeAddr, addrTypeWots, addrTypeWotspk,
      addrTypeHashtree, addrTypeForstree, addrTypeForspk] using
      ⟨tree_bytes ht _ rfl (length_ullToBytes 8 tree), u32_bytes hk⟩
  | wotsPrf layer tree keypair chain =>
    obtain ⟨hl, ht, hk, hc⟩ := hp
    simpa [addr, ofAddr, Addr.type, Addr.layer, Addr.tree, Addr.keypair, Addr.chain, keypairAddr, subtreeAddr,
      addrTypeWots, addrTypeWotspk, addrTypeHashtree, addrTypeForstree, addrTypeForspk, addrTypeWotsprf] using
      ⟨hl, tree_bytes ht _ rfl (length_ullToBytes 8 tree), u32_bytes hk, hc⟩
  | forsPrf tree keypair index =>
    obtain ⟨ht, hk, hi⟩ := hp
    simpa [addr, ofAddr, Addr.type, Addr.tree, Addr.keypair, Addr.index, keypairAddr, nodeAddr, subtreeAddr,
      addrTypeWots, addrTypeWotspk, addrTypeHashtree, addrTypeForstree, addrTypeForspk, addrTypeWotsprf,
      addrTypeForsprf] using ⟨tree_bytes ht _ rfl (length_ullToBytes 8 tree), u32_bytes hk, u32_bytes hi⟩

/-- **Domain separation**: two positions have one address only if they are the same. -/
theorem addr_eq_iff {p q : Position} (hp : p.Fits) (hq : q.Fits) : p.addr = q.addr ↔ p = q := by
  constructor
  · intro h
    rw [← ofAddr_addr hp, h, ofAddr_addr hq]
  · rintro rfl
    rfl

/-- A secret and the first step of its chain differ in the type alone. -/
theorem addr_eq_iff_wots : (wots 0 1 2 3 0).addr = (wotsPrf 0 1 2 3).addr ↔ wots 0 1 2 3 0 = wotsPrf 0 1 2 3 :=
  addr_eq_iff (by simp [Fits]) (by simp [Fits])

end Position

end BitcoinPqc.Spx
