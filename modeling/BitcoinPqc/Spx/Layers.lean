import BitcoinPqc.Spx.Wots

/-!
# Layers of the hypertree

`merkleSign` signs with one key of a tree and computes the tree's root (`merkleSign_spec`); whoever
has the signature and the message gets the same root (`layerRecovered_signed`).
-/
namespace BitcoinPqc.Spx
open CSem Merkle Winternitz Addr

variable (H : Hash) (ctx : Ctx) (layer tree : Nat)

/-! ## What a signature of one layer leads to -/

theorem length_wotsSigned (keypair : Nat) (msg : Bytes) : (wotsSigned H ctx layer tree keypair msg).length = wotsBytes :=
  length_ofBlocks fun c _ => length_walk H ctx layer tree keypair (c := c) (length_prfAt ..) _ 0

/-- The chains of a signature end where those of the key do. -/
theorem wotsRecovered_signed (keypair : Nat) (msg rest : Bytes) :
    wotsRecovered H ctx layer tree keypair msg (wotsSigned H ctx layer tree keypair msg ++ rest) =
      wotsLeaf H ctx layer tree keypair := by
  unfold wotsRecovered wotsLeaf wotsPkOf
  congr 1
  refine ofBlocks_congr fun c hc => ?_
  have hsecret : (wotsSecret H ctx layer tree keypair c).length = n := length_prfAt ..
  have hvalue : ∀ e < wotsLen, (walk (wotsStep H ctx layer tree keypair e) 0 (chainLength msg e)
      (wotsSecret H ctx layer tree keypair e)).length = n :=
    fun e _ => length_walk H ctx layer tree keypair (c := e) (length_prfAt ..) _ 0
  rw [block_append_left hc (length_wotsSigned H ctx layer tree keypair msg), wotsSigned, block_ofBlocks hvalue hc]
  calc walk (wotsStep H ctx layer tree keypair c) (chainLength msg c) (wotsW - 1 - chainLength msg c)
        (walk (wotsStep H ctx layer tree keypair c) 0 (chainLength msg c) (wotsSecret H ctx layer tree keypair c))
      = walk (wotsStep H ctx layer tree keypair c) 0 (chainLength msg c + (wotsW - 1 - chainLength msg c))
          (wotsSecret H ctx layer tree keypair c) := by rw [walk_add, Nat.zero_add]
    _ = _ := by rw [Nat.add_sub_cancel' (chainLength_le msg c)]

theorem length_subtreeNode {h i : Nat} : (subtreeNode H ctx layer tree h i).length = n := by
  cases h with
  | zero => exact length_thashAt ..
  | succ h => exact H.length_thash ..

theorem length_layerSigned (leaf : Nat) (msg : Bytes) : (layerSigned H ctx layer tree leaf msg).length = layerBytes := by
  have hpath : ∀ h < treeHeight, (siblings (subtreeJoin H ctx layer tree) (wotsLeaf H ctx layer tree) leaf h).length = n :=
    fun h _ => length_subtreeNode ..
  rw [layerSigned, List.length_append, length_wotsSigned, layerBytes, length_ofBlocks hpath]

/-- **A signed layer leads to the root of its tree.** -/
theorem layerRecovered_signed {leaf : Nat} (hleaf : leaf < 2 ^ treeHeight) (msg rest : Bytes) :
    layerRecovered H ctx layer tree leaf msg (layerSigned H ctx layer tree leaf msg ++ rest) =
      subtreeRoot H ctx layer tree := by
  have hpath : ∀ h < treeHeight,
      block n h ((layerSigned H ctx layer tree leaf msg ++ rest).drop wotsBytes) =
        siblings (subtreeJoin H ctx layer tree) (wotsLeaf H ctx layer tree) leaf h := by
    intro h hh
    have hlen : ∀ g < treeHeight, (siblings (subtreeJoin H ctx layer tree) (wotsLeaf H ctx layer tree) leaf g).length = n :=
      fun g _ => length_subtreeNode ..
    rw [layerSigned, List.append_assoc, List.drop_left' (length_wotsSigned ..), block_append_left hh (length_ofBlocks hlen),
      block_ofBlocks hlen hh]
  have hclimb := climb_siblings (subtreeJoin H ctx layer tree) (wotsLeaf H ctx layer tree) leaf treeHeight 0
  rw [layerRecovered, climb_congr fun h _ hh => hpath h (by omega), layerSigned, List.append_assoc, wotsRecovered_signed]
  simp only [Nat.pow_zero, Nat.div_one, Nat.zero_add, Nat.div_eq_of_lt hleaf] at hclimb
  exact hclimb

/-! ## What `merkleSign` computes -/

theorem copySubtreeAddr_zero {a : Addr} (ha : AgreeOn (· < 16) a (subtreeAddr layer tree)) :
    copySubtreeAddr .zero a = subtreeAddr layer tree := by
  apply Vector.ext
  intro j hj
  have := ha j hj
  grind [subtreeAddr]

theorem copySubtreeAddr_type {a : Addr} (ha : AgreeOn (· < 16) a (subtreeAddr layer tree)) (type : Nat) :
    copySubtreeAddr (setType .zero type) a = setType (subtreeAddr layer tree) type := by
  apply Vector.ext
  intro j hj
  have := ha j hj
  grind [subtreeAddr]

/-- **`merkle_sign` computes the root, and signs when the leaf is one of the tree's.** -/
theorem merkleSign_spec (root : Bytes) (idxLeaf : Nat) {wotsAddr treeAddr : Addr}
    (hwots : AgreeOn (· < 16) wotsAddr (subtreeAddr layer tree))
    (htree : AgreeOn OffTree treeAddr (subtreeAddr layer tree)) :
    ∃ sig treeAddr', merkleSign H root ctx wotsAddr treeAddr idxLeaf =
        some (sig, subtreeRoot H ctx layer tree, treeAddr') ∧
      (idxLeaf < 2 ^ treeHeight → sig = layerSigned H ctx layer tree idxLeaf root) ∧
      AgreeOn BelowNode treeAddr' (hashTreeAddr layer tree) := by
  have hbase : AgreeOn BelowNode (setType treeAddr addrTypeHashtree) (hashTreeAddr layer tree) := by
    intro j hj hlt
    have := htree j hj
    grind [hashTreeAddr]
  have hstart : WotsInfo H ctx layer tree root idxLeaf 0
      { wotsSig := List.replicate wotsBytes 0
        wotsSignLeaf := idxLeaf
        wotsSteps := chainLengths root
        leafAddr := copySubtreeAddr .zero wotsAddr
        pkAddr := copySubtreeAddr (setType .zero addrTypeWotspk) wotsAddr } := by
    refine ⟨rfl, rfl, List.length_replicate, fun h => absurd h (Nat.not_lt_zero _), ?_, ?_⟩
    · rw [copySubtreeAddr_zero layer tree hwots]
      exact AgreeOn.refl _ _
    · rw [copySubtreeAddr_type layer tree hwots]
      exact AgreeOn.refl _ _
  obtain ⟨authPath, treeAddr', info, he, hdone, hinfo⟩ := treehashx1_spec H ctx idxLeaf
    (wotsLeaves H ctx layer tree root idxLeaf treeHeight)
    (List.length_replicate : (List.replicate (treeHeight * n) (0 : UInt8)).length = _) hbase hstart
  refine ⟨info.wotsSig ++ authPath, treeAddr', ?_, fun hlt => ?_, hdone.addr⟩
  · simp only [merkleSign, he]
    rfl
  · rw [layerSigned, hinfo.signed hlt, show authPath = _ from hdone.authPath_eq hlt]

/-- **`merkle_gen_root` computes the root of the top tree**, whatever the buffer held. -/
theorem merkleGenRoot_spec (old : Bytes) : merkleGenRoot H old ctx = some (subtreeRoot H ctx (d - 1) 0) := by
  have hzero : ∀ P, AgreeOn P (setLayerAddr .zero (d - 1)) (subtreeAddr (d - 1) 0) := by
    intro P j hj _
    have hbytes : ∀ k : Nat, (ullToBytes 8 0)[k]?.getD 0 = 0 := by
      intro k
      rw [show ullToBytes 8 0 = List.replicate 8 0 by decide, List.getElem?_replicate]
      split <;> rfl
    grind [subtreeAddr]
  obtain ⟨sig, treeAddr, he, -, -⟩ := merkleSign_spec H ctx (d - 1) 0 old (2 ^ 32 - 1) (hzero _) (hzero _)
  rw [merkleGenRoot, he]
  rfl

end BitcoinPqc.Spx
