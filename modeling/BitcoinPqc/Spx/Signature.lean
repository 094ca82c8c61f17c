import BitcoinPqc.Spx.Fors
import BitcoinPqc.Spx.Layers
import BitcoinPqc.Spx.Shake

/-!
# Signing and verifying

What sign.c computes, in terms of the hypertree: the key pair of a seed
(`cryptoSignSeedKeypair_spec`), a signature (`cryptoSignSignature_spec`), the root a signature leads
to (`rootFromSig_spec`). With any hash functions, any seed and any message, a signature leads to the
root in the public key (`sign_then_verify`).
-/
namespace BitcoinPqc.Spx
open CSem Merkle Addr

variable (H : Hash) (ctx : Ctx)

/-- The signature with randomness `r`. -/
def signed (r pk m : Bytes) : Bytes :=
  let (mhash, tree, leaf) := hashMessage H r pk m
  r ++ (forsSigned H ctx tree leaf mhash ++ hyperSigned H ctx tree leaf)

/-- The root a signature leads to. -/
def recovered (sig pk m : Bytes) : Bytes :=
  let (mhash, tree, leaf) := hashMessage H (sig.take n) pk m
  hyperRoot H ctx tree leaf (forsRecovered H ctx tree leaf mhash (sig.drop n)) ((sig.drop n).drop forsBytes) d

/-! ## Coordinates -/

theorem mask_lt {b w : Nat} (h : b ≤ w) (x : Nat) : x &&& ((2 ^ w - 1) >>> (w - b)) < 2 ^ b := by
  have hmask : (2 ^ w - 1) >>> (w - b) = 2 ^ b - 1 := by
    have hpos := Nat.two_pow_pos (w - b)
    have hsplit : 2 ^ w = 2 ^ b * 2 ^ (w - b) := by rw [← Nat.pow_add, Nat.add_sub_cancel' h]
    rw [Nat.shiftRight_eq_div_pow, hsplit, Nat.mul_comm, Nat.mul_sub_div _ _ _ (Nat.mul_pos hpos (Nat.two_pow_pos b))]
    simp
  rw [hmask, Nat.and_two_pow_sub_one_eq_mod]
  exact Nat.mod_lt _ (Nat.two_pow_pos b)

/-- **A message selects a leaf of a tree at layer 0.** -/
theorem hashMessage_lt (r pk m : Bytes) :
    (hashMessage H r pk m).2.1 < 2 ^ treeBits ∧ (hashMessage H r pk m).2.2 < 2 ^ treeHeight :=
  ⟨mask_lt (by decide) _, mask_lt (by decide) _⟩

section
variable {tree leaf : Nat}

theorem coords_leaf_lt (h : leaf < 2 ^ treeHeight) : ∀ i, (coords tree leaf i).2 < 2 ^ treeHeight
  | 0 => h
  | i + 1 => by
    rw [coords, Nat.and_two_pow_sub_one_eq_mod]
    exact Nat.mod_lt _ (Nat.two_pow_pos _)

theorem coords_tree (i : Nat) : (coords tree leaf i).1 = tree / 2 ^ (treeHeight * i) := by
  induction i with
  | zero => simp [coords]
  | succ i ih => rw [coords, ih, Nat.shiftRight_eq_div_pow, Nat.div_div_eq_div_mul, ← Nat.pow_add, Nat.mul_succ]

/-- The top layer is one tree. -/
theorem coords_top (h : tree < 2 ^ treeBits) : (coords tree leaf (d - 1)).1 = 0 := by
  rw [coords_tree]
  exact Nat.div_eq_of_lt h

end

/-! ## From a signature to the root -/

section
variable {tree leaf : Nat}

theorem length_hyperSigned : (hyperSigned H ctx tree leaf).length = d * layerBytes :=
  length_ofBlocks fun _ _ => length_layerSigned ..

/-- Layer after layer, a signature leads to the message of the next. -/
theorem hyperRoot_signed (hleaf : leaf < 2 ^ treeHeight) : ∀ i ≤ d,
    hyperRoot H ctx tree leaf (forsPk H ctx tree leaf) (hyperSigned H ctx tree leaf) i = layerMessage H ctx tree leaf i
  | 0, _ => rfl
  | i + 1, hi => by
    have hlayers : ∀ j < d, (layerSigned H ctx j (coords tree leaf j).1 (coords tree leaf j).2
        (layerMessage H ctx tree leaf j)).length = layerBytes := fun _ _ => length_layerSigned ..
    rw [hyperRoot, hyperRoot_signed hleaf i (by omega), drop_eq_block_append, hyperSigned, block_ofBlocks hlayers (by omega),
      layerRecovered_signed H ctx i _ (coords_leaf_lt hleaf i)]
    rfl

/-- **A signature leads to the root of the top tree.** -/
theorem recovered_signed {r : Bytes} (hr : r.length = n) (pk m : Bytes) :
    recovered H ctx (signed H ctx r pk m) pk m = subtreeRoot H ctx (d - 1) 0 := by
  obtain ⟨htree, hleaf⟩ := hashMessage_lt H r pk m
  rcases e : hashMessage H r pk m with ⟨mhash, tree, leaf⟩
  rw [e] at htree hleaf
  have hsigned : signed H ctx r pk m = r ++ (forsSigned H ctx tree leaf mhash ++ hyperSigned H ctx tree leaf) := by
    rw [signed, e]
  rw [recovered, hsigned, List.take_left' hr, e, List.drop_left' hr]
  dsimp only
  rw [forsRecovered_signed, List.drop_left' (length_forsSigned H ctx tree leaf mhash),
    hyperRoot_signed H ctx hleaf d (Nat.le_refl d)]
  show subtreeRoot H ctx (d - 1) (coords tree leaf (d - 1)).1 = _
  rw [coords_top htree]

theorem length_signed {r : Bytes} (hr : r.length = n) (pk m : Bytes) : (signed H ctx r pk m).length = bytes := by
  rcases e : hashMessage H r pk m with ⟨mhash, tree, leaf⟩
  rw [signed, e]
  dsimp only
  rw [List.length_append, List.length_append, hr, length_forsSigned, length_hyperSigned]
  rfl

end

/-! ## What sign.c computes -/

/-- The fields of a tree's address that change from one layer to the next. -/
abbrev OffSubtree (j : Nat) : Prop := OffTree j ∧ j ≠ 3 ∧ ¬ (8 ≤ j ∧ j < 16)

theorem subtreeAddr_agreeOn {treeAddr : Addr} (h : AgreeOn OffSubtree treeAddr .zero) (layer tree : Nat) :
    AgreeOn OffTree (setTreeAddr (setLayerAddr treeAddr layer) tree) (subtreeAddr layer tree) := by
  intro j hj hne
  have := h j hj
  grind [subtreeAddr]

section
variable (tree leaf : Nat)

/-- Before layer `i`: the signature, the root below, an address of a tree, and the coordinates. -/
structure SignedSoFar (below : Bytes) (i : Nat) (st : Bytes × Bytes × Addr × Addr × Nat × Nat) : Prop where
  sig : st.1 = below ++ ofBlocks i fun j =>
    layerSigned H ctx j (coords tree leaf j).1 (coords tree leaf j).2 (layerMessage H ctx tree leaf j)
  root : st.2.1 = layerMessage H ctx tree leaf i
  treeAddr : AgreeOn OffSubtree st.2.2.2.1 .zero
  coords : st.2.2.2.2 = coords tree leaf i

theorem signLayer_step (hleaf : leaf < 2 ^ treeHeight) {below : Bytes} {i : Nat} {st : Bytes × Bytes × Addr × Addr × Nat × Nat}
    (h : SignedSoFar H ctx tree leaf below i st) :
    ∃ st', signLayer H ctx i st = some st' ∧ SignedSoFar H ctx tree leaf below (i + 1) st' := by
  obtain ⟨sig, root, wotsAddr, treeAddr, t, idx⟩ := st
  obtain ⟨hsig, hroot, htree, hcoords⟩ := h
  dsimp only at hsig hroot htree hcoords
  obtain ⟨ht, hidx⟩ := Prod.mk.inj hcoords
  have htree' := subtreeAddr_agreeOn htree i t
  have hwots : AgreeOn (· < 16)
      (setKeypairAddr (copySubtreeAddr wotsAddr (setTreeAddr (setLayerAddr treeAddr i) t)) idx) (subtreeAddr i t) := by
    intro j hj hlt
    have := htree' j hj
    grind
  obtain ⟨layerSig, treeAddr', he, hsigned, htree''⟩ := merkleSign_spec H ctx i t root idx hwots htree'
  refine ⟨(sig ++ layerSig, subtreeRoot H ctx i t, _, treeAddr', t >>> treeHeight, t &&& (2 ^ treeHeight - 1)),
    by rw [signLayer, he]; rfl, ?_, by rw [layerMessage, ← ht], fun j hj hne => ?_, by rw [Spx.coords, ← ht]⟩
  · rw [ofBlocks_succ, ← List.append_assoc, ← hsig, hsigned (hidx ▸ coords_leaf_lt hleaf i), ht, hidx, hroot]
  · have := htree'' j hj hne.1.1
    grind [hashTreeAddr, subtreeAddr]

/-- The address both sides start from. -/
theorem copyKeypairAddr_start :
    copyKeypairAddr .zero (setKeypairAddr (setTreeAddr (setType .zero addrTypeWots) tree) leaf) =
      keypairAddr addrTypeWots 0 tree leaf := by
  apply Vector.ext
  intro j hj
  grind [keypairAddr, subtreeAddr]

theorem signLayers_spec (hleaf : leaf < 2 ^ treeHeight) (below : Bytes) (wotsAddr : Addr) :
    ∃ st, forRange? d (signLayer H ctx)
        (below, forsPk H ctx tree leaf, wotsAddr, setType .zero addrTypeHashtree, tree, leaf) =
      some (below ++ hyperSigned H ctx tree leaf, st) := by
  obtain ⟨⟨sig, st⟩, he, hsig, -, -, -⟩ := forRange?_inv (SignedSoFar H ctx tree leaf below)
    (s := (below, forsPk H ctx tree leaf, wotsAddr, setType .zero addrTypeHashtree, tree, leaf))
    ⟨by simp [ofBlocks], rfl, fun j hj hne => by grind, rfl⟩ fun i _ _ h => signLayer_step H ctx tree leaf hleaf h
  exact ⟨st, by rw [he, show sig = _ from hsig]; rfl⟩

/-- **`crypto_sign_signature` returns the signature**, for every key and every random value. -/
theorem cryptoSignSignature_spec (m sk optrand : Bytes) :
    cryptoSignSignature H m sk optrand =
      some (signed H ⟨((sk.drop (2 * n)).take pkBytes).take n, sk.take n⟩
        (H.genMessageRandom ((sk.drop n).take n) optrand m) ((sk.drop (2 * n)).take pkBytes) m) := by
  rw [cryptoSignSignature, signed]
  generalize H.genMessageRandom ((sk.drop n).take n) optrand m = r
  generalize (sk.drop (2 * n)).take pkBytes = pk
  dsimp only
  generalize (⟨pk.take n, sk.take n⟩ : Ctx) = ctx
  obtain ⟨-, hleaf⟩ := hashMessage_lt H r pk m
  rcases e : hashMessage H r pk m with ⟨mhash, tree, leaf⟩
  rw [e] at hleaf
  dsimp only
  obtain ⟨st, he⟩ := signLayers_spec H ctx tree leaf hleaf (r ++ forsSigned H ctx tree leaf mhash)
    (setKeypairAddr (setTreeAddr (setType .zero addrTypeWots) tree) leaf)
  rw [forsSign_spec H ctx tree leaf mhash (copyKeypairAddr_start tree leaf), Option.bind_eq_bind, Option.bind_some, he,
    ← List.append_assoc]
  rfl

/-! ### Verifying -/

/-- The fields of a one-time key's address that change from one layer to the next. -/
abbrev OffKey (j : Nat) : Prop := OffChain j ∧ ¬ j < 16 ∧ ¬ (20 ≤ j ∧ j < 24)

/-- Before layer `i`: what is left of the signature, the root below, the three addresses and the
coordinates. -/
structure VerifiedSoFar (msg sig : Bytes) (i : Nat) (st : Bytes × Bytes × Addr × Addr × Addr × Nat × Nat) : Prop where
  rest : st.1 = sig.drop (i * layerBytes)
  root : st.2.1 = hyperRoot H ctx tree leaf msg sig i
  wotsAddr : AgreeOn OffKey st.2.2.1 .zero
  treeAddr : AgreeOn (fun j => BelowNode j ∧ j ≠ 3 ∧ ¬ (8 ≤ j ∧ j < 16)) st.2.2.2.1 (setType .zero addrTypeHashtree)
  wotsPkAddr : AgreeOn (fun j => ¬ j < 16 ∧ ¬ (20 ≤ j ∧ j < 24)) st.2.2.2.2.1 (setType .zero addrTypeWotspk)
  coords : st.2.2.2.2.2 = coords tree leaf i

theorem verifyLayer_step {msg sig : Bytes} (hsig : sig.length = d * layerBytes) {i : Nat} (hi : i < d)
    {st : Bytes × Bytes × Addr × Addr × Addr × Nat × Nat} (h : VerifiedSoFar H ctx tree leaf msg sig i st) :
    VerifiedSoFar H ctx tree leaf msg sig (i + 1) (verifyLayer H ctx i st) := by
  obtain ⟨rest, root, wotsAddr, treeAddr, wotsPkAddr, t, idx⟩ := st
  obtain ⟨hrest, hroot, hwots, htree, hpk, hcoords⟩ := h
  dsimp only at hrest hroot hwots htree hpk hcoords
  obtain ⟨ht, hidx⟩ := Prod.mk.inj hcoords
  have hlen : wotsLen * n ≤ rest.length := by
    have hend := block_end_le hi layerBytes
    rw [hrest, List.length_drop, hsig]
    have hle : wotsLen * n ≤ layerBytes := by decide
    omega
  have htree' : AgreeOn BelowNode (setTreeAddr (setLayerAddr treeAddr i) t) (hashTreeAddr i t) := by
    intro j hj hlt
    have := htree j hj
    grind [hashTreeAddr, subtreeAddr]
  have hwots' : AgreeOn OffChain
      (setKeypairAddr (copySubtreeAddr wotsAddr (setTreeAddr (setLayerAddr treeAddr i) t)) idx)
      (keypairAddr addrTypeWots i t idx) := by
    intro j hj hne
    have h₁ := htree' j hj
    have h₂ := hwots j hj
    grind [keypairAddr, hashTreeAddr, subtreeAddr]
  have hpk' : copyKeypairAddr wotsPkAddr
      (setKeypairAddr (copySubtreeAddr wotsAddr (setTreeAddr (setLayerAddr treeAddr i) t)) idx) =
      (Position.wotsPk i t idx).addr := by
    apply Vector.ext
    intro j hj
    have h₁ := hwots' j hj
    have h₂ := hpk j hj
    grind [Position.addr, keypairAddr, subtreeAddr]
  obtain ⟨hkey, hwots''⟩ := wotsPkFromSig_spec H ctx i t idx root hlen hwots'
  obtain ⟨hclimb, htree''⟩ := computeRoot_spec H ctx (hashTreeAddr i t) 0 idx (rest.drop wotsBytes)
    (wotsRecovered H ctx i t idx root rest) (show 0 < treeHeight by decide) htree'
  generalize hr : computeRoot H ctx (wotsRecovered H ctx i t idx root rest) idx 0 (rest.drop wotsBytes) treeHeight
    (setTreeAddr (setLayerAddr treeAddr i) t) = r at hclimb htree''
  have hround : verifyLayer H ctx i (rest, root, wotsAddr, treeAddr, wotsPkAddr, t, idx) =
      ((rest.drop wotsBytes).drop (treeHeight * n), r.1, (wotsPkFromSig H ctx rest root
        (setKeypairAddr (copySubtreeAddr wotsAddr (setTreeAddr (setLayerAddr treeAddr i) t)) idx)).2, r.2,
        (Position.wotsPk i t idx).addr, t >>> treeHeight, t &&& (2 ^ treeHeight - 1)) := by
    rw [verifyLayer, hpk']
    rw [thashAt] at hkey
    dsimp only
    rw [hkey, hr]
  rw [hround]
  refine ⟨?_, ?_, fun j hj hne => ?_, fun j hj hne => ?_, fun j hj hne => ?_, by rw [Spx.coords, ← ht]⟩
  · rw [hrest, List.drop_drop, List.drop_drop, layerBytes, Nat.succ_mul]
  · rw [hyperRoot, ← hroot, ← ht, ← hidx, ← hrest]
    exact hclimb
  · have := hwots'' j hj hne.1
    grind [keypairAddr, subtreeAddr]
  · have := htree'' j hj hne.1
    grind [hashTreeAddr, subtreeAddr]
  · grind [Position.addr, keypairAddr, subtreeAddr]

theorem verifiedSoFar_zero (msg sig : Bytes) :
    VerifiedSoFar H ctx tree leaf msg sig 0 (sig, msg, setKeypairAddr (setTreeAddr (setType .zero addrTypeWots) tree) leaf,
      setType .zero addrTypeHashtree, setType .zero addrTypeWotspk, tree, leaf) where
  rest := by simp
  root := rfl
  wotsAddr := by
    intro j hj hne
    grind
  treeAddr := AgreeOn.refl _ _
  wotsPkAddr := AgreeOn.refl _ _
  coords := rfl

theorem verifyLayers_spec (msg : Bytes) {sig : Bytes} (hsig : sig.length = d * layerBytes) :
    VerifiedSoFar H ctx tree leaf msg sig d (forRange d (verifyLayer H ctx) (sig, msg,
      setKeypairAddr (setTreeAddr (setType .zero addrTypeWots) tree) leaf, setType .zero addrTypeHashtree,
      setType .zero addrTypeWotspk, tree, leaf)) :=
  forRange_inv _ (verifiedSoFar_zero H ctx tree leaf msg sig)
    fun _ hi _ h => verifyLayer_step H ctx tree leaf hsig hi h

end

/-- Verifying reads no secret. -/
theorem hyperRoot_pubSeed {pubSeed skSeed skSeed' : Bytes} (tree leaf : Nat) (msg sig : Bytes) : ∀ i,
    hyperRoot H ⟨pubSeed, skSeed⟩ tree leaf msg sig i = hyperRoot H ⟨pubSeed, skSeed'⟩ tree leaf msg sig i
  | 0 => rfl
  | i + 1 => by
    rw [hyperRoot, hyperRoot, hyperRoot_pubSeed]
    rfl

theorem recovered_pubSeed {pubSeed : Bytes} (skSeed skSeed' : Bytes) (sig pk m : Bytes) :
    recovered H ⟨pubSeed, skSeed⟩ sig pk m = recovered H ⟨pubSeed, skSeed'⟩ sig pk m :=
  hyperRoot_pubSeed ..

/-- **The verifier computes the root the signature leads to.** -/
theorem rootFromSig_spec {sig : Bytes} (hsig : sig.length = bytes) (m pk : Bytes) (skSeed : Bytes) :
    rootFromSig H sig m pk = recovered H ⟨pk.take n, skSeed⟩ sig (pk.take pkBytes) m := by
  rw [rootFromSig, recovered_pubSeed H skSeed [], recovered]
  rcases hashMessage H (sig.take n) (pk.take pkBytes) m with ⟨mhash, tree, leaf⟩
  have hrest : ((sig.drop n).drop forsBytes).length = d * layerBytes := by
    rw [List.length_drop, List.length_drop, hsig]
    rfl
  dsimp only
  rw [forsPkFromSig_spec H ⟨pk.take n, []⟩ tree leaf mhash (sig.drop n) (copyKeypairAddr_start tree leaf),
    (verifyLayers_spec H _ tree leaf _ hrest).root]

/-! ## Key pairs, signatures and their verification -/

/-- The context of a key pair. -/
def seedCtx (seed : Bytes) : Ctx := ⟨((seed.take cryptoSeedbytes).drop (2 * n)).take n, (seed.take cryptoSeedbytes).take n⟩

def seedPk (seed : Bytes) : Bytes := (seedCtx seed).pubSeed ++ subtreeRoot H (seedCtx seed) (d - 1) 0

def seedSk (seed : Bytes) : Bytes := seed.take cryptoSeedbytes ++ subtreeRoot H (seedCtx seed) (d - 1) 0

/-- **The key pair of a seed**, whatever the buffer for the root held. -/
theorem cryptoSignSeedKeypair_spec (seed old : Bytes) :
    cryptoSignSeedKeypair H seed old = some (seedPk H seed, seedSk H seed) := by
  rw [cryptoSignSeedKeypair, merkleGenRoot_spec]
  rfl

/-- A signature verifies exactly when it has the right length and leads to the root of the key. -/
theorem cryptoSignVerify_eq_zero_iff (sig m pk skSeed : Bytes) :
    cryptoSignVerify H sig m pk = 0 ↔
      sig.length = bytes ∧ recovered H ⟨pk.take n, skSeed⟩ sig (pk.take pkBytes) m = (pk.drop n).take n := by
  unfold cryptoSignVerify
  by_cases hlen : sig.length = bytes
  · rw [if_neg (not_not.mpr hlen), rootFromSig_spec H hlen m pk skSeed]
    by_cases hroot : recovered H ⟨pk.take n, skSeed⟩ sig (pk.take pkBytes) m = (pk.drop n).take n
    · rw [if_neg (not_not.mpr hroot)]
      exact ⟨fun _ => ⟨hlen, hroot⟩, fun _ => rfl⟩
    · rw [if_pos hroot]
      exact ⟨fun h => absurd h (by decide), fun h => absurd h.2 hroot⟩
  · rw [if_pos hlen]
    exact ⟨fun h => absurd h (by decide), fun h => absurd h.1 hlen⟩

section
variable {seed : Bytes} (hseed : cryptoSeedbytes ≤ seed.length)
include hseed

theorem length_seed : (seed.take cryptoSeedbytes).length = 3 * n := by
  rw [List.length_take, Nat.min_eq_left hseed]
  rfl

theorem seedCtx_pubSeed : (seed.take cryptoSeedbytes).drop (2 * n) = (seedCtx seed).pubSeed ∧ (seedCtx seed).pubSeed.length = n := by
  have hdrop : ((seed.take cryptoSeedbytes).drop (2 * n)).length = n := by
    rw [List.length_drop, length_seed hseed]
    rfl
  have hpub : (seedCtx seed).pubSeed = (seed.take cryptoSeedbytes).drop (2 * n) :=
    List.take_of_length_le (Nat.le_of_eq hdrop)
  exact ⟨hpub.symm, hpub ▸ hdrop⟩

theorem length_seedPk : (seedPk H seed).length = pkBytes := by
  rw [seedPk, List.length_append, (seedCtx_pubSeed hseed).2, subtreeRoot, length_subtreeNode]
  rfl

theorem length_seedSk : (seedSk H seed).length = skBytes := by
  rw [seedSk, List.length_append, length_seed hseed, subtreeRoot, length_subtreeNode]
  rfl

/-- The public key is at the end of the secret one. -/
theorem seedSk_pk : ((seedSk H seed).drop (2 * n)).take pkBytes = seedPk H seed := by
  rw [seedSk, List.drop_append_of_le_length (by rw [length_seed hseed]; decide), (seedCtx_pubSeed hseed).1, ← seedPk,
    List.take_of_length_le (Nat.le_of_eq (length_seedPk H hseed))]

theorem seedSk_skSeed : (seedSk H seed).take n = (seedCtx seed).skSeed := by
  rw [seedSk, List.take_append_of_le_length (by rw [length_seed hseed]; decide)]
  rfl

/-- What is signed with the secret key verifies under the public one. -/
theorem signed_verifies (m optrand : Bytes) : ∃ sig, cryptoSignSignature H m (seedSk H seed) optrand = some sig ∧
    sig.length = bytes ∧ cryptoSignVerify H sig m (seedPk H seed) = 0 := by
  have hpub := (seedCtx_pubSeed hseed).2
  have hroot : (subtreeRoot H (seedCtx seed) (d - 1) 0).length = n := length_subtreeNode ..
  have hkey : (seedPk H seed).take n = (seedCtx seed).pubSeed ∧
      ((seedPk H seed).drop n).take n = subtreeRoot H (seedCtx seed) (d - 1) 0 := by
    rw [seedPk, List.take_left' hpub, List.drop_left' hpub, List.take_of_length_le (Nat.le_of_eq hroot)]
    exact ⟨rfl, rfl⟩
  have hr := H.length_genMessageRandom (((seedSk H seed).drop n).take n) optrand m
  refine ⟨_, cryptoSignSignature_spec H m _ optrand, length_signed H _ hr _ m, ?_⟩
  rw [cryptoSignVerify_eq_zero_iff H _ _ _ (seedCtx seed).skSeed, seedSk_pk H hseed, seedSk_skSeed H hseed, hkey.1, hkey.2,
    List.take_of_length_le (Nat.le_of_eq (length_seedPk H hseed))]
  exact ⟨length_signed H _ hr _ m, recovered_signed H _ hr _ m⟩

/-- **A signature verifies under the key pair it was made with**: for any hash functions, any seed,
any message and any random value, the functions return and agree. -/
theorem sign_then_verify (old : Bytes) :
    ∃ pk sk, cryptoSignSeedKeypair H seed old = some (pk, sk) ∧ pk.length = pkBytes ∧ sk.length = skBytes ∧
      ∀ m optrand, ∃ sig, cryptoSignSignature H m sk optrand = some sig ∧ sig.length = bytes ∧
        cryptoSignVerify H sig m pk = 0 :=
  ⟨_, _, cryptoSignSeedKeypair_spec H seed old, length_seedPk H hseed, length_seedSk H hseed,
    fun m optrand => signed_verifies H hseed m optrand⟩

end

/-- The keys of the zero seed, with the linked hash functions. -/
theorem sign_then_verify_zero_seed :
    ∃ pk sk, cryptoSignSeedKeypair shakeHash (List.replicate cryptoSeedbytes 0) [] = some (pk, sk) ∧ pk.length = pkBytes ∧
      sk.length = skBytes ∧ ∀ m optrand, ∃ sig, cryptoSignSignature shakeHash m sk optrand = some sig ∧
        sig.length = bytes ∧ cryptoSignVerify shakeHash sig m pk = 0 :=
  sign_then_verify shakeHash (Nat.le_of_eq (List.length_replicate ..).symm) []

/-! ## Signed messages -/

/-- **`crypto_sign_open` returns a message exactly when it is signed**: what it accepts is a
signature that verifies, followed by the message. -/
theorem cryptoSignOpen_accepts (sm pk m : Bytes) :
    cryptoSignOpen H sm pk = (0, m) ↔ ∃ sig, sm = sig ++ m ∧ cryptoSignVerify H sig m pk = 0 := by
  have hlength : ∀ {sig m : Bytes}, cryptoSignVerify H sig m pk = 0 → sig.length = bytes := fun h =>
    ((cryptoSignVerify_eq_zero_iff H _ _ pk []).mp h).1
  unfold cryptoSignOpen
  constructor
  · intro h
    split at h
    · simp at h
    · split at h
      · simp at h
      · rename_i hverify
        obtain rfl : sm.drop bytes = m := congrArg Prod.snd h
        exact ⟨sm.take bytes, (List.take_append_drop bytes sm).symm, not_not.mp hverify⟩
  · rintro ⟨sig, rfl, hverify⟩
    have hlen := hlength hverify
    rw [if_neg (by rw [List.length_append]; omega), List.take_left' hlen, List.drop_left' hlen,
      if_neg (not_not.mpr hverify)]

/-- **A signed message opens**, to the message that was signed. -/
theorem sign_then_open {seed : Bytes} (hseed : cryptoSeedbytes ≤ seed.length) (old : Bytes) :
    ∃ pk sk, cryptoSignSeedKeypair H seed old = some (pk, sk) ∧
      ∀ m optrand, ∃ sm, cryptoSign H m sk optrand = some sm ∧ cryptoSignOpen H sm pk = (0, m) := by
  refine ⟨_, _, cryptoSignSeedKeypair_spec H seed old, fun m optrand => ?_⟩
  obtain ⟨sig, he, -, hverify⟩ := signed_verifies H hseed m optrand
  exact ⟨sig ++ m, by rw [cryptoSign, he]; rfl, (cryptoSignOpen_accepts H _ _ m).mpr ⟨sig, rfl, hverify⟩⟩

theorem sign_then_open_zero_seed :
    ∃ pk sk, cryptoSignSeedKeypair shakeHash (List.replicate cryptoSeedbytes 0) [] = some (pk, sk) ∧
      ∀ m optrand, ∃ sm, cryptoSign shakeHash m sk optrand = some sm ∧ cryptoSignOpen shakeHash sm pk = (0, m) :=
  sign_then_open shakeHash (Nat.le_of_eq (List.length_replicate ..).symm) []

end BitcoinPqc.Spx
