import BitcoinPqc.Spx.Hypertree

/-!
# Few-time signatures

`forsSign` opens one leaf in each tree and hashes the roots (`forsSign_spec`); `forsPkFromSig` climbs
from the opened leaves (`forsPkFromSig_spec`), to the same key (`forsRecovered_signed`).
-/
namespace BitcoinPqc.Spx
open CSem Merkle Addr

variable (H : Hash) (ctx : Ctx) (tree keypair : Nat)

/-! ## The indices of a message -/

theorem forsIndex_lt (m : Bytes) (i : Nat) : forsIndex m i < 2 ^ forsHeight := by
  have hbits : ∀ x ∈ messageToIndices m, x < 2 ^ forsHeight := by
    intro x hx
    obtain ⟨i, -, rfl⟩ := List.mem_map.mp hx
    refine forRange_inv (fun j index => index < 2 ^ j) (by decide) fun j _ index hlt => ?_
    refine Nat.xor_lt_two_pow (Nat.lt_of_lt_of_le hlt (Nat.pow_le_pow_right (by decide) (Nat.le_succ j))) ?_
    rw [Nat.shiftLeft_eq, Nat.pow_succ', Nat.and_one_is_mod]
    exact Nat.mul_lt_mul_of_pos_right (Nat.mod_lt _ (by decide)) (Nat.two_pow_pos j)
  unfold forsIndex
  cases e : (messageToIndices m)[i]? with
  | none => exact Nat.two_pow_pos _
  | some x => exact hbits x (List.mem_of_getElem? e)

/-! ## What a signature leads to -/

theorem length_forsNode (i h j : Nat) :
    (node (forsJoin H ctx tree keypair i) (forsLeaf H ctx tree keypair i) h j).length = n := by
  cases h with
  | zero => exact length_thashAt ..
  | succ h => exact H.length_thash ..

theorem length_forsPart (m : Bytes) (i : Nat) : (forsPart H ctx tree keypair m i).length = forsPartBytes := by
  have hpath : ∀ h < forsHeight,
      (siblings (forsJoin H ctx tree keypair i) (forsLeaf H ctx tree keypair i) (forsIndex m i) h).length = n :=
    fun h _ => length_forsNode ..
  rw [forsPart, List.length_append, length_ofBlocks hpath, forsSecret, length_prfAt, forsPartBytes, Nat.mul_comm]

theorem length_forsSigned (m : Bytes) : (forsSigned H ctx tree keypair m).length = forsBytes := by
  rw [forsSigned, length_ofBlocks fun i _ => length_forsPart H ctx tree keypair m i]
  rfl

/-- An opened leaf leads to the root of its tree. -/
theorem forsRootOf_part (m rest : Bytes) (i : Nat) :
    forsRootOf H ctx tree keypair i (forsIndex m i) (forsPart H ctx tree keypair m i ++ rest) =
      forsRoot H ctx tree keypair i := by
  have hsecret : (forsSecret H ctx tree keypair i (forsIndex m i)).length = n := length_prfAt ..
  have hpath : ∀ h < forsHeight, block n h ((forsPart H ctx tree keypair m i ++ rest).drop n) =
      siblings (forsJoin H ctx tree keypair i) (forsLeaf H ctx tree keypair i) (forsIndex m i) h := by
    intro h hh
    have hlen : ∀ g < forsHeight,
        (siblings (forsJoin H ctx tree keypair i) (forsLeaf H ctx tree keypair i) (forsIndex m i) g).length = n :=
      fun g _ => length_forsNode ..
    rw [forsPart, List.append_assoc, List.drop_left' hsecret, block_append_left hh (length_ofBlocks hlen),
      block_ofBlocks hlen hh]
  have hclimb := climb_siblings (forsJoin H ctx tree keypair i) (forsLeaf H ctx tree keypair i) (forsIndex m i) forsHeight 0
  rw [forsRootOf, climb_congr fun h _ hh => hpath h (by omega), forsPart, List.append_assoc, List.take_left' hsecret]
  simp only [Nat.pow_zero, Nat.div_one, Nat.zero_add, Nat.div_eq_of_lt (forsIndex_lt m i)] at hclimb
  exact hclimb

/-- **A signed message leads to the few-time key.** -/
theorem forsRecovered_signed (m rest : Bytes) :
    forsRecovered H ctx tree keypair m (forsSigned H ctx tree keypair m ++ rest) = forsPk H ctx tree keypair := by
  unfold forsRecovered forsPk forsPkOf
  congr 1
  refine ofBlocks_congr fun i hi => ?_
  have hpart : ∀ j < forsTrees, (forsPart H ctx tree keypair m j).length = forsPartBytes :=
    fun j _ => length_forsPart H ctx tree keypair m j
  rw [drop_eq_block_append, forsSigned, block_append_left hi (length_ofBlocks hpart), block_ofBlocks hpart hi,
    forsRootOf_part]

/-! ## Signing -/

/-- The address of a few-time key, under either type it has. -/
abbrev OffForsType (j : Nat) : Prop := j < 28 ∧ j ≠ 19

/-- `fors_gen_leafx1` writes the index and the type, and leaves the height 0 it found. -/
theorem forsLeaves (i : Nat) :
    Leaves (forsGenLeafx1 H ctx) (i * 2 ^ forsHeight) forsHeight (forsLeaf H ctx tree keypair i)
      (fun _ a => AgreeOn OffForsType a (keypairAddr addrTypeWots 0 tree keypair)) where
  length := fun _ _ => length_thashAt ..
  step := by
    intro idx _ a ha
    have hprf : setType (setTreeIndex a (idx + i * 2 ^ forsHeight)) addrTypeForsprf =
        (Position.forsPrf tree keypair (idx + i * 2 ^ forsHeight)).addr := by
      apply Vector.ext
      intro j hj
      have := ha j hj
      grind [Position.addr, keypairAddr, nodeAddr, subtreeAddr, addrBytes]
    have htree : setType (Position.forsPrf tree keypair (idx + i * 2 ^ forsHeight)).addr addrTypeForstree =
        (Position.forsTree tree keypair 0 (idx + i * 2 ^ forsHeight)).addr := by
      apply Vector.ext
      intro j hj
      grind [Position.addr, keypairAddr, nodeAddr, addrBytes]
    refine ⟨_, by rw [forsGenLeafx1, hprf, htree]; rfl, fun j hj hne => ?_⟩
    grind [Position.addr, keypairAddr, nodeAddr, subtreeAddr, addrBytes]

/-- Before tree `i`: what is signed, the roots, and the two addresses. -/
structure OpenedSoFar (m : Bytes) (i : Nat) (st : Bytes × Bytes × Addr × Addr) : Prop where
  sig : st.1 = ofBlocks i (forsPart H ctx tree keypair m)
  roots_length : st.2.1.length = forsTrees * n
  roots : ∀ e < i, block n e st.2.1 = forsRoot H ctx tree keypair e
  treeAddr : AgreeOn OffTree st.2.2.1 (keypairAddr addrTypeWots 0 tree keypair)
  leafAddr : AgreeOn OffForsType st.2.2.2 (keypairAddr addrTypeWots 0 tree keypair)

theorem forsSignRound_step {m : Bytes} {i : Nat} (hi : i < forsTrees) {st : Bytes × Bytes × Addr × Addr}
    (h : OpenedSoFar H ctx tree keypair m i st) :
    ∃ st', forsSignRound H ctx (messageToIndices m) i st = some st' ∧ OpenedSoFar H ctx tree keypair m (i + 1) st' := by
  obtain ⟨sig, roots, treeAddr, leafAddr⟩ := st
  obtain ⟨hsig, hlen, hroots, htree, hleaf⟩ := h
  dsimp only at hsig hlen hroots htree hleaf
  have hprf : setType (setTreeIndex (setTreeHeight treeAddr 0) (forsIndex m i + i * 2 ^ forsHeight)) addrTypeForsprf =
      (Position.forsPrf tree keypair (forsIndex m i + i * 2 ^ forsHeight)).addr := by
    apply Vector.ext
    intro j hj
    have := htree j hj
    grind [Position.addr, keypairAddr, nodeAddr, addrBytes]
  have hbase : AgreeOn BelowNode
      (setType (Position.forsPrf tree keypair (forsIndex m i + i * 2 ^ forsHeight)).addr addrTypeForstree)
      (keypairAddr addrTypeForstree 0 tree keypair) := by
    intro j hj hlt
    grind [Position.addr, keypairAddr, nodeAddr, addrBytes]
  obtain ⟨authPath, treeAddr', leafAddr', he, hdone, hleaf'⟩ := treehashx1_spec H ctx (forsIndex m i)
    (forsLeaves H ctx tree keypair i)
    (List.length_replicate : (List.replicate (forsHeight * n) (0 : UInt8)).length = _) hbase hleaf
  have hpath : authPath = _ := hdone.authPath_eq (forsIndex_lt m i)
  have hroot := length_forsNode H ctx tree keypair i forsHeight 0
  refine ⟨(sig ++ forsSecret H ctx tree keypair i (forsIndex m i) ++ authPath,
      setBlock n i roots (forsRoot H ctx tree keypair i), treeAddr', leafAddr'), ?_, ?_, length_setBlock hi hlen hroot,
    fun e he => ?_, fun j hj hne => ?_, hleaf'⟩
  · rw [forsSignRound, ← forsIndex, hprf, he]
    rfl
  · rw [ofBlocks_succ, ← hsig, hpath, List.append_assoc]
    rfl
  · rcases Nat.lt_succ_iff_lt_or_eq.mp he with hlt | rfl
    · exact (block_setBlock_ne hi hlen hroot (Nat.ne_of_lt hlt)).trans (hroots e hlt)
    · exact block_setBlock_self hi hlen hroot
  · have := hdone.addr j hj hne.1
    grind [keypairAddr]

/-- **`fors_sign` opens the leaves the message selects** and returns the few-time key. -/
theorem forsSign_spec (m : Bytes) {forsAddr : Addr}
    (haddr : copyKeypairAddr .zero forsAddr = keypairAddr addrTypeWots 0 tree keypair) :
    forsSign H m ctx forsAddr = some (forsSigned H ctx tree keypair m, forsPk H ctx tree keypair) := by
  have hpk : setType (keypairAddr addrTypeWots 0 tree keypair) addrTypeForspk = (Position.forsPk tree keypair).addr := by
    apply Vector.ext
    intro j hj
    grind [Position.addr, keypairAddr]
  obtain ⟨⟨sig, roots, treeAddr, leafAddr⟩, he, hsig, hlen, hroots, -, -⟩ :=
    forRange?_inv (OpenedSoFar H ctx tree keypair m)
      (s := ([], List.replicate (forsTrees * n) 0, keypairAddr addrTypeWots 0 tree keypair,
        keypairAddr addrTypeWots 0 tree keypair))
      ⟨rfl, List.length_replicate, fun e he => absurd he (Nat.not_lt_zero e), AgreeOn.refl _ _, AgreeOn.refl _ _⟩
      fun i hi _ h => forsSignRound_step H ctx tree keypair hi h
  simp only [forsSign, haddr, hpk, he]
  rw [show roots = _ from eq_ofBlocks hlen hroots, show sig = _ from hsig]
  rfl

/-! ## Verifying -/

/-- Before tree `i`: what is left of the signature, the roots, and an address of this key. -/
structure ClimbedSoFar (m sig : Bytes) (i : Nat) (st : Bytes × Bytes × Addr) : Prop where
  rest : st.1 = sig.drop (i * forsPartBytes)
  roots_length : st.2.1.length = forsTrees * n
  roots : ∀ e < i, block n e st.2.1 = forsRootOf H ctx tree keypair e (forsIndex m e) (sig.drop (e * forsPartBytes))
  treeAddr : AgreeOn BelowNode st.2.2 (keypairAddr addrTypeForstree 0 tree keypair)

theorem length_climb {join : Nat → Nat → Bytes → Bytes → Bytes} {sib : Nat → Bytes} (hjoin : ∀ h i l r, (join h i l r).length = n) :
    ∀ {k h i : Nat} {x : Bytes}, x.length = n → (climb join sib k h i x).length = n
  | 0, _, _, _, hx => hx
  | k + 1, h, i, x, _ => by
    rw [climb]
    refine length_climb hjoin ?_
    split <;> exact hjoin ..

theorem forsPkRound_step {m sig : Bytes} {i : Nat} (hi : i < forsTrees) {st : Bytes × Bytes × Addr}
    (h : ClimbedSoFar H ctx tree keypair m sig i st) :
    ClimbedSoFar H ctx tree keypair m sig (i + 1) (forsPkRound H ctx (messageToIndices m) i st) := by
  obtain ⟨rest, roots, treeAddr⟩ := st
  obtain ⟨hrest, hlen, hroots, htree⟩ := h
  dsimp only at hrest hlen hroots htree
  have hleaf : setTreeIndex (setTreeHeight treeAddr 0) (forsIndex m i + i * 2 ^ forsHeight) =
      (Position.forsTree tree keypair 0 (forsIndex m i + i * 2 ^ forsHeight)).addr := nodeAddr_congr htree _ _
  have hbase : AgreeOn BelowNode (Position.forsTree tree keypair 0 (forsIndex m i + i * 2 ^ forsHeight)).addr
      (keypairAddr addrTypeForstree 0 tree keypair) := nodeAddr_agreeOn _ _ _
  obtain ⟨hroot, haddr⟩ := computeRoot_spec H ctx (keypairAddr addrTypeForstree 0 tree keypair) (i * 2 ^ forsHeight)
    (forsIndex m i) (rest.drop n) (forsLeafOf H ctx tree keypair i (forsIndex m i) (rest.take n))
    (show 0 < forsHeight by decide) hbase
  have hlen' : (forsRootOf H ctx tree keypair i (forsIndex m i) rest).length = n :=
    length_climb (fun _ _ _ _ => H.length_thash ..) (length_thashAt ..)
  generalize hr : computeRoot H ctx (forsLeafOf H ctx tree keypair i (forsIndex m i) (rest.take n)) (forsIndex m i)
    (i * 2 ^ forsHeight) (rest.drop n) forsHeight _ = r at hroot haddr
  have hround : forsPkRound H ctx (messageToIndices m) i (rest, roots, treeAddr) =
      ((rest.drop n).drop (n * forsHeight), setBlock n i roots r.1, r.2) := by
    rw [forsPkRound, ← forsIndex, hleaf, ← thashAt, ← forsLeafOf, hr]
  rw [hround, hroot, ← forsRootOf]
  refine ⟨?_, length_setBlock hi hlen hlen', fun e he => ?_, haddr⟩
  · rw [hrest, List.drop_drop, List.drop_drop, forsPartBytes, Nat.succ_mul]
  · rcases Nat.lt_succ_iff_lt_or_eq.mp he with hlt | rfl
    · exact (block_setBlock_ne hi hlen hlen' (Nat.ne_of_lt hlt)).trans (hroots e hlt)
    · exact hrest ▸ block_setBlock_self hi hlen hlen'

/-- **`fors_pk_from_sig` climbs from the opened leaves.** -/
theorem forsPkFromSig_spec (m sig : Bytes) {forsAddr : Addr}
    (haddr : copyKeypairAddr .zero forsAddr = keypairAddr addrTypeWots 0 tree keypair) :
    forsPkFromSig H sig m ctx forsAddr = forsRecovered H ctx tree keypair m sig := by
  have htype : ∀ type, setType (keypairAddr addrTypeWots 0 tree keypair) type = keypairAddr type 0 tree keypair := by
    intro type
    apply Vector.ext
    intro j hj
    grind [keypairAddr]
  have hloop := forRange_inv (ClimbedSoFar H ctx tree keypair m sig)
    (s := (sig, List.replicate (forsTrees * n) 0, keypairAddr addrTypeForstree 0 tree keypair))
    ⟨by simp, List.length_replicate, fun e he => absurd he (Nat.not_lt_zero e), AgreeOn.refl _ _⟩
    fun i hi _ h => forsPkRound_step H ctx tree keypair hi h
  rw [forsPkFromSig, haddr, htype, htype]
  revert hloop
  generalize forRange forsTrees _ _ = st
  obtain ⟨rest, roots, treeAddr⟩ := st
  rintro ⟨-, hlen, hroots, -⟩
  rw [show roots = _ from eq_ofBlocks hlen hroots]
  rfl

end BitcoinPqc.Spx
