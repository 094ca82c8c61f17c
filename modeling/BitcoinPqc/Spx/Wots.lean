import BitcoinPqc.Spx.Hypertree

/-!
# One-time signatures

The digits of a message with their checksum (`chainLengths_eq`) and why no message covers another
(`chain_lengths_incomparable`); that `genLeaf` and `wotsPkFromSig` compute the leaf, the signature
and the recovered key of the hypertree (`wotsLeaves`, `wotsPkFromSig_spec`).
-/
namespace BitcoinPqc.Spx
open CSem Winternitz Addr

/-! ## Chain lengths -/

/-- The high and the low half of every byte. -/
def nibbles : Bytes → List Nat
  | [] => []
  | b :: bs => b.toNat / 16 :: b.toNat % 16 :: nibbles bs

@[simp] theorem length_nibbles (bs : Bytes) : (nibbles bs).length = 2 * bs.length := by
  induction bs with
  | nil => rfl
  | cons b bs ih => simp only [nibbles, List.length_cons, ih]; omega

theorem nibbles_lt (bs : Bytes) : ∀ d ∈ nibbles bs, d < 16 := by
  induction bs with
  | nil => simp [nibbles]
  | cons b bs ih =>
    have hb : b.toNat < 256 := b.toNat_lt
    intro d hd
    simp only [nibbles, List.mem_cons] at hd
    rcases hd with rfl | rfl | hd
    · omega
    · omega
    · exact ih d hd

theorem nibbles_injective : ∀ {bs cs : Bytes}, nibbles bs = nibbles cs → bs = cs
  | [], [], _ => rfl
  | [], _ :: _, h => by simp [nibbles] at h
  | _ :: _, [], h => by simp [nibbles] at h
  | b :: bs, c :: cs, h => by
    simp only [nibbles, List.cons.injEq] at h
    obtain ⟨hhigh, hlow, htail⟩ := h
    have hbyte : b.toNat = c.toNat := by omega
    rw [UInt8.toNat_inj.mp hbyte, nibbles_injective htail]

/-- A digit, with the base and its logarithm as the parameters have them. -/
theorem digit_eq (total bits : Nat) : (total >>> (bits - wotsLogw)) &&& (wotsW - 1) = total / 2 ^ (bits - 4) % 16 := by
  rw [Nat.shiftRight_eq_div_pow]
  exact Nat.and_two_pow_sub_one_eq_mod _ 4

theorem baseWLoop_lt : ∀ {outLen : Nat} {input : Bytes} {total bits : Nat}, ∀ x ∈ baseWLoop outLen input total bits, x < 16
  | 0, _, _, _, x, hx => by simp [baseWLoop] at hx
  | outLen + 1, input, total, bits, x, hx => by
    rw [baseWLoop] at hx
    split at hx
    all_goals
      simp only [digit_eq, List.mem_cons] at hx
      rcases hx with rfl | hx
      · exact Nat.mod_lt _ (by decide)
      · exact baseWLoop_lt x hx

theorem baseWLoop_byte (outLen : Nat) (b : UInt8) (input : Bytes) (total : Nat) :
    baseWLoop (outLen + 2) (b :: input) total 0 = b.toNat / 16 :: b.toNat % 16 :: baseWLoop outLen input b.toNat 0 := by
  have hb : b.toNat < 256 := b.toNat_lt
  have hhigh : b.toNat / 2 ^ 4 % 16 = b.toNat / 16 := by omega
  simp only [baseWLoop, digit_eq, if_true, List.headD_cons, List.tail_cons]
  rw [if_neg (by decide), hhigh]
  simp only [wotsLogw, Nat.reduceSub, Nat.pow_zero, Nat.div_one]

theorem baseW_nibbles : ∀ (input : Bytes) (total : Nat), baseWLoop (2 * input.length) input total 0 = nibbles input
  | [], _ => rfl
  | b :: input, total => by
    rw [List.length_cons, Nat.mul_add, baseWLoop_byte, baseW_nibbles input, nibbles]

/-- The sum of the checksum's loop. -/
theorem csum_eq (D : List Nat) :
    forRange D.length (fun i csum => csum + (wotsW - 1 - D[i]?.getD 0)) 0 = remaining 16 D := by
  have hsum : forRange D.length (fun i csum => csum + (wotsW - 1 - D[i]?.getD 0)) 0 = remaining 16 (D.take D.length) := by
    refine forRange_inv (fun i csum => csum = remaining 16 (D.take i)) (by simp [remaining]) fun i hi csum h => ?_
    rw [h, List.getElem?_eq_getElem hi, Option.getD_some, List.take_succ_eq_append_getElem hi, remaining, remaining,
      List.map_append, List.sum_append]
    simp [wotsW]
  rwa [List.take_of_length_le (Nat.le_refl _)] at hsum

/-- The two bytes of the shifted sum, as digits. -/
theorem baseW_csum {csum : Nat} (h : csum < 4096) : baseW 3 (ullToBytes 2 (csum <<< 4)) = digits 16 3 csum := by
  have hbyte : ∀ x, (UInt8.ofNat (x &&& 0xff)).toNat = x % 256 := by
    intro x
    rw [toNat_ofNat_mod, show (0xff : Nat) = 2 ^ 8 - 1 by rfl, Nat.and_two_pow_sub_one_eq_mod]
    exact Nat.mod_mod _ _
  have hbytes : ullToBytes 2 (csum <<< 4) = [UInt8.ofNat ((csum <<< 4) >>> 8 &&& 0xff), UInt8.ofNat ((csum <<< 4) &&& 0xff)] := rfl
  rw [baseW, hbytes, baseWLoop_byte, baseWLoop, if_pos rfl]
  simp only [digit_eq, hbyte, List.headD_cons, baseWLoop]
  simp only [digits, Nat.shiftLeft_eq, Nat.shiftRight_eq_div_pow, List.nil_append, List.cons_append, List.cons.injEq,
    Nat.reduceSub, Nat.reducePow, and_true]
  omega

/-- **The chain lengths of a message** are its half bytes and the digits of their checksum. -/
theorem chainLengths_eq {msg : Bytes} (h : msg.length = n) : chainLengths msg = checked 16 wotsLen2 (nibbles msg) := by
  have hlen : (nibbles msg).length = wotsLen1 := by rw [length_nibbles, h]; rfl
  have hmsg : baseW wotsLen1 msg = nibbles msg := by
    rw [baseW, show wotsLen1 = 2 * msg.length by rw [h]; rfl, baseW_nibbles]
  have hrem : remaining 16 (nibbles msg) < 4096 := by
    have hle := remaining_le 16 (nibbles msg)
    rw [hlen] at hle
    exact Nat.lt_of_le_of_lt hle (by decide)
  have hcsum := csum_eq (nibbles msg)
  rw [hlen] at hcsum
  rw [chainLengths, hmsg, wotsChecksum, hcsum, checked]
  congr 1
  exact baseW_csum hrem

theorem length_chainLengths {msg : Bytes} (h : msg.length = n) : (chainLengths msg).length = wotsLen := by
  rw [chainLengths_eq h, checked, List.length_append, length_digits, length_nibbles, h]
  rfl

/-- No chain is walked past its end, whatever the message. -/
theorem chainLength_le (msg : Bytes) (c : Nat) : chainLength msg c ≤ wotsW - 1 := by
  have hall : ∀ x ∈ chainLengths msg, x < 16 := by
    intro x hx
    simp only [chainLengths, wotsChecksum, List.mem_append] at hx
    exact hx.elim (baseWLoop_lt x) (baseWLoop_lt x)
  unfold chainLength
  cases e : (chainLengths msg)[c]? with
  | none => exact Nat.zero_le _
  | some x => exact Nat.le_of_lt_succ (hall x (List.mem_of_getElem? e))

/-- **No message covers another**: some chain is walked less far for the second message than for
the first, whichever two messages these are. -/
theorem chain_lengths_incomparable {msg msg' : Bytes} (h : msg.length = n) (h' : msg'.length = n) (hne : msg ≠ msg') :
    ∃ c < wotsLen, chainLength msg' c < chainLength msg c := by
  by_contra hno
  have hcovers : Covers (chainLengths msg) (chainLengths msg') := by
    refine List.forall₂_iff_get.mpr ⟨by rw [length_chainLengths h, length_chainLengths h'], fun c hc hc' => ?_⟩
    have hle : chainLength msg c ≤ chainLength msg' c := by
      rw [length_chainLengths h] at hc
      exact Nat.le_of_not_lt fun hlt => hno ⟨c, hc, hlt⟩
    rw [chainLength, chainLength, List.getElem?_eq_getElem hc, List.getElem?_eq_getElem hc'] at hle
    exact hle
  rw [chainLengths_eq h, chainLengths_eq h'] at hcovers
  have hlen : (nibbles msg).length = (nibbles msg').length := by rw [length_nibbles, length_nibbles, h, h']
  have hbound : (nibbles msg).length * (16 - 1) < 16 ^ wotsLen2 := by
    rw [length_nibbles, h]
    decide
  exact hne (nibbles_injective (checked_antichain (nibbles_lt msg') hlen hbound hcovers))

/-! ## Verifying: `wotsPkFromSig` -/

variable (H : Hash) (ctx : Ctx) (layer tree keypair : Nat)

/-- The address of a chain, whatever position in it was hashed last. -/
abbrev OffHash (j : Nat) : Prop := j ≠ 31

/-- The address of a one-time key, whatever chain was walked last. -/
abbrev OffChain (j : Nat) : Prop := j ≠ 27 ∧ j ≠ 31

theorem setHashAddr_wots {a : Addr} {c : Nat}
    (ha : AgreeOn OffHash a (setChainAddr (keypairAddr addrTypeWots layer tree keypair) c)) (k : Nat) :
    setHashAddr a k = (Position.wots layer tree keypair c k).addr := by
  apply Vector.ext
  intro j hj
  have := ha j hj
  grind [Position.addr]

theorem setHashAddr_agreeOn (a : Addr) (k : Nat) : AgreeOn OffHash (setHashAddr a k) a := by
  intro j hj hne
  grind

theorem genChainLoop_spec {c : Nat} : ∀ (left i : Nat) (out : Bytes) (addr : Addr), i + left ≤ wotsW →
    AgreeOn OffHash addr (setChainAddr (keypairAddr addrTypeWots layer tree keypair) c) →
    (genChainLoop H ctx left i out addr).1 = walk (wotsStep H ctx layer tree keypair c) i left out ∧
    AgreeOn OffHash (genChainLoop H ctx left i out addr).2 (setChainAddr (keypairAddr addrTypeWots layer tree keypair) c)
  | 0, i, out, addr, _, ha => ⟨rfl, ha⟩
  | left + 1, i, out, addr, hi, ha => by
    rw [genChainLoop, if_pos (by omega)]
    have hrest := genChainLoop_spec left (i + 1) (H.thash ctx.pubSeed out (setHashAddr addr i)) (setHashAddr addr i)
      (by omega) ((setHashAddr_agreeOn addr i).trans ha)
    refine ⟨hrest.1.trans ?_, hrest.2⟩
    rw [walk, wotsStep, thashAt, setHashAddr_wots layer tree keypair ha]

/-- Before chain `c`: the ends of the chains before it, and an address of this key. -/
def EndsSoFar (msg sig : Bytes) (c : Nat) : Bytes × Addr → Prop
  | (pk, addr) =>
    pk.length = wotsLen * n ∧
    (∀ e < c, block n e pk = walk (wotsStep H ctx layer tree keypair e) (chainLength msg e)
      (wotsW - 1 - chainLength msg e) (block n e sig)) ∧
    AgreeOn OffChain addr (keypairAddr addrTypeWots layer tree keypair)

theorem length_walk {c : Nat} {x : Bytes} (hx : x.length = n) :
    ∀ (steps k : Nat), (walk (wotsStep H ctx layer tree keypair c) k steps x).length = n
  | 0, _ => hx
  | steps + 1, k => by
    rw [walk_succ]
    exact length_thashAt ..

theorem wotsPkRound_step {msg sig : Bytes} (hsig : wotsLen * n ≤ sig.length) {c : Nat} (hc : c < wotsLen)
    {st : Bytes × Addr} (h : EndsSoFar H ctx layer tree keypair msg sig c st) :
    EndsSoFar H ctx layer tree keypair msg sig (c + 1) (wotsPkRound H ctx (chainLengths msg) sig c st) := by
  obtain ⟨pk, addr⟩ := st
  obtain ⟨hlen, hends, haddr⟩ := h
  have hle := chainLength_le msg c
  have hchain : AgreeOn OffHash (setChainAddr addr c) (setChainAddr (keypairAddr addrTypeWots layer tree keypair) c) := by
    intro j hj hne
    have := haddr j hj
    grind
  obtain ⟨hout, haddr'⟩ := genChainLoop_spec H ctx layer tree keypair (wotsW - 1 - chainLength msg c)
    (chainLength msg c) (block n c sig) (setChainAddr addr c) (by simp only [wotsW] at hle ⊢; omega) hchain
  have hblock := length_walk H ctx layer tree keypair (c := c) (length_block hc hsig) (wotsW - 1 - chainLength msg c)
    (chainLength msg c)
  refine ⟨?_, fun e he => ?_, fun j hj hne => ?_⟩
  · exact length_setBlock hc hlen (hout ▸ hblock)
  · rcases Nat.lt_succ_iff_lt_or_eq.mp he with hlt | rfl
    · exact (block_setBlock_ne hc hlen (hout ▸ hblock) (Nat.ne_of_lt hlt)).trans (hends e hlt)
    · exact (block_setBlock_self hc hlen (hout ▸ hblock)).trans hout
  · have h' := haddr' j hj hne.2
    rw [getElem_setChainAddr, if_neg hne.1] at h'
    exact h'

/-- **`wots_pk_from_sig` walks the chains to their ends.** -/
theorem wotsPkFromSig_spec (msg : Bytes) {sig : Bytes} {addr : Addr} (hsig : wotsLen * n ≤ sig.length)
    (haddr : AgreeOn OffChain addr (keypairAddr addrTypeWots layer tree keypair)) :
    thashAt H ctx (.wotsPk layer tree keypair) (wotsPkFromSig H ctx sig msg addr).1 =
      wotsRecovered H ctx layer tree keypair msg sig ∧
    AgreeOn OffChain (wotsPkFromSig H ctx sig msg addr).2 (keypairAddr addrTypeWots layer tree keypair) := by
  have hloop := forRange_inv (n := wotsLen) (EndsSoFar H ctx layer tree keypair msg sig)
    (s := (List.replicate wotsBytes 0, addr)) ⟨by simp [wotsBytes], fun e he => absurd he (Nat.not_lt_zero e), haddr⟩
    fun c hc _ h => wotsPkRound_step H ctx layer tree keypair hsig hc h
  rw [wotsPkFromSig]
  revert hloop
  generalize forRange wotsLen _ _ = st
  obtain ⟨pk, addr'⟩ := st
  rintro ⟨hlen, hends, haddr'⟩
  refine ⟨?_, haddr'⟩
  rw [eq_ofBlocks hlen hends]
  rfl

/-! ## Signing: `wotsGenLeafx1` -/

/-- One chain walked to its top; its value at `wotsK`, if it is reached, is stored on the way. -/
theorem wotsChainx1_spec (c wotsK : Nat) : ∀ (left k : Nat) (buffer : Bytes) (info : LeafInfoX1),
    AgreeOn OffHash info.leafAddr (setChainAddr (keypairAddr addrTypeWots layer tree keypair) c) →
    ∃ leafAddr, AgreeOn OffHash leafAddr (setChainAddr (keypairAddr addrTypeWots layer tree keypair) c) ∧
      wotsChainx1 H ctx c wotsK left k buffer info =
        (walk (wotsStep H ctx layer tree keypair c) k left buffer,
          { info with
            leafAddr := leafAddr
            wotsSig :=
              if k ≤ wotsK ∧ wotsK ≤ k + left then
                setBlock n c info.wotsSig (walk (wotsStep H ctx layer tree keypair c) k (wotsK - k) buffer)
              else info.wotsSig })
  | 0, k, buffer, info, ha => by
    refine ⟨info.leafAddr, ha, ?_⟩
    by_cases hk : k = wotsK
    · subst hk
      simp [wotsChainx1, walk]
    · rw [wotsChainx1, if_neg hk, if_neg (by omega), walk]
  | left + 1, k, buffer, info, ha => by
    have hhash := setHashAddr_wots layer tree keypair ha k
    obtain ⟨leafAddr, ha', hrest⟩ := wotsChainx1_spec c wotsK left (k + 1) (wotsStep H ctx layer tree keypair c k buffer)
      { info with
        wotsSig := if k = wotsK then setBlock n c info.wotsSig buffer else info.wotsSig
        leafAddr := setHashAddr info.leafAddr k } ((setHashAddr_agreeOn _ k).trans ha)
    refine ⟨leafAddr, ha', ?_⟩
    rw [wotsStep, thashAt, ← hhash] at hrest
    rw [wotsChainx1]
    by_cases hk : k = wotsK
    · subst hk
      rw [if_pos rfl, if_neg (by omega)] at hrest
      rw [if_pos rfl, if_pos ⟨Nat.le_refl k, by omega⟩, Nat.sub_self, walk, walk, wotsStep, thashAt, ← hhash]
      exact hrest
    · rw [if_neg hk] at hrest
      rw [if_neg hk, walk, wotsStep, thashAt, ← hhash]
      refine hrest.trans ?_
      by_cases hlater : k ≤ wotsK ∧ wotsK ≤ k + (left + 1)
      · rw [if_pos (by omega), if_pos hlater, show wotsK - k = wotsK - (k + 1) + 1 by omega, walk, wotsStep, thashAt, ← hhash]
      · rw [if_neg (by omega), if_neg hlater]

/-- The address of a one-time key, under either type its secrets and its chains have. -/
abbrev OffType (j : Nat) : Prop := j ≠ 19 ∧ j ≠ 27 ∧ j ≠ 31

/-- Before chain `c` of the leaf that `info₀` was handed for. Only the leaf that signs writes to the
signature. -/
structure LeafSoFar (msg : Bytes) (info₀ : LeafInfoX1) (c : Nat) (st : Bytes × LeafInfoX1) : Prop where
  pk_length : st.1.length = wotsLen * n
  ends : ∀ e < c, block n e st.1 =
    walk (wotsStep H ctx layer tree keypair e) 0 (wotsW - 1) (wotsSecret H ctx layer tree keypair e)
  sig_length : st.2.wotsSig.length = wotsLen * n
  signed : keypair = info₀.wotsSignLeaf → ∀ e < c, block n e st.2.wotsSig =
    walk (wotsStep H ctx layer tree keypair e) 0 (chainLength msg e) (wotsSecret H ctx layer tree keypair e)
  unsigned : keypair ≠ info₀.wotsSignLeaf → st.2.wotsSig = info₀.wotsSig
  leafAddr : AgreeOn OffType st.2.leafAddr (keypairAddr addrTypeWots layer tree keypair)
  frame : st.2.wotsSignLeaf = info₀.wotsSignLeaf ∧ st.2.wotsSteps = info₀.wotsSteps ∧ st.2.pkAddr = info₀.pkAddr

/-- `wots_k_mask` -/
abbrev kMask (info : LeafInfoX1) : Nat := if keypair = info.wotsSignLeaf then 0 else 2 ^ 32 - 1

/-- A chain is stored at its length by the leaf that signs, and nowhere by any other. -/
theorem wotsK_reached (info : LeafInfoX1) (msg : Bytes) (c : Nat) :
    0 ≤ chainLength msg c ||| kMask keypair info ∧ chainLength msg c ||| kMask keypair info ≤ 0 + (wotsW - 1) ↔
      keypair = info.wotsSignLeaf := by
  have hle := chainLength_le msg c
  unfold kMask
  split
  · rename_i h
    simpa [h] using hle
  · rename_i h
    have hmask := Nat.right_le_or (n := chainLength msg c) (m := 2 ^ 32 - 1)
    simp only [h, iff_false, wotsW]
    omega

/-- One chain of a leaf. -/
theorem wotsLeafRound_eq {msg : Bytes} {info : LeafInfoX1} (hsteps : info.wotsSteps = chainLengths msg)
    (haddr : AgreeOn OffType info.leafAddr (keypairAddr addrTypeWots layer tree keypair)) (c : Nat) (pk : Bytes) :
    ∃ leafAddr, AgreeOn OffHash leafAddr (setChainAddr (keypairAddr addrTypeWots layer tree keypair) c) ∧
      wotsLeafRound H ctx (kMask keypair info) c (pk, info) =
        (setBlock n c pk
          (walk (wotsStep H ctx layer tree keypair c) 0 (wotsW - 1) (wotsSecret H ctx layer tree keypair c)),
          { info with
            leafAddr := leafAddr
            wotsSig :=
              if keypair = info.wotsSignLeaf then
                setBlock n c info.wotsSig
                  (walk (wotsStep H ctx layer tree keypair c) 0 (chainLength msg c) (wotsSecret H ctx layer tree keypair c))
              else info.wotsSig }) := by
  have hprf : setType (setHashAddr (setChainAddr info.leafAddr c) 0) addrTypeWotsprf =
      (Position.wotsPrf layer tree keypair c).addr := by
    apply Vector.ext
    intro j hj
    have := haddr j hj
    grind [Position.addr, keypairAddr]
  have hchain : AgreeOn OffHash (setType (Position.wotsPrf layer tree keypair c).addr addrTypeWots)
      (setChainAddr (keypairAddr addrTypeWots layer tree keypair) c) := by
    intro j hj hne
    grind [Position.addr, keypairAddr]
  have hlength : info.wotsSteps[c]?.getD 0 = chainLength msg c := by rw [hsteps, chainLength]
  obtain ⟨leafAddr, ha, hwalk⟩ := wotsChainx1_spec H ctx layer tree keypair c (chainLength msg c ||| kMask keypair info)
    (wotsW - 1) 0 (wotsSecret H ctx layer tree keypair c)
    { info with leafAddr := setType (Position.wotsPrf layer tree keypair c).addr addrTypeWots } hchain
  refine ⟨leafAddr, ha, ?_⟩
  rw [wotsLeafRound, hprf, hlength, ← prfAt, ← wotsSecret, hwalk]
  simp only [wotsK_reached keypair info msg c, Prod.mk.injEq, LeafInfoX1.mk.injEq, true_and, and_true]
  split
  · rename_i hsigns
    rw [Nat.or_zero, Nat.sub_zero]
  · rfl

theorem wotsLeafRound_step {msg : Bytes} {info₀ : LeafInfoX1} (hsteps : info₀.wotsSteps = chainLengths msg) {c : Nat}
    (hc : c < wotsLen) {st : Bytes × LeafInfoX1} (h : LeafSoFar H ctx layer tree keypair msg info₀ c st) :
    LeafSoFar H ctx layer tree keypair msg info₀ (c + 1) (wotsLeafRound H ctx (kMask keypair info₀) c st) := by
  obtain ⟨pk, info⟩ := st
  obtain ⟨hlen, hends, hsig, hsigned, hunsigned, haddr, hleaf, hinfo, hpk⟩ := h
  dsimp only at hlen hends hsig hsigned hunsigned haddr hleaf hinfo hpk
  obtain ⟨leafAddr, ha, hround⟩ := wotsLeafRound_eq H ctx layer tree keypair (hinfo.trans hsteps) haddr c pk
  have hstart : (wotsSecret H ctx layer tree keypair c).length = n := length_prfAt ..
  have htop := length_walk H ctx layer tree keypair (c := c) hstart (wotsW - 1) 0
  have hvalue := length_walk H ctx layer tree keypair (c := c) hstart (chainLength msg c) 0
  rw [show kMask keypair info₀ = kMask keypair info by rw [kMask, kMask, hleaf], hround]
  refine ⟨length_setBlock hc hlen htop, fun e he => ?_, ?_, fun hsigns e he => ?_, fun hother => ?_, fun j hj hne => ?_,
    hleaf, hinfo, hpk⟩
  · rcases Nat.lt_succ_iff_lt_or_eq.mp he with hlt | rfl
    · exact (block_setBlock_ne hc hlen htop (Nat.ne_of_lt hlt)).trans (hends e hlt)
    · exact block_setBlock_self hc hlen htop
  · dsimp only
    split
    · exact length_setBlock hc hsig hvalue
    · exact hsig
  · rw [hleaf, if_pos hsigns]
    rcases Nat.lt_succ_iff_lt_or_eq.mp he with hlt | rfl
    · exact (block_setBlock_ne hc hsig hvalue (Nat.ne_of_lt hlt)).trans (hsigned hsigns e hlt)
    · exact block_setBlock_self hc hsig hvalue
  · rw [hleaf, if_neg hother]
    exact hunsigned hother
  · have h' := ha j hj hne.2.2
    rw [getElem_setChainAddr, if_neg hne.2.1] at h'
    exact h'

/-! ## The leaves of a tree -/

/-- The address of a tree, whatever leaf was made last. -/
abbrev OffKeypair (j : Nat) : Prop := OffType j ∧ ¬ (20 ≤ j ∧ j < 24)

/-- Before leaf `idx` of a tree in which key `idxLeaf` signs `msg`. -/
structure WotsInfo (msg : Bytes) (idxLeaf idx : Nat) (info : LeafInfoX1) : Prop where
  steps : info.wotsSteps = chainLengths msg
  signLeaf : info.wotsSignLeaf = idxLeaf
  sig_length : info.wotsSig.length = wotsLen * n
  signed : idxLeaf < idx → info.wotsSig = wotsSigned H ctx layer tree idxLeaf msg
  leafAddr : AgreeOn OffKeypair info.leafAddr (subtreeAddr layer tree)
  pkAddr : AgreeOn (fun j => ¬ (20 ≤ j ∧ j < 24)) info.pkAddr (setType (subtreeAddr layer tree) addrTypeWotspk)

theorem wotsLeafLoop_spec {msg : Bytes} (info : LeafInfoX1) (hsteps : info.wotsSteps = chainLengths msg)
    (hsig : info.wotsSig.length = wotsLen * n)
    (haddr : AgreeOn OffType info.leafAddr (keypairAddr addrTypeWots layer tree keypair)) :
    LeafSoFar H ctx layer tree keypair msg info wotsLen
      (forRange wotsLen (wotsLeafRound H ctx (kMask keypair info)) (List.replicate wotsBytes 0, info)) :=
  forRange_inv _
    ⟨by simp [wotsBytes], fun e he => absurd he (Nat.not_lt_zero e), hsig, fun _ e he => absurd he (Nat.not_lt_zero e),
      fun _ => rfl, haddr, rfl, rfl, rfl⟩
    fun _ hc _ h => wotsLeafRound_step H ctx layer tree keypair hsteps hc h

theorem wotsGenLeafx1_spec {msg : Bytes} {idxLeaf : Nat} {info : LeafInfoX1}
    (h : WotsInfo H ctx layer tree msg idxLeaf keypair info) :
    ∃ info', wotsGenLeafx1 H ctx keypair info = (wotsLeaf H ctx layer tree keypair, info') ∧
      WotsInfo H ctx layer tree msg idxLeaf (keypair + 1) info' := by
  have hkey : AgreeOn OffType (setKeypairAddr info.leafAddr keypair) (keypairAddr addrTypeWots layer tree keypair) := by
    intro j hj hne
    have := h.leafAddr j hj
    grind [keypairAddr]
  have hpk : setKeypairAddr info.pkAddr keypair = (Position.wotsPk layer tree keypair).addr := by
    apply Vector.ext
    intro j hj
    have := h.pkAddr j hj
    grind [Position.addr, keypairAddr]
  have hsame : AgreeOn OffKeypair (keypairAddr addrTypeWots layer tree keypair) (subtreeAddr layer tree) := by
    intro j hj hne
    grind [keypairAddr]
  have hloop := wotsLeafLoop_spec H ctx layer tree keypair
    { info with leafAddr := setKeypairAddr info.leafAddr keypair, pkAddr := setKeypairAddr info.pkAddr keypair }
    h.steps h.sig_length hkey
  rw [wotsGenLeafx1]
  revert hloop
  generalize forRange wotsLen _ _ = st
  obtain ⟨pk, info'⟩ := st
  rintro ⟨hlen, hends, hsig, hsigned, hunsigned, haddr, hleaf, hsteps, hpk'⟩
  refine ⟨info', ?_, hsteps.trans h.steps, hleaf.trans h.signLeaf, hsig, fun hlt => ?_, fun j hj hne => ?_, fun j hj hne => ?_⟩
  · have hleaf' : H.thash ctx.pubSeed pk info'.pkAddr = wotsLeaf H ctx layer tree keypair := by
      rw [show pk = _ from eq_ofBlocks hlen hends, show info'.pkAddr = _ from hpk'.trans hpk]
      rfl
    exact congrArg (·, info') hleaf'
  · rcases Nat.lt_succ_iff_lt_or_eq.mp hlt with hdone | rfl
    · exact (hunsigned (h.signLeaf ▸ Nat.ne_of_gt hdone)).trans (h.signed hdone)
    · exact eq_ofBlocks hsig (hsigned h.signLeaf.symm)
  · exact (haddr j hj hne.1).trans (hsame j hj hne)
  · rw [show info'.pkAddr = _ from hpk', getElem_setKeypairAddr, if_neg hne]
    exact h.pkAddr j hj hne

/-- **`wots_gen_leafx1` makes the leaves of a tree** and signs at the leaf it is told. -/
theorem wotsLeaves (msg : Bytes) (idxLeaf height : Nat) :
    Leaves (wotsGenLeafx1 H ctx) 0 height (wotsLeaf H ctx layer tree) (WotsInfo H ctx layer tree msg idxLeaf) where
  length := fun _ _ => H.length_thash ..
  step := fun idx _ _ h => wotsGenLeafx1_spec H ctx layer tree idx h

end BitcoinPqc.Spx
