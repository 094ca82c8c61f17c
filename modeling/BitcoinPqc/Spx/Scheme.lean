import BitcoinPqc.Lib.Blocks
import BitcoinPqc.Lib.Loops
import BitcoinPqc.Spx.Address

/-!
# SPHINCS+ as the library builds it

The reference implementation with the parameters of sphincs-shake-128s. Which hash functions it
uses is decided by the files that are linked (`Hash`); everything else is here: the one-time
signature with its chains, the few-time signature, the tree hash both of them use, the hypertree.
Addresses are passed along as the C code passes them, with what earlier calls left in them. Local
arrays start as zeros; every cell is written before it is read.

| here | there |
| --- | --- |
| `Ctx`, `Hash` | context.h; hash.h and thash.h, whose definitions are chosen by linking |
| `genChain`, `baseW`, `wotsChecksum`, `chainLengths`, `wotsPkFromSig` | wots.c |
| `LeafInfoX1`, `wotsGenLeafx1` | wotsx1.h:13, wotsx1.c |
| `computeRoot`, `treehashx1` | utils.c:52, utilsx1.c:25 |
| `messageToIndices`, `forsSign`, `forsPkFromSig` | fors.c |
| `merkleSign`, `merkleGenRoot` | merkle.c |
| `hashMessage` | hash_shake.c:57 (the splitting of the digest is the same in every hash_*.c) |
| `cryptoSignSeedKeypair`, `cryptoSignSignature`, `cryptoSignVerify`, `cryptoSign`, `cryptoSignOpen` | sign.c |
-/
namespace BitcoinPqc.Spx
open CSem

/-! ## The remaining parameters (params-sphincs-shake-128s.h) -/

def treeHeight : Nat := fullHeight / d
def wotsW : Nat := 16
def forsMsgBytes : Nat := (forsHeight * forsTrees + 7) / 8
def treeBits : Nat := treeHeight * (d - 1)
def treeBytes : Nat := (treeBits + 7) / 8
def leafBits : Nat := treeHeight
def leafBytes : Nat := (leafBits + 7) / 8
def dgstBytes : Nat := forsMsgBytes + treeBytes + leafBytes

/-- The verifier leaves `skSeed` uninitialised and never reads it. -/
structure Ctx where
  pubSeed : Bytes
  skSeed : Bytes

/-- The hash functions. `thash` sees the public seed of the context, `prfAddr` both seeds;
`digest` is what `hash_message` splits. -/
structure Hash where
  thash : (pubSeed inp : Bytes) → Addr → Bytes
  prfAddr : Ctx → Addr → Bytes
  genMessageRandom : (skPrf optrand m : Bytes) → Bytes
  digest : (r pk m : Bytes) → Bytes
  length_thash : ∀ pubSeed inp addr, (thash pubSeed inp addr).length = n
  length_prfAddr : ∀ ctx addr, (prfAddr ctx addr).length = n
  length_genMessageRandom : ∀ skPrf optrand m, (genMessageRandom skPrf optrand m).length = n
  length_digest : ∀ r pk m, (digest r pk m).length = dgstBytes

attribute [simp] Hash.length_thash Hash.length_prfAddr Hash.length_genMessageRandom Hash.length_digest

variable (H : Hash)

/-! ## One-time signatures -/

/-- wots.c:24. The loop has `left` steps to go and stops at `SPX_WOTS_W`. -/
def genChainLoop (ctx : Ctx) : (left i : Nat) → (out : Bytes) → (addr : Addr) → Bytes × Addr
  | 0, _, out, addr => (out, addr)
  | left + 1, i, out, addr =>
    if i < wotsW then
      let addr := setHashAddr addr i
      genChainLoop ctx left (i + 1) (H.thash ctx.pubSeed out addr) addr
    else (out, addr)

def genChain (ctx : Ctx) (inp : Bytes) (start steps : Nat) (addr : Addr) : Bytes × Addr :=
  genChainLoop H ctx steps start inp addr

/-- wots.c:46, from the state `total`, `bits` on. -/
def baseWLoop : (outLen : Nat) → (input : Bytes) → (total bits : Nat) → List Nat
  | 0, _, _, _ => []
  | outLen + 1, input, total, bits =>
    if bits = 0 then
      let total := (input.headD 0).toNat
      ((total >>> (8 - wotsLogw)) &&& (wotsW - 1)) :: baseWLoop outLen input.tail total (8 - wotsLogw)
    else ((total >>> (bits - wotsLogw)) &&& (wotsW - 1)) :: baseWLoop outLen input total (bits - wotsLogw)

def baseW (outLen : Nat) (input : Bytes) : List Nat := baseWLoop outLen input 0 0

/-- wots.c:69 -/
def wotsChecksum (msgBaseW : List Nat) : List Nat :=
  let csum := forRange wotsLen1 (fun i csum => csum + (wotsW - 1 - msgBaseW[i]?.getD 0)) 0
  let csum := csum <<< ((8 - ((wotsLen2 * wotsLogw) % 8)) % 8)
  baseW wotsLen2 (ullToBytes ((wotsLen2 * wotsLogw + 7) / 8) csum)

/-- wots.c:89 -/
def chainLengths (msg : Bytes) : List Nat :=
  let lengths := baseW wotsLen1 msg
  lengths ++ wotsChecksum lengths

/-- The body of the loop at wots.c:109; the state is `pk` and `addr`. -/
def wotsPkRound (ctx : Ctx) (lengths : List Nat) (sig : Bytes) (i : Nat) : Bytes × Addr → Bytes × Addr
  | (pk, addr) =>
    let addr := setChainAddr addr i
    let (out, addr) := genChain H ctx (block n i sig) (lengths[i]?.getD 0) (wotsW - 1 - lengths[i]?.getD 0) addr
    (setBlock n i pk out, addr)

/-- wots.c:100 -/
def wotsPkFromSig (ctx : Ctx) (sig msg : Bytes) (addr : Addr) : Bytes × Addr :=
  forRange wotsLen (wotsPkRound H ctx (chainLengths msg) sig) (List.replicate wotsBytes 0, addr)

structure LeafInfoX1 where
  wotsSig : Bytes
  wotsSignLeaf : Nat
  wotsSteps : List Nat
  leafAddr : Addr
  pkAddr : Addr

/-- The loop over one chain (wotsx1.c:52-67), with `left` steps to the top. -/
def wotsChainx1 (ctx : Ctx) (i wotsK : Nat) : (left k : Nat) → Bytes → LeafInfoX1 → Bytes × LeafInfoX1
  | left, k, buffer, info =>
    let info := if k = wotsK then { info with wotsSig := setBlock n i info.wotsSig buffer } else info
    match left with
    | 0 => (buffer, info)
    | left + 1 =>
      let leafAddr := setHashAddr info.leafAddr k
      wotsChainx1 ctx i wotsK left (k + 1) (H.thash ctx.pubSeed buffer leafAddr) { info with leafAddr }

/-- The body of the loop at wotsx1.c:39; the state is `pk_buffer` and `info`. -/
def wotsLeafRound (ctx : Ctx) (wotsKMask : Nat) (i : Nat) : Bytes × LeafInfoX1 → Bytes × LeafInfoX1
  | (pkBuffer, info) =>
    let wotsK := (info.wotsSteps[i]?.getD 0) ||| wotsKMask
    let leafAddr := setType (setHashAddr (setChainAddr info.leafAddr i) 0) addrTypeWotsprf
    let buffer := H.prfAddr ctx leafAddr
    let info := { info with leafAddr := setType leafAddr addrTypeWots }
    let (buffer, info) := wotsChainx1 H ctx i wotsK (wotsW - 1) 0 buffer info
    (setBlock n i pkBuffer buffer, info)

/-- wotsx1.c:17 -/
def wotsGenLeafx1 (ctx : Ctx) (leafIdx : Nat) (info : LeafInfoX1) : Bytes × LeafInfoX1 :=
  let wotsKMask := if leafIdx = info.wotsSignLeaf then 0 else 2 ^ 32 - 1
  let info := { info with
    leafAddr := setKeypairAddr info.leafAddr leafIdx
    pkAddr := setKeypairAddr info.pkAddr leafIdx }
  let (pkBuffer, info) := forRange wotsLen (wotsLeafRound H ctx wotsKMask) (List.replicate wotsBytes 0, info)
  (H.thash ctx.pubSeed pkBuffer info.pkAddr, info)

/-! ## Merkle trees -/

/-- The body of the loop at utils.c:74; the state is `buffer`, `leaf_idx`, `idx_offset` and
`addr`. -/
def computeRootRound (ctx : Ctx) (authPath : Bytes) (i : Nat) : Bytes × Nat × Nat × Addr → Bytes × Nat × Nat × Addr
  | (buffer, leafIdx, idxOffset, addr) =>
    let leafIdx := leafIdx >>> 1
    let idxOffset := idxOffset >>> 1
    let addr := setTreeIndex (setTreeHeight addr (i + 1)) (leafIdx + idxOffset)
    let node := H.thash ctx.pubSeed buffer addr
    let buffer := if leafIdx &&& 1 = 1 then block n (i + 1) authPath ++ node else node ++ block n (i + 1) authPath
    (buffer, leafIdx, idxOffset, addr)

/-- utils.c:52 -/
def computeRoot (ctx : Ctx) (leaf : Bytes) (leafIdx idxOffset : Nat) (authPath : Bytes) (height : Nat) (addr : Addr) :
    Bytes × Addr :=
  let buffer := if leafIdx &&& 1 = 1 then block n 0 authPath ++ leaf else leaf ++ block n 0 authPath
  let (buffer, leafIdx, idxOffset, addr) :=
    forRange (height - 1) (computeRootRound H ctx authPath) (buffer, leafIdx, idxOffset, addr)
  let leafIdx := leafIdx >>> 1
  let idxOffset := idxOffset >>> 1
  let addr := setTreeIndex (setTreeHeight addr height) (leafIdx + idxOffset)
  (H.thash ctx.pubSeed buffer addr, addr)

/-- What a tree hash keeps while it runs: `stack`, the caller's `auth_path` and `tree_addr`. -/
structure TreeState where
  stack : Bytes
  authPath : Bytes
  treeAddr : Addr

/-- Where the inner loop ends: at the root, or at a left child of height `h`. -/
inductive Climbed where
  | root (current : Bytes)
  | left (h : Nat) (current : Bytes)

/-- The inner loop (utilsx1.c:57-97), with `left` levels to the top. -/
def treehashClimb (ctx : Ctx) (idx maxIdx : Nat) :
    (left h internalIdx internalLeaf internalIdxOffset : Nat) → Bytes → TreeState → Climbed × TreeState
  | 0, _, _, _, _, current, st => (.root current, st)
  | left + 1, h, internalIdx, internalLeaf, internalIdxOffset, current, st =>
    let st := if internalIdx ^^^ internalLeaf = 1 then { st with authPath := setBlock n h st.authPath current } else st
    if internalIdx &&& 1 = 0 ∧ idx < maxIdx then (.left h current, st)
    else
      let internalIdxOffset := internalIdxOffset >>> 1
      let treeAddr := setTreeIndex (setTreeHeight st.treeAddr (h + 1)) (internalIdx / 2 + internalIdxOffset)
      let current := H.thash ctx.pubSeed (block n h st.stack ++ current) treeAddr
      treehashClimb ctx idx maxIdx left (h + 1) (internalIdx >>> 1) (internalLeaf >>> 1) internalIdxOffset current
        { st with treeAddr }

/-- The outer loop (utilsx1.c:44-102); out of fuel it has not returned. -/
def treehashLoop {ι : Type} (ctx : Ctx) (leafIdx idxOffset height : Nat) (genLeaf : Nat → ι → Bytes × ι) :
    (fuel idx : Nat) → TreeState → ι → Option (Bytes × TreeState × ι)
  | 0, _, _, _ => none
  | fuel + 1, idx, st, info =>
    let (leaf, info) := genLeaf (idx + idxOffset) info
    match treehashClimb H ctx idx (2 ^ height - 1) height 0 idx leafIdx idxOffset leaf st with
    | (.root root, st) => some (root, st, info)
    | (.left h current, st) =>
      treehashLoop ctx leafIdx idxOffset height genLeaf fuel (idx + 1) { st with stack := setBlock n h st.stack current } info

/-- utilsx1.c:25. Returns the root and what `auth_path`, `tree_addr` and `info` are afterwards. -/
def treehashx1 {ι : Type} (ctx : Ctx) (authPath : Bytes) (leafIdx idxOffset height : Nat)
    (genLeaf : Nat → ι → Bytes × ι) (treeAddr : Addr) (info : ι) : Option (Bytes × Bytes × Addr × ι) :=
  (treehashLoop H ctx leafIdx idxOffset height genLeaf (2 ^ height) 0
    ⟨List.replicate (height * n) 0, authPath, treeAddr⟩ info).map fun (root, st, info) =>
      (root, st.authPath, st.treeAddr, info)

/-! ## Few-time signatures -/

/-- fors.c:33; the state is `leaf_addrx`. -/
def forsGenLeafx1 (ctx : Ctx) (addrIdx : Nat) (leafAddr : Addr) : Bytes × Addr :=
  let leafAddr := setType (setTreeIndex leafAddr addrIdx) addrTypeForsprf
  let leaf := H.prfAddr ctx leafAddr
  let leafAddr := setType leafAddr addrTypeForstree
  (H.thash ctx.pubSeed leaf leafAddr, leafAddr)

/-- fors.c:55 -/
def messageToIndices (m : Bytes) : List Nat :=
  (List.range forsTrees).map fun i =>
    forRange forsHeight (fun j index =>
      let offset := i * forsHeight + j
      index ^^^ ((((m[offset >>> 3]?.getD 0).toNat >>> (offset &&& 0x7)) &&& 1) <<< j)) 0

/-- The body of the loop at fors.c:94; the state is the signature so far, `roots` and the two
addresses. -/
def forsSignRound (ctx : Ctx) (indices : List Nat) (i : Nat) :
    Bytes × Bytes × Addr × Addr → Option (Bytes × Bytes × Addr × Addr)
  | (sig, roots, forsTreeAddr, forsLeafAddr) => do
    let idxOffset := i * 2 ^ forsHeight
    let index := indices[i]?.getD 0
    let forsTreeAddr := setTreeIndex (setTreeHeight forsTreeAddr 0) (index + idxOffset)
    let forsTreeAddr := setType forsTreeAddr addrTypeForsprf
    let sk := H.prfAddr ctx forsTreeAddr
    let forsTreeAddr := setType forsTreeAddr addrTypeForstree
    let (root, authPath, forsTreeAddr, forsLeafAddr) ←
      treehashx1 H ctx (List.replicate (forsHeight * n) 0) index idxOffset forsHeight (forsGenLeafx1 H ctx)
        forsTreeAddr forsLeafAddr
    some (sig ++ sk ++ authPath, setBlock n i roots root, forsTreeAddr, forsLeafAddr)

/-- fors.c:73. Returns the signature and the public key. -/
def forsSign (m : Bytes) (ctx : Ctx) (forsAddr : Addr) : Option (Bytes × Bytes) := do
  let forsTreeAddr := copyKeypairAddr .zero forsAddr
  let forsLeafAddr := copyKeypairAddr .zero forsAddr
  let forsPkAddr := setType (copyKeypairAddr .zero forsAddr) addrTypeForspk
  let (sig, roots, _, _) ← forRange? forsTrees (forsSignRound H ctx (messageToIndices m))
    ([], List.replicate (forsTrees * n) 0, forsTreeAddr, forsLeafAddr)
  some (sig, H.thash ctx.pubSeed roots forsPkAddr)

/-- The body of the loop at fors.c:145; the state is the rest of the signature, `roots` and
`fors_tree_addr`. -/
def forsPkRound (ctx : Ctx) (indices : List Nat) (i : Nat) : Bytes × Bytes × Addr → Bytes × Bytes × Addr
  | (sig, roots, forsTreeAddr) =>
    let idxOffset := i * 2 ^ forsHeight
    let index := indices[i]?.getD 0
    let forsTreeAddr := setTreeIndex (setTreeHeight forsTreeAddr 0) (index + idxOffset)
    let leaf := H.thash ctx.pubSeed (sig.take n) forsTreeAddr
    let sig := sig.drop n
    let (root, forsTreeAddr) := computeRoot H ctx leaf index idxOffset sig forsHeight forsTreeAddr
    (sig.drop (n * forsHeight), setBlock n i roots root, forsTreeAddr)

/-- fors.c:124 -/
def forsPkFromSig (sig m : Bytes) (ctx : Ctx) (forsAddr : Addr) : Bytes :=
  let forsTreeAddr := setType (copyKeypairAddr .zero forsAddr) addrTypeForstree
  let forsPkAddr := setType (copyKeypairAddr .zero forsAddr) addrTypeForspk
  let (_, roots, _) := forRange forsTrees (forsPkRound H ctx (messageToIndices m))
    (sig, List.replicate (forsTrees * n) 0, forsTreeAddr)
  H.thash ctx.pubSeed roots forsPkAddr

/-! ## The hypertree -/

/-- merkle.c:19. `root` is read before it is written; returns the signature, the new root and
`tree_addr`. -/
def merkleSign (root : Bytes) (ctx : Ctx) (wotsAddr treeAddr : Addr) (idxLeaf : Nat) : Option (Bytes × Bytes × Addr) := do
  let info : LeafInfoX1 := {
    wotsSig := List.replicate wotsBytes 0
    wotsSignLeaf := idxLeaf
    wotsSteps := chainLengths root
    leafAddr := copySubtreeAddr .zero wotsAddr
    pkAddr := copySubtreeAddr (setType .zero addrTypeWotspk) wotsAddr }
  let treeAddr := setType treeAddr addrTypeHashtree
  let (root, authPath, treeAddr, info) ←
    treehashx1 H ctx (List.replicate (treeHeight * n) 0) idxLeaf 0 treeHeight (wotsGenLeafx1 H ctx) treeAddr info
  some (info.wotsSig ++ authPath, root, treeAddr)

/-- merkle.c:48. The old contents of the buffer for the root are read as a message, and `~0`
keeps them from mattering. -/
def merkleGenRoot (root : Bytes) (ctx : Ctx) : Option Bytes := do
  let (_, root, _) ← merkleSign H root ctx (setLayerAddr .zero (d - 1)) (setLayerAddr .zero (d - 1)) (2 ^ 32 - 1)
  some root

/-! ## Messages -/

/-- hash_shake.c:57, after the digest. -/
def hashMessage (r pk m : Bytes) : Bytes × Nat × Nat :=
  let buf := H.digest r pk m
  let tree := bytesToUll ((buf.drop forsMsgBytes).take treeBytes) &&& ((2 ^ 64 - 1) >>> (64 - treeBits))
  let leafIdx := bytesToUll ((buf.drop (forsMsgBytes + treeBytes)).take leafBytes) &&& ((2 ^ 32 - 1) >>> (32 - leafBits))
  (buf.take forsMsgBytes, tree, leafIdx)

/-! ## sign.c -/

/-- sign.c:52; `old` is what the caller's buffer for the root holds. Returns `pk` and `sk`. -/
def cryptoSignSeedKeypair (seed old : Bytes) : Option (Bytes × Bytes) := do
  let sk := seed.take cryptoSeedbytes
  let pk := (sk.drop (2 * n)).take n
  let root ← merkleGenRoot H old ⟨pk, sk.take n⟩
  some (pk ++ root, sk ++ root)

/-- One round of the loop at sign.c:147-164. The state is the signature, the root, both
addresses, `tree` and `idx_leaf`. -/
def signLayer (ctx : Ctx) (i : Nat) : Bytes × Bytes × Addr × Addr × Nat × Nat →
    Option (Bytes × Bytes × Addr × Addr × Nat × Nat)
  | (sig, root, wotsAddr, treeAddr, tree, idxLeaf) => do
    let treeAddr := setTreeAddr (setLayerAddr treeAddr i) tree
    let wotsAddr := setKeypairAddr (copySubtreeAddr wotsAddr treeAddr) idxLeaf
    let (layerSig, root, treeAddr) ← merkleSign H root ctx wotsAddr treeAddr idxLeaf
    some (sig ++ layerSig, root, wotsAddr, treeAddr, tree >>> treeHeight, tree &&& (2 ^ treeHeight - 1))

/-- sign.c:97, given the bytes `optrand` it draws. -/
def cryptoSignSignature (m sk optrand : Bytes) : Option Bytes := do
  let skPrf := (sk.drop n).take n
  let pk := (sk.drop (2 * n)).take pkBytes
  let ctx : Ctx := ⟨pk.take n, sk.take n⟩
  let wotsAddr := setType .zero addrTypeWots
  let treeAddr := setType .zero addrTypeHashtree
  let r := H.genMessageRandom skPrf optrand m
  let (mhash, tree, idxLeaf) := hashMessage H r pk m
  let wotsAddr := setKeypairAddr (setTreeAddr wotsAddr tree) idxLeaf
  let (forsSig, root) ← forsSign H mhash ctx wotsAddr
  let (sig, _) ← forRange? d (signLayer H ctx) (r ++ forsSig, root, wotsAddr, treeAddr, tree, idxLeaf)
  some sig

/-- One round of the loop at sign.c:213-243; the signature is what is left of it. -/
def verifyLayer (ctx : Ctx) (i : Nat) : Bytes × Bytes × Addr × Addr × Addr × Nat × Nat →
    Bytes × Bytes × Addr × Addr × Addr × Nat × Nat
  | (sig, root, wotsAddr, treeAddr, wotsPkAddr, tree, idxLeaf) =>
    let treeAddr := setTreeAddr (setLayerAddr treeAddr i) tree
    let wotsAddr := setKeypairAddr (copySubtreeAddr wotsAddr treeAddr) idxLeaf
    let wotsPkAddr := copyKeypairAddr wotsPkAddr wotsAddr
    let (wotsPk, wotsAddr) := wotsPkFromSig H ctx sig root wotsAddr
    let sig := sig.drop wotsBytes
    let leaf := H.thash ctx.pubSeed wotsPk wotsPkAddr
    let (root, treeAddr) := computeRoot H ctx leaf idxLeaf 0 sig treeHeight treeAddr
    let sig := sig.drop (treeHeight * n)
    (sig, root, wotsAddr, treeAddr, wotsPkAddr, tree >>> treeHeight, tree &&& (2 ^ treeHeight - 1))

/-- The root a signature leads to (sign.c:190-243). -/
def rootFromSig (sig m pk : Bytes) : Bytes :=
  let ctx : Ctx := ⟨pk.take n, []⟩
  let wotsAddr := setType .zero addrTypeWots
  let treeAddr := setType .zero addrTypeHashtree
  let wotsPkAddr := setType .zero addrTypeWotspk
  let (mhash, tree, idxLeaf) := hashMessage H (sig.take n) (pk.take pkBytes) m
  let sig := sig.drop n
  let wotsAddr := setKeypairAddr (setTreeAddr wotsAddr tree) idxLeaf
  let root := forsPkFromSig H sig mhash ctx wotsAddr
  let sig := sig.drop forsBytes
  (forRange d (verifyLayer H ctx) (sig, root, wotsAddr, treeAddr, wotsPkAddr, tree, idxLeaf)).2.1

/-- sign.c:175 -/
def cryptoSignVerify (sig m pk : Bytes) : Int :=
  if sig.length ≠ bytes then -1
  else if rootFromSig H sig m pk ≠ (pk.drop n).take n then -1
  else 0

/-- sign.c:258 -/
def cryptoSign (m sk optrand : Bytes) : Option Bytes := do
  let sig ← cryptoSignSignature H m sk optrand
  some (sig ++ m)

/-- sign.c:277. Returns the code and what is written to `m`; `*mlen` is its length when the code
is 0, and 0 otherwise. -/
def cryptoSignOpen (sm pk : Bytes) : Int × Bytes :=
  if sm.length < bytes then (-1, List.replicate sm.length 0)
  else if cryptoSignVerify H (sm.take bytes) (sm.drop bytes) pk ≠ 0 then (-1, List.replicate sm.length 0)
  else (0, sm.drop bytes)

end BitcoinPqc.Spx
