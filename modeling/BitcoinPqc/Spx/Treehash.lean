import BitcoinPqc.Lib.Merkle
import BitcoinPqc.Spx.Scheme

/-!
# The tree hash

`treehashx1` and `computeRoot` are the two sides of a Merkle tree: the first computes the root of
the tree over its leaves and the siblings of one leaf (`treehashx1_spec`), the second climbs from a
leaf (`computeRoot_spec`). Node `i` at height `h` is hashed at the tree's base address with height
`h` and index `i` plus the offset of the tree, whatever earlier calls left in these fields.
-/
namespace BitcoinPqc.Spx
open CSem Merkle Addr

variable (H : Hash) (ctx : Ctx)

/-- The fields a tree hash does not touch. -/
abbrev BelowNode (i : Nat) : Prop := i < 27

/-- Those that do not depend on the type either. -/
abbrev OffTree (i : Nat) : Prop := i < 27 ∧ i ≠ 19

def nodeAddr (base : Addr) (h i : Nat) : Addr := setTreeIndex (setTreeHeight base h) i

theorem nodeAddr_congr {a base : Addr} (ha : AgreeOn BelowNode a base) (h i : Nat) : nodeAddr a h i = nodeAddr base h i := by
  apply Vector.ext
  intro j hj
  have := ha j hj
  grind [nodeAddr, addrBytes]

theorem nodeAddr_agreeOn (a : Addr) (h i : Nat) : AgreeOn BelowNode (nodeAddr a h i) a := by
  intro j hj hlt
  grind [nodeAddr]

/-- The node made from `l` and `r` in the tree at `base` whose leaves start at index `off`. -/
def treeJoin (base : Addr) (off h i : Nat) (l r : Bytes) : Bytes :=
  H.thash ctx.pubSeed (l ++ r) (nodeAddr base h (i + off / 2 ^ h))

theorem length_node {base : Addr} {off : Nat} {leaf : Nat → Bytes} {height : Nat}
    (hleaf : ∀ i < 2 ^ height, (leaf i).length = n) : ∀ {h i : Nat}, i < 2 ^ (height - h) →
    (node (treeJoin H ctx base off) leaf h i).length = n
  | 0, i, hi => hleaf i hi
  | _ + 1, _, _ => H.length_thash ..

section
variable (base : Addr) (off : Nat)

/-! ## Climbing -/

theorem and_one_eq_one {i : Nat} : i &&& 1 = 1 ↔ i % 2 = 1 := by rw [Nat.and_one_is_mod]

theorem shiftRight_one_div (x h : Nat) : (x / 2 ^ h) >>> 1 = x / 2 ^ (h + 1) := by
  rw [Nat.shiftRight_eq_div_pow, Nat.pow_one, div_pow_succ]

/-- Put a node beside its sibling. -/
def beside (i : Nat) (sib x : Bytes) : Bytes := if i % 2 = 1 then sib ++ x else x ++ sib

theorem thash_beside (sib x : Bytes) (h i : Nat) :
    H.thash ctx.pubSeed (beside i sib x) (nodeAddr base (h + 1) (i / 2 + off / 2 ^ (h + 1))) =
      if i % 2 = 1 then treeJoin H ctx base off (h + 1) (i / 2) sib x
      else treeJoin H ctx base off (h + 1) (i / 2) x sib := by
  unfold beside treeJoin
  split <;> rfl

/-- The last step of a climb. -/
theorem climb_succ (sib : Nat → Bytes) : ∀ (k h i : Nat) (x : Bytes),
    climb (treeJoin H ctx base off) sib (k + 1) h i x =
      H.thash ctx.pubSeed
        (beside (i / 2 ^ k) (sib (h + k)) (climb (treeJoin H ctx base off) sib k h i x))
        (nodeAddr base (h + k + 1) (i / 2 ^ k / 2 + off / 2 ^ (h + k + 1)))
  | 0, h, i, x => by
    rw [climb, climb, climb, Nat.pow_zero, Nat.div_one, thash_beside]
    rfl
  | k + 1, h, i, x => by
    rw [climb, climb_succ sib k (h + 1) (i / 2), climb, Nat.div_div_eq_div_mul, ← Nat.pow_succ',
      show h + 1 + k = h + (k + 1) by omega]

theorem climb_from_leaf (sib : Nat → Bytes) (k i : Nat) (x : Bytes) :
    climb (treeJoin H ctx base off) sib (k + 1) 0 i x =
      H.thash ctx.pubSeed (beside (i / 2 ^ k) (sib k) (climb (treeJoin H ctx base off) sib k 0 i x))
        (nodeAddr base (k + 1) (i / 2 ^ (k + 1) + off / 2 ^ (k + 1))) := by
  have hlast := climb_succ H ctx base off sib k 0 i x
  rwa [Nat.zero_add, div_pow_succ] at hlast

/-- After `i` rounds the buffer holds the node at height `i` beside its sibling. -/
def RoundsDone (leafIdx : Nat) (authPath leaf : Bytes) (i : Nat) : Bytes × Nat × Nat × Addr → Prop
  | (buffer, idx, idxOffset, addr) =>
    buffer = beside (leafIdx / 2 ^ i) (block n i authPath)
      (climb (treeJoin H ctx base off) (fun h => block n h authPath) i 0 leafIdx leaf) ∧
    idx = leafIdx / 2 ^ i ∧ idxOffset = off / 2 ^ i ∧ AgreeOn BelowNode addr base

theorem computeRootRound_step {leafIdx i : Nat} {authPath leaf : Bytes} {st : Bytes × Nat × Nat × Addr}
    (h : RoundsDone H ctx base off leafIdx authPath leaf i st) :
    RoundsDone H ctx base off leafIdx authPath leaf (i + 1) (computeRootRound H ctx authPath i st) := by
  obtain ⟨buffer, idx, idxOffset, addr⟩ := st
  obtain ⟨rfl, rfl, rfl, haddr⟩ := h
  have hnode := nodeAddr_congr haddr (i + 1) (leafIdx / 2 ^ (i + 1) + off / 2 ^ (i + 1))
  refine ⟨?_, shiftRight_one_div _ _, shiftRight_one_div _ _, (nodeAddr_agreeOn _ _ _).trans haddr⟩
  simp only [shiftRight_one_div, and_one_eq_one]
  rw [← nodeAddr, hnode, climb_from_leaf]
  rfl

/-- **`compute_root` climbs.** -/
theorem computeRoot_spec (leafIdx : Nat) (authPath leaf : Bytes) {height : Nat} (hpos : 0 < height) {addr : Addr}
    (haddr : AgreeOn BelowNode addr base) :
    (computeRoot H ctx leaf leafIdx off authPath height addr).1 =
      climb (treeJoin H ctx base off) (fun h => block n h authPath) height 0 leafIdx leaf ∧
    AgreeOn BelowNode (computeRoot H ctx leaf leafIdx off authPath height addr).2 base := by
  obtain ⟨k, rfl⟩ : ∃ k, height = k + 1 := ⟨height - 1, by omega⟩
  have hstart : (if leafIdx &&& 1 = 1 then block n 0 authPath ++ leaf else leaf ++ block n 0 authPath) =
      beside (leafIdx / 2 ^ 0) (block n 0 authPath) leaf := by
    simp only [and_one_eq_one, Nat.pow_zero, Nat.div_one, beside]
  have hloop := forRange_inv (RoundsDone H ctx base off leafIdx authPath leaf) (n := k)
    (s := (_, leafIdx, off, addr)) ⟨hstart, by simp, by simp, haddr⟩ fun i _ _ h => computeRootRound_step H ctx base off h
  rw [computeRoot, Nat.add_sub_cancel]
  revert hloop
  generalize forRange k (computeRootRound H ctx authPath) _ = st
  obtain ⟨buffer, idx, idxOffset, addr'⟩ := st
  rintro ⟨rfl, rfl, rfl, haddr'⟩
  have hnode := nodeAddr_congr haddr' (k + 1) (leafIdx / 2 ^ (k + 1) + off / 2 ^ (k + 1))
  simp only [shiftRight_one_div]
  rw [← nodeAddr, hnode, climb_from_leaf]
  exact ⟨rfl, nodeAddr_agreeOn _ _ _⟩

/-! ## Hashing the tree -/

variable (leaf : Nat → Bytes) (height t : Nat)

/-- Before leaf `idx`. -/
structure Between (idx : Nat) (st : TreeState) : Prop where
  stack_length : st.stack.length = height * n
  path_length : st.authPath.length = height * n
  waiting : Waiting (treeJoin H ctx base off) leaf height (fun h => block n h st.stack) idx
  path : PathSoFar (treeJoin H ctx base off) leaf height t (fun h => block n h st.authPath) idx
  addr : AgreeOn BelowNode st.treeAddr base

/-- While leaf `idx` carries, having reached height `h`. -/
structure Carrying (idx h : Nat) (st : TreeState) : Prop where
  carry : 2 ^ h ∣ idx + 1
  stack_length : st.stack.length = height * n
  path_length : st.authPath.length = height * n
  waiting : Waiting (treeJoin H ctx base off) leaf height (fun h => block n h st.stack) idx
  path : PathBelow (treeJoin H ctx base off) leaf height t (fun h => block n h st.authPath) idx h
  addr : AgreeOn BelowNode st.treeAddr base

/-- The tree is hashed: the siblings of leaf `t` are there if it has that leaf. -/
structure Hashed (st : TreeState) : Prop where
  path_length : st.authPath.length = height * n
  path : t < 2 ^ height → ∀ h < height, block n h st.authPath = siblings (treeJoin H ctx base off) leaf t h
  addr : AgreeOn BelowNode st.treeAddr base

def ClimbDone (idx : Nat) : Climbed × TreeState → Prop
  | (.root current, st) =>
    idx + 1 = 2 ^ height ∧ current = node (treeJoin H ctx base off) leaf height 0 ∧
      Hashed H ctx base off leaf height t st
  | (.left h current, st) =>
    idx + 1 < 2 ^ height ∧
      Between H ctx base off leaf height t (idx + 1) { st with stack := setBlock n h st.stack current }

variable {H ctx base off leaf height t}

theorem Between.carrying {idx : Nat} {st : TreeState} (h : Between H ctx base off leaf height t idx st) :
    Carrying H ctx base off leaf height t idx 0 st where
  carry := by simp
  stack_length := h.stack_length
  path_length := h.path_length
  waiting := h.waiting
  path := h.path.below
  addr := h.addr

theorem Hashed.authPath_eq {st : TreeState} (h : Hashed H ctx base off leaf height t st) (ht : t < 2 ^ height) :
    st.authPath = ofBlocks height (siblings (treeJoin H ctx base off) leaf t) :=
  eq_ofBlocks h.path_length (h.path ht)

theorem div_pow_lt {idx h : Nat} (hidx : idx < 2 ^ height) (hh : h ≤ height) : idx / 2 ^ h < 2 ^ (height - h) := by
  rw [Nat.div_lt_iff_lt_mul (Nat.two_pow_pos h), ← Nat.pow_add, Nat.sub_add_cancel hh]
  exact hidx

/-- The check of `internal_idx ^ internal_leaf` stores the node if it is a sibling of the target. -/
theorem Carrying.stored {idx h : Nat} {st : TreeState} {current : Bytes}
    (hst : Carrying H ctx base off leaf height t idx h st) (hh : h < height) (hlen : current.length = n)
    (hcur : current = node (treeJoin H ctx base off) leaf h (idx / 2 ^ h)) :
    PathBelow (treeJoin H ctx base off) leaf height t
      (fun g => block n g (if idx / 2 ^ h ^^^ t / 2 ^ h = 1 then setBlock n h st.authPath current else st.authPath))
      idx (h + 1) := by
  refine hst.path.step hst.carry (fun g _ hne => ?_) ?_
  · split
    · exact block_setBlock_ne hh hst.path_length hlen hne
    · rfl
  · simp only [xor_eq_one_iff]
    split
    · rw [block_setBlock_self hh hst.path_length hlen, hcur]
    · rfl

theorem treehashClimb_spec {idx : Nat} (hidx : idx < 2 ^ height) (hleaf : ∀ i < 2 ^ height, (leaf i).length = n) :
    ∀ (left h : Nat) (current : Bytes) (st : TreeState), h + left = height →
      current = node (treeJoin H ctx base off) leaf h (idx / 2 ^ h) → Carrying H ctx base off leaf height t idx h st →
      ClimbDone H ctx base off leaf height t idx
        (treehashClimb H ctx idx (2 ^ height - 1) left h (idx / 2 ^ h) (t / 2 ^ h) (off / 2 ^ h) current st) := by
  intro left
  induction left with
  | zero =>
    intro h current st hh hcur hst
    obtain rfl : h = height := by omega
    have hlast : idx + 1 = 2 ^ h := by
      have hle := Nat.le_of_dvd (Nat.succ_pos idx) hst.carry
      omega
    refine ⟨hlast, ?_, hst.path_length, fun ht g hg => hst.path.all hlast ht g hg, hst.addr⟩
    rw [hcur, Nat.div_eq_of_lt hidx]
  | succ left ih =>
    intro h current st hh hcur hst
    have hlt : h < height := by omega
    have hlen : current.length = n := by
      rw [hcur]
      exact length_node H ctx hleaf (div_pow_lt hidx (Nat.le_of_lt hlt))
    have hpath := hst.stored hlt hlen hcur
    -- the state after the node was stored in the path, if it was
    have hst' : ∃ st', (if idx / 2 ^ h ^^^ t / 2 ^ h = 1 then { st with authPath := setBlock n h st.authPath current }
        else st) = st' ∧ st'.stack = st.stack ∧ st'.treeAddr = st.treeAddr ∧
        st'.authPath.length = height * n ∧
        PathBelow (treeJoin H ctx base off) leaf height t (fun g => block n g st'.authPath) idx (h + 1) := by
      refine ⟨_, rfl, ?_⟩
      split
      · rename_i hmine
        simp only [hmine, if_true] at hpath
        exact ⟨rfl, rfl, length_setBlock hlt hst.path_length hlen, hpath⟩
      · rename_i hnot
        simp only [hnot, if_false] at hpath
        exact ⟨rfl, rfl, hst.path_length, hpath⟩
    obtain ⟨st', he, hstack, haddr, hplen, hpath'⟩ := hst'
    have hnext := carry_succ hst.carry
    rw [treehashClimb, he]
    simp only [Nat.and_one_is_mod]
    rcases Nat.mod_two_eq_zero_or_one (idx / 2 ^ h) with heven | hodd
    · -- a left child, which the last leaf never is
      have hnotlast : idx + 1 ≠ 2 ^ height := by
        intro hlast
        have hdvd : 2 ^ (h + 1) ∣ idx + 1 := by
          rw [hlast]
          exact Nat.pow_dvd_pow 2 hlt
        have := hnext.mp hdvd
        omega
      have hmax : idx < 2 ^ height - 1 := by omega
      rw [if_pos ⟨heven, hmax⟩]
      refine ⟨by omega, length_setBlock hlt (hstack ▸ hst.stack_length) hlen, hplen, ?_, hpath'.finish hst.carry heven,
        haddr ▸ hst.addr⟩
      refine hst.waiting.store hst.carry heven ?_ fun g _ hne => ?_
      · show block n h (setBlock n h st'.stack current) = _
        rw [hstack, block_setBlock_self hlt hst.stack_length hlen, hcur]
      · show block n g (setBlock n h st'.stack current) = _
        rw [hstack, block_setBlock_ne hlt hst.stack_length hlen hne]
    · have hnot : ¬ (idx / 2 ^ h % 2 = 0 ∧ idx < 2 ^ height - 1) := by omega
      rw [if_neg hnot]
      have hwait : block n h st.stack = node _ leaf h (sibling (idx / 2 ^ h)) := hst.waiting h hlt hodd
      have hnode := nodeAddr_congr hst.addr (h + 1) (idx / 2 ^ (h + 1) + off / 2 ^ (h + 1))
      rw [hstack, haddr, hwait, hcur, shiftRight_one_div, shiftRight_one_div, shiftRight_one_div, div_pow_succ, ← nodeAddr,
        hnode]
      refine ih (h + 1) _ _ (by omega) ?_ ⟨hnext.mpr hodd, hst.stack_length, hplen, hst.waiting, hpath', nodeAddr_agreeOn _ _ _⟩
      have hparent := node_succ_of_odd (treeJoin H ctx base off) leaf h hodd
      rw [div_pow_succ] at hparent
      exact hparent

/-- A leaf generator makes the leaves in order and keeps an invariant of its own state. -/
structure Leaves {ι : Type} (genLeaf : Nat → ι → Bytes × ι) (off height : Nat) (leaf : Nat → Bytes)
    (I : Nat → ι → Prop) : Prop where
  length : ∀ idx < 2 ^ height, (leaf idx).length = n
  step : ∀ idx < 2 ^ height, ∀ info, I idx info →
    ∃ info', genLeaf (idx + off) info = (leaf idx, info') ∧ I (idx + 1) info'

variable {ι : Type} {genLeaf : Nat → ι → Bytes × ι} {I : Nat → ι → Prop}

/-- One leaf: either it was the last, or the loop goes on with the next. -/
theorem treehashLoop_step (hg : Leaves genLeaf off height leaf I) (fuel : Nat) {idx : Nat} {st : TreeState} {info : ι}
    (hidx : idx < 2 ^ height) (hst : Between H ctx base off leaf height t idx st) (hI : I idx info) :
    ∃ st' info', I (idx + 1) info' ∧
      (idx + 1 = 2 ^ height ∧ Hashed H ctx base off leaf height t st' ∧
          treehashLoop H ctx t off height genLeaf (fuel + 1) idx st info =
            some (node (treeJoin H ctx base off) leaf height 0, st', info') ∨
        idx + 1 < 2 ^ height ∧ Between H ctx base off leaf height t (idx + 1) st' ∧
          treehashLoop H ctx t off height genLeaf (fuel + 1) idx st info =
            treehashLoop H ctx t off height genLeaf fuel (idx + 1) st' info') := by
  obtain ⟨info', hgen, hI'⟩ := hg.step idx hidx info hI
  have hclimb := treehashClimb_spec hidx hg.length height 0 (leaf idx) st (Nat.zero_add _) (by simp [node]) hst.carrying
  simp only [Nat.pow_zero, Nat.div_one] at hclimb
  rw [treehashLoop, hgen]
  dsimp only
  split
  · rename_i root st' e
    rw [e] at hclimb
    obtain ⟨hlast, rfl, hdone⟩ := hclimb
    exact ⟨st', info', hI', .inl ⟨hlast, hdone, rfl⟩⟩
  · rename_i h current st' e
    rw [e] at hclimb
    exact ⟨_, info', hI', .inr ⟨hclimb.1, hclimb.2, rfl⟩⟩

theorem treehashLoop_spec (hg : Leaves genLeaf off height leaf I) : ∀ (fuel idx : Nat) (st : TreeState) (info : ι),
    idx + fuel + 1 = 2 ^ height → Between H ctx base off leaf height t idx st → I idx info →
    ∃ st' info', treehashLoop H ctx t off height genLeaf (fuel + 1) idx st info =
        some (node (treeJoin H ctx base off) leaf height 0, st', info') ∧
      Hashed H ctx base off leaf height t st' ∧ I (2 ^ height) info' := by
  intro fuel
  induction fuel with
  | zero =>
    intro idx st info hidx hst hI
    obtain ⟨st', info', hI', ⟨hlast, hdone, he⟩ | ⟨hmore, -, -⟩⟩ := treehashLoop_step hg 0 (by omega) hst hI
    · exact ⟨st', info', he, hdone, hlast ▸ hI'⟩
    · omega
  | succ fuel ih =>
    intro idx st info hidx hst hI
    obtain ⟨st', info', hI', ⟨hlast, -, -⟩ | ⟨-, hst', he⟩⟩ := treehashLoop_step hg (fuel + 1) (by omega) hst hI
    · omega
    · rw [he]
      exact ih (idx + 1) st' info' (by omega) hst' hI'

variable (H ctx t) in
/-- **`treehashx1` computes the root and the siblings of the target leaf**, for every height and
every generator of leaves. -/
theorem treehashx1_spec (hg : Leaves genLeaf off height leaf I) {authPath : Bytes} {treeAddr : Addr} {info : ι}
    (hpath : authPath.length = height * n) (haddr : AgreeOn BelowNode treeAddr base) (hI : I 0 info) :
    ∃ authPath' treeAddr' info', treehashx1 H ctx authPath t off height genLeaf treeAddr info =
        some (node (treeJoin H ctx base off) leaf height 0, authPath', treeAddr', info') ∧
      Hashed H ctx base off leaf height t ⟨[], authPath', treeAddr'⟩ ∧ I (2 ^ height) info' := by
  have hpos := Nat.two_pow_pos height
  have hstart : Between H ctx base off leaf height t 0 ⟨List.replicate (height * n) 0, authPath, treeAddr⟩ :=
    ⟨List.length_replicate, hpath, waiting_zero _ _, pathSoFar_zero _ _ _, haddr⟩
  obtain ⟨st', info', he, hdone, hI'⟩ := treehashLoop_spec hg (2 ^ height - 1) 0 _ info (by omega) hstart hI
  rw [Nat.sub_add_cancel hpos] at he
  refine ⟨st'.authPath, st'.treeAddr, info', by rw [treehashx1, he]; rfl, ⟨hdone.1, hdone.2, hdone.3⟩, hI'⟩

end

end BitcoinPqc.Spx
