import BitcoinPqc.Derandomize
import BitcoinPqc.Lib.Overwrite

/-!
# What the SLH-DSA seed keeps of key and message

`slh_dsa_derandomize` XORs byte `i` of `sk || m` into cell `i % 64` and then passes ten times over
the 64 cells in place. No step but one loses anything: cell 0 is overwritten by the first step of
the first pass, before any step has read it (`mixed_eq_iff`). So two seeds are equal exactly when
the folded bytes 1 to 63 are (`seeds_collide_iff`), and the bytes at positions 0, 64, 128, … of
`sk || m` have no influence on the seed (`seed_changes_iff`).
-/
namespace BitcoinPqc
open CSem

/-! ## The passes -/

theorem cells_distinct : ∀ j : Fin 64, j + 1 ≠ j ∧ j + 7 ≠ j ∧ j + 13 ≠ j ∧ j + 7 ≠ j + 1 ∧ j + 13 ≠ j + 1 := by
  decide

theorem mixRule_shifts (j : Fin 64) : Shifts mixRule j (j + 1) := by
  obtain ⟨h1, h7, h13, h71, h131⟩ := cells_distinct j
  refine ⟨h1, ?_, ?_⟩
  · intro b b' hb
    simp only [mixRule, hb _ h1, hb _ h7, hb _ h13]
  · intro b b' hb hrule
    simp only [mixRule, hb _ h7 h71, hb _ h13 h131] at hrule
    exact (UInt8.xor_left_inj _).mp ((UInt8.xor_left_inj _).mp hrule)

theorem get_mixStep (buffer : SeedBuffer) (j : Fin 64) :
    (mixStep buffer j).get = overwrite mixRule buffer.get j := by
  funext i
  unfold mixStep overwrite
  by_cases hi : i = j
  · subst hi
    rw [Function.update_self]
    exact SeedBuffer.get_set_self ..
  · rw [Function.update_of_ne hi]
    exact SeedBuffer.get_set_ne _ hi _

theorem get_mixPass (buffer : SeedBuffer) : (mixPass buffer).get = overwriteAll mixRule (· + 1) 64 0 buffer.get := by
  have hcells : List.finRange 64 = List.iterate (· + 1) 0 64 := by decide
  have hfold : ∀ (js : List (Fin 64)) (c : SeedBuffer),
      (js.foldl mixStep c).get = js.foldl (overwrite mixRule) c.get := by
    intro js
    induction js with
    | nil => intro c; rfl
    | cons j js ih => intro c; rw [List.foldl_cons, List.foldl_cons, ih, get_mixStep]
  rw [mixPass, hcells, hfold, overwriteAll]

/-- **The passes forget cell 0 and nothing else.** -/
theorem mixed_eq_iff (b b' : SeedBuffer) :
    mixPass^[10] b = mixPass^[10] b' ↔ ∀ j : Fin 64, j ≠ 0 → b.get j = b'.get j := by
  have hget : Function.Semiconj Vector.get mixPass (overwriteAll mixRule (· + 1) 64 0) := get_mixPass
  have hinj : mixPass^[10] b = mixPass^[10] b' ↔ (mixPass^[10] b).get = (mixPass^[10] b').get := by
    constructor
    · intro h
      rw [h]
    · intro h
      exact Vector.ext fun i hi => congrFun h ⟨i, hi⟩
  have hround : (fun j : Fin 64 => j + 1)^[63 + 1] 0 = 0 := by decide
  rw [hinj, hget.iterate_right 10 b, hget.iterate_right 10 b']
  exact overwriteAll_iterate_eq_iff mixRule_shifts hround 9 b.get b'.get

/-! ## The folded bytes -/

/-- The XOR of the bytes at positions congruent to `r` modulo 64, when `bs` starts at position
`i`. -/
def residueXor (r i : Nat) (bs : Bytes) : UInt8 :=
  (((bs.zipIdx i).filter fun b => b.2 % 64 = r).map (·.1)).foldr (· ^^^ ·) 0

theorem residueXor_cons (r i : Nat) (b : UInt8) (bs : Bytes) :
    residueXor r i (b :: bs) = if i % 64 = r then b ^^^ residueXor r (i + 1) bs else residueXor r (i + 1) bs := by
  unfold residueXor
  rw [List.zipIdx_cons, List.filter_cons]
  by_cases h : i % 64 = r <;> simp [h]

theorem get_foldBytes (bs : Bytes) (i : Nat) (buffer : SeedBuffer) (r : Fin 64) :
    (foldBytes i buffer bs).get r = buffer.get r ^^^ residueXor r i bs := by
  induction bs generalizing i buffer with
  | nil => exact UInt8.xor_zero.symm
  | cons b bs ih =>
    have hcell : (Fin.ofNat 64 i : Fin 64) = r ↔ i % 64 = r := Fin.ext_iff
    rw [foldBytes, ih, residueXor_cons]
    split
    · rename_i h
      rw [← hcell.mpr h, SeedBuffer.get_set_self, UInt8.xor_assoc]
    · rename_i h
      rw [SeedBuffer.get_set_ne _ (fun e => h (hcell.mp e.symm))]

/-- Replacing a byte changes the XOR of its own residue class and of no other. -/
theorem residueXor_set (bs : Bytes) (r i p : Nat) (hp : p < bs.length) (b : UInt8) :
    residueXor r i (bs.set p b) =
      if (i + p) % 64 = r then residueXor r i bs ^^^ (bs[p] ^^^ b) else residueXor r i bs := by
  induction bs generalizing i p with
  | nil => cases hp
  | cons c bs ih =>
    cases p with
    | zero =>
      simp only [List.set_cons_zero, residueXor_cons, Nat.add_zero, List.getElem_cons_zero]
      split
      · have hcancel : c ^^^ residueXor r (i + 1) bs ^^^ (c ^^^ b) =
            (c ^^^ c) ^^^ (b ^^^ residueXor r (i + 1) bs) := by ac_rfl
        rw [hcancel, UInt8.xor_self, UInt8.zero_xor]
      · rfl
    | succ p =>
      have hpos : i + (p + 1) = i + 1 + p := by omega
      simp only [List.set_cons_succ, residueXor_cons, hpos, List.getElem_cons_succ]
      rw [ih (i + 1) p (by simpa using hp)]
      split <;> split <;> simp [UInt8.xor_assoc]

theorem residueXor_set_eq_iff {bs : Bytes} {r p : Nat} {b : UInt8} (hp : p < bs.length) (hb : b ≠ bs[p]) :
    residueXor r 0 (bs.set p b) = residueXor r 0 bs ↔ p % 64 ≠ r := by
  rw [residueXor_set bs r 0 p hp b, Nat.zero_add]
  split
  · rename_i h
    have hdiff : residueXor r 0 bs ^^^ (bs[p] ^^^ b) ≠ residueXor r 0 bs := by
      intro e
      have hzero : bs[p] ^^^ b = 0 := (UInt8.xor_right_inj _).mp (e.trans UInt8.xor_zero.symm)
      exact hb (UInt8.xor_eq_zero_iff.mp hzero).symm
    exact iff_of_false hdiff (not_not.mpr h)
  · rename_i h
    exact iff_of_true rfl h

/-- Two inputs give one seed exactly when they fold to the same bytes in the cells 1 to 63. -/
theorem scramble_eq_iff (bs bs' : Bytes) :
    scramble bs = scramble bs' ↔ ∀ r, 0 < r → r < 64 → residueXor r 0 bs = residueXor r 0 bs' := by
  unfold scramble
  rw [Vector.toList_inj, mixed_eq_iff]
  constructor
  · intro h r hpos hr
    have hcell := h ⟨r, hr⟩ (fun e => Nat.ne_of_gt hpos (congrArg Fin.val e))
    rw [get_foldBytes, get_foldBytes] at hcell
    exact (UInt8.xor_right_inj _).mp hcell
  · intro h j hj
    have hpos : 0 < j.val := Nat.pos_of_ne_zero fun e => hj (Fin.ext e)
    rw [get_foldBytes, get_foldBytes, h j.val hpos j.isLt]

theorem scramble_set_eq_iff {bs : Bytes} {p : Nat} {b : UInt8} (hp : p < bs.length) (hb : b ≠ bs[p]) :
    scramble (bs.set p b) = scramble bs ↔ p % 64 = 0 := by
  rw [scramble_eq_iff]
  simp only [residueXor_set_eq_iff hp hb]
  constructor
  · intro h
    by_contra hne
    exact h (p % 64) (by omega) (by omega) rfl
  · intro h r hpos _
    omega

/-! ## The derandomiser -/

/-- The seed of one run. -/
def derandomizedSeed (S : Sys) (w : World) (m sk : Bytes) : Option Bytes := (slhDsaDerandomize S m sk w).map (·.1)

theorem derandomizedSeed_eq {S : Sys} {w : World} {m sk : Bytes} (hsk : sk.length = Spx.skBytes)
    (hserves : w.heap.Serves S.alloc [m.length + Spx.skBytes]) :
    derandomizedSeed S w m sk = some (scramble (sk ++ m)) := by
  obtain ⟨seed, w', hrun, hseed, -⟩ := slhDsaDerandomize_wp S (w := w) (m := m) hsk
  obtain ⟨p, h', hm, -⟩ := hserves
  simp only [derandomizedSeed, hrun, Option.map_some, hseed, slhSeed, Heap.pick_isSome_of_malloc hm, if_true]

/-- **Which inputs collide.** Whatever state and system the two calls run in, and whatever the
lengths of the messages. -/
theorem seeds_collide_iff {S S' : Sys} {w w' : World} {sk sk' m m' : Bytes} (hsk : sk.length = Spx.skBytes)
    (hsk' : sk'.length = Spx.skBytes) (hserves : w.heap.Serves S.alloc [m.length + Spx.skBytes])
    (hserves' : w'.heap.Serves S'.alloc [m'.length + Spx.skBytes]) :
    ∃ seed seed', derandomizedSeed S w m sk = some seed ∧ derandomizedSeed S' w' m' sk' = some seed' ∧
      seed.length = 64 ∧ seed'.length = 64 ∧
      (seed = seed' ↔ ∀ r, 0 < r → r < 64 → residueXor r 0 (sk ++ m) = residueXor r 0 (sk' ++ m')) :=
  ⟨_, _, derandomizedSeed_eq hsk hserves, derandomizedSeed_eq hsk' hserves', length_scramble _, length_scramble _,
    scramble_eq_iff _ _⟩

/-- The zero key and no message; a key of ones and the message that undoes them in the cells 1 to
63. -/
theorem seeds_collide_iff_sample :
    ∃ seed seed', derandomizedSeed (.sample .dilithium 0) .init [] (List.replicate Spx.skBytes 0) = some seed ∧
      derandomizedSeed (.sample .sphincsplus 0) .init (List.replicate 64 1) (List.replicate Spx.skBytes 1) =
        some seed' ∧ seed.length = 64 ∧ seed'.length = 64 ∧
      (seed = seed' ↔ ∀ r, 0 < r → r < 64 → residueXor r 0 (List.replicate Spx.skBytes 0 ++ []) =
        residueXor r 0 (List.replicate Spx.skBytes 1 ++ List.replicate 64 1)) :=
  seeds_collide_iff (List.length_replicate ..) (List.length_replicate ..) (Heap.bump_serves _ _ _)
    (Heap.bump_serves _ _ _)

/-- **Which bytes the seed depends on.** A byte of the key is without influence exactly at
position 0, a byte of the message exactly at the multiples of 64. -/
theorem seed_changes_iff {S S' : Sys} {w w' : World} {sk m : Bytes} (hsk : sk.length = Spx.skBytes)
    (hserves : w.heap.Serves S.alloc [m.length + Spx.skBytes])
    (hserves' : w'.heap.Serves S'.alloc [m.length + Spx.skBytes]) :
    (∀ (i : Nat) (hi : i < sk.length) (b : UInt8), b ≠ sk[i] → ∃ seed seed',
      derandomizedSeed S w m sk = some seed ∧ derandomizedSeed S' w' m (sk.set i b) = some seed' ∧
      (seed' ≠ seed ↔ i ≠ 0)) ∧
    (∀ (i : Nat) (hi : i < m.length) (b : UInt8), b ≠ m[i] → ∃ seed seed',
      derandomizedSeed S w m sk = some seed ∧ derandomizedSeed S' w' (m.set i b) sk = some seed' ∧
      (seed' ≠ seed ↔ i % 64 ≠ 0)) := by
  constructor
  · intro i hi b hb
    refine ⟨_, _, derandomizedSeed_eq hsk hserves, derandomizedSeed_eq (by simpa using hsk) hserves', ?_⟩
    have hpos : i % 64 = i := Nat.mod_eq_of_lt (Nat.lt_of_lt_of_eq hi hsk)
    have hlt : i < (sk ++ m).length := by simp; omega
    have hget : (sk ++ m)[i] = sk[i] := List.getElem_append_left hi
    have hchange := scramble_set_eq_iff hlt (b := b) (by rwa [hget])
    rw [List.set_append_left _ _ hi, hpos] at hchange
    exact not_congr hchange
  · intro i hi b hb
    refine ⟨_, _, derandomizedSeed_eq hsk hserves, derandomizedSeed_eq hsk (by simpa using hserves'), ?_⟩
    have hpos : (sk.length + i) % 64 = i % 64 := by rw [hsk]; exact Nat.add_mod_left 64 i
    have hlt : sk.length + i < (sk ++ m).length := by simp; omega
    have hget : (sk ++ m)[sk.length + i] = m[i] := by simp
    have hchange := scramble_set_eq_iff hlt (b := b) (by rwa [hget])
    rw [List.set_append_right _ _ (Nat.le_add_right ..), Nat.add_sub_cancel_left, hpos] at hchange
    exact not_congr hchange

/-- The first byte of a message has no influence, its second byte has. -/
theorem seed_changes_iff_sample :
    let key := List.replicate Spx.skBytes 0
    let seed := fun m => derandomizedSeed (.sample .dilithium 0) .init m key
    seed [7, 2, 3] = seed [1, 2, 3] ∧ seed [1, 7, 3] ≠ seed [1, 2, 3] := by
  have hchanges := (@seed_changes_iff (.sample .dilithium 0) (.sample .dilithium 0) .init .init
    (List.replicate Spx.skBytes 0) [1, 2, 3] (List.length_replicate ..) (Heap.bump_serves _ _ _)
    (Heap.bump_serves _ _ _)).2
  obtain ⟨_, _, hseed₀, hseed₀', hiff₀⟩ := hchanges 0 (by decide) 7 (by decide)
  obtain ⟨_, _, hseed₁, hseed₁', hiff₁⟩ := hchanges 1 (by decide) 7 (by decide)
  have hsame := not_not.mp (mt hiff₀.mp (by decide))
  have hdiff := hiff₁.mpr (by decide)
  constructor
  · exact hseed₀'.trans ((congrArg some hsame).trans hseed₀.symm)
  · intro h
    exact hdiff (Option.some.inj (hseed₁'.symm.trans (h.trans hseed₁)))

/-- The zero key and the key that differs in its first byte give one seed. -/
theorem seed_ignores_a_byte :
    ¬ ∀ (S : Sys) (w : World) (sk m : Bytes), sk.length = Spx.skBytes →
      w.heap.Serves S.alloc [m.length + Spx.skBytes] →
      (∀ (i : Nat) (hi : i < sk.length) (b : UInt8), b ≠ sk[i] →
        derandomizedSeed S w m (sk.set i b) ≠ derandomizedSeed S w m sk) ∧
      (∀ (i : Nat) (hi : i < m.length) (b : UInt8), b ≠ m[i] →
        derandomizedSeed S w (m.set i b) sk ≠ derandomizedSeed S w m sk) := by
  intro h
  have hserves : World.init.heap.Serves (Sys.sample .dilithium 0).alloc [0 + Spx.skBytes] := Heap.bump_serves _ _ _
  refine (h (.sample .dilithium 0) .init (List.replicate Spx.skBytes 0) [] (List.length_replicate ..) hserves).1
    0 (by decide) 1 (by decide) ?_
  rw [derandomizedSeed_eq (by simp) hserves, derandomizedSeed_eq (by simp) hserves]
  have hfirst : 0 < (List.replicate Spx.skBytes (0 : UInt8)).length := by decide
  have hother : (1 : UInt8) ≠ (List.replicate Spx.skBytes (0 : UInt8))[0] := by simp
  have hsame := (scramble_set_eq_iff hfirst hother).mpr rfl
  rw [List.append_nil, List.append_nil, hsame]

end BitcoinPqc
