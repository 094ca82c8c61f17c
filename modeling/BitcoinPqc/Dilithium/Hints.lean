import BitcoinPqc.Dilithium.Packing
import BitcoinPqc.Lib.Loops
import Mathlib.Data.List.Sort

/-!
# The hints of a signature

A vector of bits with at most `omega` ones is written as the positions of the ones, in increasing order
and component after component, zeros up to `omega` bytes, and the running counts. The reader checks all
of it: what it accepts is what the writer writes (`packHints_unpackHints`), and it reads that back
(`unpackHints_packHints`).

| here | there |
| --- | --- |
| `packHints`, `unpackHints` | the loops over `h` in dilithium/ref/packing.c:167-178, :209-235 |
-/
namespace BitcoinPqc.Dilithium
open CSem

/-- `sig[0..OMEGA+K)` -/
abbrev HintBytes := Vector UInt8 polyvechPackedbytes

/-- The bytes, and the number of positions written. -/
def packRow (row : Poly) (s : HintBytes × Nat) : Eval (HintBytes × Nat) :=
  forEval 256 (fun j s => do
    if (← at? row j) ≠ 0 then .ok (← put? s.1 s.2 (.ofNat j), s.2 + 1) else .ok s) s

def packHints (h : Polyveck) : Eval HintBytes := do
  let s ← forEval k (fun i s => do
    let s ← packRow (← at? h i) s
    .ok (← put? s.1 (omega + i) (.ofNat s.2), s.2)) (Vector.replicate _ 0, 0)
  .ok s.1

def hintAt (sig : HintBytes) (j : Nat) : Nat := (sig[j]?.getD 0).toNat

/-- `none` where the source returns 1. -/
def unpackRow (sig : HintBytes) (pos lim : Nat) : Option Poly :=
  (List.range' pos (lim - pos)).foldlM (fun row j =>
    if j > pos ∧ hintAt sig j ≤ hintAt sig (j - 1) then none else some (row.setIfInBounds (hintAt sig j) 1))
    (Vector.replicate 256 0)

def unpackHints (sig : HintBytes) : Option Polyveck := do
  let (h, pos) ← forRange? k (fun i (h, pos) =>
    let lim := hintAt sig (omega + i)
    if lim < pos ∨ lim > omega then none
    else do some (h.setIfInBounds i (← unpackRow sig pos lim), lim)) (Vector.replicate k (Vector.replicate 256 0), 0)
  if (List.range' pos (omega - pos)).any (hintAt sig · ≠ 0) then none else some h

/-! ## Positions -/

def positions (row : Poly) : List Nat := (List.range 256).filter fun c => row[c]?.getD 0 ≠ 0

def indicator (ps : List Nat) : Poly := Vector.ofFn fun c => if c.1 ∈ ps then 1 else 0

def IsBits (row : Poly) : Prop := ∀ c (h : c < 256), row[c] = 0 ∨ row[c] = 1

theorem mem_positions {row : Poly} {c : Nat} : c ∈ positions row ↔ ∃ h : c < 256, row[c] ≠ 0 := by
  rw [positions, List.mem_filter, List.mem_range]
  constructor
  · rintro ⟨hc, hne⟩
    rw [Vector.getElem?_eq_getElem hc] at hne
    exact ⟨hc, by simpa using hne⟩
  · rintro ⟨hc, hne⟩
    rw [Vector.getElem?_eq_getElem hc]
    exact ⟨hc, by simpa using hne⟩

theorem positions_pairwise (row : Poly) : (positions row).Pairwise (· < ·) := List.pairwise_lt_range.filter _

theorem getElem_indicator (ps : List Nat) {c : Nat} (hc : c < 256) : (indicator ps)[c] = if c ∈ ps then 1 else 0 := by
  rw [indicator, Vector.getElem_ofFn]

theorem indicator_bits (ps : List Nat) : IsBits (indicator ps) := by
  intro c hc
  rw [getElem_indicator ps hc]
  split
  · exact Or.inr rfl
  · exact Or.inl rfl

theorem indicator_positions {row : Poly} (h : IsBits row) : indicator (positions row) = row := by
  refine Vector.ext fun c hc => ?_
  rw [getElem_indicator _ hc]
  rcases h c hc with hzero | hone
  · rw [if_neg fun hmem => (mem_positions.mp hmem).2 hzero, hzero]
  · rw [if_pos (mem_positions.mpr ⟨hc, by rw [hone]; decide⟩), hone]

theorem positions_indicator {ps : List Nat} (hsorted : ps.Pairwise (· < ·)) (hlt : ∀ c ∈ ps, c < 256) :
    positions (indicator ps) = ps := by
  refine (positions_pairwise _).eq_of_mem_iff hsorted fun c => ?_
  rw [mem_positions]
  constructor
  · rintro ⟨hc, hne⟩
    by_contra hnot
    rw [getElem_indicator ps hc, if_neg hnot] at hne
    exact hne rfl
  · intro hmem
    refine ⟨hlt c hmem, ?_⟩
    rw [getElem_indicator ps (hlt c hmem), if_pos hmem]
    decide

theorem indicator_append (ps : List Nat) (x : Nat) :
    indicator (ps ++ [x]) = (indicator ps).setIfInBounds x 1 := by
  refine Vector.ext fun c hc => ?_
  rw [getElem_indicator _ hc, Vector.getElem_setIfInBounds hc]
  by_cases hxc : x = c
  · rw [if_pos hxc, if_pos (by simp [hxc])]
  · rw [if_neg hxc, getElem_indicator ps hc]
    simp [Ne.symm hxc]

/-- The positions of the components before the component `i`. -/
def onesBefore (h : Polyveck) (i : Nat) : List Nat := (h.toList.take i).flatMap positions

def counts (h : Polyveck) (i : Nat) : List Nat := (List.range i).map fun j => (onesBefore h (j + 1)).length

theorem onesBefore_succ (h : Polyveck) {i : Nat} (hi : i < k) : onesBefore h (i + 1) = onesBefore h i ++ positions h[i] := by
  have hlen : i < h.toList.length := by rwa [Vector.length_toList]
  rw [onesBefore, List.take_succ_eq_append_getElem hlen, List.flatMap_append, List.flatMap_singleton, onesBefore]
  rfl

theorem onesBefore_set (h : Polyveck) {i j : Nat} (hj : j ≤ i) (row : Poly) :
    onesBefore (h.setIfInBounds i row) j = onesBefore h j := by
  rw [onesBefore, Vector.toList_setIfInBounds, List.take_set, List.set_eq_of_length_le (by rw [List.length_take]; omega),
    onesBefore]

theorem onesBefore_mono (h : Polyveck) {i j : Nat} (hij : i ≤ j) : onesBefore h i <+: onesBefore h j := by
  rw [onesBefore, onesBefore, ← Nat.add_sub_cancel' hij, List.take_add, List.flatMap_append]
  exact ⟨_, rfl⟩

/-! ## Writing -/

/-- What is written: positions `P` and counts `C` so far. -/
def hintList (P C : List Nat) : List Nat :=
  P ++ List.replicate (omega - P.length) 0 ++ (C ++ List.replicate (k - C.length) 0)

theorem byteValues_set (sig : HintBytes) {j : Nat} (hj : j < polyvechPackedbytes) (x : UInt8) :
    byteValues (sig.set j x).toList = (byteValues sig.toList).set j x.toNat := by
  rw [Vector.toList_set, byteValues, List.map_set, byteValues]

theorem hintList_position {P C : List Nat} (h : P.length < omega) (x : Nat) :
    (hintList P C).set P.length x = hintList (P ++ [x]) C := by
  obtain ⟨m, hm⟩ : ∃ m, omega - P.length = m + 1 := ⟨omega - P.length - 1, by omega⟩
  have hm' : omega - (P ++ [x]).length = m := by rw [List.length_append, List.length_singleton]; omega
  rw [hintList, hintList, hm, hm', List.append_assoc, List.set_append_right _ _ (Nat.le_refl _), Nat.sub_self]
  simp [List.replicate_succ]

theorem hintList_count {P C : List Nat} (hP : P.length ≤ omega) (hC : C.length < k) (x : Nat) :
    (hintList P C).set (omega + C.length) x = hintList P (C ++ [x]) := by
  obtain ⟨m, hm⟩ : ∃ m, k - C.length = m + 1 := ⟨k - C.length - 1, by omega⟩
  have hm' : k - (C ++ [x]).length = m := by rw [List.length_append, List.length_singleton]; omega
  have hfirst : (P ++ List.replicate (omega - P.length) 0).length = omega := by
    rw [List.length_append, List.length_replicate]; omega
  rw [hintList, hintList, hm, hm', List.set_append_right _ _ (by omega), hfirst, Nat.add_sub_cancel_left,
    List.set_append_right _ _ (Nat.le_refl _), Nat.sub_self]
  simp [List.replicate_succ]

/-- The positions among the first `j` coefficients. -/
def positionsBefore (row : Poly) (j : Nat) : List Nat := (List.range j).filter fun c => row[c]?.getD 0 ≠ 0

theorem positionsBefore_succ (row : Poly) {j : Nat} (hj : j < 256) :
    positionsBefore row (j + 1) = if row[j] ≠ 0 then positionsBefore row j ++ [j] else positionsBefore row j := by
  rw [positionsBefore, List.range_succ, List.filter_append, ← positionsBefore]
  by_cases hne : row[j] = 0
  · rw [if_neg (by simpa using hne)]
    simp [hj, hne]
  · rw [if_pos hne]
    simp [hj, hne]

theorem positionsBefore_le (row : Poly) {j : Nat} (hj : j ≤ 256) : (positionsBefore row j).length ≤ (positions row).length :=
  ((List.range_sublist.mpr hj).filter _).length_le

theorem packRow_spec {row : Poly} {P C : List Nat} (hlen : P.length + (positions row).length ≤ omega) {sig : HintBytes}
    (hsig : byteValues sig.toList = hintList P C) :
    Returns (fun s => byteValues s.1.toList = hintList (P ++ positions row) C ∧ s.2 = (P ++ positions row).length)
      (packRow row (sig, P.length)) := by
  refine (Returns.forEval (fun j s => byteValues s.1.toList = hintList (P ++ positionsBefore row j) C ∧
    s.2 = (P ++ positionsBefore row j).length) ?_ fun j hj s hs => ?_).mono fun s hs => hs
  · rw [show positionsBefore row 0 = [] from rfl, List.append_nil]
    exact ⟨hsig, rfl⟩
  · obtain ⟨sig, pos⟩ := s
    obtain ⟨hbytes, rfl⟩ : byteValues sig.toList = hintList (P ++ positionsBefore row j) C ∧
      pos = (P ++ positionsBefore row j).length := hs
    refine (returns_at? hj).bind ?_
    rintro _ rfl
    rw [positionsBefore_succ row hj]
    by_cases hne : row[j] = 0
    · rw [if_neg (by simpa using hne), if_neg (by simpa using hne)]
      exact Returns.ok ⟨hbytes, rfl⟩
    · rw [if_pos hne, if_pos hne, ← List.append_assoc]
      have hnext := positionsBefore_le row (j := j + 1) hj
      rw [positionsBefore_succ row hj, if_pos hne, List.length_append, List.length_singleton] at hnext
      have hroom : (P ++ positionsBefore row j).length < omega := by rw [List.length_append]; omega
      have hin : (P ++ positionsBefore row j).length < polyvechPackedbytes := Nat.lt_of_lt_of_le hroom (by decide)
      have hbyte : (UInt8.ofNat j).toNat = j := by
        rw [UInt8.toNat_ofNat']
        exact Nat.mod_eq_of_lt hj
      have hgrown : (P ++ positionsBefore row j ++ [j]).length = (P ++ positionsBefore row j).length + 1 := by
        rw [List.length_append, List.length_singleton]
      refine (returns_put? hin _).bind ?_
      rintro _ rfl
      refine Returns.ok ⟨?_, hgrown.symm⟩
      rw [byteValues_set sig hin, hbytes, hbyte, hintList_position hroom]

/-- **The written hints.** -/
theorem packHints_spec {h : Polyveck} (hlen : (onesBefore h k).length ≤ omega) :
    Returns (fun sig => byteValues sig.toList = hintList (onesBefore h k) (counts h k)) (packHints h) := by
  have hzero : byteValues (Vector.replicate polyvechPackedbytes (0 : UInt8)).toList = hintList [] [] := by decide
  refine (Returns.forEval (fun i (s : HintBytes × Nat) => byteValues s.1.toList = hintList (onesBefore h i) (counts h i) ∧
    s.2 = (onesBefore h i).length) ⟨hzero, rfl⟩ fun i hi s hs => ?_).bind fun s hs => Returns.ok hs.1
  obtain ⟨sig, pos⟩ := s
  obtain ⟨hbytes, rfl⟩ : byteValues sig.toList = hintList (onesBefore h i) (counts h i) ∧ pos = (onesBefore h i).length := hs
  have htotal := (onesBefore_mono h (i := i + 1) (j := k) hi).length_le
  have hsucc := onesBefore_succ h hi
  refine (returns_at? hi).bind ?_
  rintro _ rfl
  have hroom : (onesBefore h i).length + (positions h[i]).length ≤ omega := by
    rw [hsucc, List.length_append] at htotal
    omega
  refine (packRow_spec hroom hbytes).bind fun s hs => ?_
  obtain ⟨sig', pos⟩ := s
  rw [← hsucc] at hs
  obtain ⟨hbytes', rfl⟩ : byteValues sig'.toList = hintList (onesBefore h (i + 1)) (counts h i) ∧
    pos = (onesBefore h (i + 1)).length := hs
  have hin : omega + i < polyvechPackedbytes := Nat.add_lt_add_left hi omega
  have hcount : (counts h i).length = i := by rw [counts, List.length_map, List.length_range]
  have hbyte : (UInt8.ofNat (onesBefore h (i + 1)).length).toNat = (onesBefore h (i + 1)).length := by
    rw [UInt8.toNat_ofNat']
    exact Nat.mod_eq_of_lt (Nat.lt_of_le_of_lt (Nat.le_trans htotal hlen) (by decide))
  refine (returns_put? hin _).bind ?_
  rintro _ rfl
  refine Returns.ok ⟨?_, rfl⟩
  have hset := hintList_count (P := onesBefore h (i + 1)) (C := counts h i) (Nat.le_trans htotal hlen) (by rwa [hcount])
    (onesBefore h (i + 1)).length
  rw [hcount] at hset
  rw [byteValues_set sig' hin, hbytes', hbyte, hset, counts, counts, List.range_succ, List.map_append, List.map_singleton]

/-! ## Reading -/

/-- The bytes `a`, …, `b - 1`. -/
def seg (sig : HintBytes) (a b : Nat) : List Nat := (List.range' a (b - a)).map (hintAt sig)

theorem hintAt_lt (sig : HintBytes) (j : Nat) : hintAt sig j < 256 := UInt8.toNat_lt _

theorem seg_append (sig : HintBytes) {a b c : Nat} (hab : a ≤ b) (hbc : b ≤ c) : seg sig a b ++ seg sig b c = seg sig a c := by
  rw [seg, seg, seg, ← List.map_append, show c - a = (b - a) + (c - b) by omega, ← List.range'_append_1,
    show a + (b - a) = b by omega]

theorem length_seg (sig : HintBytes) (a b : Nat) : (seg sig a b).length = b - a := by
  rw [seg, List.length_map, List.length_range']

theorem seg_split {sig : HintBytes} {a b c : Nat} {xs ys : List Nat} (h : seg sig a c = xs ++ ys) (hab : a ≤ b) (hbc : b ≤ c)
    (hlen : xs.length = b - a) : seg sig a b = xs ∧ seg sig b c = ys := by
  rw [← seg_append sig hab hbc] at h
  exact List.append_inj h (by rw [length_seg, hlen])

theorem byteValues_eq_seg (sig : HintBytes) : byteValues sig.toList = seg sig 0 polyvechPackedbytes := by
  refine List.ext_getElem (by simp [byteValues, seg]) fun j hj _ => ?_
  have hj' : j < polyvechPackedbytes := by simpa [byteValues] using hj
  simp [byteValues, seg, hintAt, hj']

/-- Increasing, one byte after another, is increasing. -/
theorem pairwise_append {ps : List Nat} {x y : Nat} :
    (ps ++ [x] ++ [y]).Pairwise (· < ·) ↔ (ps ++ [x]).Pairwise (· < ·) ∧ x < y := by
  constructor
  · intro h
    obtain ⟨hinit, -, hlast⟩ := List.pairwise_append.mp h
    exact ⟨hinit, hlast x (by simp) y (by simp)⟩
  · rintro ⟨hinit, hxy⟩
    refine List.pairwise_append.mpr ⟨hinit, List.pairwise_singleton _ _, fun z hz w hw => ?_⟩
    obtain rfl := List.mem_singleton.mp hw
    rcases List.mem_append.mp hz with hz | hz
    · exact ((List.pairwise_append.mp hinit).2.2 z hz x (by simp)).trans hxy
    · obtain rfl := List.mem_singleton.mp hz
      exact hxy

/-- **A row is read** when its positions increase, and then it is their indicator. -/
theorem unpackRow_eq_some (sig : HintBytes) (a b : Nat) (row : Poly) :
    unpackRow sig a b = some row ↔ (seg sig a b).Pairwise (· < ·) ∧ row = indicator (seg sig a b) := by
  rw [unpackRow, seg]
  induction b - a generalizing row with
  | zero =>
    have hnone : indicator [] = Vector.replicate 256 0 := Vector.ext fun c hc => by simp [indicator]
    simp [hnone, eq_comm]
  | succ m ih =>
    have hsorted : ((List.range' a (m + 1)).map (hintAt sig)).Pairwise (· < ·) ↔
        ((List.range' a m).map (hintAt sig)).Pairwise (· < ·) ∧ ¬(a + m > a ∧ hintAt sig (a + m) ≤ hintAt sig (a + m - 1)) := by
      cases m with
      | zero => simp
      | succ m =>
        rw [List.range'_concat, List.range'_concat, List.map_append, List.map_append, List.map_singleton, List.map_singleton,
          pairwise_append]
        have hstep : a + 1 * (m + 1) = a + (m + 1) := by omega
        have hprev : a + (m + 1) - 1 = a + 1 * m := by omega
        rw [hstep, hprev]
        refine and_congr_right fun _ => ?_
        omega
    rw [hsorted, List.range'_concat, List.foldlM_append, Option.bind_eq_bind, Option.bind_eq_some_iff]
    simp only [List.foldlM_cons, List.foldlM_nil, Option.bind_eq_bind, List.map_append, List.map_singleton, Nat.one_mul,
      indicator_append]
    constructor
    · rintro ⟨row', hrow', hlast⟩
      obtain ⟨hpair, rfl⟩ := (ih row').mp hrow'
      by_cases hbad : a + m > a ∧ hintAt sig (a + m) ≤ hintAt sig (a + m - 1)
      · rw [if_pos hbad] at hlast
        cases hlast
      · rw [if_neg hbad, Option.bind_some] at hlast
        exact ⟨⟨hpair, hbad⟩, (Option.some.inj hlast).symm⟩
    · rintro ⟨⟨hpair, hgood⟩, rfl⟩
      have hrow := (ih (indicator ((List.range' a m).map (hintAt sig)))).mpr ⟨hpair, rfl⟩
      refine ⟨_, hrow, ?_⟩
      simp only [if_neg hgood, Option.bind_some, Option.pure_def]

/-- A vector of bits that fits. -/
structure IsHint (h : Polyveck) : Prop where
  bits : ∀ i (hi : i < k), IsBits h[i]
  fits : (onesBefore h k).length ≤ omega

/-- The bytes of a hint vector. -/
def Encodes (sig : HintBytes) (h : Polyveck) : Prop := byteValues sig.toList = hintList (onesBefore h k) (counts h k)

/-- **What is accepted** is a hint vector as it is written. -/
theorem unpackHints_some {sig : HintBytes} {h : Polyveck} (hsig : unpackHints sig = some h) : IsHint h ∧ Encodes sig h := by
  rw [unpackHints] at hsig
  obtain ⟨⟨h', pos⟩, hloop, hrest⟩ := Option.bind_eq_some_iff.mp hsig
  have hinv := forRange?_some (fun i (s : Polyveck × Nat) => s.2 ≤ omega ∧ seg sig 0 s.2 = onesBefore s.1 i ∧
    (∀ j < i, hintAt sig (omega + j) = (onesBefore s.1 (j + 1)).length) ∧ ∀ j (hj : j < k), j < i → IsBits s.1[j])
    ⟨Nat.zero_le _, rfl, fun _ hj => absurd hj (Nat.not_lt_zero _), fun _ _ hj => absurd hj (Nat.not_lt_zero _)⟩
    (fun i hi s s' hs hstep => ?_) hloop
  · obtain ⟨hpos, hones, hcounts, hbits⟩ := hinv
    dsimp only at hpos hones hcounts hbits hrest
    by_cases hany : (List.range' pos (omega - pos)).any (hintAt sig · ≠ 0)
    · rw [if_pos hany] at hrest
      cases hrest
    · rw [if_neg hany] at hrest
      cases hrest
      have hlen : (onesBefore h k).length = pos := by rw [← hones, seg, List.length_map, List.length_range', Nat.sub_zero]
      have hzeros : seg sig pos omega = List.replicate (omega - pos) 0 := by
        refine List.eq_replicate_iff.mpr ⟨by rw [seg, List.length_map, List.length_range'], fun x hx => ?_⟩
        obtain ⟨j, hj, rfl⟩ := List.mem_map.mp hx
        by_contra hne
        exact hany (List.any_eq_true.mpr ⟨j, hj, by simpa using hne⟩)
      have hruns : seg sig omega polyvechPackedbytes = counts h k := by
        rw [seg, counts, show polyvechPackedbytes - omega = k from rfl, List.range'_eq_map_range, List.map_map]
        exact List.map_congr_left fun j hj => hcounts j (List.mem_range.mp hj)
      refine ⟨⟨fun i hi => hbits i hi hi, by rw [hlen]; exact hpos⟩, ?_⟩
      have hcount : (counts h k).length = k := by rw [counts, List.length_map, List.length_range]
      rw [Encodes, byteValues_eq_seg, ← seg_append sig (Nat.zero_le omega) (show omega ≤ polyvechPackedbytes by decide),
        ← seg_append sig (Nat.zero_le pos) hpos, hones, hzeros, hruns, hintList, hlen, hcount, Nat.sub_self,
        List.replicate_zero, List.append_nil]
  · obtain ⟨h, pos⟩ := s
    obtain ⟨hpos, hones, hcounts, hbits⟩ := hs
    dsimp only at hpos hones hcounts hbits hstep
    by_cases hbad : hintAt sig (omega + i) < pos ∨ hintAt sig (omega + i) > omega
    · rw [if_pos hbad] at hstep
      cases hstep
    · rw [if_neg hbad] at hstep
      obtain ⟨row, hrow, hs'⟩ := Option.bind_eq_some_iff.mp hstep
      cases hs'
      obtain ⟨hsorted, rfl⟩ := (unpackRow_eq_some sig _ _ row).mp hrow
      have hpositions := positions_indicator hsorted fun c hc => by
        obtain ⟨j, -, rfl⟩ := List.mem_map.mp hc
        exact hintAt_lt sig j
      have hcell : (h.setIfInBounds i (indicator (seg sig pos (hintAt sig (omega + i)))))[i] =
          indicator (seg sig pos (hintAt sig (omega + i))) := by
        rw [Vector.getElem_setIfInBounds hi, if_pos rfl]
      have hnext : seg sig 0 (hintAt sig (omega + i)) =
          onesBefore (h.setIfInBounds i (indicator (seg sig pos (hintAt sig (omega + i))))) (i + 1) := by
        rw [onesBefore_succ _ hi, onesBefore_set _ (Nat.le_refl i), hcell, hpositions, ← hones, seg_append sig (Nat.zero_le _)
          (by omega)]
      refine ⟨by dsimp only; omega, hnext, fun j hj => ?_, fun j hj hji => ?_⟩
      · rcases Nat.lt_succ_iff_lt_or_eq.mp hj with hlt | rfl
        · rw [onesBefore_set _ hlt]
          exact hcounts j hlt
        · rw [← hnext, seg, List.length_map, List.length_range', Nat.sub_zero]
      · dsimp only
        rw [Vector.getElem_setIfInBounds hj]
        split
        · exact indicator_bits _
        · exact hbits j hj (by omega)

section
variable {sig : HintBytes} {h : Polyveck} (hfits : (onesBefore h k).length ≤ omega) (henc : Encodes sig h)
include hfits henc

theorem Encodes.areas : seg sig 0 (onesBefore h k).length = onesBefore h k ∧
    seg sig (onesBefore h k).length omega = List.replicate (omega - (onesBefore h k).length) 0 ∧
    ∀ j < k, hintAt sig (omega + j) = (onesBefore h (j + 1)).length := by
  have hcount : (counts h k).length = k := by rw [counts, List.length_map, List.length_range]
  rw [Encodes, byteValues_eq_seg, hintList, hcount, Nat.sub_self, List.replicate_zero, List.append_nil] at henc
  obtain ⟨hpositions, hcounts⟩ := seg_split henc (Nat.zero_le omega) (by decide)
    (by rw [List.length_append, List.length_replicate]; omega)
  obtain ⟨hones, hzeros⟩ := seg_split hpositions (Nat.zero_le _) hfits rfl
  refine ⟨hones, hzeros, fun j hj => ?_⟩
  rw [seg, counts, show polyvechPackedbytes - omega = k from rfl, List.range'_eq_map_range, List.map_map] at hcounts
  exact List.map_inj_left.mp hcounts j (List.mem_range.mpr hj)

theorem Encodes.row {i : Nat} (hi : i < k) :
    seg sig (onesBefore h i).length (onesBefore h (i + 1)).length = positions h[i] := by
  obtain ⟨rest, hrest⟩ := onesBefore_mono h (i := i + 1) (j := k) hi
  have hle := (onesBefore_mono h (i := i + 1) (j := k) hi).length_le
  have hle' := (onesBefore_mono h (Nat.le_succ i)).length_le
  have hones := (henc.areas hfits).1
  nth_rewrite 2 [← hrest] at hones
  have hfirst := (seg_split hones (Nat.zero_le _) hle rfl).1
  rw [onesBefore_succ h hi] at hfirst hle'
  rw [onesBefore_succ h hi]
  exact (seg_split hfirst (Nat.zero_le _) hle' rfl).2

theorem Encodes.accepted : ∃ h', unpackHints sig = some h' := by
  obtain ⟨hones, hzeros, hcounts⟩ := henc.areas hfits
  have hloop : ∃ s : Polyveck × Nat, forRange? k (fun i (s : Polyveck × Nat) =>
      let lim := hintAt sig (omega + i)
      if lim < s.2 ∨ lim > omega then none
      else do some (s.1.setIfInBounds i (← unpackRow sig s.2 lim), lim)) (Vector.replicate k (Vector.replicate 256 0), 0) =
        some s ∧ s.2 = (onesBefore h k).length := by
    refine forRange?_inv (fun i (s : Polyveck × Nat) => s.2 = (onesBefore h i).length) rfl fun i hi s hs => ?_
    have hle := (onesBefore_mono h (j := i + 1) (Nat.le_succ i)).length_le
    have htotal := (onesBefore_mono h (i := i + 1) (j := k) hi).length_le
    have hrow := (unpackRow_eq_some sig (onesBefore h i).length (onesBefore h (i + 1)).length _).mpr
      ⟨by rw [henc.row hfits hi]; exact positions_pairwise _, rfl⟩
    dsimp only
    rw [hcounts i hi, hs, if_neg (by omega), hrow]
    exact ⟨_, rfl, rfl⟩
  obtain ⟨⟨h', pos⟩, hloop, rfl⟩ := hloop
  refine ⟨h', ?_⟩
  rw [unpackHints]
  refine Option.bind_eq_some_iff.mpr ⟨_, hloop, if_neg fun hany => ?_⟩
  obtain ⟨j, hj, hne⟩ := List.any_eq_true.mp hany
  have hzero : hintAt sig j ∈ seg sig (onesBefore h k).length omega := List.mem_map.mpr ⟨j, hj, rfl⟩
  rw [hzeros] at hzero
  simp [List.eq_of_mem_replicate hzero] at hne

end

theorem Encodes.eq {sig : HintBytes} {h h' : Polyveck} (hh : IsHint h) (hh' : IsHint h') (henc : Encodes sig h)
    (henc' : Encodes sig h') : h = h' := by
  have hlens : ∀ i ≤ k, (onesBefore h i).length = (onesBefore h' i).length := by
    intro i hi
    cases i with
    | zero => rfl
    | succ i => rw [← (henc.areas hh.fits).2.2 i hi, ← (henc'.areas hh'.fits).2.2 i hi]
  refine Vector.ext fun i hi => ?_
  rw [← indicator_positions (hh.bits i hi), ← indicator_positions (hh'.bits i hi), ← henc.row hh.fits hi,
    ← henc'.row hh'.fits hi, hlens i (Nat.le_of_lt hi), hlens (i + 1) hi]

/-- **Written hints are read back.** -/
theorem unpackHints_packHints {h : Polyveck} (hh : IsHint h) : Returns (fun sig => unpackHints sig = some h) (packHints h) := by
  refine (packHints_spec hh.fits).mono fun sig henc => ?_
  obtain ⟨h', hsig⟩ := Encodes.accepted hh.fits henc
  obtain ⟨hh', henc'⟩ := unpackHints_some hsig
  rw [hsig, Encodes.eq hh hh' henc henc']

/-- **Accepted bytes are written again**: a hint vector has one encoding. -/
theorem packHints_unpackHints {sig : HintBytes} {h : Polyveck} (hsig : unpackHints sig = some h) : packHints h = .ok sig := by
  obtain ⟨hh, henc⟩ := unpackHints_some hsig
  obtain ⟨sig', hpack, henc'⟩ := packHints_spec hh.fits
  rw [hpack, Vector.toList_inj.mp (byteValues_inj (henc'.trans henc.symm))]

/-! ## The hints that are made -/

theorem length_filter_bits {f : Nat → Int} : ∀ {cs : List Nat}, (∀ c ∈ cs, f c = 0 ∨ f c = 1) →
    ((cs.filter fun c => f c ≠ 0).length : Int) = (cs.map f).sum
  | [], _ => rfl
  | c :: cs, h => by
    have ih := length_filter_bits fun c' hc' => h c' (List.mem_cons_of_mem c hc')
    rw [List.map_cons, List.sum_cons, ← ih]
    rcases h c List.mem_cons_self with hzero | hone
    · rw [List.filter_cons_of_neg (by simp [hzero]), hzero, Int.zero_add]
    · rw [List.filter_cons_of_pos (by simp [hone]), hone, List.length_cons]
      omega

/-- A row of bits has as many ones as its sum says. -/
theorem length_positions {row : Poly} (h : IsBits row) : ((positions row).length : Int) = row.toList.sum := by
  have hlist : row.toList = (List.range 256).map fun c => row[c]?.getD 0 := by
    refine List.ext_getElem (by simp) fun c hc _ => ?_
    have hc' : c < 256 := by simpa using hc
    simp [hc']
  rw [positions, length_filter_bits, ← hlist]
  intro c hc
  have hc' : c < 256 := List.mem_range.mp hc
  rw [Vector.getElem?_eq_getElem hc', Option.getD_some]
  exact h c hc'

theorem length_flatMap_positions : ∀ {rows : List Poly}, (∀ row ∈ rows, IsBits row) →
    ((rows.flatMap positions).length : Int) = (rows.map fun row => row.toList.sum).sum
  | [], _ => rfl
  | row :: rows, h => by
    have ih := length_flatMap_positions fun row' hrow' => h row' (List.mem_cons_of_mem row hrow')
    rw [List.flatMap_cons, List.length_append, List.map_cons, List.sum_cons, ← ih, ← length_positions (h row List.mem_cons_self)]
    push_cast
    rfl

theorem makeHint_bit (a0 a1 : Int) : makeHint a0 a1 = 0 ∨ makeHint a0 a1 = 1 := by
  unfold makeHint
  split
  · exact .inr rfl
  · exact .inl rfl

/-- **The number returned is the number of ones.** -/
theorem polyveckMakeHint_spec (v0 v1 : Polyveck) :
    (∀ i (hi : i < k) j (hj : j < 256), (polyveckMakeHint v0 v1).1[i][j] = makeHint v0[i][j] v1[i][j]) ∧
      (polyveckMakeHint v0 v1).2 = (onesBefore (polyveckMakeHint v0 v1).1 k).length := by
  have hcells : ∀ i (hi : i < k) j (hj : j < 256), (polyveckMakeHint v0 v1).1[i][j] = makeHint v0[i][j] v1[i][j] := by
    intro i hi j hj
    simp [polyveckMakeHint, polyMakeHint]
  refine ⟨hcells, ?_⟩
  have hbits : ∀ row ∈ (polyveckMakeHint v0 v1).1.toList, IsBits row := by
    intro row hrow
    obtain ⟨i, hi, rfl⟩ := Vector.mem_iff_getElem.mp (Vector.mem_toList_iff.mp hrow)
    intro j hj
    rw [hcells i hi j hj]
    exact makeHint_bit _ _
  rw [onesBefore, List.take_of_length_le (by rw [Vector.length_toList]), length_flatMap_positions hbits, polyveckMakeHint]
  dsimp only
  rw [Vector.toList_map, List.map_map]
  refine congrArg List.sum (List.map_congr_left fun p hp => ?_)
  obtain ⟨i, hi, rfl⟩ := Vector.mem_iff_getElem.mp (Vector.mem_toList_iff.mp hp)
  rw [Vector.getElem_ofFn]
  simp only [polyMakeHint, Function.comp_apply]

theorem polyveckMakeHint_isHint {v0 v1 : Polyveck} (h : (polyveckMakeHint v0 v1).2 ≤ omega) : IsHint (polyveckMakeHint v0 v1).1 := by
  obtain ⟨hcells, hcount⟩ := polyveckMakeHint_spec v0 v1
  refine ⟨fun i hi j hj => ?_, by omega⟩
  rw [hcells i hi j hj]
  exact makeHint_bit _ _

theorem makeHint_within {a0 a1 : Int} (h : -gamma2 < a0 ∧ a0 ≤ gamma2) : makeHint a0 a1 = 0 := by
  unfold makeHint
  exact if_neg (by omega)

theorem makeHint_none {v0 v1 : Polyveck} (h : AllWithin (gamma2 - 1) v0) : (polyveckMakeHint v0 v1).2 = 0 := by
  obtain ⟨hcells, hcount⟩ := polyveckMakeHint_spec v0 v1
  rw [hcount, onesBefore, List.flatMap_eq_nil_iff.mpr]
  · rfl
  · intro row hrow
    obtain ⟨i, hi, rfl⟩ := Vector.mem_iff_getElem.mp (Vector.mem_toList_iff.mp (List.mem_of_mem_take hrow))
    refine List.eq_nil_iff_forall_not_mem.mpr fun c hc => ?_
    obtain ⟨hlt, hne⟩ := mem_positions.mp hc
    have := h i hi c hlt
    exact hne ((hcells i hi c hlt).trans (makeHint_within (by omega)))

end BitcoinPqc.Dilithium
