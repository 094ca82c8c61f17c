import Mathlib.Algebra.Order.Ring.Abs
import Mathlib.Algebra.Order.Ring.Int
import Mathlib.Tactic.Common

/-!
# Signed integers of C

An expression has a mathematical integer for its value. When its type cannot hold the value the
behaviour is undefined and the computation stops (`i32`, `i64`); a conversion to a narrower type
keeps the low bits (`toI32`). A loop without a bound runs on fuel, so there are two ways to have no
result: `Returns P` says that there is one, with `P`; `Sound P` that nothing is undefined and that
a result, if there is one, has `P`.
-/
namespace CSem

inductive Stop where
  | undefined | fuel
  deriving DecidableEq, Repr

abbrev Eval := Except Stop

/-! ## Types -/

def InI32 (x : Int) : Prop := -2147483648 ≤ x ∧ x ≤ 2147483647

def InI64 (x : Int) : Prop := -9223372036854775808 ≤ x ∧ x ≤ 9223372036854775807

instance : DecidablePred InI32 := fun x => by unfold InI32; infer_instance

instance : DecidablePred InI64 := fun x => by unfold InI64; infer_instance

def i32 (x : Int) : Eval Int := if InI32 x then .ok x else .error .undefined

def i64 (x : Int) : Eval Int := if InI64 x then .ok x else .error .undefined

/-- `(int32_t)x` -/
def toI32 (x : Int) : Int := (x + 2147483648) % 4294967296 - 2147483648

/-- Reading and writing a cell of an array. -/
def at? {α : Type} {n : Nat} (v : Vector α n) (i : Nat) : Eval α :=
  match v[i]? with
  | some x => .ok x
  | none => .error .undefined

def put? {α : Type} {n : Nat} (v : Vector α n) (i : Nat) (x : α) : Eval (Vector α n) :=
  if h : i < n then .ok (v.set i x) else .error .undefined

/-- The first cells of an array. -/
def take? {α : Type} (n : Nat) (xs : List α) : Eval (List α) := if n ≤ xs.length then .ok (xs.take n) else .error .undefined

theorem toI32_inI32 (x : Int) : InI32 (toI32 x) := by
  unfold InI32 toI32; omega

theorem toI32_id {x : Int} (h : InI32 x) : toI32 x = x := by
  unfold InI32 at h; unfold toI32; omega

theorem i32_ok {x : Int} (h : InI32 x) : i32 x = .ok x := if_pos h

theorem i64_ok {x : Int} (h : InI64 x) : i64 x = .ok x := if_pos h

theorem i32_undefined {x : Int} (h : ¬ InI32 x) : i32 x = .error .undefined := if_neg h

theorem at?_ok {α : Type} {n : Nat} {v : Vector α n} {i : Nat} (h : i < n) : at? v i = .ok v[i] := by
  unfold at?
  rw [Vector.getElem?_eq_getElem h]

theorem put?_ok {α : Type} {n : Nat} {v : Vector α n} {i : Nat} (h : i < n) (x : α) : put? v i x = .ok (v.set i x) :=
  dif_pos h

theorem get_fin {α : Type} {n : Nat} (v : Vector α n) {i : Nat} (h : i < n) : v.get ⟨i, h⟩ = v[i] := rfl

theorem take?_ok {α : Type} {n : Nat} {xs : List α} (h : xs.length = n) : take? n xs = .ok xs := by
  rw [take?, if_pos (Nat.le_of_eq h.symm), List.take_of_length_le (Nat.le_of_eq h)]

/-- Factors at most `X` and `Y` away from zero. -/
theorem mul_bounds {x y X Y : Int} (hx : -X ≤ x ∧ x ≤ X) (hy : -Y ≤ y ∧ y ≤ Y) : -(X * Y) ≤ x * y ∧ x * y ≤ X * Y := by
  refine abs_le.mp ?_
  rw [abs_mul]
  exact mul_le_mul (abs_le.mpr hx) (abs_le.mpr hy) (abs_nonneg y) (by omega)

/-! ## Computations that return -/

section
variable {α β σ : Type}

def Returns (P : α → Prop) (x : Eval α) : Prop := ∃ a, x = .ok a ∧ P a

def Sound (P : α → Prop) : Eval α → Prop
  | .ok a => P a
  | .error e => e = .fuel

variable {P : α → Prop} {Q : β → Prop} {x : Eval α} {f : α → Eval β}

theorem Returns.ok {a : α} (h : P a) : Returns P (.ok a) := ⟨a, rfl, h⟩

theorem Returns.pure {a : α} (h : P a) : Returns P (pure a) := ⟨a, rfl, h⟩

theorem Returns.bind (hx : Returns P x) (hf : ∀ a, P a → Returns Q (f a)) : Returns Q (x >>= f) := by
  obtain ⟨a, rfl, ha⟩ := hx
  exact hf a ha

theorem bind_of_ok {a : α} (hx : x = .ok a) : x >>= f = f a := by rw [hx]; rfl

theorem Returns.mono {P' : α → Prop} (hx : Returns P x) (h : ∀ a, P a → P' a) : Returns P' x := by
  obtain ⟨a, hx, ha⟩ := hx
  exact ⟨a, hx, h a ha⟩

theorem Returns.sound (hx : Returns P x) : Sound P x := by
  obtain ⟨a, rfl, ha⟩ := hx
  exact ha

theorem Sound.ok {a : α} (h : P a) : Sound P (.ok a) := h

theorem Sound.fuel : Sound P (.error .fuel) := rfl

/-- What is run next may know where its argument comes from. -/
theorem Sound.bind (hx : Sound P x) (hf : ∀ a, x = .ok a → P a → Sound Q (f a)) : Sound Q (x >>= f) := by
  cases x with
  | error e => exact hx
  | ok a => exact hf a rfl hx

theorem Sound.mono {P' : α → Prop} (hx : Sound P x) (h : ∀ a, x = .ok a → P a → P' a) : Sound P' x := by
  cases x with
  | error e => exact hx
  | ok a => exact h a rfl hx

theorem Sound.of_ok {a : α} (hx : Sound P x) (h : x = .ok a) : P a := by
  subst h
  exact hx

theorem returns_i32 {x : Int} (h : InI32 x) : Returns (· = x) (i32 x) := ⟨x, i32_ok h, rfl⟩

theorem returns_i64 {x : Int} (h : InI64 x) : Returns (· = x) (i64 x) := ⟨x, i64_ok h, rfl⟩

theorem returns_at? {m : Nat} {v : Vector α m} {i : Nat} (h : i < m) : Returns (· = v[i]) (at? v i) := ⟨_, at?_ok h, rfl⟩

theorem returns_put? {m : Nat} {v : Vector α m} {i : Nat} (h : i < m) (x : α) : Returns (· = v.set i x) (put? v i x) :=
  ⟨_, put?_ok h x, rfl⟩

/-! ## Loops -/

/-- `for (i = 0; i < n; i++)` -/
def forEval (n : Nat) (body : Nat → σ → Eval σ) (s : σ) : Eval σ := (List.range n).foldlM (fun s i => body i s) s

theorem forEval_succ (n : Nat) (body : Nat → σ → Eval σ) (s : σ) :
    forEval (n + 1) body s = forEval n body s >>= body n := by
  simp only [forEval, List.range_succ, List.foldlM_append, List.foldlM_cons, List.foldlM_nil, bind_pure]

/-- **The loop rule.** -/
theorem Returns.forEval {n : Nat} {body : Nat → σ → Eval σ} {s : σ} (I : Nat → σ → Prop) (h0 : I 0 s)
    (hstep : ∀ i < n, ∀ t, I i t → Returns (I (i + 1)) (body i t)) : Returns (I n) (forEval n body s) := by
  induction n with
  | zero => exact ⟨s, rfl, h0⟩
  | succ n ih =>
    rw [forEval_succ]
    exact (ih fun i hi => hstep i (Nat.lt_succ_of_lt hi)).bind (hstep n (Nat.lt_succ_self n))

theorem Sound.forEval {n : Nat} {body : Nat → σ → Eval σ} {s : σ} (I : Nat → σ → Prop) (h0 : I 0 s)
    (hstep : ∀ i < n, ∀ t, I i t → Sound (I (i + 1)) (body i t)) : Sound (I n) (forEval n body s) := by
  induction n with
  | zero => exact h0
  | succ n ih =>
    rw [forEval_succ]
    exact (ih fun i hi => hstep i (Nat.lt_succ_of_lt hi)).bind fun t _ => hstep n (Nat.lt_succ_self n) t

/-! ## More fuel -/

/-- `y` has the result of `x`, if `x` has one. -/
def Below (x y : Eval α) : Prop := ∀ a, x = .ok a → y = .ok a

theorem Below.refl (x : Eval α) : Below x x := fun _ h => h

theorem Below.bind {x x' : Eval α} {f f' : α → Eval β} (hx : Below x x') (hf : ∀ a, Below (f a) (f' a)) :
    Below (x >>= f) (x' >>= f') := by
  intro b h
  cases x with
  | error e => cases h
  | ok a =>
    rw [hx a rfl]
    exact hf a b h

theorem Below.forEval {n : Nat} {body body' : Nat → σ → Eval σ} (h : ∀ i s, Below (body i s) (body' i s)) (s : σ) :
    Below (forEval n body s) (CSem.forEval n body' s) := by
  induction n with
  | zero => exact Below.refl _
  | succ n ih =>
    rw [forEval_succ, forEval_succ]
    exact ih.bind fun t => h n t

theorem Below.ofFnM {n : Nat} {f f' : Fin n → Eval α} (h : ∀ i, Below (f i) (f' i)) :
    Below (Vector.ofFnM f) (Vector.ofFnM f') := by
  induction n with
  | zero =>
    rw [Vector.ofFnM_zero, Vector.ofFnM_zero]
    exact Below.refl _
  | succ n ih =>
    rw [Vector.ofFnM_succ, Vector.ofFnM_succ]
    exact (ih fun i => h i.castSucc).bind fun v => (h (Fin.last n)).bind fun a => Below.refl _

/-- A computation on fuel has one result. -/
theorem Below.unique {x : Nat → Eval α} (h : ∀ {n m : Nat}, n ≤ m → Below (x n) (x m)) {n m : Nat} {a b : α} (ha : x n = .ok a)
    (hb : x m = .ok b) : a = b := by
  rcases Nat.le_total n m with hnm | hmn
  · exact Except.ok.inj ((h hnm a ha).symm.trans hb)
  · exact Except.ok.inj (ha.symm.trans (h hmn b hb))

/-! ## Arrays filled cell by cell -/

/-- A loop over the cells, each written once. -/
theorem Returns.cells {m : Nat} {R : Nat → α → Prop} {a : Vector α m} {body : Nat → Vector α m → Eval (Vector α m)}
    (h : ∀ j (hj : j < m) (v : Vector α m), v[j] = a[j] → Returns (fun v' => ∃ x, v' = v.set j x ∧ R j x) (body j v)) :
    Returns (fun v => ∀ j (hj : j < m), R j v[j]) (CSem.forEval m body a) := by
  refine (Returns.forEval (fun j v => ∀ k (hk : k < m), if k < j then R k v[k] else v[k] = a[k])
    (fun k hk => by rw [if_neg (Nat.not_lt_zero k)]) fun j hj v hv => ?_).mono fun v hv j hj => ?_
  · have hcell := hv j hj
    rw [if_neg (Nat.lt_irrefl j)] at hcell
    refine (h j hj v hcell).mono ?_
    rintro _ ⟨x, rfl, hx⟩ k hk
    rw [Vector.getElem_set]
    by_cases hjk : j = k
    · subst hjk
      rw [if_pos (Nat.lt_succ_self j), if_pos rfl]
      exact hx
    · have hold := hv k hk
      rw [if_neg hjk]
      by_cases hkj : k < j
      · rw [if_pos hkj] at hold
        rwa [if_pos (by omega)]
      · rw [if_neg hkj] at hold
        rwa [if_neg (by omega)]
  · have hcell := hv j hj
    rwa [if_pos hj] at hcell

theorem Returns.ofFnM {n : Nat} {f : Fin n → Eval α} {R : (i : Nat) → α → Prop}
    (h : ∀ i : Fin n, Returns (R i) (f i)) : Returns (fun v => ∀ i (hi : i < n), R i v[i]) (Vector.ofFnM f) := by
  induction n with
  | zero =>
    rw [Vector.ofFnM_zero]
    exact Returns.pure fun i hi => absurd hi (Nat.not_lt_zero i)
  | succ n ih =>
    rw [Vector.ofFnM_succ]
    refine (ih fun i => h i.castSucc).bind fun v hv => (h (Fin.last n)).bind fun a ha => ?_
    refine Returns.pure fun i hi => ?_
    rcases Nat.lt_succ_iff_lt_or_eq.mp hi with hlt | rfl
    · rw [Vector.getElem_push_lt hlt]
      exact hv i hlt
    · rw [Vector.getElem_push_eq]
      exact ha

/-- The same result at every index. -/
theorem ofFnM_replicate {n : Nat} {f : Fin n → Eval α} {a : α} (h : ∀ i, f i = .ok a) :
    Vector.ofFnM f = .ok (Vector.replicate n a) := by
  obtain ⟨v, hv, hall⟩ := Returns.ofFnM (R := fun _ b => b = a) fun i => ⟨a, h i, rfl⟩
  rw [hv]
  exact congrArg Except.ok (Vector.ext fun i hi => by rw [hall i hi, Vector.getElem_replicate])

theorem Sound.ofFnM {n : Nat} {f : Fin n → Eval α} {R : (i : Nat) → α → Prop} (h : ∀ i : Fin n, Sound (R i) (f i)) :
    Sound (fun v => ∀ i (hi : i < n), R i v[i]) (Vector.ofFnM f) := by
  induction n with
  | zero =>
    rw [Vector.ofFnM_zero]
    exact Sound.ok fun i hi => absurd hi (Nat.not_lt_zero i)
  | succ n ih =>
    rw [Vector.ofFnM_succ]
    refine (ih fun i => h i.castSucc).bind fun v _ hv => (h (Fin.last n)).bind fun a _ ha => ?_
    refine Sound.ok fun i hi => ?_
    rcases Nat.lt_succ_iff_lt_or_eq.mp hi with hlt | rfl
    · rw [Vector.getElem_push_lt hlt]
      exact hv i hlt
    · rw [Vector.getElem_push_eq]
      exact ha

end

end CSem
