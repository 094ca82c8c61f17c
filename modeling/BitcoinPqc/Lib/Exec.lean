import Mathlib.Tactic.Common

/-!
# Partial stateful computations and their total-correctness rules

`Exec σ α` is a C-like computation over a state `σ`: from a state it either returns a value and
a new state, or has no defined result (`none`: undefined behaviour, or a loop that never ends).

`wp x s Q` says that `x` run from `s` is defined and its result satisfies `Q`. The rules below
(`wp_pure`, `wp_bind`, `wp_mono`, `wp_zoom`) push it through a program; because the computations
are deterministic, a `wp` also inverts a run that was observed (`wp.of_run`).

`runAll` folds a partial step over a list of labels; `runAll_along` is its induction rule. The
invariant may speak about the labels already executed, so "what the `k`-th call installed" can
be part of it.
-/
namespace CSem

abbrev Exec (σ α : Type) := StateT σ Option α

section
variable {σ τ α β : Type}

namespace Exec

/-- Undefined behaviour. -/
def fault : Exec σ α := fun _ => none

/-- Run a computation on a component of the state. -/
def zoom (get : σ → τ) (set : σ → τ → σ) (x : Exec τ α) : Exec σ α := fun s =>
  (x (get s)).map fun r => (r.1, set s r.2)

/-- A pure result that may be undefined. -/
def ofOption (o : Option α) : Exec σ α := fun s => o.map fun a => (a, s)

@[simp] theorem bind_apply (x : Exec σ α) (f : α → Exec σ β) (s : σ) :
    (x >>= f) s = (x s).bind fun r => f r.1 r.2 := rfl

@[simp] theorem map_apply (f : α → β) (x : Exec σ α) (s : σ) :
    (f <$> x) s = (x s).map fun r => (f r.1, r.2) := by
  show (x s).bind _ = _
  cases x s <;> rfl

@[simp] theorem ofOption_apply (o : Option α) (s : σ) :
    (ofOption o : Exec σ α) s = o.map fun a => (a, s) := rfl

end Exec

/-! ## Total correctness -/

def wp (x : Exec σ α) (s : σ) (Q : α → σ → Prop) : Prop := ∃ a s', x s = some (a, s') ∧ Q a s'

theorem wp_of_eq {x : Exec σ α} {s s' : σ} {a : α} {Q : α → σ → Prop} (h : x s = some (a, s'))
    (hq : Q a s') : wp x s Q := ⟨a, s', h, hq⟩

theorem wp_pure {a : α} {s : σ} {Q : α → σ → Prop} (h : Q a s) : wp (pure a) s Q := ⟨a, s, rfl, h⟩

theorem wp_mono {x : Exec σ α} {s : σ} {Q R : α → σ → Prop} (h : wp x s Q)
    (hqr : ∀ a s', Q a s' → R a s') : wp x s R := by
  obtain ⟨a, s', e, hq⟩ := h
  exact ⟨a, s', e, hqr a s' hq⟩

theorem wp_bind {x : Exec σ α} {f : α → Exec σ β} {s : σ} {R : β → σ → Prop}
    (h : wp x s fun a s' => wp (f a) s' R) : wp (x >>= f) s R := by
  obtain ⟨a, s', e, b, s'', e', hr⟩ := h
  exact ⟨b, s'', by simp [e, e'], hr⟩

theorem wp_map {x : Exec σ α} {f : α → β} {s : σ} {R : β → σ → Prop}
    (h : wp x s fun a s' => R (f a) s') : wp (f <$> x) s R := by
  obtain ⟨a, s', e, hr⟩ := h
  exact ⟨f a, s', by simp [e], hr⟩

theorem wp_modify {f : σ → σ} {s : σ} {Q : Unit → σ → Prop} (h : Q () (f s)) : wp (modify f) s Q :=
  ⟨(), f s, rfl, h⟩

theorem wp_ofOption {o : Option α} {a : α} {s : σ} {Q : α → σ → Prop} (ho : o = some a) (h : Q a s) :
    wp (Exec.ofOption o) s Q :=
  ⟨a, s, by simp [ho], h⟩

theorem wp_zoom {get : σ → τ} {set : σ → τ → σ} {x : Exec τ α} {s : σ} {Q : α → σ → Prop}
    (h : wp x (get s) fun a t => Q a (set s t)) : wp (x.zoom get set) s Q := by
  obtain ⟨a, t, e, hq⟩ := h
  exact ⟨a, set s t, by simp [Exec.zoom, e], hq⟩

/-- Runs are deterministic: what every run ensures holds of the run that was observed. -/
theorem wp.of_run {x : Exec σ α} {s s' : σ} {a : α} {Q : α → σ → Prop} (h : wp x s Q)
    (e : x s = some (a, s')) : Q a s' := by
  obtain ⟨b, t, e', hq⟩ := h
  rw [e] at e'
  cases e'
  exact hq

end

/-! ## Computations that may stop early

`ExceptT ε (Exec σ)` is code with early returns and `?`: the postcondition is over how it ended. -/

section
variable {ε σ α β : Type}

/-- The `?` of a pure result. -/
def Exec.ofExcept (r : Except ε α) : ExceptT ε (Exec σ) α := ExceptT.mk (pure r)

variable {s : σ} {R : Except ε α → σ → Prop}

theorem wp_run_pure {a : α} (h : R (.ok a) s) : wp (pure a : ExceptT ε (Exec σ) α).run s R := wp_pure h

theorem wp_run_throw {e : ε} (h : R (.error e) s) : wp (throw e : ExceptT ε (Exec σ) α).run s R := wp_pure h

theorem wp_run_ofExcept {r : Except ε α} (h : R r s) : wp (Exec.ofExcept r : ExceptT ε (Exec σ) α).run s R :=
  wp_pure h

theorem wp_run_lift {x : Exec σ α} (h : wp x s fun a s' => R (.ok a) s') :
    wp (liftM x : ExceptT ε (Exec σ) α).run s R := wp_map h

theorem wp_run_bind {x : ExceptT ε (Exec σ) β} {f : β → ExceptT ε (Exec σ) α}
    (h : wp x.run s fun r s' => match r with
      | .ok b => wp (f b).run s' R
      | .error e => R (.error e) s') : wp (x >>= f).run s R := by
  refine wp_bind (wp_mono h ?_)
  rintro (e | b) s' h
  · exact wp_pure h
  · exact h

/-- A lifted step of the state, then the rest. -/
theorem wp_run_step {x : Exec σ β} {f : β → ExceptT ε (Exec σ) α} (h : wp x s fun b s' => wp (f b).run s' R) :
    wp (liftM x >>= f : ExceptT ε (Exec σ) α).run s R := wp_run_bind (wp_run_lift h)

end

/-! ## How a computation can stop

`Stops P x` is about the text of `x`, not about a state: whatever the state it is run in, every
error it ends with satisfies `P`. -/

section
variable {ε σ α β : Type}

def Stops (P : ε → Prop) (x : ExceptT ε (Exec σ) α) : Prop := ∀ s e s', x.run s = some (.error e, s') → P e

variable {P : ε → Prop}

theorem Stops.pure (a : α) : Stops P (pure a : ExceptT ε (Exec σ) α) := by
  rintro s e s' ⟨⟩

theorem Stops.throw {e : ε} (h : P e) : Stops P (throw e : ExceptT ε (Exec σ) α) := by
  rintro s e s' ⟨⟩
  exact h

theorem Stops.ofExcept {r : Except ε α} (h : ∀ e, r = .error e → P e) :
    Stops P (Exec.ofExcept r : ExceptT ε (Exec σ) α) := by
  intro s e s' hrun
  cases hrun
  exact h e rfl

theorem Stops.bind {x : ExceptT ε (Exec σ) β} {f : β → ExceptT ε (Exec σ) α} (hx : Stops P x)
    (hf : ∀ b, Stops P (f b)) : Stops P (x >>= f) := by
  intro s e s' hrun
  obtain ⟨⟨r, s₁⟩, hfirst, hrest⟩ := Option.bind_eq_some_iff.mp hrun
  cases r with
  | error e' =>
    cases hrest
    exact hx s _ _ hfirst
  | ok b => exact hf b s₁ e s' hrest

/-- A step of the state does not stop the computation. -/
theorem Stops.step {x : Exec σ β} {f : β → ExceptT ε (Exec σ) α} (hf : ∀ b, Stops P (f b)) :
    Stops P (liftM x >>= f : ExceptT ε (Exec σ) α) := by
  refine Stops.bind ?_ hf
  intro s e s' hrun
  obtain ⟨r, -, hr⟩ := Option.map_eq_some_iff.mp ((Exec.map_apply _ x s).symm.trans hrun)
  cases hr

theorem Stops.wp {x : ExceptT ε (Exec σ) α} (h : Stops P x) {s : σ} {Q : Except ε α → σ → Prop}
    (hx : wp x.run s Q) : CSem.wp x.run s fun r _ => ∀ e, r = .error e → P e := by
  obtain ⟨r, s', hrun, -⟩ := hx
  refine ⟨r, s', hrun, ?_⟩
  rintro e rfl
  exact h s e s' hrun

end

/-! ## Runs over a list of labels -/

section
variable {L σ : Type} (step : L → σ → Option σ)

def runAll : List L → σ → Option σ
  | [], s => some s
  | l :: ls, s => (step l s).bind (runAll ls)

variable {step}

theorem runAll_append (xs ys : List L) (s : σ) :
    runAll step (xs ++ ys) s = (runAll step xs s).bind (runAll step ys) := by
  induction xs generalizing s with
  | nil => rfl
  | cons x xs ih =>
    simp only [List.cons_append, runAll]
    cases step x s with
    | none => rfl
    | some s' => exact ih s'

/-- **Induction along a run**: if every step of `ls` is defined and carries `P` from the labels
done before it to those labels and its own, then the run is defined and ends in `P`. -/
theorem runAll_along {P : List L → σ → Prop} (ls : List L)
    (hstep : ∀ done l rest s, ls = done ++ l :: rest → P done s → ∃ s', step l s = some s' ∧ P (done ++ [l]) s')
    {s : σ} (h : P [] s) : ∃ s', runAll step ls s = some s' ∧ P ls s' := by
  have key : ∀ (rest done : List L) (s : σ), ls = done ++ rest → P done s →
      ∃ s', runAll step rest s = some s' ∧ P ls s' := by
    intro rest
    induction rest with
    | nil =>
      intro done s hls hP
      exact ⟨s, rfl, by rwa [hls, List.append_nil]⟩
    | cons l rest ih =>
      intro done s hls hP
      obtain ⟨s₁, h₁, hP₁⟩ := hstep done l rest s hls hP
      obtain ⟨s₂, h₂, hP₂⟩ := ih (done ++ [l]) s₁ (by simpa using hls) hP₁
      exact ⟨s₂, by simp [runAll, h₁, h₂], hP₂⟩
  exact key ls [] s rfl h

/-- The partial rule: what every defined step carries on holds after a run that was made. -/
theorem runAll_preserves {P : List L → σ → Prop}
    (hstep : ∀ done l s s', P done s → step l s = some s' → P (done ++ [l]) s') {ls : List L} {s s' : σ}
    (h : P [] s) (hrun : runAll step ls s = some s') : P ls s' := by
  have key : ∀ (rest done : List L) (s : σ), P done s → runAll step rest s = some s' → P (done ++ rest) s' := by
    intro rest
    induction rest with
    | nil =>
      rintro done s h ⟨⟩
      rwa [List.append_nil]
    | cons l rest ih =>
      intro done s h hrun
      obtain ⟨s₁, h₁, hrest⟩ := Option.bind_eq_some_iff.mp hrun
      have hlast := ih (done ++ [l]) s₁ (hstep done l s s₁ h h₁) hrest
      rwa [List.append_assoc] at hlast
  exact key ls [] s h hrun

/-- The same when no step needs to know the labels around it. -/
theorem runAll_inv {P : List L → σ → Prop}
    (hstep : ∀ done l s, P done s → ∃ s', step l s = some s' ∧ P (done ++ [l]) s') (ls : List L) {s : σ}
    (h : P [] s) : ∃ s', runAll step ls s = some s' ∧ P ls s' :=
  runAll_along ls (fun done l _ s _ => hstep done l s) h

end

end CSem
