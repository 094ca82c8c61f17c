import BitcoinPqc.Session

/-!
# No entropy outlives its call

Every early return of `ml_dsa_44_keygen`, `ml_dsa_44_sign` and `slh_dsa_shake_128s_sign` either
comes before the source is installed or goes through the restore function. Over runs: between
calls both sources are null, and every byte a seeded source served came from the buffer that the
call being executed had installed.
-/
namespace BitcoinPqc.Session
open CSem

variable {ι κ : Type} [DecidableEq ι] [DecidableEq κ]

/-- The buffers a call may install: the caller's `random_data`, or the call's own seed. -/
def Installs (l : Vendored × Call ι κ) (b : Bytes) : Prop :=
  match l.2 with
  | .keygen _ _ randomData => randomData = .buf b
  | .sign algorithm secretKey message _ =>
    ∃ m sk, message = .buf m ∧ secretKey = .buf sk ∧ SignInstalls l.1 algorithm m sk b
  | _ => False

/-- What one call adds to the record of seeded draws. -/
theorem Effect.draws {V : Vendored} {S : Sys} {s s' : Session ι κ} {c : Call ι κ} {r : Option ErrorT}
    (e : Effect V S s c r s') :
    ∃ ds, s'.world.draws = s.world.draws ++ ds ∧ ∀ d ∈ ds, d.call = s.world.call ∧
      d.src.call = s.world.call ∧ Installs (V, c) d.src.bytes ∧ ∀ x ∈ d.out, x ∈ d.src.bytes := by
  cases e with
  | keygen r w frame post => exact frame.draws
  | sign r w frame post => exact frame.draws
  | verify => exact ⟨[], by simp [World.tick], by simp⟩
  | keypairFreeNull => exact ⟨[], by simp [World.tick], by simp⟩
  | keypairFree i heap block => exact ⟨[], by simp [World.tick], by simp⟩
  | signatureFreeNull => exact ⟨[], by simp [World.tick], by simp⟩
  | signatureFree k heap block => exact ⟨[], by simp [World.tick], by simp⟩

/-- The run invariant: calls are numbered by their position, and every draw belongs to a call
already made and to a buffer of that call. -/
structure Traced (done : List (Vendored × Call ι κ)) (s : Session ι κ) : Prop where
  inv : s.Inv
  call : s.world.call = done.length
  draws : ∀ d ∈ s.world.draws, d.src.call = d.call ∧
    ∃ l, done[d.call]? = some l ∧ Installs l d.src.bytes ∧ ∀ x ∈ d.out, x ∈ d.src.bytes

omit [DecidableEq ι] [DecidableEq κ] in
theorem traced_init : Traced [] (init : Session ι κ) := ⟨inv_init, rfl, fun d h => by cases h⟩

theorem traced_step (S : Sys) (done : List (Vendored × Call ι κ)) (l : Vendored × Call ι κ) (s : Session ι κ)
    (h : Traced done s) : ∃ s', step S l s = some s' ∧ Traced (done ++ [l]) s' := by
  obtain ⟨r, s', hstep, e⟩ := step_spec S h.inv l
  refine ⟨s', hstep, e.inv h.inv, by rw [e.call, h.call, List.length_append]; rfl, ?_⟩
  obtain ⟨ds, hds, hnew⟩ := e.draws
  intro d hd
  rw [hds] at hd
  rcases List.mem_append.mp hd with hd | hd
  · obtain ⟨hsrc, l', hl', hrest⟩ := h.draws d hd
    exact ⟨hsrc, l', by rw [List.getElem?_append_left (List.getElem?_eq_some_iff.mp hl').1, hl'], hrest⟩
  · obtain ⟨hcall, hsrc, hinst, hout⟩ := hnew d hd
    refine ⟨hsrc.trans hcall.symm, l, ?_, hinst, hout⟩
    rw [hcall, h.call, List.getElem?_concat_length]

theorem traced_run (S : Sys) (calls : List (Vendored × Call ι κ)) :
    ∃ s : Session ι κ, runAll (step S) calls init = some s ∧ Traced calls s :=
  runAll_inv (traced_step S) calls traced_init

/-- **No entropy outlives its call**: after any sequence of calls both sources are null, and every
byte that a seeded source served was one of the buffer that the same call had installed. -/
theorem entropy_stays_in_its_call (S : Sys) (calls : List (Vendored × Call ι κ)) :
    ∃ s : Session ι κ, runAll (step S) calls init = some s ∧
      s.world.ml = ⟨none, 0, 0⟩ ∧ s.world.slh = ⟨none, 0, 0⟩ ∧
      ∀ d ∈ s.world.draws, d.src.call = d.call ∧
        ∃ l, calls[d.call]? = some l ∧ Installs l d.src.bytes ∧ ∀ x ∈ d.out, x ∈ d.src.bytes := by
  obtain ⟨s, hrun, h⟩ := traced_run S calls
  exact ⟨s, hrun, h.inv.quiet.1, h.inv.quiet.2, h.draws⟩

end BitcoinPqc.Session
