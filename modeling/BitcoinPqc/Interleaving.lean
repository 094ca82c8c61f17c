import BitcoinPqc.Reproducible
import Mathlib.Tactic.Tauto

/-!
# Two threads, one entropy source

The source of the ML-DSA wrappers is three process-wide statics with no lock. A call of keygen or
sign touches them in three atomic steps: it installs its buffer, draws 32 bytes through
`randombytes`, and clears the source. Any number of threads interleave such calls here.

A schedule in which no step is taken while another thread is between its install and its draw
gives every call what it returns alone (`undisturbed_isolated`), and these are the only ones
(`isolated_iff_undisturbed`): otherwise the thread between install and draw draws from another
buffer, from a later place of its own, or from the device.
-/
namespace BitcoinPqc
open CSem

/-- What a thread calls, with its private inputs. -/
inductive Op where
  | keygen (randomData : Bytes)
  | sign (secretKey message : Bytes)

/-- What the vendored scheme hands back to the caller. -/
inductive OpResult where
  | keys (out : KeyOut Dilithium.cryptoPublickeybytes Dilithium.cryptoSecretkeybytes)
  | signature (out : SigOut tempSigSize)

namespace Op

/-- What the wrappers check before they touch the source. -/
def Valid : Op → Prop
  | .keygen randomData => 128 ≤ randomData.length
  | .sign secretKey _ => secretKey.length = Dilithium.cryptoSecretkeybytes

variable (V : Vendored)

/-- The buffer the call installs. -/
def buffer : Op → Bytes
  | .keygen randomData => randomData
  | .sign secretKey message => mlSeed V message secretKey

/-- What the vendored scheme makes of the bytes it drew. -/
def finish (drawn : Bytes) : Op → OpResult
  | .keygen _ => .keys (V.dilithiumKeypair drawn)
  | .sign secretKey message => .signature (V.dilithiumSignature message (contextPrefix []) drawn secretKey)

/-- The result of the call in `w` when nobody interferes; `mlDsa44Keygen_wp` and `mlDsa44Sign_wp`
say that this is what the wrappers compute. -/
def alone (S : Sys) (w : World) : Op → OpResult
  | .keygen randomData => .keys (mlKeys V S w randomData)
  | .sign secretKey message => .signature (mlSig V S w message secretKey)

/-- `SEEDBYTES` and `RNDBYTES` -/
def drawSize : Nat := 32

theorem drawSize_le_buffer {op : Op} (h : op.Valid) : drawSize ≤ (op.buffer V).length := by
  cases op with
  | keygen randomData => exact Nat.le_trans (by decide) h
  | sign secretKey message =>
    have hlen : (mlSeed V message secretKey).length = seedSize := length_shake256Of _ _ _
    show drawSize ≤ (mlSeed V message secretKey).length
    rw [hlen]
    decide

theorem alone_eq {S : Sys} (hl : S.link = .dilithium) (w : World) {op : Op} (h : op.Valid) :
    op.alone V S w = op.finish V ((op.buffer V).take drawSize) := by
  have hle := drawSize_le_buffer V h
  have hpos : 0 < (op.buffer V).length := Nat.lt_of_lt_of_le (by decide) hle
  have hdraw := drawn_ml hl w hpos hle w.call
  cases op with
  | keygen randomData => exact congrArg (fun d => OpResult.keys (V.dilithiumKeypair d)) hdraw
  | sign secretKey message =>
    exact congrArg (fun d => OpResult.signature (V.dilithiumSignature message (contextPrefix []) d secretKey)) hdraw

end Op

/-- Where a call is between its atomic steps. -/
inductive Phase where
  | start
  | installed
  | drew (drawn : Bytes)
  | returned (result : OpResult)

structure Threads (τ : Type) where
  world : World
  phase : τ → Phase

variable {τ : Type} [DecidableEq τ]

/-- The next atomic step of thread `i`. -/
def microStep (V : Vendored) (S : Sys) (ops : τ → Op) (i : τ) (s : Threads τ) : Option (Threads τ) :=
  match s.phase i with
  | .start => (mlDsaInitRandomSource (.buf ((ops i).buffer V)) s.world).map fun r =>
    ⟨r.2, Function.update s.phase i .installed⟩
  | .installed => (randombytes S Op.drawSize s.world).map fun r => ⟨r.2, Function.update s.phase i (.drew r.1)⟩
  | .drew drawn => (mlDsaRestoreOriginalRandom s.world).map fun r =>
    ⟨r.2, Function.update s.phase i (.returned ((ops i).finish V drawn))⟩
  | .returned _ => none

/-- Every call that a schedule completes returns what it returns alone: for all schemes, systems,
quiet starts and inputs. -/
def Isolated (sched : List τ) : Prop :=
  ∀ (V : Vendored) (S : Sys) (w : World) (ops : τ → Op), S.link = .dilithium → w.Quiet →
    (∀ i, (ops i).Valid) →
    ∃ s, runAll (microStep V S ops) sched ⟨w, fun _ => .start⟩ = some s ∧
      ∀ i ∈ sched, s.phase i = .returned ((ops i).alone V S w)

/-- No step is taken while another thread has installed its buffer and not yet drawn: a thread's
install is its first step, its draw the second. -/
def Undisturbed (sched : List τ) : Prop :=
  ∀ done i rest, sched = done ++ i :: rest → ∀ j, j ≠ i → done.count j ≠ 1

theorem undisturbed_iff {sched : List τ} :
    Undisturbed sched ↔ ∀ k : Fin sched.length, ∀ j ∈ sched, j ≠ sched.get k → (sched.take k).count j ≠ 1 := by
  constructor
  · intro h k j _ hj
    exact h (sched.take k) (sched.get k) (sched.drop (k + 1))
      (by rw [List.get_eq_getElem, List.getElem_cons_drop, List.take_append_drop]) j hj
  · rintro h done i rest rfl j hj hone
    have hmem : j ∈ done ++ i :: rest := List.mem_append_left _ (List.count_pos_iff.mp (by omega))
    exact h ⟨done.length, by simp⟩ j hmem (by simpa using hj) (by simpa using hone)

instance (sched : List τ) : Decidable (Undisturbed sched) := decidable_of_iff _ undisturbed_iff.symm

/-! ## Undisturbed schedules isolate -/

section
variable {V : Vendored} {S : Sys} {ops : τ → Op}

/-- Where a call stands after `n` of its steps, when it drew from its own buffer. -/
def ownPhase (V : Vendored) (op : Op) : Nat → Phase
  | 0 => .start
  | 1 => .installed
  | 2 => .drew ((op.buffer V).take Op.drawSize)
  | _ => .returned (op.finish V ((op.buffer V).take Op.drawSize))

structure OwnDraws (V : Vendored) (ops : τ → Op) (done : List τ) (s : Threads τ) : Prop where
  phase : ∀ i, s.phase i = ownPhase V (ops i) (done.count i)
  /-- A thread between install and draw still finds its own buffer, unread. -/
  source : ∀ i, done.count i = 1 → ∃ call, s.world.ml = .install (.buf ((ops i).buffer V)) call

theorem phase_step {phase : τ → Phase} {done : List τ} {i : τ}
    (h : ∀ j, phase j = ownPhase V (ops j) (done.count j)) :
    ∀ j, Function.update phase i (ownPhase V (ops i) (done.count i + 1)) j =
      ownPhase V (ops j) ((done ++ [i]).count j) := by
  intro j
  by_cases hj : j = i
  · subst hj
    simp
  · have hne : ¬ i = j := fun e => hj e.symm
    rw [Function.update_of_ne hj, h j, List.count_append, List.count_singleton]
    simp [hne]

theorem ownDraws_step (hl : S.link = .dilithium) (hvalid : ∀ i, (ops i).Valid) {sched done rest : List τ} {i : τ}
    (hu : Undisturbed sched) (hcount : sched.count i ≤ 3) (hsched : sched = done ++ i :: rest) {s : Threads τ}
    (h : OwnDraws V ops done s) :
    ∃ s', microStep V S ops i s = some s' ∧ OwnDraws V ops (done ++ [i]) s' := by
  -- only `i` itself can be between install and draw
  have hquiet : ∀ j, (done ++ [i]).count j = 1 → j = i := by
    intro j hj
    by_contra hne
    have hji : ¬ i = j := fun e => hne e.symm
    rw [List.count_append, List.count_singleton] at hj
    simp only [beq_iff_eq, hji, if_false, Nat.add_zero] at hj
    exact hu done i rest hsched j hne hj
  have hlt : done.count i < 3 := by
    rw [hsched, List.count_append, List.count_cons_self] at hcount
    omega
  have hnext := phase_step (i := i) h.phase
  have hi : (done ++ [i]).count i = done.count i + 1 := by simp
  rcases hn : done.count i with _ | _ | _ | n
  · -- install
    have hphase : s.phase i = .start := by rw [h.phase i, hn]; rfl
    refine ⟨_, by simp only [microStep, hphase]; rfl, ?_, ?_⟩
    · rw [hn] at hnext
      exact hnext
    · intro j hj
      obtain rfl := hquiet j hj
      exact ⟨s.world.call, rfl⟩
  · -- draw
    have hphase : s.phase i = .installed := by rw [h.phase i, hn]; rfl
    obtain ⟨call, hml⟩ := h.source i hn
    have hle := Op.drawSize_le_buffer V (hvalid i)
    have hdraw := customRandombytesImpl_seeded S (n := Op.drawSize) (b := ⟨(ops i).buffer V, call⟩) (by decide)
      (Nat.lt_of_lt_of_le (by decide) hle) hml
    rw [cyc_take hle] at hdraw
    refine ⟨_, by simp only [microStep, hphase, randombytes, hl, hdraw]; rfl, ?_, ?_⟩
    · rw [hn] at hnext
      exact hnext
    · intro j hj
      obtain rfl := hquiet j hj
      omega
  · -- restore
    have hphase : s.phase i = .drew (((ops i).buffer V).take Op.drawSize) := by rw [h.phase i, hn]; rfl
    refine ⟨_, by simp only [microStep, hphase]; rfl, ?_, ?_⟩
    · rw [hn] at hnext
      exact hnext
    · intro j hj
      obtain rfl := hquiet j hj
      omega
  · omega

/-- **Undisturbed schedules isolate**: every call returns what it returns alone. -/
theorem undisturbed_isolated {sched : List τ} (hcomplete : ∀ i ∈ sched, sched.count i = 3)
    (hu : Undisturbed sched) : Isolated sched := by
  intro V S w ops hl hq hvalid
  have hcount : ∀ i ∈ sched, sched.count i ≤ 3 := fun i hi => Nat.le_of_eq (hcomplete i hi)
  obtain ⟨s, hrun, h⟩ := runAll_along (P := OwnDraws V ops) sched
    (fun done i rest s hsched h => ownDraws_step hl hvalid hu (hcount i (by simp [hsched])) hsched h)
    (s := ⟨w, fun _ => .start⟩) ⟨fun _ => rfl, fun i hi => by simp at hi⟩
  refine ⟨s, hrun, fun i hi => ?_⟩
  rw [h.phase i, hcomplete i hi, Op.alone_eq V hl w (hvalid i)]
  rfl

end

/-! ## Any other schedule mixes -/

/-- Everything one step can do. -/
theorem microStep_cases {V : Vendored} {S : Sys} {ops : τ → Op} {i : τ} {s s' : Threads τ}
    (h : microStep V S ops i s = some s') :
    (s.phase i = .start ∧ s' = ⟨{ s.world with ml := .install (.buf ((ops i).buffer V)) s.world.call },
      Function.update s.phase i .installed⟩) ∨
    (s.phase i = .installed ∧ ∃ out w, randombytes S Op.drawSize s.world = some (out, w) ∧
      s' = ⟨w, Function.update s.phase i (.drew out)⟩) ∨
    (∃ drawn, s.phase i = .drew drawn ∧ s' = ⟨{ s.world with ml := .cleared },
      Function.update s.phase i (.returned ((ops i).finish V drawn))⟩) := by
  unfold microStep at h
  split at h
  · rename_i hp
    exact .inl ⟨hp, (Option.some.inj h).symm⟩
  · rename_i hp
    obtain ⟨⟨out, w⟩, hr, rfl⟩ := Option.map_eq_some_iff.mp h
    exact .inr (.inl ⟨hp, out, w, hr, rfl⟩)
  · rename_i drawn hp
    exact .inr (.inr ⟨drawn, hp, (Option.some.inj h).symm⟩)
  · cases h

/-- The entropy of the thread that is to be disturbed: 32 ones, then zeros for `n + 3` draws. -/
def victimBuffer (n : Nat) : Bytes := List.replicate 32 1 ++ List.replicate (32 * (n + 3)) 0

def otherBuffer : Bytes := List.replicate 128 0

/-- Thread `j` generates a key from `victimBuffer`, all others from zeros. -/
def victimOps (n : Nat) (j k : τ) : Op := .keygen (if k = j then victimBuffer n else otherBuffer)

/-- What the source can be: clear, at any place of a buffer of zeros, or in the victim's buffer
after between `lo` and `hi` draws. -/
inductive SourceIs (n lo hi : Nat) : Source → Prop where
  | cleared : SourceIs n lo hi .cleared
  | other (b : Installed) (off : Nat) (hb : b.bytes = otherBuffer) (h : off < b.bytes.length) :
      SourceIs n lo hi ⟨some b, b.bytes.length, off⟩
  | victim (b : Installed) (k : Nat) (hb : b.bytes = victimBuffer n) (hlo : lo ≤ k) (hhi : k ≤ hi) :
      SourceIs n lo hi ⟨some b, b.bytes.length, 32 * k⟩

theorem SourceIs.weaken {n lo lo' hi hi' : Nat} {s : Source} (h : SourceIs n lo hi s) (hlo : lo' ≤ lo)
    (hhi : hi ≤ hi') : SourceIs n lo' hi' s := by
  cases h with
  | cleared => exact .cleared
  | other b off hb h => exact .other b off hb h
  | victim b k hb hl hh => exact .victim b k hb (Nat.le_trans hlo hl) (Nat.le_trans hh hhi)

@[simp] theorem length_victimBuffer (n : Nat) : (victimBuffer n).length = 32 * (n + 4) := by
  simp only [victimBuffer, List.length_append, List.length_replicate]
  omega

theorem length_otherBuffer : otherBuffer.length = 128 := List.length_replicate ..

/-- After its first draw the victim's buffer delivers zeros only. -/
theorem victimBuffer_tail {n k : Nat} (h1 : 1 ≤ k) (hk : k ≤ n + 3) :
    cyc (victimBuffer n) (32 * k) 32 = List.replicate 32 0 := by
  rw [cyc_slice 32 (32 * k) (by rw [length_victimBuffer]; omega), victimBuffer, List.drop_append,
    List.drop_eq_nil_of_le (by rw [List.length_replicate]; omega), List.nil_append, List.drop_replicate,
    List.take_replicate]
  congr 1
  rw [List.length_replicate]
  omega

theorem cyc_zeros (m off k : Nat) (hm : 0 < m) : cyc (List.replicate m (0 : UInt8)) off k = List.replicate k 0 := by
  rw [List.eq_replicate_iff]
  refine ⟨length_cyc (by rwa [List.length_replicate]) off k, fun b hb => ?_⟩
  exact List.eq_of_mem_replicate (mem_of_mem_cyc hb)

section
variable {n : Nat}

/-- A draw from such a source; only the first draw of the victim's buffer is not zeros. -/
theorem SourceIs.draw {lo hi : Nat} {w : World} (h : SourceIs n lo hi w.ml) (hn : hi ≤ n) :
    ∃ out w', randombytes (.sample .dilithium 0) Op.drawSize w = some (out, w') ∧ SourceIs n 1 (hi + 1) w'.ml ∧
      (1 ≤ lo → out = List.replicate 32 0) := by
  generalize hml : w.ml = src at h
  cases h with
  | cleared =>
    refine ⟨_, _, customRandombytesImpl_cleared _ (by decide) hml, ?_, fun _ => rfl⟩
    show SourceIs n 1 (hi + 1) w.ml
    rw [hml]
    exact .cleared
  | other b off hb hoff =>
    refine ⟨_, _, customRandombytesImpl_seeded _ (by decide) hoff hml, ?_, fun _ => ?_⟩
    · exact .other b _ hb (Nat.mod_lt _ (Nat.lt_of_le_of_lt (Nat.zero_le off) hoff))
    · rw [hb]
      exact cyc_zeros 128 off 32 (by decide)
  | victim b k hb hlo hhi =>
    have hlen : b.bytes.length = 32 * (n + 4) := by rw [hb, length_victimBuffer]
    have hmod : (32 * k + Op.drawSize) % b.bytes.length = 32 * (k + 1) := by
      rw [hlen]
      exact Nat.mod_eq_of_lt (show 32 * k + 32 < 32 * (n + 4) by omega)
    refine ⟨_, _, customRandombytesImpl_seeded _ (by decide) (by omega) hml, ?_, fun h1 => ?_⟩
    · show SourceIs n 1 (hi + 1) ⟨some b, b.bytes.length, (32 * k + Op.drawSize) % b.bytes.length⟩
      rw [hmod]
      exact .victim b (k + 1) hb (by omega) (by omega)
    · rw [hb]
      exact victimBuffer_tail (Nat.le_trans h1 hlo) (by omega)

variable {j : τ}

/-- One step keeps the source among these; a step of another thread leaves no first draw in it. -/
theorem SourceIs.step {lo hi : Nat} {i : τ} {s s' : Threads τ} (h : SourceIs n lo hi s.world.ml) (hn : hi ≤ n)
    (hs : microStep .sample (.sample .dilithium 0) (victimOps n j) i s = some s') :
    SourceIs n 0 (hi + 1) s'.world.ml ∧ (i ≠ j → SourceIs n 1 (hi + 1) s'.world.ml) := by
  rcases microStep_cases hs with ⟨-, rfl⟩ | ⟨-, out, w, hr, rfl⟩ | ⟨drawn, -, rfl⟩
  · have hbuf : (victimOps n j i).buffer Vendored.sample = if i = j then victimBuffer n else otherBuffer := rfl
    simp only [hbuf, Source.install_buf]
    by_cases hij : i = j
    · simp only [hij, if_true]
      exact ⟨.victim ⟨victimBuffer n, _⟩ 0 rfl (Nat.le_refl _) (Nat.zero_le _), fun h => absurd rfl h⟩
    · simp only [hij, if_false]
      have hpos : 0 < otherBuffer.length := by rw [length_otherBuffer]; decide
      exact ⟨.other ⟨otherBuffer, _⟩ 0 rfl hpos, fun _ => .other ⟨otherBuffer, _⟩ 0 rfl hpos⟩
  · obtain ⟨_, _, hr', hsrc, -⟩ := h.draw hn
    rw [hr] at hr'
    cases hr'
    exact ⟨hsrc.weaken (Nat.zero_le 1) (Nat.le_refl _), fun _ => hsrc⟩
  · exact ⟨.cleared, fun _ => .cleared⟩

/-- How many steps a call has made. -/
def Phase.steps : Phase → Nat
  | .start => 0
  | .installed => 1
  | .drew _ => 2
  | .returned _ => 3

theorem microStep_steps {V : Vendored} {S : Sys} {ops : τ → Op} {i : τ} {s s' : Threads τ}
    (h : microStep V S ops i s = some s') (k : τ) :
    (s'.phase k).steps = (s.phase k).steps + [i].count k := by
  rw [List.count_singleton]
  by_cases hk : i = k
  · subst hk
    rcases microStep_cases h with ⟨hp, rfl⟩ | ⟨hp, out, w, -, rfl⟩ | ⟨drawn, hp, rfl⟩ <;>
      simp [hp, Phase.steps]
  · have hne : k ≠ i := fun e => hk e.symm
    rcases microStep_cases h with ⟨-, rfl⟩ | ⟨-, out, w, -, rfl⟩ | ⟨drawn, -, rfl⟩ <;>
      simp [hk, Function.update_of_ne hne]

theorem microStep_other {V : Vendored} {S : Sys} {ops : τ → Op} {i k : τ} {s s' : Threads τ}
    (h : microStep V S ops i s = some s') (hk : k ≠ i) : s'.phase k = s.phase k := by
  rcases microStep_cases h with ⟨-, rfl⟩ | ⟨-, out, w, -, rfl⟩ | ⟨drawn, -, rfl⟩ <;>
    exact Function.update_of_ne hk _ _

/-- The victim after another thread has stepped in between: it is still to draw, and will draw
zeros, or it has drawn them. -/
def Disturbed (n : Nat) (j : τ) (hi : Nat) (s : Threads τ) : Prop :=
  (s.phase j = .installed ∧ SourceIs n 1 hi s.world.ml) ∨ s.phase j = .drew (List.replicate 32 0) ∨
  s.phase j = .returned ((victimOps n j j).finish .sample (List.replicate 32 0))

theorem Disturbed.step {hi : Nat} {i : τ} {s s' : Threads τ} (h : Disturbed n j hi s) (hn : hi ≤ n)
    (hs : microStep .sample (.sample .dilithium 0) (victimOps n j) i s = some s') : Disturbed n j (hi + 1) s' := by
  by_cases hij : j = i
  · subst hij
    rcases h with ⟨hp, hsrc⟩ | hp | hp
    · obtain ⟨out, w, hr, -, hout⟩ := hsrc.draw hn
      rcases microStep_cases hs with ⟨hp', -⟩ | ⟨-, out', w', hr', rfl⟩ | ⟨drawn, hp', -⟩
      · rw [hp] at hp'; cases hp'
      · rw [hr] at hr'
        cases hr'
        exact .inr (.inl (by simp [hout (Nat.le_refl 1)]))
      · rw [hp] at hp'; cases hp'
    · rcases microStep_cases hs with ⟨hp', -⟩ | ⟨hp', -⟩ | ⟨drawn, hp', rfl⟩
      · rw [hp] at hp'; cases hp'
      · rw [hp] at hp'; cases hp'
      · rw [hp] at hp'
        cases hp'
        exact .inr (.inr (by simp))
    · rcases microStep_cases hs with ⟨hp', -⟩ | ⟨hp', -⟩ | ⟨drawn, hp', -⟩ <;> rw [hp] at hp' <;> cases hp'
  · have hphase := microStep_other hs hij
    rcases h with ⟨hp, hsrc⟩ | hp | hp
    · exact .inl ⟨hphase.trans hp, (hsrc.step hn hs).2 (Ne.symm hij)⟩
    · exact .inr (.inl (hphase.trans hp))
    · exact .inr (.inr (hphase.trans hp))

/-- What the victim returns after it drew zeros is not what it returns alone. -/
theorem finish_zeros_ne :
    (victimOps n j j).finish .sample (List.replicate 32 0) ≠
      (victimOps n j j).finish .sample (((victimOps n j j).buffer .sample).take Op.drawSize) := by
  have hop : victimOps n j j = .keygen (victimBuffer n) := by simp only [victimOps, if_true]
  have hfirst : (victimBuffer n).take Op.drawSize = List.replicate 32 1 := by
    rw [victimBuffer, List.take_append, List.length_replicate, List.take_replicate]
    rfl
  rw [hop, show (Op.keygen (victimBuffer n)).buffer .sample = victimBuffer n from rfl, hfirst]
  intro h
  have hpk := congrArg KeyOut.pk (OpResult.keys.inj h)
  have htake := congrArg (List.take 32) hpk
  simp only [Vendored.sample] at htake
  rw [take_fit (by decide) (by simp), take_fit (by decide) (by simp)] at htake
  revert htake
  decide

/-- Disturbed once, disturbed to the end of the run. -/
theorem Disturbed.run {hi : Nat} {s s' : Threads τ} {rest : List τ} (h : Disturbed n j hi s)
    (hn : hi + rest.length ≤ n + 1)
    (hrun : runAll (microStep .sample (.sample .dilithium 0) (victimOps n j)) rest s = some s') :
    Disturbed n j (hi + rest.length) s' := by
  have hend : rest.length ≤ rest.length → Disturbed n j (hi + rest.length) s' := by
    refine runAll_preserves (P := fun d s => d.length ≤ rest.length → Disturbed n j (hi + d.length) s) ?_
      (fun _ => h) hrun
    intro d k s₁ s₂ h₁ hs hle
    rw [List.length_append, List.length_singleton] at hle ⊢
    exact (h₁ (by omega)).step (by omega) hs
  exact hend (Nat.le_refl _)

/-- Along any run the phases count the steps, and the source is one of those above. -/
theorem source_run {s : Threads τ} {done : List τ} (hn : done.length ≤ n)
    (hrun : runAll (microStep .sample (.sample .dilithium 0) (victimOps n j)) done ⟨.init, fun _ => .start⟩ =
      some s) : (s.phase j).steps = done.count j ∧ SourceIs n 0 done.length s.world.ml := by
  have hend : (s.phase j).steps = done.count j ∧ (done.length ≤ n → SourceIs n 0 done.length s.world.ml) := by
    refine runAll_preserves (P := fun d s => (s.phase j).steps = d.count j ∧
      (d.length ≤ n → SourceIs n 0 d.length s.world.ml)) ?_ ⟨rfl, fun _ => .cleared⟩ hrun
    rintro d k s₁ s₂ ⟨hsteps, hsrc⟩ hs
    refine ⟨by rw [microStep_steps hs j, hsteps, List.count_append], fun hle => ?_⟩
    rw [List.length_append, List.length_singleton] at hle ⊢
    exact ((hsrc (by omega)).step (by omega) hs).1
  exact ⟨hend.1, hend.2 hn⟩

theorem victimOps_valid (k : τ) : (victimOps n j k).Valid := by
  show 128 ≤ (if k = j then victimBuffer n else otherBuffer).length
  split
  · rw [length_victimBuffer]
    omega
  · exact Nat.le_of_eq length_otherBuffer.symm

/-- **A step between a thread's install and its draw can change what that thread returns.** -/
theorem disturbed_not_isolated {sched done rest : List τ} {i : τ} (hsched : sched = done ++ i :: rest)
    (hij : j ≠ i) (hinstalled : done.count j = 1) : ¬ Isolated sched := by
  intro hiso
  have hlen : done.length + (rest.length + 1) = sched.length := by rw [hsched]; simp
  generalize sched.length = n at hlen
  obtain ⟨s, hrun, hall⟩ := hiso .sample (.sample .dilithium 0) .init (victimOps n j) rfl World.quiet_init
    victimOps_valid
  have hmem : j ∈ sched := by
    rw [hsched]
    exact List.mem_append_left _ (List.count_pos_iff.mp (by omega))
  have hj := hall j hmem
  rw [Op.alone_eq .sample (S := .sample .dilithium 0) rfl .init (victimOps_valid j)] at hj
  -- split the run at the step of `i`
  rw [hsched, runAll_append] at hrun
  obtain ⟨s₁, hrun₁, hrun₂⟩ := Option.bind_eq_some_iff.mp hrun
  obtain ⟨s₂, hstep, hrun₃⟩ := Option.bind_eq_some_iff.mp hrun₂
  -- before it the victim has installed its buffer, whatever became of the source since
  obtain ⟨hsteps, hsrc⟩ := source_run (by omega) hrun₁
  have hphase : s₁.phase j = .installed := by
    have hone : (s₁.phase j).steps = 1 := hsteps.trans hinstalled
    cases hp : s₁.phase j <;> rw [hp] at hone <;> first | rfl | cases hone
  -- after it and to the end the victim is disturbed
  have hdisturbed : Disturbed n j (done.length + 1) s₂ :=
    .inl ⟨(microStep_other hstep hij).trans hphase, (hsrc.step (by omega) hstep).2 (Ne.symm hij)⟩
  rcases hdisturbed.run (by omega) hrun₃ with ⟨hp, -⟩ | hp | hp
  · rw [hp] at hj; cases hj
  · rw [hp] at hj; cases hj
  · rw [hp] at hj
    exact finish_zeros_ne (Phase.returned.inj hj)

/-- **Which schedules isolate.** Among the schedules that complete every call in them, exactly
those in which no step falls between another thread's install and its draw. -/
theorem isolated_iff_undisturbed {sched : List τ} (hcomplete : ∀ i ∈ sched, sched.count i = 3) :
    Isolated sched ↔ Undisturbed sched := by
  refine ⟨fun hiso done i rest hsched j hij hinstalled => ?_, undisturbed_isolated hcomplete⟩
  exact disturbed_not_isolated hsched hij hinstalled hiso

end

/-- One thread after the other; and the second between the first's draw and its end, and the first's
end between the second's draw and its end. -/
theorem isolated_interleaved : Isolated [true, true, true, false, false, false] ∧
    Isolated [true, true, false, false, true, false] :=
  ⟨(isolated_iff_undisturbed (by decide)).mpr (by decide), (isolated_iff_undisturbed (by decide)).mpr (by decide)⟩

/-- Both threads install before either draws: the first draws from the second's buffer. -/
theorem two_threads_not_isolated :
    ¬ ∀ sched : List Bool, (∀ i ∈ sched, sched.count i = 3) → Isolated sched := by
  intro h
  have hsched : [true, false, true, false, true, false] = [true] ++ false :: [true, false, true, false] := rfl
  exact disturbed_not_isolated (j := true) hsched (by decide) rfl (h _ (by decide))

end BitcoinPqc
