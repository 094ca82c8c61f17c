import BitcoinPqc.Session

/-!
# Who owns the buffers

Keygen and sign hand out blocks through the structures; the free functions take them back. As
long as keygen and sign are aimed at structures whose buffer pointers are null, the live blocks
are exactly those the structures name, each named once.
-/
namespace BitcoinPqc.Session
open CSem

variable {ι κ : Type} [DecidableEq ι] [DecidableEq κ]

/-- Every call of a run is legal where it is made. -/
def LegalFrom (S : Sys) : List (Vendored × Call ι κ) → Session ι κ → Prop
  | [], _ => True
  | l :: ls, s => s.Legal l.2 ∧ ∀ s', step S l s = some s' → LegalFrom S ls s'

structure Owned (s : Session ι κ) : Prop where
  /-- Live blocks are those of the structures, each in exactly one field. -/
  live : ∀ p, s.world.heap.block p ≠ none ↔ ∃! f, ∃ n, s.slot f = some (p, n)
  pk_size : ∀ i p, (s.kps i).publicKey = some p →
    ∃ b, s.world.heap.block p = some b ∧ (s.kps i).publicKeySize = b.length
  sk_size : ∀ i p, (s.kps i).secretKey = some p →
    ∃ b, s.world.heap.block p = some b ∧ (s.kps i).secretKeySize = b.length
  sig_size : ∀ k p, (s.sigs k).signature = some p →
    ∃ b, s.world.heap.block p = some b ∧ (s.sigs k).signatureSize ≤ b.length

omit [DecidableEq ι] [DecidableEq κ] in
theorem Inv.owned {s : Session ι κ} (h : s.Inv) (hx : Ledger.Exact s.slot s.world.heap.block) : s.Owned where
  live p := by
    constructor
    · intro hp
      obtain ⟨f, n, hf⟩ := hx p hp
      refine ⟨f, ⟨n, hf⟩, ?_⟩
      rintro g ⟨m, hg⟩
      exact h.ledger.once g f p m n hg hf
    · rintro ⟨f, ⟨n, hf⟩, -⟩
      obtain ⟨b, hb, -⟩ := h.ledger.held f p n hf
      rw [hb]
      exact Option.some_ne_none b
  pk_size i p hp := h.ledger.held (.pk i) p _ (by simp [slot, hp])
  sk_size i p hp := h.ledger.held (.sk i) p _ (by simp [slot, hp])
  sig_size k p hp := h.ledger.held (.sig k) p _ (by simp [slot, hp])

theorem legal_run (S : Sys) : ∀ (calls : List (Vendored × Call ι κ)) (s : Session ι κ), s.Inv →
    Ledger.Exact s.slot s.world.heap.block → LegalFrom S calls s →
    ∃ s', runAll (step S) calls s = some s' ∧ s'.Inv ∧ Ledger.Exact s'.slot s'.world.heap.block := by
  intro calls
  induction calls with
  | nil => intro s h hx _; exact ⟨s, rfl, h, hx⟩
  | cons l ls ih =>
    intro s h hx hlegal
    obtain ⟨r, s₁, hstep, e⟩ := step_spec S h l
    obtain ⟨s', hrun, hinv⟩ := ih s₁ (e.inv h) (e.exact hx hlegal.1) (hlegal.2 s₁ hstep)
    exact ⟨s', by simp [runAll, hstep, hrun], hinv⟩

/-- A call that reports an error has changed no structure. -/
theorem Effect.unchanged {V : Vendored} {S : Sys} {s s' : Session ι κ} {c : Call ι κ} {e : ErrorT}
    (h : Effect V S s c (some e) s') (he : e ≠ .ok) : s'.kps = s.kps ∧ s'.sigs = s.sigs := by
  generalize hr : some e = r at h
  cases h with
  | keygen r w frame post =>
    cases post with
    | failed => exact ⟨writeBack_self _ _, rfl⟩
    | made => cases hr; exact absurd rfl he
  | sign r w frame post =>
    cases post with
    | failed => exact ⟨rfl, writeBack_self _ _⟩
    | made => cases hr; exact absurd rfl he
  | verify => exact ⟨rfl, rfl⟩
  | _ => cases hr

/-- Repeated calls that each set a structure to a fixed value leave that value. -/
theorem replicate_run {S : Sys} {l : Vendored × Call ι κ} {P : Session ι κ → Prop}
    (hset : ∀ s s' : Session ι κ, s.Inv → step S l s = some s' → P s') (n : Nat) {s : Session ι κ} (h : s.Inv) :
    ∃ s', runAll (step S) (List.replicate (n + 1) l) s = some s' ∧ P s' := by
  obtain ⟨s₁, hrun, h₁⟩ := inv_run S (List.replicate n l) h
  obtain ⟨r, s', hstep, -⟩ := step_spec S h₁ l
  refine ⟨s', ?_, hset s₁ s' h₁ hstep⟩
  rw [List.replicate_succ', runAll_append, hrun]
  simp only [Option.bind_some, runAll, hstep]

theorem free_zeroes_kp {S : Sys} {V : Vendored} {s s' : Session ι κ} {i : ι} (h : s.Inv)
    (hstep : step S (V, .keypairFree (some i)) s = some s') : s'.kps i = .zero := by
  obtain ⟨r, e⟩ := Effect.of_step h hstep
  cases e with
  | keypairFree i heap block => exact Function.update_self ..

theorem free_zeroes_sig {S : Sys} {V : Vendored} {s s' : Session ι κ} {k : κ} (h : s.Inv)
    (hstep : step S (V, .signatureFree (some k)) s = some s') : s'.sigs k = .zero := by
  obtain ⟨r, e⟩ := Effect.of_step h hstep
  cases e with
  | signatureFree k heap block => exact Function.update_self ..

/-- **Ownership of the C structures.** A legal run is defined (nothing is freed twice, no block is
overrun) and ends with every live block in exactly one field, its recorded size right; from there
a failing call changes no structure, and freeing one structure any number of times zeroes it. -/
theorem structures_own_their_blocks (S : Sys) (calls : List (Vendored × Call ι κ))
    (hlegal : LegalFrom S calls init) :
    ∃ s : Session ι κ, runAll (step S) calls init = some s ∧ s.Owned ∧
      (∀ V c e s', s.exec V S c = some (some e, s') → e ≠ .ok → s'.kps = s.kps ∧ s'.sigs = s.sigs) ∧
      (∀ V i n, ∃ s', runAll (step S) (List.replicate (n + 1) (V, .keypairFree (some i))) s = some s' ∧
        s'.kps i = ⟨0, none, none, 0, 0⟩) ∧
      (∀ V k n, ∃ s', runAll (step S) (List.replicate (n + 1) (V, .signatureFree (some k))) s = some s' ∧
        s'.sigs k = ⟨0, none, 0⟩) := by
  have hexact : Ledger.Exact (init : Session ι κ).slot (init : Session ι κ).world.heap.block :=
    fun p hp => absurd rfl hp
  obtain ⟨s, hrun, h, hx⟩ := legal_run S calls init inv_init hexact hlegal
  refine ⟨s, hrun, h.owned hx, ?_, ?_, ?_⟩
  · intro V c e s' hexec he
    obtain ⟨r, s₁, hexec', heff⟩ := exec_spec V S h c
    rw [hexec'] at hexec
    cases hexec
    exact heff.unchanged he
  · intro V i n
    exact replicate_run (fun _ _ h hstep => free_zeroes_kp h hstep) n h
  · intro V k n
    exact replicate_run (fun _ _ h hstep => free_zeroes_sig h hstep) n h

/-- A key pair made and freed twice. -/
theorem structures_own_their_blocks_freed_twice :
    ∃ s : Session Unit Unit, runAll (step (.sample .dilithium 0))
      [(.sample, .keygen bitcoinPqcMlDsa44 (some ()) (.buf (List.replicate 128 7))),
        (.sample, .keypairFree (some ())), (.sample, .keypairFree (some ()))] init = some s ∧ s.Owned := by
  have hlegal : LegalFrom (.sample .dilithium 0)
      [(.sample, .keygen bitcoinPqcMlDsa44 (some ()) (.buf (List.replicate 128 7))),
        (.sample, .keypairFree (some ())), (.sample, .keypairFree (some ()))] (init : Session Unit Unit) :=
    ⟨⟨rfl, rfl⟩, fun _ _ => ⟨trivial, fun _ _ => ⟨trivial, fun _ _ => trivial⟩⟩⟩
  obtain ⟨s, hrun, howned, -⟩ := structures_own_their_blocks (.sample .dilithium 0) _ hlegal
  exact ⟨s, hrun, howned⟩

end BitcoinPqc.Session
