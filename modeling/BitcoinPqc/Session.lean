import BitcoinPqc.CApiProofs

/-!
# Sequences of API calls

A session is the library's state with the structures a program keeps: key pairs indexed by `ι`,
signatures by `κ`, all zero at the start. Calls are aimed at a structure or at a null pointer and
take any other arguments. Each label of a run carries its own `Vendored`, so the scheme functions
may answer every call differently.

`Session.exec_spec` says once what a call can do; `Session.Inv` (no source installed, and the
structures are a ledger of live blocks) follows from it and with it that every run is defined:
no call reads or writes outside its blocks, and none is freed twice.
-/
namespace BitcoinPqc
open CSem

inductive Call (ι κ : Type) where
  | keygen (algorithm : AlgorithmT) (target : Option ι) (randomData : CBuf)
  | sign (algorithm : AlgorithmT) (secretKey message : CBuf) (target : Option κ)
  | verify (algorithm : AlgorithmT) (publicKey message signature : CBuf)
  | keypairFree (target : Option ι)
  | signatureFree (target : Option κ)

structure Session (ι κ : Type) where
  world : World
  kps : ι → KeypairT
  sigs : κ → SignatureT

/-- The next call gets the next number. -/
def World.tick (w : World) : World := { w with call := w.call + 1 }

variable {ι κ : Type}

/-- What a call stored through its structure pointer. -/
def writeBack {T : Type} [DecidableEq ι] (target : Option ι) (value : Option T) (f : ι → T) : ι → T :=
  match target, value with
  | some i, some x => Function.update f i x
  | _, _ => f

theorem writeBack_self {T : Type} [DecidableEq ι] (target : Option ι) (f : ι → T) :
    writeBack target (target.map f) f = f := by
  cases target with
  | none => rfl
  | some i => exact Function.update_eq_self i f

namespace Session

def init : Session ι κ := ⟨.init, fun _ => .zero, fun _ => .zero⟩

/-! ## The slots -/

/-- The buffer fields of the structures. -/
inductive Field (ι κ : Type) where
  | pk (i : ι)
  | sk (i : ι)
  | sig (k : κ)
  deriving DecidableEq

def slot (s : Session ι κ) : Field ι κ → Option (Ptr × Nat)
  | .pk i => (s.kps i).publicKey.map (·, (s.kps i).publicKeySize)
  | .sk i => (s.kps i).secretKey.map (·, (s.kps i).secretKeySize)
  | .sig k => (s.sigs k).signature.map (·, (s.sigs k).signatureSize)

/-- Recorded against allocated size: equal for keys, at most for signatures. -/
def sizeRel : Field ι κ → Nat → Nat → Prop
  | .pk _, n, m => n = m
  | .sk _, n, m => n = m
  | .sig _, n, m => n ≤ m

structure Inv (s : Session ι κ) : Prop where
  quiet : s.world.Quiet
  ledger : Ledger sizeRel s.slot s.world.heap.block

@[simp] theorem slot_init (f : Field ι κ) : (init : Session ι κ).slot f = none := by
  cases f <;> rfl

theorem inv_init : (init : Session ι κ).Inv where
  quiet := World.quiet_init
  ledger := ⟨fun f _ _ h => by simp at h, fun f _ _ _ _ h => by simp at h⟩

/-- Slots are read off the structures alone. -/
theorem slot_world (s : Session ι κ) (w : World) : slot ⟨w, s.kps, s.sigs⟩ = s.slot := by
  funext f
  cases f <;> rfl

/-- The blocks after a free function has gone through a structure's pointers. -/
def dropAll (block : Ptr → Option Bytes) (ps : List (Option Ptr)) : Ptr → Option Bytes := ps.foldl dropSlot block

/-- A recorded pointer is live and its block holds the recorded size. -/
theorem Inv.live {s : Session ι κ} (h : s.Inv) {f : Field ι κ} {p : Ptr} {n : Nat} (hf : s.slot f = some (p, n)) :
    ∃ b, s.world.heap.block p = some b ∧ n ≤ b.length := by
  obtain ⟨b, hb, hrel⟩ := h.ledger.held f p n hf
  exact ⟨b, hb, by cases f <;> simp only [sizeRel] at hrel <;> omega⟩

theorem keypairFree_wp {s : Session ι κ} (h : s.Inv) (i : ι) :
    wp (bitcoinPqcKeypairFree (some (s.kps i))) s.world fun r w => r = some .zero ∧
      ∃ h', h'.block = dropAll s.world.heap.block [(s.kps i).publicKey, (s.kps i).secretKey] ∧
        w = { s.world with heap := h' } := by
  refine wp_bind (clearAndFree_wp ?_ ?_)
  · intro p hp
    exact h.live (f := .pk i) (by simp [slot, hp])
  intro h₁ h₁eq
  refine wp_bind (clearAndFree_wp ?_ fun h₂ h₂eq => wp_pure ⟨rfl, h₂, ?_, rfl⟩)
  · intro q hq
    obtain ⟨b, hb, hsize⟩ := h.live (f := .sk i) (p := q) (n := (s.kps i).secretKeySize) (by simp [slot, hq])
    refine ⟨b, ?_, hsize⟩
    cases hpk : (s.kps i).publicKey with
    | none => rw [h₁eq, hpk]; exact hb
    | some p =>
      have hne : q ≠ p := by
        rintro rfl
        cases h.ledger.once (.pk i) (.sk i) q (s.kps i).publicKeySize (s.kps i).secretKeySize
          (by simp [slot, hpk]) (by simp [slot, hq])
      rw [h₁eq, hpk]
      exact (Function.update_of_ne hne _ _).trans hb
  · rw [h₂eq, h₁eq]
    rfl

theorem signatureFree_wp {s : Session ι κ} (h : s.Inv) (k : κ) :
    wp (bitcoinPqcSignatureFree (some (s.sigs k))) s.world fun r w => r = some .zero ∧
      ∃ h', h'.block = dropAll s.world.heap.block [(s.sigs k).signature] ∧ w = { s.world with heap := h' } := by
  refine wp_bind (clearAndFree_wp ?_ fun h₁ h₁eq => wp_pure ⟨rfl, h₁, h₁eq, rfl⟩)
  intro p hp
  exact h.live (f := .sig k) (by simp [slot, hp])

/-! ## Calls -/

section
variable [DecidableEq ι] [DecidableEq κ]

/-- One call; the free functions return nothing. -/
def exec (V : Vendored) (S : Sys) (s : Session ι κ) : Call ι κ → Option (Option ErrorT × Session ι κ)
  | .keygen algorithm target randomData =>
    (bitcoinPqcKeygen V S algorithm (target.map s.kps) randomData s.world).map fun r =>
      (some r.1.1, ⟨r.2.tick, writeBack target r.1.2 s.kps, s.sigs⟩)
  | .sign algorithm secretKey message target =>
    (bitcoinPqcSign V S algorithm secretKey message (target.map s.sigs) s.world).map fun r =>
      (some r.1.1, ⟨r.2.tick, s.kps, writeBack target r.1.2 s.sigs⟩)
  | .verify algorithm publicKey message signature =>
    some (some (bitcoinPqcVerify V algorithm publicKey message signature), { s with world := s.world.tick })
  | .keypairFree target =>
    (bitcoinPqcKeypairFree (target.map s.kps) s.world).map fun r =>
      (none, ⟨r.2.tick, writeBack target r.1 s.kps, s.sigs⟩)
  | .signatureFree target =>
    (bitcoinPqcSignatureFree (target.map s.sigs) s.world).map fun r =>
      (none, ⟨r.2.tick, s.kps, writeBack target r.1 s.sigs⟩)

def step (S : Sys) (l : Vendored × Call ι κ) (s : Session ι κ) : Option (Session ι κ) :=
  (s.exec l.1 S l.2).map (·.2)

/-- The slots of a key pair structure, as one assignment sets them. -/
theorem slot_update_kp (s : Session ι κ) (i : ι) (kp : KeypairT) (w : World) :
    slot ⟨w, Function.update s.kps i kp, s.sigs⟩ =
      Function.update (Function.update s.slot (.pk i) (kp.publicKey.map (·, kp.publicKeySize))) (.sk i)
        (kp.secretKey.map (·, kp.secretKeySize)) := by
  funext f
  cases f with
  | pk j => by_cases h : j = i <;> simp [slot, h]
  | sk j => by_cases h : j = i <;> simp [slot, h]
  | sig k => simp [slot]

theorem slot_update_sig (s : Session ι κ) (k : κ) (sg : SignatureT) (w : World) :
    slot ⟨w, s.kps, Function.update s.sigs k sg⟩ =
      Function.update s.slot (.sig k) (sg.signature.map (·, sg.signatureSize)) := by
  funext f
  cases f with
  | pk j => simp [slot]
  | sk j => simp [slot]
  | sig j => by_cases h : j = k <;> simp [slot, h]

/-! ## What a call can do -/

/-- Every way a call can end. -/
inductive Effect (V : Vendored) (S : Sys) (s : Session ι κ) :
    Call ι κ → Option ErrorT → Session ι κ → Prop where
  | keygen {algorithm target randomData} (r : ErrorT × Option KeypairT) (w : World)
      (frame : s.world.CallFrame w fun b => randomData = .buf b)
      (post : KeygenPost V S algorithm (target.map s.kps) randomData s.world w r) :
      Effect V S s (.keygen algorithm target randomData) (some r.1) ⟨w.tick, writeBack target r.2 s.kps, s.sigs⟩
  | sign {algorithm secretKey message target} (r : ErrorT × Option SignatureT) (w : World)
      (frame : s.world.CallFrame w fun b => ∃ m sk, message = .buf m ∧ secretKey = .buf sk ∧
        SignInstalls V algorithm m sk b)
      (post : SignPost V S algorithm secretKey message (target.map s.sigs) s.world w r) :
      Effect V S s (.sign algorithm secretKey message target) (some r.1)
        ⟨w.tick, s.kps, writeBack target r.2 s.sigs⟩
  | verify {algorithm publicKey message signature} :
      Effect V S s (.verify algorithm publicKey message signature)
        (some (bitcoinPqcVerify V algorithm publicKey message signature)) { s with world := s.world.tick }
  | keypairFreeNull : Effect V S s (.keypairFree none) none { s with world := s.world.tick }
  | keypairFree (i : ι) (h : Heap UInt8)
      (block : h.block = dropAll s.world.heap.block [(s.kps i).publicKey, (s.kps i).secretKey]) :
      Effect V S s (.keypairFree (some i)) none
        ⟨{ s.world with heap := h }.tick, Function.update s.kps i .zero, s.sigs⟩
  | signatureFreeNull : Effect V S s (.signatureFree none) none { s with world := s.world.tick }
  | signatureFree (k : κ) (h : Heap UInt8)
      (block : h.block = dropAll s.world.heap.block [(s.sigs k).signature]) :
      Effect V S s (.signatureFree (some k)) none
        ⟨{ s.world with heap := h }.tick, s.kps, Function.update s.sigs k .zero⟩

theorem exec_spec (V : Vendored) (S : Sys) {s : Session ι κ} (h : s.Inv) (c : Call ι κ) :
    ∃ r s', s.exec V S c = some (r, s') ∧ Effect V S s c r s' := by
  cases c with
  | keygen algorithm target randomData =>
    obtain ⟨r, w, hrun, hframe, hpost⟩ := bitcoinPqcKeygen_wp V S algorithm (target.map s.kps) randomData h.quiet
    exact ⟨_, _, by simp only [exec, hrun]; rfl, .keygen r w hframe hpost⟩
  | sign algorithm secretKey message target =>
    obtain ⟨r, w, hrun, hframe, hpost⟩ :=
      bitcoinPqcSign_wp V S algorithm secretKey message (target.map s.sigs) h.quiet
    exact ⟨_, _, by simp only [exec, hrun]; rfl, .sign r w hframe hpost⟩
  | verify algorithm publicKey message signature => exact ⟨_, _, rfl, .verify⟩
  | keypairFree target =>
    cases target with
    | none => exact ⟨_, _, rfl, .keypairFreeNull⟩
    | some i =>
      obtain ⟨_, _, hrun, rfl, h', hblock, rfl⟩ := keypairFree_wp h i
      exact ⟨_, _, by simp only [exec, Option.map_some, hrun]; rfl, .keypairFree i h' hblock⟩
  | signatureFree target =>
    cases target with
    | none => exact ⟨_, _, rfl, .signatureFreeNull⟩
    | some k =>
      obtain ⟨_, _, hrun, rfl, h', hblock, rfl⟩ := signatureFree_wp h k
      exact ⟨_, _, by simp only [exec, Option.map_some, hrun]; rfl, .signatureFree k h' hblock⟩

/-- A step is defined wherever the invariant holds, and what it does is one of these effects. -/
theorem step_spec (S : Sys) {s : Session ι κ} (h : s.Inv) (l : Vendored × Call ι κ) :
    ∃ r s', step S l s = some s' ∧ Effect l.1 S s l.2 r s' := by
  obtain ⟨r, s', hexec, e⟩ := exec_spec l.1 S h l.2
  exact ⟨r, s', by rw [step, hexec]; rfl, e⟩

/-! ## The invariant -/

variable {V : Vendored} {S : Sys} {s s' : Session ι κ} {c : Call ι κ} {r : Option ErrorT}

/-- The effect of a step that was made. -/
theorem Effect.of_step {l : Vendored × Call ι κ} (h : s.Inv) (hstep : step S l s = some s') :
    ∃ r, Effect l.1 S s l.2 r s' := by
  obtain ⟨r, s₁, hstep₁, e⟩ := step_spec S h l
  rw [hstep₁] at hstep
  cases hstep
  exact ⟨r, e⟩

theorem Effect.quiet (h : s.Inv) (e : Effect V S s c r s') : s'.world.Quiet := by
  cases e with
  | keygen r w frame post => exact frame.quiet
  | sign r w frame post => exact frame.quiet
  | verify => exact h.quiet
  | keypairFreeNull => exact h.quiet
  | keypairFree i heap block => exact h.quiet
  | signatureFreeNull => exact h.quiet
  | signatureFree k heap block => exact h.quiet

/-- `keygen` and `sign` are aimed only at structures whose buffer pointers are null. -/
def Legal (s : Session ι κ) : Call ι κ → Prop
  | .keygen _ (some i) _ => (s.kps i).publicKey = none ∧ (s.kps i).secretKey = none
  | .sign _ _ _ (some k) => (s.sigs k).signature = none
  | _ => True

/-- Every call only acquires fresh blocks for its structure and drops those the structure held. -/
theorem Effect.moves (e : Effect V S s c r s') :
    Ledger.Moves sizeRel (s.Legal c) s.slot s.world.heap.block s'.slot s'.world.heap.block := by
  cases e with
  | @keygen algorithm target randomData r w frame post =>
    cases post with
    | failed e bad block why =>
      rw [writeBack_self, slot_world]
      show Ledger.Moves _ _ _ _ _ w.heap.block
      rw [block]
      exact .refl
    | made bytes x y pk sk old arg input enough scheme distinct pk_fresh sk_fresh pk_size sk_size block =>
      obtain ⟨i, rfl, -⟩ := Option.map_eq_some_iff.mp arg
      have hslot := slot_update_kp s i ⟨algorithm, some pk, some sk, x.length, y.length⟩ w.tick
      show Ledger.Moves _ _ _ _ (slot ⟨w.tick, Function.update s.kps i _, s.sigs⟩) w.heap.block
      rw [hslot, block]
      refine .acquire (Field.sk i) sk _ y (.acquire (Field.pk i) pk _ x .refl pk_fresh rfl ?_) ?_ rfl ?_
      · intro h; simp [slot, h.1]
      · rw [Function.update_of_ne (Ne.symm distinct), sk_fresh]
      · intro h; simp [slot, h.2]
  | @sign algorithm secretKey message target r w frame post =>
    cases post with
    | failed e bad block why =>
      rw [writeBack_self, slot_world]
      show Ledger.Moves _ _ _ _ _ w.heap.block
      rw [block]
      exact .refl
    | made m sk sg b p h₁ old arg msg key key_size alloc scheme fresh size fits content block =>
      obtain ⟨k, rfl, -⟩ := Option.map_eq_some_iff.mp arg
      have hslot := slot_update_sig s k ⟨algorithm, some p, sg.length⟩ w.tick
      show Ledger.Moves _ _ _ _ (slot ⟨w.tick, s.kps, Function.update s.sigs k _⟩) w.heap.block
      rw [hslot, block]
      refine .acquire (Field.sig k) p _ b .refl fresh ?_ ?_
      · show sg.length ≤ b.length
        omega
      · intro h; simp only [Legal] at h; simp [slot, h]
  | verify => exact .refl
  | keypairFreeNull => exact .refl
  | keypairFree i heap block =>
    have hpk : Ledger.Moves sizeRel (s.Legal (.keypairFree (some i))) s.slot s.world.heap.block
        (Function.update s.slot (.pk i) none) (dropSlot s.world.heap.block (s.kps i).publicKey) :=
      .drop (Field.pk i) _ (s.kps i).publicKeySize .refl rfl
    show Ledger.Moves _ _ _ _ (slot ⟨_, Function.update s.kps i .zero, s.sigs⟩) heap.block
    rw [slot_update_kp, block]
    exact .drop (Field.sk i) (s.kps i).secretKey (s.kps i).secretKeySize hpk (by simp [slot])
  | signatureFreeNull => exact .refl
  | signatureFree k heap block =>
    show Ledger.Moves _ _ _ _ (slot ⟨_, s.kps, Function.update s.sigs k .zero⟩) heap.block
    rw [slot_update_sig, block]
    exact .drop (Field.sig k) (s.sigs k).signature (s.sigs k).signatureSize .refl rfl

theorem Effect.inv (h : s.Inv) (e : Effect V S s c r s') : s'.Inv :=
  ⟨e.quiet h, e.moves.ledger h.ledger⟩

/-- **The invariant holds along every run**, and every run is defined. -/
theorem inv_run (S : Sys) (calls : List (Vendored × Call ι κ)) {s : Session ι κ} (h : s.Inv) :
    ∃ s', runAll (step S) calls s = some s' ∧ s'.Inv := by
  refine runAll_inv (P := fun _ (s : Session ι κ) => s.Inv) (fun _ l s h => ?_) calls h
  obtain ⟨r, s', hstep, e⟩ := step_spec S h l
  exact ⟨s', hstep, e.inv h⟩

theorem Effect.exact (h : Ledger.Exact s.slot s.world.heap.block) (hc : s.Legal c) (e : Effect V S s c r s') :
    Ledger.Exact s'.slot s'.world.heap.block :=
  e.moves.exact h hc

theorem Effect.call (e : Effect V S s c r s') : s'.world.call = s.world.call + 1 := by
  cases e with
  | keygen r w frame post => exact congrArg (· + 1) frame.call
  | sign r w frame post => exact congrArg (· + 1) frame.call
  | verify => rfl
  | keypairFreeNull => rfl
  | keypairFree i heap block => rfl
  | signatureFreeNull => rfl
  | signatureFree k heap block => rfl

end

end Session

end BitcoinPqc
