import BitcoinPqc.Schemes

/-!
# What the wrappers do to the world

One rule for each wrapper, from a world in which no source is installed. Each says three things:
what the vendored scheme was run on (with the bytes `Sys.drawn` names), what became of the output
blocks, and that the sources are clear again while every seeded draw in between came from the
buffer this call installed (`World.CallFrame`).
-/
namespace BitcoinPqc
open CSem

/-! ## What a call leaves behind -/

/-- No source is installed: the state between two calls. -/
def World.Quiet (w : World) : Prop := w.ml = .cleared ∧ w.slh = .cleared

/-- What a call that starts quiet may do to the sources and the ghost record: every draw a seeded
source served is this call's, from a buffer this call installed. -/
structure World.CallFrame (w w' : World) (installed : Bytes → Prop) : Prop where
  quiet : w'.Quiet
  call : w'.call = w.call
  draws : ∃ ds, w'.draws = w.draws ++ ds ∧ ∀ d ∈ ds, d.call = w.call ∧ d.src.call = w.call ∧
    installed d.src.bytes ∧ ∀ x ∈ d.out, x ∈ d.src.bytes

theorem Source.Valid.eq_cleared {s : Source} (h : s.Valid) (hd : s.data = none) : s = .cleared := by
  cases h with
  | cleared => rfl
  | seeded => cases hd

namespace World.CallFrame
variable {w w₁ w₂ : World} {P Q : Bytes → Prop}

theorem refl (hq : w.Quiet) : w.CallFrame w P := ⟨hq, rfl, [], by simp, by simp⟩

theorem heap (h : w.CallFrame w₁ P) (h' : Heap UInt8) : w.CallFrame { w₁ with heap := h' } P :=
  ⟨h.quiet, h.call, h.draws⟩

theorem weaken (h : w.CallFrame w₁ P) (hPQ : ∀ b, P b → Q b) : w.CallFrame w₁ Q := by
  obtain ⟨ds, heq, hds⟩ := h.draws
  exact ⟨h.quiet, h.call, ds, heq, fun d hd =>
    ⟨(hds d hd).1, (hds d hd).2.1, hPQ _ (hds d hd).2.2.1, (hds d hd).2.2.2⟩⟩

/-- A frame starts from the sources, the call number and the record only. -/
theorem congr_left {w₀ : World} (h : w.CallFrame w₁ P) (hc : w.call = w₀.call) (hd : w.draws = w₀.draws) :
    w₀.CallFrame w₁ P := by
  obtain ⟨ds, heq, hds⟩ := h.draws
  exact ⟨h.quiet, h.call.trans hc, ds, by rw [heq, hd], by rwa [← hc]⟩

/-- Install, draw, restore: the ML-DSA source. -/
theorem of_ml {b : Bytes} (hq : w.Quiet)
    (h : World.DrawFrame { w with ml := .install (.buf b) w.call } w₁) :
    w.CallFrame { w₁ with ml := .cleared } (· = b) := by
  obtain ⟨ds, heq, hds⟩ := h.draws
  have hslh : w₁.slh = .cleared := h.slh_valid.eq_cleared (by rw [h.slh_data, hq.2]; rfl)
  refine ⟨⟨rfl, hslh⟩, h.call, ds, heq, fun d hd => ?_⟩
  obtain ⟨hcall, hsrc, hout⟩ := hds d hd
  rcases hsrc with hsrc | hsrc
  · simp only [Source.install_buf, Option.some.injEq] at hsrc
    exact ⟨hcall, by rw [← hsrc], by rw [← hsrc], hout⟩
  · rw [hq.2] at hsrc
    cases hsrc

/-- The same for the SLH-DSA source. -/
theorem of_slh {b : Bytes} (hq : w.Quiet)
    (h : World.DrawFrame { w with slh := .install (.buf b) w.call } w₁) :
    w.CallFrame { w₁ with slh := .cleared } (· = b) := by
  obtain ⟨ds, heq, hds⟩ := h.draws
  have hml : w₁.ml = .cleared := h.ml_valid.eq_cleared (by rw [h.ml_data, hq.1]; rfl)
  refine ⟨⟨hml, rfl⟩, h.call, ds, heq, fun d hd => ?_⟩
  obtain ⟨hcall, hsrc, hout⟩ := hds d hd
  rcases hsrc with hsrc | hsrc
  · rw [hq.1] at hsrc
    cases hsrc
  · simp only [Source.install_buf, Option.some.injEq] at hsrc
    exact ⟨hcall, by rw [← hsrc], by rw [← hsrc], hout⟩

end World.CallFrame

theorem World.quiet_init : World.init.Quiet := ⟨rfl, rfl⟩

theorem World.Quiet.heap {w : World} (h : w.Quiet) (h' : Heap UInt8) : World.Quiet { w with heap := h' } := h

theorem World.Quiet.ml_valid {w : World} (h : w.Quiet) : w.ml.Valid := by rw [h.1]; exact .cleared

theorem World.Quiet.slh_valid {w : World} (h : w.Quiet) : w.slh.Valid := by rw [h.2]; exact .cleared

/-! ## Key generation -/

section
variable (V : Vendored) (S : Sys)

/-- What ML-DSA key generation computes when it is called in `w`. -/
def mlKeys (w : World) (bytes : Bytes) : KeyOut Dilithium.cryptoPublickeybytes Dilithium.cryptoSecretkeybytes :=
  V.dilithiumKeypair (S.drawn { w with ml := .install (.buf bytes) w.call } Dilithium.seedbytes)

def slhKeys (bytes : Bytes) : KeyOut Spx.pkBytes Spx.skBytes :=
  V.spxSeedKeypair (bytes.take Spx.cryptoSeedbytes)

/-- The two writes of a key generator, in either order. -/
theorem write_two_wp {w : World} {p q : Ptr} {b c x y : Bytes} (hne : p ≠ q)
    (hp : w.heap.block p = some b) (hq : w.heap.block q = some c) (hx : x.length = b.length)
    (hy : y.length = c.length) {Q : Unit → World → Prop}
    (h : ∀ h', h'.block = Function.update (Function.update w.heap.block p (some x)) q (some y) →
      Q () { w with heap := h' }) :
    wp (onHeap (Heap.write p 0 x)) w fun _ w₁ => wp (onHeap (Heap.write q 0 y)) w₁ Q := by
  refine onHeap_wp (Heap.write_all_wp hp hx ?_)
  intro h₁ h₁eq
  refine onHeap_wp (Heap.write_all_wp (b := c) ?_ hy ?_)
  · rw [h₁eq, Function.update_of_ne (Ne.symm hne), hq]
  · intro h₂ h₂eq
    exact h h₂ (by rw [h₂eq, h₁eq])

theorem mlDsa44Keygen_wp {w : World} {pk sk : Ptr} {b₁ b₂ bytes : Bytes} (hq : w.Quiet)
    (hlen : 128 ≤ bytes.length) (hne : pk ≠ sk) (hpk : w.heap.block pk = some b₁)
    (hsk : w.heap.block sk = some b₂) (hb₁ : b₁.length = Dilithium.cryptoPublickeybytes)
    (hb₂ : b₂.length = Dilithium.cryptoSecretkeybytes) :
    wp (mlDsa44Keygen V S (some pk) (some sk) (.buf bytes)) w fun r w' =>
      r = (mlKeys V S w bytes).result ∧ w.CallFrame w' (· = bytes) ∧
      w'.heap.block = Function.update (Function.update w.heap.block pk (some (mlKeys V S w bytes).pk))
        sk (some (mlKeys V S w bytes).sk) := by
  simp only [mlDsa44Keygen]
  rw [if_neg (by omega)]
  refine wp_bind (wp_modify (wp_bind (wp_pure (wp_bind ?_))))
  refine wp_bind (wp_mono (randombytes_wp S (by decide) (.install (by omega) _) hq.slh_valid) ?_)
  rintro seed w₁ ⟨rfl, hframe⟩
  have hheap : w₁.heap = w.heap := hframe.heap
  rw [← hheap] at hpk hsk
  refine wp_bind (wp_mono (write_two_wp hne hpk hsk (KeyOut.pk_length _ |>.trans hb₁.symm)
    (KeyOut.sk_length _ |>.trans hb₂.symm) ?_) fun _ _ h => wp_bind h)
  intro h' h'eq
  refine wp_pure (wp_bind (wp_modify (wp_pure ⟨rfl, .heap (.of_ml hq hframe) h', ?_⟩)))
  rw [← hheap]
  exact h'eq

theorem slhDsaShake128sKeygen_wp {w : World} {pk sk : Ptr} {b₁ b₂ bytes : Bytes} (hq : w.Quiet)
    (hlen : 128 ≤ bytes.length) (hne : pk ≠ sk) (hpk : w.heap.block pk = some b₁)
    (hsk : w.heap.block sk = some b₂) (hb₁ : b₁.length = Spx.pkBytes) (hb₂ : b₂.length = Spx.skBytes) :
    wp (slhDsaShake128sKeygen V (some pk) (some sk) (.buf bytes)) w fun r w' =>
      r = (slhKeys V bytes).result ∧ w.CallFrame w' (fun _ => False) ∧
      w'.heap.block = Function.update (Function.update w.heap.block pk (some (slhKeys V bytes).pk))
        sk (some (slhKeys V bytes).sk) := by
  have hseed : readAt bytes 0 Spx.cryptoSeedbytes = some (bytes.take Spx.cryptoSeedbytes) :=
    readAt_take (Nat.le_trans (by decide) hlen)
  simp only [slhDsaShake128sKeygen]
  rw [if_neg (by omega)]
  refine wp_bind (wp_ofOption hseed ?_)
  refine wp_bind (wp_mono (write_two_wp (Ne.symm hne) hsk hpk (KeyOut.sk_length _ |>.trans hb₂.symm)
    (KeyOut.pk_length _ |>.trans hb₁.symm) ?_) fun _ _ h => wp_bind h)
  intro h' h'eq
  refine wp_pure ⟨rfl, .heap (.refl hq) h', ?_⟩
  rw [Function.update_comm hne]
  exact h'eq

/-! ## Signing -/

/-- The seed ML-DSA signing installs. -/
def mlSeed (m sk : Bytes) : Bytes := shake256Of V.keccakF1600StatePermute (sk ++ m) seedSize

/-- What ML-DSA signing computes when it is called in `w`. -/
def mlSig (w : World) (m sk : Bytes) : SigOut tempSigSize :=
  V.dilithiumSignature m (contextPrefix [])
    (S.drawn { w with ml := .install (.buf (mlSeed V m sk)) w.call } Dilithium.rndbytes) sk

/-- The seed SLH-DSA signing installs. -/
def slhSeedIn (w : World) (m sk : Bytes) : Bytes :=
  slhSeed (S.alloc.pick w.heap (m.length + Spx.skBytes)).isSome m sk

def slhSig (w : World) (m sk : Bytes) : SigOut Spx.bytes :=
  V.spxSignature m sk (S.drawn { w with slh := .install (.buf (slhSeedIn S w m sk)) w.call } Spx.n)

/-- What a signer leaves in the block it was given: still a block of that size, and after a
success the signature at its beginning, of the length that was reported. -/
structure Signed (code : Int) (sig : Bytes) (p : Ptr) (n : Nat) (w : World) (r : Int × Option Nat)
    (w' : World) : Prop where
  result : r.1 = code
  block : ∃ b, b.length = n ∧ w'.heap.block = Function.update w.heap.block p (some b) ∧
    (code = 0 → b.take sig.length = sig)
  siglen : code = 0 → r.2 = some sig.length ∧ sig.length ≤ n

/-- Writing a signature at the beginning of a block that holds it. -/
theorem write_sig_wp {w : World} {p : Ptr} {b sig : Bytes} (hp : w.heap.block p = some b)
    (hfit : sig.length ≤ b.length) {Q : Unit → World → Prop}
    (h : ∀ b' h', b'.length = b.length → b'.take sig.length = sig →
      h'.block = Function.update w.heap.block p (some b') → Q () { w with heap := h' }) :
    wp (onHeap (Heap.write p 0 sig)) w Q := by
  refine onHeap_wp (Heap.write_wp hp (by omega) ?_)
  intro h' h'eq
  exact h _ h' (by simp; omega) (by simp) h'eq

/-- The second check of the ML-DSA wrapper turns a signature of a bad length into a failure. -/
def mlSigResult (out : SigOut tempSigSize) : Int :=
  if out.result = 0 ∧ ¬(0 < out.sig.length ∧ out.sig.length ≤ Dilithium.cryptoBytes) then -1 else out.result

theorem copyChecked_wp (out : SigOut tempSigSize) {w : World} {sig : Ptr} {b : Bytes}
    (hsig : w.heap.block sig = some b) (hb : b.length = Dilithium.cryptoBytes) :
    wp (copyChecked sig out) w fun r w' =>
      (∃ h', w' = { w with heap := h' }) ∧ Signed (mlSigResult out) out.sig sig Dilithium.cryptoBytes w r w' := by
  have hsame : w.heap.block = Function.update w.heap.block sig (some b) := by
    rw [← hsig, Function.update_eq_self]
  unfold copyChecked mlSigResult
  split
  · rename_i hok
    split
    · rename_i hlen
      refine wp_bind (write_sig_wp hsig (by omega) fun b' h' hb' htake h'eq => wp_pure ⟨⟨h', rfl⟩, ?_⟩)
      rw [if_neg (by tauto)]
      exact ⟨rfl, ⟨b', hb'.trans hb, h'eq, fun _ => htake⟩, fun _ => ⟨rfl, hlen.2⟩⟩
    · rename_i hlen
      refine wp_pure ⟨⟨w.heap, rfl⟩, ?_⟩
      rw [if_pos ⟨hok, hlen⟩]
      exact ⟨rfl, ⟨b, hb, hsame, fun h => by omega⟩, fun h => by omega⟩
  · rename_i hbad
    refine wp_pure ⟨⟨w.heap, rfl⟩, ?_⟩
    rw [if_neg (by tauto)]
    exact ⟨rfl, ⟨b, hb, hsame, fun h => absurd h hbad⟩, fun h => absurd h hbad⟩

theorem Signed.congr_heap {code : Int} {sig : Bytes} {p : Ptr} {n : Nat} {w₀ w w' : World} {r : Int × Option Nat}
    (h : Signed code sig p n w r w') (hw : w₀.heap.block = w.heap.block) : Signed code sig p n w₀ r w' := by
  obtain ⟨b, hb, hblock, htake⟩ := h.block
  exact ⟨h.result, ⟨b, hb, by rw [hblock, hw], htake⟩, h.siglen⟩

/-- The wrapper around its draw: whatever is known of the bytes drawn and of the world after it
holds of the randomness the signature is made with. -/
theorem mlDsa44Sign_of_draw {w : World} {sig : Ptr} {b m sk : Bytes} (hsk : sk.length = Dilithium.cryptoSecretkeybytes)
    (hsig : w.heap.block sig = some b) (hb : b.length = Dilithium.cryptoBytes) {P : Bytes → World → Prop}
    (hdraw : wp (randombytes S Dilithium.rndbytes) { w with ml := .install (.buf (mlSeed V m sk)) w.call }
      fun rnd w₁ => P rnd w₁ ∧ w₁.heap = w.heap) :
    wp (mlDsa44Sign V S (some sig) (.buf m) (some sk)) w fun r w' => ∃ rnd w₁ h', P rnd w₁ ∧
      w' = { w₁ with ml := .cleared, heap := h' } ∧
      let out := V.dilithiumSignature m (contextPrefix []) rnd sk
      Signed (mlSigResult out) out.sig sig Dilithium.cryptoBytes w r w' := by
  simp only [mlDsa44Sign]
  refine wp_bind (wp_ofOption (mlDsaDerandomize_eq _ hsk) ?_)
  refine wp_bind (wp_modify (wp_bind (wp_pure (wp_bind ?_))))
  simp only [dilithiumSignature]
  rw [if_neg (by decide)]
  refine wp_bind (wp_mono hdraw ?_)
  rintro rnd w₁ ⟨hP, hheap⟩
  refine wp_pure (wp_bind (wp_modify ?_))
  refine wp_mono (copyChecked_wp _ (b := b) (by rw [← hheap] at hsig; exact hsig) hb) ?_
  rintro r _ ⟨⟨h', rfl⟩, hsigned⟩
  exact ⟨rnd, w₁, h', hP, rfl, hsigned.congr_heap (by rw [hheap])⟩

theorem mlDsa44Sign_wp {w : World} {sig : Ptr} {b m sk : Bytes} (hq : w.Quiet)
    (hsk : sk.length = Dilithium.cryptoSecretkeybytes) (hsig : w.heap.block sig = some b)
    (hb : b.length = Dilithium.cryptoBytes) :
    wp (mlDsa44Sign V S (some sig) (.buf m) (some sk)) w fun r w' =>
      w.CallFrame w' (· = mlSeed V m sk) ∧
      Signed (mlSigResult (mlSig V S w m sk)) (mlSig V S w m sk).sig sig Dilithium.cryptoBytes w r w' := by
  have hvalid : (Source.install (.buf (mlSeed V m sk)) w.call).Valid := .install (by simp [mlSeed, seedSize]) _
  refine wp_mono (mlDsa44Sign_of_draw V S hsk hsig hb
    (wp_mono (randombytes_wp S (by decide) hvalid hq.slh_valid) fun rnd w₁ h => ⟨h, h.2.heap⟩)) ?_
  rintro r _ ⟨_, w₁, h', ⟨rfl, hframe⟩, rfl, hsigned⟩
  exact ⟨.heap (.of_ml hq hframe) h', hsigned⟩

theorem slhDsaShake128sSign_wp {w : World} {sig : Ptr} {b m sk : Bytes} (hq : w.Quiet)
    (hsk : sk.length = Spx.skBytes) (hsig : w.heap.block sig = some b) (hb : b.length = Spx.bytes) :
    wp (slhDsaShake128sSign V S (some sig) (.buf m) (some sk)) w fun r w' =>
      w.CallFrame w' (· = slhSeedIn S w m sk) ∧
      Signed (slhSig V S w m sk).result (slhSig V S w m sk).sig sig Spx.bytes w r w' := by
  simp only [slhDsaShake128sSign]
  refine wp_bind (wp_mono (slhDsaDerandomize_wp S hsk) ?_)
  rintro seed _ ⟨rfl, h₁, h₁eq, rfl⟩
  refine wp_bind (wp_modify (wp_bind (wp_pure (wp_bind ?_))))
  refine wp_bind (wp_mono (randombytes_wp S (by decide) hq.ml_valid (.install (by simp [seedSize]) _)) ?_)
  rintro optrand w₂ ⟨rfl, hframe⟩
  have hheap : w₂.heap = h₁ := hframe.heap
  have hfit := (V.spxSignature m sk (S.drawn { w with
    heap := h₁, slh := .install (.buf (slhSeedIn S w m sk)) w.call } Spx.n)).fits
  refine wp_bind (write_sig_wp (b := b) (by rw [hheap, h₁eq, hsig]) (by rw [hb]; exact hfit) ?_)
  intro b' h' hb' htake h'eq
  refine wp_pure (wp_bind (wp_modify (wp_pure ⟨?_, rfl, ⟨b', hb'.trans hb, ?_, fun _ => htake⟩, fun _ => ⟨rfl, hfit⟩⟩)))
  · have hframe₁ := World.CallFrame.of_slh (w := { w with heap := h₁ }) hq hframe
    exact (hframe₁.heap h').congr_left rfl rfl
  · rw [← h₁eq, ← hheap]
    exact h'eq

end

end BitcoinPqc
