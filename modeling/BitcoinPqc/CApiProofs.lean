import BitcoinPqc.CApi
import BitcoinPqc.Lib.Ledger

/-!
# What the C entry points do to the world

`bitcoinPqcKeygen_wp` and `bitcoinPqcSign_wp` follow every branch of the two allocating calls
once. Either the call made something (`made`: the structure names fresh blocks that hold what the
scheme computed) or it failed (`failed`: structure and blocks are as before, and one of the
conditions for a success did not hold). In both cases no source stays installed.
-/
namespace BitcoinPqc
open CSem

theorem cases_algorithm (algorithm : AlgorithmT) :
    algorithm = bitcoinPqcSecp256k1Schnorr ∨ algorithm = bitcoinPqcMlDsa44 ∨
    algorithm = bitcoinPqcSlhDsaShake128s ∨ (algorithm ≠ bitcoinPqcSecp256k1Schnorr ∧
      algorithm ≠ bitcoinPqcMlDsa44 ∧ algorithm ≠ bitcoinPqcSlhDsaShake128s) := by
  by_cases h₀ : algorithm = bitcoinPqcSecp256k1Schnorr
  · exact .inl h₀
  by_cases h₁ : algorithm = bitcoinPqcMlDsa44
  · exact .inr (.inl h₁)
  by_cases h₂ : algorithm = bitcoinPqcSlhDsaShake128s
  · exact .inr (.inr (.inl h₂))
  · exact .inr (.inr (.inr ⟨h₀, h₁, h₂⟩))

theorem algorithms_ne : bitcoinPqcSecp256k1Schnorr ≠ bitcoinPqcMlDsa44 ∧
    bitcoinPqcSecp256k1Schnorr ≠ bitcoinPqcSlhDsaShake128s ∧
    bitcoinPqcMlDsa44 ≠ bitcoinPqcSecp256k1Schnorr ∧ bitcoinPqcMlDsa44 ≠ bitcoinPqcSlhDsaShake128s ∧
    bitcoinPqcSlhDsaShake128s ≠ bitcoinPqcSecp256k1Schnorr ∧
    bitcoinPqcSlhDsaShake128s ≠ bitcoinPqcMlDsa44 := by decide

theorem CBuf.eq_buf {c : CBuf} (h : c.data ≠ none) : ∃ bs, c = .buf bs := by
  cases c with
  | null n => exact absurd rfl h
  | buf bs => exact ⟨bs, rfl⟩

/-! ## Releasing blocks -/

theorem free_wp_world {w : World} {p : Ptr} {b : Bytes} (hp : w.heap.block p = some b)
    {Q : Unit → World → Prop}
    (h : ∀ h', h'.block = Function.update w.heap.block p none → Q () { w with heap := h' }) :
    wp (onHeap (Heap.free (some p))) w Q :=
  onHeap_wp (Heap.free_wp hp h)

/-- Two blocks that were allocated over `f` and are released again leave `f`. -/
theorem free_pair_wp {w : World} {f : Ptr → Option Bytes} {p q : Ptr} {x y : Bytes} (hne : p ≠ q)
    (hp : f p = none) (hq : f q = none)
    (hw : w.heap.block = Function.update (Function.update f p (some x)) q (some y))
    {Q : Unit → World → Prop} (h : ∀ h', h'.block = f → Q () { w with heap := h' }) :
    wp (onHeap (Heap.free (some p))) w fun _ w₁ => wp (onHeap (Heap.free (some q))) w₁ Q := by
  refine free_wp_world (b := x) (by rw [hw, Function.update_of_ne hne, Function.update_self]) ?_
  intro h₁ h₁eq
  refine free_wp_world (b := y) ?_ ?_
  · rw [h₁eq, Function.update_of_ne (Ne.symm hne), hw, Function.update_self]
  · intro h₂ h₂eq
    refine h h₂ ?_
    rw [h₂eq, h₁eq, hw]
    exact Heap.update_pair_none hne hp hq _ _

/-- Two buffers or none: when either request is refused the other buffer is given back. -/
theorem malloc_pair_wp {α : Type} (A : Allocator UInt8) {n k : Nat} {w : World} {a : α}
    {body : Option Ptr → Option Ptr → Exec World α} {Q : α → World → Prop}
    (refused : ∀ h', h'.block = w.heap.block → ¬w.heap.Serves A [n, k] → Q a { w with heap := h' })
    (served : ∀ p q b₁ b₂ h', p ≠ q → w.heap.block p = none → w.heap.block q = none → b₁.length = n →
      b₂.length = k → h'.block = Function.update (Function.update w.heap.block p (some b₁)) q (some b₂) →
      wp (body (some p) (some q)) { w with heap := h' } Q) :
    wp (do
      let p ← onHeap (Heap.malloc A n)
      let q ← onHeap (Heap.malloc A k)
      if p = none ∨ q = none then do
        onHeap (Heap.free p)
        onHeap (Heap.free q)
        pure a
      else body p q) w Q := by
  refine wp_bind (onHeap_wp (Heap.malloc_wp ?_ ?_))
  · intro h₁ h₁eq hrefused
    have hnot : ¬w.heap.Serves A [n, k] := fun hs => Heap.serves_pick hs hrefused
    refine wp_bind (onHeap_wp (Heap.malloc_wp ?_ ?_))
    · intro h₂ h₂eq _
      exact wp_bind (wp_pure (wp_bind (wp_pure (wp_pure (refused h₂ (h₂eq.trans h₁eq) hnot)))))
    · intro q bs h₂ _ hfresh _ h₂eq
      refine wp_bind (wp_pure (wp_bind (free_wp_world (b := bs) (by simp [h₂eq]) fun h₃ h₃eq => ?_)))
      refine wp_pure (refused h₃ ?_ hnot)
      rw [h₃eq, h₂eq, Heap.update_update_none hfresh, h₁eq]
  intro p b₁ h₁ hmalloc hp hb₁ h₁eq
  refine wp_bind (onHeap_wp (Heap.malloc_wp ?_ ?_))
  · intro h₂ h₂eq hrefused
    have hnot : ¬w.heap.Serves A [n, k] := fun hs => Heap.serves_pick (Heap.serves_next hs hmalloc) hrefused
    rw [h₁eq] at h₂eq
    refine wp_bind (free_wp_world (b := b₁) (by simp [h₂eq]) fun h₃ h₃eq => wp_bind (wp_pure ?_))
    exact wp_pure (refused h₃ (by rw [h₃eq, h₂eq, Heap.update_update_none hp]) hnot)
  · intro q b₂ h₂ _ hfresh hb₂ h₂eq
    rw [h₁eq] at h₂eq hfresh
    have hne : p ≠ q := by
      rintro rfl
      simp at hfresh
    have hq : w.heap.block q = none := by rwa [Function.update_of_ne (Ne.symm hne)] at hfresh
    dsimp only
    rw [if_neg (by simp)]
    exact served p q b₁ b₂ h₂ hne hp hq hb₁ hb₂ h₂eq

/-! ## Key generation -/

section
variable (V : Vendored) (S : Sys)

/-- What the scheme behind an algorithm computes for a keygen call in `w`: its code and the two
keys; `none` where the switch has no scheme. -/
def keygenScheme (w : World) (algorithm : AlgorithmT) (bytes : Bytes) : Option (Int × Bytes × Bytes) :=
  if algorithm = bitcoinPqcMlDsa44 then
    let out := mlKeys V S w bytes
    some (out.result, out.pk, out.sk)
  else if algorithm = bitcoinPqcSlhDsaShake128s then
    let out := slhKeys V bytes
    some (out.result, out.pk, out.sk)
  else none

/-- The keys a generator wrote, over the blocks that were live before its two were allocated. -/
theorem KeyOut.written {n k : Nat} (out : KeyOut n k) {f g h : Ptr → Option Bytes} {pk sk : Ptr} {b₁ b₂ : Bytes}
    (hne : pk ≠ sk) (hg : g = Function.update (Function.update f pk (some b₁)) sk (some b₂))
    (hh : h = Function.update (Function.update g pk (some out.pk)) sk (some out.sk))
    {scheme : Option (Int × Bytes × Bytes)} (hs : scheme = some (out.result, out.pk, out.sk)) :
    ∃ x y, x.length = n ∧ y.length = k ∧ h = Function.update (Function.update f pk (some x)) sk (some y) ∧
      (some out.result = some 0 → scheme = some (0, x, y)) ∧ ∀ o, scheme = some o → some out.result = some o.1 := by
  refine ⟨out.pk, out.sk, out.pk_length, out.sk_length, ?_, ?_, ?_⟩
  · rw [hh, hg, Heap.update_pair_over hne]
  · intro h0
    rw [hs, Option.some.inj h0]
  · rintro o ho
    rw [hs] at ho
    cases ho
    rfl

theorem keygenSwitch_wp {w : World} {algorithm : AlgorithmT} {f : Ptr → Option Bytes} {pk sk : Ptr}
    {b₁ b₂ bytes : Bytes} (hq : w.Quiet) (hlen : 128 ≤ bytes.length) (hne : pk ≠ sk)
    (hw : w.heap.block = Function.update (Function.update f pk (some b₁)) sk (some b₂))
    (hb₁ : b₁.length = bitcoinPqcPublicKeySize algorithm)
    (hb₂ : b₂.length = bitcoinPqcSecretKeySize algorithm) :
    wp (keygenSwitch V S algorithm (some pk) (some sk) (.buf bytes)) w fun r w' =>
      w.CallFrame w' (· = bytes) ∧
      ∃ x y, x.length = bitcoinPqcPublicKeySize algorithm ∧ y.length = bitcoinPqcSecretKeySize algorithm ∧
        w'.heap.block = Function.update (Function.update f pk (some x)) sk (some y) ∧
        (r = some 0 → keygenScheme V S w algorithm bytes = some (0, x, y)) ∧
        ∀ out, keygenScheme V S w algorithm bytes = some out → r = some out.1 := by
  have hpk : w.heap.block pk = some b₁ := by rw [hw, Function.update_of_ne hne, Function.update_self]
  have hsk : w.heap.block sk = some b₂ := by rw [hw, Function.update_self]
  rcases cases_algorithm algorithm with rfl | rfl | rfl | ⟨h₀, h₁, h₂⟩
  · exact wp_pure ⟨.refl hq, b₁, b₂, hb₁, hb₂, hw, by simp, by simp [keygenScheme, algorithms_ne]⟩
  · simp only [keygenSwitch, keygenScheme, algorithms_ne, if_true, if_false]
    refine wp_map (wp_mono (mlDsa44Keygen_wp V S hq hlen hne hpk hsk hb₁ hb₂) ?_)
    rintro r w' ⟨rfl, hframe, hblock⟩
    exact ⟨hframe, (mlKeys V S w bytes).written hne hw hblock rfl⟩
  · simp only [keygenSwitch, keygenScheme, algorithms_ne, if_true, if_false]
    refine wp_map (wp_mono (slhDsaShake128sKeygen_wp V hq hlen hne hpk hsk hb₁ hb₂) ?_)
    rintro r w' ⟨rfl, hframe, hblock⟩
    exact ⟨hframe.weaken fun _ h => h.elim, (slhKeys V bytes).written hne hw hblock rfl⟩
  · simp only [keygenSwitch, keygenScheme, h₀, h₁, h₂, if_false]
    exact wp_pure ⟨.refl hq, b₁, b₂, hb₁, hb₂, hw, by simp, by simp⟩

variable (algorithm : AlgorithmT) (keypair : Option KeypairT) (randomData : CBuf)

/-- How a keygen call can end. -/
inductive KeygenPost (w w' : World) : ErrorT × Option KeypairT → Prop where
  | failed (e : ErrorT) (bad : e ≠ .ok) (block : w'.heap.block = w.heap.block)
      (why : ∀ kp bytes out, keypair = some kp → randomData = .buf bytes → 128 ≤ bytes.length →
        w.heap.Serves S.alloc [bitcoinPqcPublicKeySize algorithm, bitcoinPqcSecretKeySize algorithm] →
        keygenScheme V S w algorithm bytes = some out → out.1 ≠ 0 ∧ e = .badKey) :
      KeygenPost w w' (e, keypair)
  | made (bytes x y : Bytes) (pk sk : Ptr) (old : KeypairT) (arg : keypair = some old)
      (input : randomData = .buf bytes) (enough : 128 ≤ bytes.length)
      (scheme : keygenScheme V S w algorithm bytes = some (0, x, y)) (distinct : pk ≠ sk)
      (pk_fresh : w.heap.block pk = none) (sk_fresh : w.heap.block sk = none)
      (pk_size : x.length = bitcoinPqcPublicKeySize algorithm)
      (sk_size : y.length = bitcoinPqcSecretKeySize algorithm)
      (block : w'.heap.block = Function.update (Function.update w.heap.block pk (some x)) sk (some y)) :
      KeygenPost w w' (.ok, some ⟨algorithm, some pk, some sk, x.length, y.length⟩)

theorem bitcoinPqcKeygen_wp {w : World} (hq : w.Quiet) :
    wp (bitcoinPqcKeygen V S algorithm keypair randomData) w fun r w' =>
      w.CallFrame w' (fun b => randomData = .buf b) ∧ KeygenPost V S algorithm keypair randomData w w' r := by
  unfold bitcoinPqcKeygen
  split
  · rename_i hnull
    refine wp_pure ⟨.refl hq, .failed _ (by decide) rfl ?_⟩
    rintro kp bytes out rfl rfl
    simp [CBuf.data] at hnull
  split
  · rename_i hshort
    refine wp_pure ⟨.refl hq, .failed _ (by decide) rfl ?_⟩
    rintro kp bytes out rfl rfl hlen
    exact absurd hshort (Nat.not_lt.mpr hlen)
  rename_i hnull hshort
  obtain ⟨kp, rfl⟩ : ∃ kp, keypair = some kp := Option.ne_none_iff_exists'.mp fun h => hnull (.inl h)
  obtain ⟨bytes, rfl⟩ := CBuf.eq_buf fun h => hnull (.inr h)
  have hlen : 128 ≤ bytes.length := Nat.not_lt.mp hshort
  dsimp only
  split
  · rename_i hzero
    refine wp_pure ⟨.refl hq, .failed _ (by decide) rfl ?_⟩
    intro kp' bytes' out _ _ _ _ hs
    obtain ⟨-, h₁, h₂⟩ : algorithm ≠ bitcoinPqcSecp256k1Schnorr ∧ algorithm ≠ bitcoinPqcMlDsa44 ∧
        algorithm ≠ bitcoinPqcSlhDsaShake128s := by
      rcases hzero with h0 | h0 <;>
        exact (sizeSwitch_eq_zero (by decide) (by decide) (by decide) algorithm).mp h0
    simp only [keygenScheme, h₁, h₂, if_false] at hs
    cases hs
  refine malloc_pair_wp S.alloc ?_ ?_
  · intro h' h'eq hnot
    refine ⟨.heap (.refl hq) h', .failed _ (by decide) h'eq ?_⟩
    intro _ _ _ _ _ _ hserves
    exact absurd hserves hnot
  intro pk sk b₁ b₂ h₂ hne hpk hsk hb₁ hb₂ h₂eq
  refine wp_bind (wp_mono (keygenSwitch_wp V S (w := { w with heap := h₂ }) hq hlen hne h₂eq hb₁ hb₂) ?_)
  rintro r w' ⟨hframe, x, y, hx, hy, hblock, hok, hcode⟩
  have hown : w.CallFrame w' (· = bytes) := hframe.congr_left rfl rfl
  have hframe' : w.CallFrame w' fun b => CBuf.buf bytes = .buf b := hown.weaken fun b h => by rw [h]
  cases r with
  | none =>
    refine wp_bind (wp_mono (free_pair_wp hne hpk hsk hblock fun h₃ h₃eq => wp_pure
      ⟨hframe'.heap h₃, .failed _ (by decide) h₃eq ?_⟩) fun _ _ h => wp_bind h)
    rintro _ _ out _ ⟨⟩ _ _ hs
    cases hcode out hs
  | some result =>
    dsimp only
    split
    · rename_i hbad
      refine wp_bind (wp_mono (free_pair_wp hne hpk hsk hblock fun h₃ h₃eq => wp_pure
        ⟨hframe'.heap h₃, .failed _ (by decide) h₃eq ?_⟩) fun _ _ h => wp_bind h)
      rintro _ _ out _ ⟨⟩ _ _ hs
      cases hcode out hs
      exact ⟨hbad, rfl⟩
    · rename_i hgood
      obtain rfl := not_not.mp hgood
      rw [← hx, ← hy]
      exact wp_pure ⟨hframe', .made bytes x y pk sk kp rfl rfl hlen (hok rfl) hne hpk hsk hx hy hblock⟩

/-! ## Signing -/

/-- What the scheme behind an algorithm computes for a sign call in `w`: its code and the
signature; `none` where the switch has no scheme. -/
def signScheme (w : World) (algorithm : AlgorithmT) (m sk : Bytes) : Option (Int × Bytes) :=
  if algorithm = bitcoinPqcMlDsa44 then
    let out := mlSig V S w m sk
    some (mlSigResult out, out.sig)
  else if algorithm = bitcoinPqcSlhDsaShake128s then
    let out := slhSig V S w m sk
    some (out.result, out.sig)
  else none

/-- The seeds a sign call may install. -/
def SignInstalls (algorithm : AlgorithmT) (m sk b : Bytes) : Prop :=
  (algorithm = bitcoinPqcMlDsa44 ∧ b = mlSeed V m sk) ∨
  (algorithm = bitcoinPqcSlhDsaShake128s ∧ ∃ served, b = slhSeed served m sk)

/-- What a signer left, in terms of the blocks that were live before its own was allocated. -/
theorem Signed.written {code : Int} {sig b : Bytes} {p : Ptr} {n : Nat} {w w' : World} {r : Int × Option Nat}
    {f : Ptr → Option Bytes} (h : Signed code sig p n w r w') (hw : w.heap.block = Function.update f p (some b))
    {scheme : Option (Int × Bytes)} (hs : scheme = some (code, sig)) :
    ∃ b, b.length = n ∧ w'.heap.block = Function.update f p (some b) ∧
      (∀ len, some r = some (0, len) → ∃ s, scheme = some (0, s) ∧ len = some s.length ∧ s.length ≤ n ∧
        b.take s.length = s) ∧
      ∀ out, scheme = some out → ∃ len, some r = some (out.1, len) := by
  obtain ⟨b', hb', hblock, htake⟩ := h.block
  refine ⟨b', hb', by rw [hblock, hw, Function.update_idem], ?_, ?_⟩
  · rintro len ⟨⟩
    obtain rfl : 0 = code := h.result
    exact ⟨sig, hs, (h.siglen rfl).1, (h.siglen rfl).2, htake rfl⟩
  · rintro out ho
    rw [hs] at ho
    cases ho
    exact ⟨r.2, by rw [← h.result]⟩

theorem signSwitch_wp {w : World} {algorithm : AlgorithmT} {f : Ptr → Option Bytes} {p : Ptr} {b m sk : Bytes}
    (hq : w.Quiet) (hsk : sk.length = bitcoinPqcSecretKeySize algorithm)
    (hw : w.heap.block = Function.update f p (some b)) (hb : b.length = bitcoinPqcSignatureSize algorithm) :
    wp (signSwitch V S algorithm (some p) (.buf m) (.buf sk)) w fun r w' =>
      w.CallFrame w' (SignInstalls V algorithm m sk) ∧
      ∃ b, b.length = bitcoinPqcSignatureSize algorithm ∧ w'.heap.block = Function.update f p (some b) ∧
        (∀ len, r = some (0, len) → ∃ s, signScheme V S w algorithm m sk = some (0, s) ∧ len = some s.length ∧
          s.length ≤ bitcoinPqcSignatureSize algorithm ∧ b.take s.length = s) ∧
        ∀ out, signScheme V S w algorithm m sk = some out → ∃ len, r = some (out.1, len) := by
  have hp : w.heap.block p = some b := by rw [hw, Function.update_self]
  rcases cases_algorithm algorithm with rfl | rfl | rfl | ⟨h₀, h₁, h₂⟩
  · exact wp_pure ⟨.refl hq, b, hb, hw, by simp, by simp [signScheme, algorithms_ne]⟩
  · simp only [signSwitch, signScheme, algorithms_ne, if_true, if_false]
    refine wp_map (wp_mono (mlDsa44Sign_wp V S hq hsk hp hb) ?_)
    rintro r w' ⟨hframe, hsigned⟩
    exact ⟨hframe.weaken fun b h => .inl ⟨rfl, h⟩, hsigned.written hw rfl⟩
  · simp only [signSwitch, signScheme, algorithms_ne, if_true, if_false]
    refine wp_map (wp_mono (slhDsaShake128sSign_wp V S hq hsk hp hb) ?_)
    rintro r w' ⟨hframe, hsigned⟩
    exact ⟨hframe.weaken fun b h => .inr ⟨rfl, _, h⟩, hsigned.written hw rfl⟩
  · simp only [signSwitch, signScheme, h₀, h₁, h₂, if_false]
    exact wp_pure ⟨.refl hq, b, hb, hw, by simp, by simp⟩

variable (secretKey message : CBuf) (signature : Option SignatureT)

/-- How a sign call can end. The scheme runs after the signature buffer was allocated, on the
heap `h₁`. -/
inductive SignPost (w w' : World) : ErrorT × Option SignatureT → Prop where
  | failed (e : ErrorT) (bad : e ≠ .ok) (block : w'.heap.block = w.heap.block)
      (why : ∀ old m sk p h₁ out, signature = some old → message = .buf m → secretKey = .buf sk →
        sk.length = bitcoinPqcSecretKeySize algorithm →
        w.heap.malloc S.alloc (bitcoinPqcSignatureSize algorithm) = some (some p, h₁) →
        signScheme V S { w with heap := h₁ } algorithm m sk = some out → out.1 ≠ 0 ∧ e = .badSignature) :
      SignPost w w' (e, signature)
  | made (m sk s b : Bytes) (p : Ptr) (h₁ : Heap UInt8) (old : SignatureT) (arg : signature = some old)
      (msg : message = .buf m) (key : secretKey = .buf sk)
      (key_size : sk.length = bitcoinPqcSecretKeySize algorithm)
      (alloc : w.heap.malloc S.alloc (bitcoinPqcSignatureSize algorithm) = some (some p, h₁))
      (scheme : signScheme V S { w with heap := h₁ } algorithm m sk = some (0, s))
      (fresh : w.heap.block p = none) (size : b.length = bitcoinPqcSignatureSize algorithm)
      (fits : s.length ≤ bitcoinPqcSignatureSize algorithm) (content : b.take s.length = s)
      (block : w'.heap.block = Function.update w.heap.block p (some b)) :
      SignPost w w' (.ok, some ⟨algorithm, some p, s.length⟩)

theorem bitcoinPqcSign_wp {w : World} (hq : w.Quiet) :
    wp (bitcoinPqcSign V S algorithm secretKey message signature) w fun r w' =>
      w.CallFrame w' (fun b => ∃ m sk, message = .buf m ∧ secretKey = .buf sk ∧ SignInstalls V algorithm m sk b) ∧
      SignPost V S algorithm secretKey message signature w w' r := by
  unfold bitcoinPqcSign
  split
  · rename_i hnull
    refine wp_pure ⟨.refl hq, .failed _ (by decide) rfl ?_⟩
    rintro old m sk p h₁ out rfl rfl rfl
    simp [CBuf.data] at hnull
  rename_i hnull
  obtain ⟨sk, rfl⟩ := CBuf.eq_buf fun h => hnull (.inl h)
  obtain ⟨m, rfl⟩ := CBuf.eq_buf fun h => hnull (.inr (.inl h))
  obtain ⟨old, rfl⟩ : ∃ old, signature = some old := Option.ne_none_iff_exists'.mp fun h => hnull (.inr (.inr h))
  split
  · rename_i hsize
    refine wp_pure ⟨.refl hq, .failed _ (by decide) rfl ?_⟩
    rintro _ _ _ _ _ _ _ _ ⟨⟩ hsk
    exact absurd hsk hsize
  rename_i hsize
  have hsk : sk.length = bitcoinPqcSecretKeySize algorithm := not_not.mp hsize
  dsimp only
  split
  · rename_i hzero
    refine wp_pure ⟨.refl hq, .failed _ (by decide) rfl ?_⟩
    intro _ _ _ _ _ _ _ _ _ _ _ hs
    obtain ⟨-, h₁, h₂⟩ := (sizeSwitch_eq_zero (by decide) (by decide) (by decide) algorithm).mp hzero
    simp only [signScheme, h₁, h₂, if_false] at hs
    cases hs
  refine wp_bind (onHeap_wp (Heap.malloc_wp ?_ ?_))
  · intro h₁ h₁eq hrefused
    refine wp_pure ⟨.heap (.refl hq) h₁, .failed _ (by decide) h₁eq ?_⟩
    intro _ _ _ _ _ _ _ _ _ _ hmalloc
    have hserved := Heap.pick_isSome_of_malloc hmalloc
    simp [hrefused] at hserved
  intro p b h₁ hmalloc hp hb h₁eq
  rw [if_neg (by simp)]
  refine wp_bind (wp_mono (signSwitch_wp V S (w := { w with heap := h₁ }) hq hsk h₁eq hb) ?_)
  rintro r w' ⟨hframe, b', hb', hblock, hok, hcode⟩
  have hown : w.CallFrame w' (SignInstalls V algorithm m sk) := hframe.congr_left rfl rfl
  have hframe' : w.CallFrame w' fun b => ∃ m' sk', CBuf.buf m = .buf m' ∧ CBuf.buf sk = .buf sk' ∧
      SignInstalls V algorithm m' sk' b := hown.weaken fun b h => ⟨m, sk, rfl, rfl, h⟩
  have hfree : w'.heap.block p = some b' := by rw [hblock, Function.update_self]
  have hback : ∀ h' : Heap UInt8, h'.block = Function.update w'.heap.block p none → h'.block = w.heap.block := by
    intro h' h'eq
    rw [h'eq, hblock, Heap.update_update_none hp]
  cases r with
  | none =>
    refine wp_bind (free_wp_world hfree fun h₂ h₂eq => wp_pure
      ⟨hframe'.heap h₂, .failed _ (by decide) (hback h₂ h₂eq) ?_⟩)
    rintro _ _ _ _ _ out _ ⟨⟩ ⟨⟩ _ hm' hs
    rw [hmalloc] at hm'
    cases hm'
    obtain ⟨len, hlen⟩ := hcode out hs
    cases hlen
  | some r =>
    obtain ⟨result, len⟩ := r
    dsimp only
    split
    · rename_i hbad
      refine wp_bind (free_wp_world hfree fun h₂ h₂eq => wp_pure
        ⟨hframe'.heap h₂, .failed _ (by decide) (hback h₂ h₂eq) ?_⟩)
      rintro _ _ _ _ _ out _ ⟨⟩ ⟨⟩ _ hm' hs
      rw [hmalloc] at hm'
      cases hm'
      obtain ⟨len', hlen⟩ := hcode out hs
      cases hlen
      exact ⟨hbad, rfl⟩
    · rename_i hgood
      obtain rfl := not_not.mp hgood
      obtain ⟨s, hs, rfl, hfits, htake⟩ := hok len rfl
      refine wp_bind (wp_ofOption rfl (wp_pure ⟨hframe', ?_⟩))
      exact .made m sk s b' p h₁ old rfl rfl rfl hsk hmalloc hs hp hb' hfits htake hblock

end

/-! ## What the caller finds -/

def SignatureT.bytes (w : World) (s : SignatureT) : Option Bytes := do
  let b ← w.heap.block (← s.signature)
  pure (b.take s.signatureSize)

/-- The public and the secret key a structure points to. -/
def KeypairT.bytes (w : World) (kp : KeypairT) : Option (Bytes × Bytes) := do
  let x ← w.heap.block (← kp.publicKey)
  let y ← w.heap.block (← kp.secretKey)
  pure (x.take kp.publicKeySize, y.take kp.secretKeySize)

section
variable {V : Vendored} {S : Sys} {algorithm : AlgorithmT}

/-- With memory and enough entropy a keygen call ends as its scheme does. -/
theorem bitcoinPqcKeygen_served {w : World} (hq : w.Quiet) {bytes : Bytes} (hlen : 128 ≤ bytes.length)
    (hserves : w.heap.Serves S.alloc [bitcoinPqcPublicKeySize algorithm, bitcoinPqcSecretKeySize algorithm])
    {out : Int × Bytes × Bytes} (hs : keygenScheme V S w algorithm bytes = some out) (old : KeypairT) :
    ∃ kp w', bitcoinPqcKeygen V S algorithm (some old) (.buf bytes) w =
        some ((if out.1 = 0 then .ok else .badKey, some kp), w') ∧ w'.Quiet ∧
      (out.1 = 0 → kp.bytes w' = some out.2) := by
  obtain ⟨r, w', hrun, hframe, hpost⟩ := bitcoinPqcKeygen_wp V S algorithm (some old) (.buf bytes) hq
  rw [hrun]
  cases hpost with
  | failed e bad block why =>
    obtain ⟨hne, rfl⟩ := why old bytes out rfl rfl hlen hserves hs
    exact ⟨old, w', by rw [if_neg hne], hframe.quiet, fun h => absurd h hne⟩
  | made bytes' x y pk sk old' arg input enough scheme distinct pk_fresh sk_fresh pk_size sk_size block =>
    cases input
    rw [hs] at scheme
    cases scheme
    exact ⟨_, w', rfl, hframe.quiet, fun _ => by simp [KeypairT.bytes, block, distinct]⟩

theorem SignPost.ok {secretKey message : CBuf} {signature sig : Option SignatureT} {w w' : World}
    (h : SignPost V S algorithm secretKey message signature w w' (.ok, sig)) :
    ∃ m sk p h₁ s sg, message = .buf m ∧ secretKey = .buf sk ∧ sk.length = bitcoinPqcSecretKeySize algorithm ∧
      w.heap.malloc S.alloc (bitcoinPqcSignatureSize algorithm) = some (some p, h₁) ∧
      signScheme V S { w with heap := h₁ } algorithm m sk = some (0, s) ∧
      sig = some sg ∧ sg.bytes w' = some s := by
  generalize hr : (ErrorT.ok, sig) = r at h
  cases h with
  | failed e bad => cases hr; exact absurd rfl bad
  | made m sk s b p h₁ old arg msg key key_size alloc scheme fresh size fits content block =>
    cases hr
    exact ⟨m, sk, p, h₁, s, _, msg, key, key_size, alloc, scheme, rfl, by simp [SignatureT.bytes, block, content]⟩

theorem bitcoinPqcSign_served {w : World} (hq : w.Quiet) {m sk : Bytes} {p : Ptr} {h₁ : Heap UInt8}
    (hsk : sk.length = bitcoinPqcSecretKeySize algorithm)
    (hmalloc : w.heap.malloc S.alloc (bitcoinPqcSignatureSize algorithm) = some (some p, h₁))
    {out : Int × Bytes} (hs : signScheme V S { w with heap := h₁ } algorithm m sk = some out) (old : SignatureT) :
    ∃ s w', bitcoinPqcSign V S algorithm (.buf sk) (.buf m) (some old) w =
        some ((if out.1 = 0 then .ok else .badSignature, some s), w') ∧ w'.Quiet ∧
      (out.1 = 0 → s.bytes w' = some out.2) := by
  obtain ⟨r, w', hrun, hframe, hpost⟩ := bitcoinPqcSign_wp V S algorithm (.buf sk) (.buf m) (some old) hq
  rw [hrun]
  cases hpost with
  | failed e bad block why =>
    obtain ⟨hne, rfl⟩ := why old m sk p h₁ out rfl rfl rfl hsk hmalloc hs
    exact ⟨old, w', by rw [if_neg hne], hframe.quiet, fun h => absurd h hne⟩
  | made m' sk' s b p' h' old' arg msg key key_size alloc scheme fresh size fits content block =>
    cases msg
    cases key
    rw [hmalloc] at alloc
    cases alloc
    rw [hs] at scheme
    cases scheme
    exact ⟨_, w', rfl, hframe.quiet, fun _ => by simp [SignatureT.bytes, block, content]⟩

end

/-! ## Freeing -/

/-- Clearing by a recorded size that the block holds, and releasing it; a null pointer is left
alone. -/
theorem clearAndFree_wp {w : World} {p : Option Ptr} {size : Nat}
    (hp : ∀ q, p = some q → ∃ b, w.heap.block q = some b ∧ size ≤ b.length) {Q : Unit → World → Prop}
    (h : ∀ h', h'.block = dropSlot w.heap.block p → Q () { w with heap := h' }) :
    wp (clearAndFree p size) w Q := by
  cases p with
  | none => exact wp_pure (h w.heap rfl)
  | some q =>
    obtain ⟨b, hb, hsize⟩ := hp q rfl
    refine wp_bind (onHeap_wp (Heap.write_wp hb (by simpa using hsize) ?_))
    intro h₁ h₁eq
    refine free_wp_world (by rw [h₁eq, Function.update_self]) ?_
    intro h₂ h₂eq
    exact h h₂ (by rw [h₂eq, h₁eq, Function.update_idem]; rfl)

end BitcoinPqc
