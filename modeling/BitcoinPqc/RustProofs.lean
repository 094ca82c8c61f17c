import BitcoinPqc.RustApi
import BitcoinPqc.Lib.Checks

/-!
# What the Rust operations return

For the two schemes of the C library, `generateKeypair_wp` and `sign_wp` say what a call returns
and that it gives back every block it allocated; `verify_ok_iff` says when a signature is
accepted. The secp256k1 branches are pure and are read off their definitions.
-/
namespace BitcoinPqc
open CSem Checks

/-! ## Algorithms -/

namespace Algorithm

/-- The algorithm is one of the two that the C library implements, there under the number `a`. -/
inductive Pqc : Algorithm → AlgorithmT → Prop where
  | mlDsa44 : Pqc mlDsa44 bitcoinPqcMlDsa44
  | slhDsa128s : Pqc slhDsa128s bitcoinPqcSlhDsaShake128s

variable {algorithm : Algorithm} {a : AlgorithmT}

theorem Valid.cases (h : algorithm.Valid) : algorithm = secp256k1Schnorr ∨ ∃ a, algorithm.Pqc a := by
  rcases h with rfl | rfl | rfl
  · exact .inl rfl
  · exact .inr ⟨_, .mlDsa44⟩
  · exact .inr ⟨_, .slhDsa128s⟩

theorem Pqc.toC (h : algorithm.Pqc a) {ε : Type} : (algorithm.toC : Except (Stop ε) AlgorithmT) = .ok a := by
  cases h <;> rfl

theorem Pqc.valid (h : algorithm.Pqc a) : algorithm.Valid := by
  cases h
  · exact .inr (.inl rfl)
  · exact .inr (.inr rfl)

theorem Pqc.ne_secp (h : algorithm.Pqc a) : algorithm ≠ secp256k1Schnorr := by
  cases h <;> decide

theorem Pqc.sizeOf (h : algorithm.Pqc a) {ε : Type} (secp : Nat) (table : AlgorithmT → Nat) :
    (BitcoinPqc.sizeOf secp table algorithm : Except (Stop ε) Nat) = .ok (table a) := by
  rw [BitcoinPqc.sizeOf, if_neg h.ne_secp, h.toC]
  rfl

end Algorithm

@[simp] theorem resultOfC_eq_ok {ε : Type} {e : ErrorT} : (resultOfC e : Except (Stop ε) Unit) = .ok () ↔ e = .ok := by
  cases e <;> simp [resultOfC]

/-! ## Freeing what a call made -/

theorem keypairFree_made_wp {w : World} {f : Ptr → Option Bytes} {p q : Ptr} {x y : Bytes} (a : AlgorithmT)
    (hne : p ≠ q) (hp : f p = none) (hq : f q = none)
    (hw : w.heap.block = Function.update (Function.update f p (some x)) q (some y)) {Q : Option KeypairT → World → Prop}
    (h : ∀ h', h'.block = f → Q (some .zero) { w with heap := h' }) :
    wp (bitcoinPqcKeypairFree (some ⟨a, some p, some q, x.length, y.length⟩)) w Q := by
  refine wp_bind (clearAndFree_wp ?_ ?_)
  · rintro _ ⟨⟩
    exact ⟨x, by rw [hw, Function.update_of_ne hne, Function.update_self], Nat.le_refl _⟩
  intro h₁ h₁eq
  have hdrop : h₁.block = Function.update f q (some y) := by
    rw [h₁eq, hw, Function.update_comm hne]
    exact Heap.update_update_none (by rw [Function.update_of_ne hne, hp])
  refine wp_bind (clearAndFree_wp ?_ ?_)
  · rintro _ ⟨⟩
    exact ⟨y, by show h₁.block q = _; rw [hdrop, Function.update_self], Nat.le_refl _⟩
  intro h₂ h₂eq
  exact wp_pure (h h₂ (by rw [h₂eq]; show dropSlot h₁.block _ = f; rw [hdrop]; exact Heap.update_update_none hq))

theorem signatureFree_made_wp {w : World} {f : Ptr → Option Bytes} {p : Ptr} {b : Bytes} {n : Nat} (a : AlgorithmT)
    (hp : f p = none) (hw : w.heap.block = Function.update f p (some b)) (hn : n ≤ b.length)
    {Q : Option SignatureT → World → Prop} (h : ∀ h', h'.block = f → Q (some .zero) { w with heap := h' }) :
    wp (bitcoinPqcSignatureFree (some ⟨a, some p, n⟩)) w Q := by
  refine wp_bind (clearAndFree_wp ?_ ?_)
  · rintro _ ⟨⟩
    exact ⟨b, by rw [hw, Function.update_self], hn⟩
  intro h₁ h₁eq
  exact wp_pure (h h₁ (by rw [h₁eq, hw]; exact Heap.update_update_none hp))

theorem fromRawParts_wp {w : World} {p : Ptr} {b : Bytes} {n : Nat} (hp : w.heap.block p = some b)
    (hn : n ≤ b.length) {Q : Bytes → World → Prop} (h : Q (b.take n) w) : wp (fromRawParts (some p) n) w Q :=
  onHeap_wp (Heap.read_wp hp hn h)

/-- Reading a whole block. -/
theorem fromRawParts_all_wp {w : World} {p : Ptr} {b : Bytes} (hp : w.heap.block p = some b)
    {Q : Bytes → World → Prop} (h : Q b w) : wp (fromRawParts (some p) b.length) w Q :=
  fromRawParts_wp hp (Nat.le_refl _) (by rwa [List.take_length])

/-- How a binding takes over the two keys of a call: it copies both and frees the structure. -/
theorem takeKeys_wp {ε β : Type} {w : World} {f : Ptr → Option Bytes} {p q : Ptr} {x y : Bytes} (a : AlgorithmT)
    (hne : p ≠ q) (hp : f p = none) (hq : f q = none)
    (hw : w.heap.block = Function.update (Function.update f p (some x)) q (some y))
    {k : Bytes → Bytes → ExceptT ε (Exec World) β} {R : Except ε β → World → Prop}
    (h : ∀ h', h'.block = f → wp (k x y).run { w with heap := h' } R) :
    wp (do
      let pkBytes ← fromRawParts (some p) x.length
      let skBytes ← fromRawParts (some q) y.length
      let _ ← bitcoinPqcKeypairFree (some ⟨a, some p, some q, x.length, y.length⟩)
      k pkBytes skBytes : ExceptT ε (Exec World) β).run w R := by
  have hpk : w.heap.block p = some x := by rw [hw, Function.update_of_ne hne, Function.update_self]
  have hsk : w.heap.block q = some y := by rw [hw, Function.update_self]
  refine wp_run_step (fromRawParts_all_wp hpk ?_)
  refine wp_run_step (fromRawParts_all_wp hsk ?_)
  exact wp_run_step (keypairFree_made_wp a hne hp hq hw h)

/-! ## Generating and signing -/

section
variable (C : Secp256k1) (V : Vendored) (S : Sys) {algorithm : Algorithm} {a : AlgorithmT}

/-- What a key generation in `w` returns: keys only if the scheme made them, and the keys of the
scheme whenever memory and entropy suffice. -/
structure Generated (algorithm : Algorithm) (a : AlgorithmT) (randomData : Bytes) (w : World)
    (r : Except (Stop C.Error) KeyPair) : Prop where
  of_ok : ∀ kp, r = .ok kp → 128 ≤ randomData.length ∧ ∃ x y, keygenScheme V S w a randomData = some (0, x, y) ∧
    x.length = bitcoinPqcPublicKeySize a ∧ y.length = bitcoinPqcSecretKeySize a ∧
    kp = ⟨⟨algorithm, x⟩, ⟨algorithm, y⟩⟩
  served : 128 ≤ randomData.length →
    w.heap.Serves S.alloc [bitcoinPqcPublicKeySize a, bitcoinPqcSecretKeySize a] →
    ∀ x y, keygenScheme V S w a randomData = some (0, x, y) → r = .ok ⟨⟨algorithm, x⟩, ⟨algorithm, y⟩⟩

theorem generateKeypair_wp (halg : algorithm.Pqc a) (randomData : Bytes) {w : World} (hq : w.Quiet) :
    wp (generateKeypair C V S algorithm randomData).run w fun r w' =>
      w'.Quiet ∧ w'.heap.block = w.heap.block ∧ Generated C V S algorithm a randomData w r := by
  unfold generateKeypair
  rw [if_neg halg.ne_secp]
  split
  · rename_i hshort
    exact wp_run_throw ⟨hq, rfl, ⟨nofun, fun hlen => absurd hshort (Nat.not_lt.mpr hlen)⟩⟩
  rename_i hshort
  refine wp_run_bind (wp_run_ofExcept ?_)
  rw [halg.toC]
  dsimp only
  refine wp_run_step (wp_mono (bitcoinPqcKeygen_wp V S a _ _ hq) ?_)
  rintro _ w₁ ⟨hframe, hpost⟩
  cases hpost with
  | failed e bad block why =>
    dsimp only
    rw [if_pos bad]
    refine wp_run_step (wp_bind (wp_pure (wp_bind (wp_pure (wp_pure ?_)))))
    refine wp_run_throw ⟨hframe.quiet, block, ⟨nofun, fun hlen hserves x y hs => ?_⟩⟩
    exact absurd rfl (why _ _ _ rfl rfl hlen hserves hs).1
  | made bytes x y pk sk old arg input enough scheme distinct pk_fresh sk_fresh pk_size sk_size block =>
    cases input
    dsimp only
    rw [if_neg (by simp)]
    refine wp_run_step (wp_ofOption rfl ?_)
    refine takeKeys_wp a distinct pk_fresh sk_fresh block fun h' h'eq => ?_
    refine wp_run_pure ⟨hframe.quiet, h'eq, ⟨?_, ?_⟩⟩
    · rintro _ ⟨⟩
      exact ⟨enough, x, y, scheme, pk_size, sk_size, rfl⟩
    · intro _ _ x' y' hs
      rw [scheme] at hs
      cases hs
      rfl

/-- What a sign call in `w` returns. The scheme runs after the signature buffer was allocated. -/
structure Produced (algorithm : Algorithm) (a : AlgorithmT) (secretKey message : Bytes) (w : World)
    (r : Except (Stop C.Error) Signature) : Prop where
  of_ok : ∀ sig, r = .ok sig → secretKey.length = bitcoinPqcSecretKeySize a ∧ ∃ h₁ s,
    signScheme V S { w with heap := h₁ } a message secretKey = some (0, s) ∧ sig = ⟨algorithm, s⟩
  served : secretKey.length = bitcoinPqcSecretKeySize a → ∀ p h₁ s,
    w.heap.malloc S.alloc (bitcoinPqcSignatureSize a) = some (some p, h₁) →
    signScheme V S { w with heap := h₁ } a message secretKey = some (0, s) → r = .ok ⟨algorithm, s⟩

theorem sign_wp (secretKey : SecretKey) (halg : secretKey.algorithm.Pqc a) (message : Bytes) {w : World}
    (hq : w.Quiet) :
    wp (sign C V S secretKey message).run w fun r w' =>
      w'.Quiet ∧ w'.heap.block = w.heap.block ∧
      Produced C V S secretKey.algorithm a secretKey.bytes message w r := by
  unfold sign
  rw [if_neg halg.ne_secp]
  refine wp_run_bind (wp_run_ofExcept ?_)
  rw [halg.toC]
  dsimp only
  refine wp_run_step (wp_mono (bitcoinPqcSign_wp V S a _ _ _ hq) ?_)
  rintro _ w₁ ⟨hframe, hpost⟩
  cases hpost with
  | failed e bad block why =>
    dsimp only
    rw [if_pos bad]
    refine wp_run_throw ⟨hframe.quiet, block, ⟨nofun, fun hlen p h₁ s hmalloc hs => ?_⟩⟩
    exact absurd rfl (why _ _ _ _ _ _ rfl rfl rfl hlen hmalloc hs).1
  | made m sk s b p h₁ old arg msg key key_size alloc scheme fresh size fits content block =>
    cases msg
    cases key
    have hp : w₁.heap.block p = some b := by rw [block, Function.update_self]
    have hfit : s.length ≤ b.length := by rw [size]; exact fits
    dsimp only
    rw [if_neg (by simp)]
    refine wp_run_step (wp_ofOption rfl ?_)
    refine wp_run_step (fromRawParts_wp hp hfit ?_)
    rw [content]
    refine wp_run_step (signatureFree_made_wp a fresh block hfit fun h' h'eq => ?_)
    refine wp_run_pure ⟨hframe.quiet, h'eq, ⟨?_, ?_⟩⟩
    · rintro _ ⟨⟩
      exact ⟨key_size, h₁, s, scheme, rfl⟩
    · intro _ p' h₁' s' hm hs
      rw [alloc] at hm
      cases hm
      rw [scheme] at hs
      cases hs
      rfl

end

/-! ## Verifying -/

section
variable (C : Secp256k1) (V : Vendored)

/-- The scheme behind an algorithm accepts, on a key and a signature of its sizes. -/
def SchemeAccepts (a : AlgorithmT) (pk message sig : Bytes) : Prop :=
  pk.length = bitcoinPqcPublicKeySize a ∧ sig.length = bitcoinPqcSignatureSize a ∧
  verifySwitch V a (.buf pk) (.buf message) (.buf sig) = some 0

instance (a : AlgorithmT) (pk message sig : Bytes) : Decidable (SchemeAccepts V a pk message sig) :=
  inferInstanceAs (Decidable (_ ∧ _ ∧ _))

/-- On pointers that are not null the two length checks and the switch are left. -/
theorem bitcoinPqcVerify_buf (a : AlgorithmT) (pk message sig : Bytes) :
    bitcoinPqcVerify V a (.buf pk) (.buf message) (.buf sig) =
      if pk.length ≠ bitcoinPqcPublicKeySize a then .badKey
      else if sig.length ≠ bitcoinPqcSignatureSize a then .badSignature
      else match verifySwitch V a (.buf pk) (.buf message) (.buf sig) with
        | none => .notImplemented
        | some result => if result ≠ 0 then .badSignature else .ok := by
  unfold bitcoinPqcVerify
  rw [if_neg (by simp [CBuf.data])]
  rfl

theorem bitcoinPqcVerify_ok_iff {a : AlgorithmT} {pk message sig : Bytes} :
    bitcoinPqcVerify V a (.buf pk) (.buf message) (.buf sig) = .ok ↔ SchemeAccepts V a pk message sig := by
  rw [bitcoinPqcVerify_buf]
  unfold SchemeAccepts
  split
  · rename_i h
    constructor
    · rintro ⟨⟩
    · intro hc
      exact absurd hc.1 h
  split
  · rename_i h
    constructor
    · rintro ⟨⟩
    · intro hc
      exact absurd hc.2.1 h
  rename_i hpk hsig
  have hsizes : pk.length = bitcoinPqcPublicKeySize a ∧ sig.length = bitcoinPqcSignatureSize a :=
    ⟨not_not.mp hpk, not_not.mp hsig⟩
  cases hv : verifySwitch V a (.buf pk) (.buf message) (.buf sig) with
  | none => simp
  | some result =>
    by_cases h0 : result = 0 <;> simp [h0, hsizes]

theorem verify_ok_iff (publicKey : PublicKey) {a : AlgorithmT} (halg : publicKey.algorithm.Pqc a) (message : Bytes)
    (signature : Signature) :
    verify C V publicKey message signature = .ok () ↔
      publicKey.algorithm = signature.algorithm ∧ SchemeAccepts V a publicKey.bytes message signature.bytes := by
  unfold verify publicKeySize
  rw [if_neg halg.ne_secp, halg.sizeOf, halg.toC]
  simp only [reject_ok_iff, not_not, bind_ok_iff, Except.ok.injEq, exists_eq_left', resultOfC_eq_ok,
    bitcoinPqcVerify_ok_iff]
  constructor
  · rintro ⟨ht, -, hs⟩
    exact ⟨ht, hs⟩
  · rintro ⟨ht, hs⟩
    exact ⟨ht, hs.1, hs⟩

end

end BitcoinPqc
