import BitcoinPqc.Bindings
import BitcoinPqc.Verdict
import BitcoinPqc.Reproducible
import Mathlib.Tactic.Tauto

/-!
# Do the bindings agree?

The three modules call one C library under one name of an algorithm. Node counts the algorithms as
the library does, so its keys are Rust's; Python still counts an algorithm the library no longer
has, so its ML-DSA-44 is the library's SLH-DSA and its SLH-DSA is unknown there. Neither looks at the
algorithm of a signature, which Rust compares with the key's. `bindings_agree_iff` says on which
inputs that makes no difference.
-/
namespace BitcoinPqc
open CSem Checks

/-- The vendored key generators report no failure: both end in `return 0`. -/
structure Vendored.KeygenSucceeds (V : Vendored) : Prop where
  dilithium : ∀ seed, (V.dilithiumKeypair seed).result = 0
  spx : ∀ seed, (V.spxSeedKeypair seed).result = 0

namespace PqcName

theorem rust_pqc (n : PqcName) : n.rust.Pqc n.c := by
  cases n
  · exact .mlDsa44
  · exact .slhDsa128s

theorem rust_inj {n t : PqcName} : n.rust = t.rust ↔ n = t := by
  cases n <;> cases t <;> decide

theorem node_value (n : PqcName) : n.node.value = n.c := by
  cases n <;> rfl

theorem c_cases (n : PqcName) : n.c = bitcoinPqcMlDsa44 ∨ n.c = bitcoinPqcSlhDsaShake128s := by
  cases n
  · exact .inl rfl
  · exact .inr rfl

end PqcName

/-! ## Keys -/

section
variable (C : Secp256k1) (E : Node.Host) (V : Vendored) (S : Sys) (n : PqcName) (randomData : Bytes) (w : World)

/-- The bytes of the keys each module returns, if it returns any. -/
def rustKeys : Option (Bytes × Bytes) :=
  match (generateKeypair C V S n.rust randomData).run w with
  | some (.ok kp, _) => some (kp.publicKey.bytes, kp.secretKey.bytes)
  | _ => none

def nodeKeys (randomData : Node.Uint8Array) : Option (Bytes × Bytes) :=
  match (Node.generateKeyPair (Node.addon E V S) n.node randomData).run w with
  | some (.ok kp, _) => some (kp.publicKey.bytes.contents, kp.secretKey.bytes.contents)
  | _ => none

def pythonKeys : Option (Bytes × Bytes) :=
  match (Python.keygen (Python.ctypes V S) n.python randomData).run w with
  | some (.ok kp, _) => some (kp.publicKey, kp.secretKey)
  | _ => none

end

section
variable {C : Secp256k1} {E : Node.Host} {V : Vendored} {S : Sys} {n : PqcName} {randomData : Bytes} {w : World}
  (hq : w.Quiet)
include hq

theorem nodeKeygen_wp {randomData : Node.Uint8Array} {a : AlgorithmT} {x y : Bytes}
    (hlen : 128 ≤ randomData.contents.length)
    (hserves : w.heap.Serves S.alloc [bitcoinPqcPublicKeySize a, bitcoinPqcSecretKeySize a])
    (hscheme : keygenScheme V S w a randomData.contents = some (0, x, y)) :
    wp (Node.addonKeygen E V S a randomData).run w fun r _ =>
      r = .ok ⟨E.newUint8Array x, E.newUint8Array y, 0⟩ := by
  have hne : randomData.contents ≠ [] := by
    intro h
    rw [h] at hlen
    simp at hlen
  unfold Node.addonKeygen
  rw [if_neg (by omega), randomData.data_of_ne_nil hne]
  refine wp_run_step (wp_mono (bitcoinPqcKeygen_wp V S a _ _ hq) ?_)
  rintro _ w₁ ⟨-, hpost⟩
  cases hpost with
  | failed e bad block why => exact absurd rfl (why _ _ _ rfl rfl hlen hserves hscheme).1
  | made bytes x' y' pk sk old arg input enough scheme distinct pk_fresh sk_fresh pk_size sk_size block =>
    cases input
    rw [hscheme] at scheme
    cases scheme
    dsimp only
    rw [if_neg (by simp)]
    refine wp_run_step (wp_ofOption rfl ?_)
    exact takeKeys_wp a distinct pk_fresh sk_fresh block fun h' h'eq => wp_run_pure rfl

/-- With memory, Node returns the keys of the scheme. -/
theorem nodeKeys_eq {randomData : Node.Uint8Array} {x y : Bytes} (hlen : 128 ≤ randomData.contents.length)
    (hserves : w.heap.Serves S.alloc [bitcoinPqcPublicKeySize n.c, bitcoinPqcSecretKeySize n.c])
    (hscheme : keygenScheme V S w n.c randomData.contents = some (0, x, y)) :
    nodeKeys E V S n w randomData = some (x, y) := by
  have hrun : wp (Node.generateKeyPair (Node.addon E V S) n.node randomData).run w fun r _ =>
      r = .ok ⟨⟨n.node, E.newUint8Array x⟩, ⟨n.node, E.newUint8Array y⟩⟩ := by
    unfold Node.generateKeyPair
    rw [if_neg (by omega), n.node_value]
    refine wp_run_bind (wp_mono (nodeKeygen_wp hq hlen hserves hscheme) ?_)
    rintro _ w' rfl
    dsimp only
    rw [if_neg (by simp [Node.ok])]
    exact wp_run_ofExcept (if_neg (by simp))
  obtain ⟨r, w', hrun, rfl⟩ := hrun
  simp only [nodeKeys, hrun, E.contents_new]

/-- With memory, so does Rust. -/
theorem rustKeys_eq {x y : Bytes} (hlen : 128 ≤ randomData.length)
    (hserves : w.heap.Serves S.alloc [bitcoinPqcPublicKeySize n.c, bitcoinPqcSecretKeySize n.c])
    (hscheme : keygenScheme V S w n.c randomData = some (0, x, y)) : rustKeys C V S n randomData w = some (x, y) := by
  obtain ⟨r, w', hrun, -, -, hgen⟩ := generateKeypair_wp C V S n.rust_pqc randomData hq
  rw [hgen.served hlen hserves x y hscheme] at hrun
  simp only [rustKeys, hrun]

/-- A public key Rust returns has the size of its algorithm. -/
theorem rustKeys_size {x y : Bytes} (h : rustKeys C V S n randomData w = some (x, y)) :
    x.length = bitcoinPqcPublicKeySize n.c := by
  obtain ⟨r, w', hrun, -, -, hgen⟩ := generateKeypair_wp C V S n.rust_pqc randomData hq
  simp only [rustKeys, hrun] at h
  cases r with
  | error e => cases h
  | ok kp =>
    obtain ⟨-, x', y', -, hx, -, rfl⟩ := hgen.of_ok kp rfl
    cases h
    exact hx

omit hq in
theorem copyField_wp {p : Ptr} {b : Bytes} (hp : w.heap.block p = some b) {Q : Bytes → World → Prop} (h : Q b w) :
    wp (Python.copyField (some p) b.length) w Q := by
  unfold Python.copyField
  split
  · exact fromRawParts_all_wp hp h
  · rename_i hempty
    have hb : b = [] := List.eq_nil_of_length_eq_zero (by by_contra h0; exact hempty ⟨by simp, by omega⟩)
    subst hb
    exact wp_pure h

/-- Whatever Python returns is of the algorithm that has its number in the library. -/
theorem pythonKeys_scheme {x y : Bytes} (h : pythonKeys V S n randomData w = some (x, y)) :
    keygenScheme V S w n.python.value randomData = some (0, x, y) ∧
      x.length = bitcoinPqcPublicKeySize n.python.value := by
  have hrun : wp (Python.keygen (Python.ctypes V S) n.python randomData).run w fun r _ =>
      ∀ kp, r = .ok kp → keygenScheme V S w n.python.value randomData = some (0, kp.publicKey, kp.secretKey) ∧
        kp.publicKey.length = bitcoinPqcPublicKeySize n.python.value := by
    unfold Python.keygen
    split
    · exact wp_run_throw nofun
    refine wp_run_step (wp_bind (wp_mono (bitcoinPqcKeygen_wp V S _ _ _ hq) ?_))
    rintro _ w₁ ⟨-, hpost⟩
    cases hpost with
    | failed e bad block why =>
      refine wp_bind (wp_ofOption rfl (wp_pure ?_))
      dsimp only
      rw [if_pos (by cases e <;> first | exact absurd rfl bad | decide)]
      exact wp_run_throw nofun
    | made bytes x' y' pk sk old arg input enough scheme distinct pk_fresh sk_fresh pk_size sk_size block =>
      cases input
      have hpk : w₁.heap.block pk = some x' := by rw [block, Function.update_of_ne distinct, Function.update_self]
      have hsk : w₁.heap.block sk = some y' := by rw [block, Function.update_self]
      refine wp_bind (wp_ofOption rfl (wp_pure ?_))
      dsimp only
      rw [if_neg (by decide)]
      refine wp_run_lift (wp_bind (copyField_wp hpk (wp_bind (copyField_wp hsk (wp_pure ?_)))))
      rintro _ ⟨⟩
      exact ⟨scheme, pk_size⟩
  obtain ⟨r, w', hrun, hok⟩ := hrun
  simp only [pythonKeys, hrun] at h
  cases r with
  | error e => cases h
  | ok kp =>
    cases h
    exact hok kp rfl

end

/-- The two calls return keys, and the same ones. -/
def SameKeys (x y : Option (Bytes × Bytes)) : Prop := ∃ keys, x = some keys ∧ y = some keys

section
variable {C : Secp256k1} {E : Node.Host} {V : Vendored} {S₁ S₂ : Sys} {n : PqcName} {w₁ w₂ : World}
  (hq₁ : w₁.Quiet) (hq₂ : w₂.Quiet)
include hq₁ hq₂

theorem node_keys_agree (hV : V.KeygenSucceeds) (hl₁ : S₁.link = .dilithium) (hl₂ : S₂.link = .dilithium)
    {randomData : Node.Uint8Array} (hlen : 128 ≤ randomData.contents.length)
    (hserves₁ : w₁.heap.Serves S₁.alloc [bitcoinPqcPublicKeySize n.c, bitcoinPqcSecretKeySize n.c])
    (hserves₂ : w₂.heap.Serves S₂.alloc [bitcoinPqcPublicKeySize n.c, bitcoinPqcSecretKeySize n.c]) :
    SameKeys (rustKeys C V S₁ n randomData.contents w₁) (nodeKeys E V S₂ n w₂ randomData) := by
  have hscheme₁ := keygenScheme_eq hl₁ V w₁ n.c_cases hlen
  have hscheme₂ := keygenScheme_eq hl₂ V w₂ n.c_cases hlen
  have hzero : (keysFrom V n.c (randomData.contents.take (entropyUsed n.c))).1 = 0 := by
    cases n
    · exact hV.dilithium _
    · exact hV.spx _
  generalize keysFrom V n.c (randomData.contents.take (entropyUsed n.c)) = out at hscheme₁ hscheme₂ hzero
  obtain ⟨code, keys⟩ := out
  obtain rfl : code = 0 := hzero
  exact ⟨keys, rustKeys_eq hq₁ hlen hserves₁ hscheme₁, nodeKeys_eq hq₂ hlen hserves₂ hscheme₂⟩

/-- Python's keys are another algorithm's, or none. -/
theorem python_keys_differ {randomData : Bytes} : ¬SameKeys (rustKeys C V S₁ n randomData w₁) (pythonKeys V S₂ n randomData w₂) := by
  rintro ⟨⟨x, y⟩, hrust, hpython⟩
  have hsize := rustKeys_size hq₁ hrust
  obtain ⟨hscheme, hsize'⟩ := pythonKeys_scheme hq₂ hpython
  cases n with
  | mlDsa44 =>
    rw [hsize'] at hsize
    exact absurd hsize (by decide)
  | slhDsa => cases hscheme

end

/-! ## Verification -/

@[simp] theorem ErrorT.code_eq_zero {e : ErrorT} : e.code = 0 ↔ e = .ok := by
  cases e <;> decide

section
variable {C : Secp256k1} {E : Node.Host} {V : Vendored} {S : Sys}

theorem bitcoinPqcVerify_ok {a : AlgorithmT} {pk message sig : CBuf} (h : bitcoinPqcVerify V a pk message sig = .ok) :
    ∃ x m s, pk = .buf x ∧ message = .buf m ∧ sig = .buf s := by
  unfold bitcoinPqcVerify at h
  split at h
  · cases h
  rename_i hnull
  obtain ⟨x, rfl⟩ := CBuf.eq_buf fun h => hnull (.inl h)
  obtain ⟨m, rfl⟩ := CBuf.eq_buf fun h => hnull (.inr (.inl h))
  obtain ⟨s, rfl⟩ := CBuf.eq_buf fun h => hnull (.inr (.inr h))
  exact ⟨x, m, s, rfl, rfl, rfl⟩

/-- Node accepts what the scheme of the key accepts, unless the message comes as a null pointer. -/
theorem addonVerify_iff (n : PqcName) {pk message sig : Node.Uint8Array} :
    Node.addonVerify V n.c pk message sig = 0 ↔
      SchemeAccepts V n.c pk.contents message.contents sig.contents ∧ message.dataIsNull = false := by
  rw [Node.addonVerify, ErrorT.code_eq_zero]
  constructor
  · intro h
    obtain ⟨x, m, s, hx, hm, hs⟩ := bitcoinPqcVerify_ok h
    rw [hx, hm, hs] at h
    obtain ⟨rfl, -⟩ := Node.Uint8Array.data_eq_buf_iff.mp hx
    obtain ⟨rfl, hnull⟩ := Node.Uint8Array.data_eq_buf_iff.mp hm
    obtain ⟨rfl, -⟩ := Node.Uint8Array.data_eq_buf_iff.mp hs
    exact ⟨(bitcoinPqcVerify_ok_iff V).mp h, hnull⟩
  · rintro ⟨haccepts, hnull⟩
    have hpk : pk.contents ≠ [] := by
      intro h
      rw [h] at haccepts
      cases n <;> exact absurd haccepts.1 (by decide)
    have hsig : sig.contents ≠ [] := by
      intro h
      rw [h] at haccepts
      cases n <;> exact absurd haccepts.2.1 (by decide)
    rw [pk.data_of_ne_nil hpk, Node.Uint8Array.data_eq_buf_iff.mpr ⟨rfl, hnull⟩, sig.data_of_ne_nil hsig]
    exact (bitcoinPqcVerify_ok_iff V).mpr haccepts

end

section
variable (C : Secp256k1) (E : Node.Host) (V : Vendored) (S : Sys) (n t : PqcName)

/-- The three verifiers on a key tagged `n` and a signature tagged `t`. -/
def RustAccepts (pk message sig : Bytes) : Prop := verify C V ⟨n.rust, pk⟩ message ⟨t.rust, sig⟩ = .ok ()

def NodeAccepts (pk message sig : Node.Uint8Array) : Prop :=
  Node.verify (Node.addon E V S) ⟨n.node, pk⟩ message (.signature ⟨t.node, sig⟩) = .ok ()

def PythonAccepts (pk message sig : Bytes) : Prop :=
  Python.verify (Python.ctypes V S) n.python pk message (.signature ⟨t.python, sig⟩) = true

theorem rustAccepts_iff {pk message sig : Bytes} :
    RustAccepts C V n t pk message sig ↔ n = t ∧ SchemeAccepts V n.c pk message sig := by
  rw [RustAccepts, verify_ok_iff C V _ n.rust_pqc, PqcName.rust_inj]

theorem nodeAccepts_iff {pk message sig : Node.Uint8Array} : NodeAccepts E V S n t pk message sig ↔
    SchemeAccepts V n.c pk.contents message.contents sig.contents ∧ message.dataIsNull = false := by
  rw [NodeAccepts, Node.verify, reject_ok_iff, n.node_value, ← addonVerify_iff]
  simp [Node.ok, Node.addon]

/-- The number of Python's SLH-DSA is no algorithm of the library. -/
theorem pythonAccepts_iff {pk message sig : Bytes} : PythonAccepts V S n t pk message sig ↔
    n = .mlDsa44 ∧ SchemeAccepts V bitcoinPqcSlhDsaShake128s pk message sig := by
  rw [PythonAccepts, Python.verify, decide_eq_true_iff]
  show (bitcoinPqcVerify V n.python.value _ _ _).code = 0 ↔ _
  rw [ErrorT.code_eq_zero, bitcoinPqcVerify_ok_iff]
  cases n with
  | mlDsa44 => exact ⟨fun h => ⟨rfl, h⟩, fun h => h.2⟩
  | slhDsa => exact ⟨fun h => (nomatch h.2.2), fun h => (nomatch h.1)⟩

end

/-- **Where the bindings agree.** On keys Node always does and Python never. On a verdict Node does
unless the scheme accepts and either the tags differ or the message is a null pointer, but not
both; Python does exactly when it and Rust reject. -/
theorem bindings_agree_iff (C : Secp256k1) (E : Node.Host) {V : Vendored} (hV : V.KeygenSucceeds) {S₁ S₂ : Sys}
    (hl₁ : S₁.link = .dilithium) (hl₂ : S₂.link = .dilithium) {w₁ w₂ : World} (hq₁ : w₁.Quiet) (hq₂ : w₂.Quiet)
    (n t : PqcName) {randomData : Node.Uint8Array} (hlen : 128 ≤ randomData.contents.length)
    (hserves₁ : w₁.heap.Serves S₁.alloc [bitcoinPqcPublicKeySize n.c, bitcoinPqcSecretKeySize n.c])
    (hserves₂ : w₂.heap.Serves S₂.alloc [bitcoinPqcPublicKeySize n.c, bitcoinPqcSecretKeySize n.c])
    (pk message sig : Node.Uint8Array) :
    SameKeys (rustKeys C V S₁ n randomData.contents w₁) (nodeKeys E V S₂ n w₂ randomData) ∧
    ¬SameKeys (rustKeys C V S₁ n randomData.contents w₁) (pythonKeys V S₂ n randomData.contents w₂) ∧
    ((NodeAccepts E V S₂ n t pk message sig ↔ RustAccepts C V n t pk.contents message.contents sig.contents) ↔
      (SchemeAccepts V n.c pk.contents message.contents sig.contents → (n = t ↔ message.dataIsNull = false))) ∧
    ((PythonAccepts V S₂ n t pk.contents message.contents sig.contents ↔
        RustAccepts C V n t pk.contents message.contents sig.contents) ↔
      ¬(n = t ∧ SchemeAccepts V n.c pk.contents message.contents sig.contents) ∧
      ¬(n = .mlDsa44 ∧ SchemeAccepts V bitcoinPqcSlhDsaShake128s pk.contents message.contents sig.contents)) := by
  refine ⟨node_keys_agree hq₁ hq₂ hV hl₁ hl₂ hlen hserves₁ hserves₂, python_keys_differ hq₁ hq₂, ?_, ?_⟩
  · rw [nodeAccepts_iff, rustAccepts_iff]
    tauto
  · rw [pythonAccepts_iff, rustAccepts_iff]
    -- no key has the sizes of both schemes
    have hboth : n = .mlDsa44 → SchemeAccepts V n.c pk.contents message.contents sig.contents →
        ¬SchemeAccepts V bitcoinPqcSlhDsaShake128s pk.contents message.contents sig.contents := by
      rintro rfl hml hslh
      exact absurd (hml.1.symm.trans hslh.1) (by decide)
    tauto

theorem Vendored.sample_keygenSucceeds : Vendored.sample.KeygenSucceeds := ⟨fun _ => rfl, fun _ => rfl⟩

/-- A host that gives a new array of no bytes no address. -/
def Node.Host.sample : Node.Host :=
  ⟨fun bytes => ⟨bytes, bytes = [], of_decide_eq_true⟩, fun _ => rfl, .zero⟩

/-- An array with an address. -/
def Node.Uint8Array.sample (contents : Bytes) : Node.Uint8Array := ⟨contents, false, nofun⟩

/-- 128 zero bytes give Node the keys of Rust and Python others, also when the random devices differ.
A key and a signature of zeros under the empty message, which the scheme accepts: Node agrees with
Rust when the array of the message has an address, and does not when it is `new Uint8Array(0)`;
Python does not. -/
theorem bindings_agree_iff_sample :
    let pk := Node.Uint8Array.sample (List.replicate 1312 0)
    let sig := Node.Uint8Array.sample (List.replicate 2420 0)
    let none := Node.Host.sample.newUint8Array []
    let zeros := List.replicate 128 (0 : UInt8)
    SameKeys (rustKeys .sample .sample (.sample .dilithium 0) .mlDsa44 zeros .init)
      (nodeKeys .sample .sample (.sample .dilithium 0xff) .mlDsa44 .init (.sample zeros)) ∧
    ¬SameKeys (rustKeys .sample .sample (.sample .dilithium 0) .mlDsa44 zeros .init)
      (pythonKeys .sample (.sample .dilithium 0xff) .mlDsa44 zeros .init) ∧
    RustAccepts .sample .sample .mlDsa44 .mlDsa44 pk.contents [] sig.contents ∧
    NodeAccepts .sample .sample (.sample .dilithium 0xff) .mlDsa44 .mlDsa44 pk (.sample []) sig ∧
    ¬NodeAccepts .sample .sample (.sample .dilithium 0xff) .mlDsa44 .mlDsa44 pk none sig ∧
    ¬PythonAccepts .sample (.sample .dilithium 0xff) .mlDsa44 .mlDsa44 pk.contents [] sig.contents := by
  have hlen : 128 ≤ (Node.Uint8Array.sample (List.replicate 128 0)).contents.length :=
    Nat.le_of_eq (List.length_replicate ..).symm
  have hlink : ∀ byte, (Sys.sample .dilithium byte).link = .dilithium := fun _ => rfl
  have hagree := fun message => bindings_agree_iff .sample .sample Vendored.sample_keygenSucceeds
    (hlink 0) (hlink 0xff) World.quiet_init World.quiet_init
    .mlDsa44 .mlDsa44 hlen (Heap.bump_serves _ _ _) (Heap.bump_serves _ _ _)
    (.sample (List.replicate 1312 0)) message (.sample (List.replicate 2420 0))
  have haccepts : SchemeAccepts .sample bitcoinPqcMlDsa44 (List.replicate 1312 0) [] (List.replicate 2420 0) :=
    sample_accepts (List.length_replicate ..) (List.length_replicate ..) []
  have hrust : RustAccepts .sample .sample .mlDsa44 .mlDsa44 (List.replicate 1312 0) [] (List.replicate 2420 0) :=
    (rustAccepts_iff ..).mpr ⟨rfl, haccepts⟩
  refine ⟨(hagree (.sample [])).1, (hagree (.sample [])).2.1, hrust, ?_, fun hnode => ?_, fun hpython => ?_⟩
  · exact ((hagree (.sample [])).2.2.1.mpr fun _ => iff_of_true rfl rfl).mpr hrust
  · have hnull := (hagree (Node.Host.sample.newUint8Array [])).2.2.1.mp (iff_of_true hnode hrust) haccepts
    exact absurd (hnull.mp rfl) (by decide)
  · exact ((hagree (.sample [])).2.2.2.mp (iff_of_true hpython hrust)).1 ⟨rfl, haccepts⟩

/-- Python's ML-DSA-44 keys of 128 zero bytes are not Rust's. -/
theorem bindings_disagree :
    ¬ ∀ (C : Secp256k1) (E : Node.Host) (V : Vendored) (S₁ S₂ : Sys) (w₁ w₂ : World) (n t : PqcName)
        (randomData pk message sig : Node.Uint8Array), V.KeygenSucceeds → S₁.link = .dilithium → S₂.link = .dilithium →
      w₁.Quiet → w₂.Quiet → 128 ≤ randomData.contents.length →
      w₁.heap.Serves S₁.alloc [bitcoinPqcPublicKeySize n.c, bitcoinPqcSecretKeySize n.c] →
      w₂.heap.Serves S₂.alloc [bitcoinPqcPublicKeySize n.c, bitcoinPqcSecretKeySize n.c] →
      SameKeys (rustKeys C V S₁ n randomData.contents w₁) (nodeKeys E V S₂ n w₂ randomData) ∧
      SameKeys (rustKeys C V S₁ n randomData.contents w₁) (pythonKeys V S₂ n randomData.contents w₂) ∧
      (NodeAccepts E V S₂ n t pk message sig ↔ RustAccepts C V n t pk.contents message.contents sig.contents) ∧
      (PythonAccepts V S₂ n t pk.contents message.contents sig.contents ↔
        RustAccepts C V n t pk.contents message.contents sig.contents) := by
  intro h
  have hlen : 128 ≤ (Node.Uint8Array.sample (List.replicate 128 0)).contents.length :=
    Nat.le_of_eq (List.length_replicate ..).symm
  have hall := h .sample .sample .sample (.sample .dilithium 0) (.sample .dilithium 0) .init .init .mlDsa44
    .mlDsa44 _ (.sample []) (.sample []) (.sample []) Vendored.sample_keygenSucceeds rfl rfl World.quiet_init
    World.quiet_init hlen (Heap.bump_serves _ _ _) (Heap.bump_serves _ _ _)
  exact python_keys_differ World.quiet_init World.quiet_init hall.2.1

end BitcoinPqc
