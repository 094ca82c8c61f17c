import BitcoinPqc.Streams
import Mathlib.Algebra.Ring.Nat

/-!
# The two sources side by side

Installed with a non-empty buffer, either source delivers the buffer repeated for ever, however
the requests are cut (`seeded_source_cycles`). The two differ in one place: when the device
delivers fewer bytes than were asked for, `custom_randombytes_impl` keeps what came and zeroes
the rest, `custom_slh_randombytes_impl` zeroes everything (`sources_agree_iff`).
-/
namespace BitcoinPqc
open CSem

/-! ## One source of the two -/

namespace Link

def initRandomSource : Link → CBuf → Exec World Unit
  | .dilithium => mlDsaInitRandomSource
  | .sphincsplus => slhDsaInitRandomSource

/-- What the `randombytes` of each directory forwards to. -/
def randombytesImpl (S : Sys) : Link → OutPtr → Nat → Exec World Bytes
  | .dilithium => customRandombytesImpl S
  | .sphincsplus => customSlhRandombytesImpl S

def source : Link → World → Source
  | .dilithium, w => w.ml
  | .sphincsplus, w => w.slh

end Link

/-- A list of requests, one after another, with the output of each. -/
def requestAll (draw : Nat → Exec World Bytes) : List Nat → Exec World (List Bytes)
  | [] => pure []
  | n :: ns => do
    let out ← draw n
    let outs ← requestAll draw ns
    pure (out :: outs)

/-! ## Seeded -/

section
variable (l : Link) (S : Sys) {w : World} {b : Installed} {off : Nat}

theorem randombytesImpl_seeded (hoff : off < b.bytes.length) (h : l.source w = ⟨some b, b.bytes.length, off⟩)
    (n : Nat) :
    wp (l.randombytesImpl S .buf n) w fun out w' => out = cyc b.bytes off n ∧
      l.source w' = ⟨some b, b.bytes.length, (off + n) % b.bytes.length⟩ := by
  cases l with
  | dilithium =>
    by_cases hn : n = 0
    · subst hn
      refine ⟨[], w, rfl, rfl, ?_⟩
      rw [h, Nat.add_zero, Nat.mod_eq_of_lt hoff]
    · exact wp_of_eq (customRandombytesImpl_seeded S (Nat.pos_of_ne_zero hn) hoff h) ⟨rfl, rfl⟩
  | sphincsplus => exact wp_of_eq (customSlhRandombytesImpl_seeded S hoff h) ⟨rfl, rfl⟩

/-- The requests of a list move through the stream one after another. -/
theorem requestAll_seeded (reqs : List Nat) (hoff : off < b.bytes.length)
    (h : l.source w = ⟨some b, b.bytes.length, off⟩) :
    wp (requestAll (l.randombytesImpl S .buf) reqs) w fun outs w' =>
      outs.map List.length = reqs ∧ outs.flatten = cyc b.bytes off reqs.sum ∧
      l.source w' = ⟨some b, b.bytes.length, (off + reqs.sum) % b.bytes.length⟩ := by
  have hpos : 0 < b.bytes.length := by omega
  induction reqs generalizing w off with
  | nil =>
    refine wp_pure ⟨rfl, rfl, ?_⟩
    rw [h, List.sum_nil, Nat.add_zero, Nat.mod_eq_of_lt hoff]
  | cons n ns ih =>
    refine wp_bind (wp_mono (randombytesImpl_seeded l S hoff h n) ?_)
    rintro out w₁ ⟨rfl, h₁⟩
    refine wp_bind (wp_mono (ih (Nat.mod_lt _ hpos) h₁) ?_)
    rintro outs w₂ ⟨hlens, houts, h₂⟩
    refine wp_pure ⟨?_, ?_, ?_⟩
    · rw [List.map_cons, hlens, length_cyc hpos]
    · rw [List.flatten_cons, houts, cyc_mod, ← cyc_add, List.sum_cons]
    · rw [h₂, Nat.mod_add_mod, List.sum_cons, Nat.add_assoc]

end

/-- **A seeded source is a cyclic stream.** Any list of requests is served, each with the length
it asked for; one after another the outputs are the buffer repeated from its beginning, and the
offset, which never leaves the buffer, is where that ends. Two lists of one total get the same
bytes. -/
theorem seeded_source_cycles (l : Link) (S : Sys) (w : World) {seed : Bytes} (hseed : 0 < seed.length)
    (reqs : List Nat) :
    ∃ w₀ outs w', l.initRandomSource (.buf seed) w = some ((), w₀) ∧
      requestAll (l.randombytesImpl S .buf) reqs w₀ = some (outs, w') ∧ outs.map List.length = reqs ∧
      outs.flatten = cyc seed 0 reqs.sum ∧ (l.source w').offset = reqs.sum % seed.length ∧
      (l.source w').offset < seed.length ∧
      ∀ reqs' : List Nat, reqs'.sum = reqs.sum → ∃ outs' w'',
        requestAll (l.randombytesImpl S .buf) reqs' w₀ = some (outs', w'') ∧ outs'.flatten = outs.flatten := by
  obtain ⟨w₀, hinit, hw₀⟩ : ∃ w₀, l.initRandomSource (.buf seed) w = some ((), w₀) ∧
      l.source w₀ = ⟨some ⟨seed, w.call⟩, seed.length, 0⟩ := by
    cases l <;> exact ⟨_, rfl, rfl⟩
  obtain ⟨outs, w', hrun, hlens, houts, hw'⟩ := requestAll_seeded l S reqs (b := ⟨seed, w.call⟩) hseed hw₀
  have hoffset : (l.source w').offset = reqs.sum % seed.length := by rw [hw', Nat.zero_add]
  refine ⟨w₀, outs, w', hinit, hrun, hlens, houts, hoffset, hoffset ▸ Nat.mod_lt _ hseed, ?_⟩
  intro reqs' hsum
  obtain ⟨outs', w'', hrun', -, houts', -⟩ := requestAll_seeded l S reqs' (b := ⟨seed, w.call⟩) hseed hw₀
  exact ⟨outs', w'', hrun', by rw [houts', houts, hsum]⟩

/-- A buffer of three bytes, asked for nothing, for its end and across it twice. -/
theorem seeded_source_cycles_sample :
    ∃ w₀ outs w', Link.sphincsplus.initRandomSource (.buf [5, 6, 7]) .init = some ((), w₀) ∧
      requestAll (Link.sphincsplus.randombytesImpl (.sample .dilithium 0) .buf) [0, 3, 7] w₀ = some (outs, w') ∧
      outs.flatten = [5, 6, 7, 5, 6, 7, 5, 6, 7, 5] ∧ (Link.sphincsplus.source w').offset = 1 := by
  have hseed : 0 < ([5, 6, 7] : Bytes).length := by decide
  obtain ⟨w₀, outs, w', hinit, hrun, -, houts, hoffset, -⟩ :=
    seeded_source_cycles .sphincsplus (.sample .dilithium 0) .init hseed [0, 3, 7]
  exact ⟨w₀, outs, w', hinit, hrun, houts.trans (by decide), hoffset⟩

/-! ## Against each other -/

/-- No seed, or an offset inside a seed of the recorded size. -/
def Source.Usable (s : Source) : Prop :=
  s.seed? = none ∨ ∃ b off, off < b.bytes.length ∧ s = ⟨some b, b.bytes.length, off⟩

/-- From one source state and one state of the device both functions deliver the same bytes and
leave the same offset; without a seed these are the bytes of the device, then zeros. -/
def SourcesAgree (S : Sys) (w : World) (n : Nat) : Prop :=
  ∃ out w₁ w₂, customRandombytesImpl S .buf n w = some (out, w₁) ∧
    customSlhRandombytesImpl S .buf n w = some (out, w₂) ∧ w₁.ml.offset = w₂.slh.offset ∧
    (w.ml.seed? = none → out = deviceBytes S w.opens n)

/-- What one source returns for a short read is what the other does when nothing but zeros came. -/
theorem slhDeviceBytes_eq_iff (S : Sys) (k n : Nat) :
    slhDeviceBytes S k n = deviceBytes S k n ↔
      ∀ got, S.urandom k = some got → got.length < n → ∀ x ∈ got, x = 0 := by
  cases hu : S.urandom k with
  | none =>
    refine iff_of_true ?_ (by rintro got ⟨⟩)
    simp only [slhDeviceBytes, deviceBytes, hu, Option.getD_none, List.take_nil, List.nil_append]
    cases n <;> rfl
  | some got =>
    simp only [slhDeviceBytes, deviceBytes, hu, Option.getD_some, Option.some.injEq, forall_eq']
    by_cases hshort : got.length < n
    · have htake : got.take n = got := List.take_of_length_le (by omega)
      have hsplit : List.replicate n (0 : UInt8) =
          List.replicate got.length 0 ++ List.replicate (n - got.length) 0 := by
        rw [List.replicate_append_replicate, Nat.add_sub_cancel' (by omega)]
      rw [htake, if_pos (by omega), hsplit, List.append_cancel_right_eq, eq_comm, List.eq_replicate_iff]
      simp [hshort]
    · have htake : (got.take n).length = n := by rw [List.length_take]; omega
      simp [htake, hshort]

/-- A request for nothing included, for which this source does not open the device. -/
theorem customRandombytesImpl_device (S : Sys) {w : World} (hseed : w.ml.seed? = none) (n : Nat) :
    wp (customRandombytesImpl S .buf n) w fun out w' => out = deviceBytes S w.opens n ∧ w'.ml = w.ml := by
  by_cases hn : n = 0
  · subst hn
    exact ⟨[], w, rfl, (List.eq_nil_of_length_eq_zero (length_deviceBytes S _ 0)).symm, rfl⟩
  · exact wp_of_eq (customRandombytesImpl_unseeded S (Nat.pos_of_ne_zero hn) hseed) ⟨rfl, rfl⟩

/-- **Where the sources agree.** With a seed always; without one unless the device opens and
delivers less than was asked for, and not only zeros. -/
theorem sources_agree_iff (S : Sys) {w : World} (hsame : w.slh = w.ml) (husable : w.ml.Usable) (n : Nat) :
    SourcesAgree S w n ↔
      w.ml.seed? ≠ none ∨ ∀ got, S.urandom w.opens = some got → got.length < n → ∀ x ∈ got, x = 0 := by
  rcases husable with hseed | ⟨b, off, hoff, hw⟩
  · have hslh := customSlhRandombytesImpl_unseeded S (n := n) (hsame ▸ hseed)
    obtain ⟨_, w₁, hml, rfl, hw₁⟩ := customRandombytesImpl_device S hseed n
    rw [← slhDeviceBytes_eq_iff, or_iff_right (not_not.mpr hseed)]
    constructor
    · rintro ⟨out, _, _, hml', hslh', -, -⟩
      rw [hml] at hml'
      rw [hslh] at hslh'
      cases hml'
      exact congrArg Prod.fst (Option.some.inj hslh')
    · intro heq
      refine ⟨_, w₁, _, hml, heq ▸ hslh, ?_, fun _ => rfl⟩
      exact (congrArg Source.offset hw₁).trans (congrArg Source.offset hsame.symm)
  · have hslh := customSlhRandombytesImpl_seeded S (n := n) hoff (hsame.trans hw)
    refine iff_of_true ?_ (.inl (by rw [hw, Source.seed?_seeded hoff]; simp))
    obtain ⟨out, w₁, hml, rfl, hw₁⟩ := randombytesImpl_seeded .dilithium S hoff hw n
    refine ⟨_, w₁, _, hml, hslh, ?_, ?_⟩
    · exact congrArg Source.offset hw₁
    · intro h
      rw [hw, Source.seed?_seeded hoff] at h
      cases h

/-- A device that delivers nothing. -/
theorem sources_agree_iff_empty_device : SourcesAgree ⟨.dilithium, .bump 0, fun _ => some []⟩ .init 16 :=
  (sources_agree_iff ⟨.dilithium, .bump 0, fun _ => some []⟩ rfl (.inl rfl) 16).mpr
    (.inr (by rintro got ⟨⟩ - x hx; cases hx))

/-- One byte comes where two were asked for. -/
theorem sources_differ :
    ¬ ∀ (S : Sys) (w : World) (n : Nat), w.slh = w.ml → w.ml.Usable → SourcesAgree S w n := by
  intro h
  obtain ⟨out, w₁, w₂, hml, hslh, -⟩ := h ⟨.dilithium, .bump 0, fun _ => some [1]⟩ .init 2 rfl (.inl rfl)
  cases hml
  cases hslh

end BitcoinPqc
