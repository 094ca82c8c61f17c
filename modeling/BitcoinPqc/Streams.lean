import BitcoinPqc.Entropy

/-!
# What the two sources deliver

A seeded source is the cyclic stream of its buffer: both loops deliver `cyc` of it and leave the
offset where that read ends (`copyLoop_eq`, `cycleLoop_eq`). A cleared source delivers what the
device had. `randombytes_wp` is the one rule the rest of the development uses: under either link
a draw is defined, delivers `Sys.drawn`, and changes neither which buffers are installed nor the
heap.
-/
namespace BitcoinPqc
open CSem

/-! ## The loops -/

/-- One wrap of an offset that went at most to the end is a reduction modulo the size. -/
theorem wrap_eq_mod {off size : Nat} (h : off ≤ size) :
    (if off ≥ size then 0 else off) = off % size := by
  split
  · rw [Nat.le_antisymm h (by omega), Nat.mod_self]
  · exact (Nat.mod_eq_of_lt (by omega)).symm

theorem cyc_split {data : Bytes} {off a n : Nat} (h : a ≤ n) :
    cyc data off n = cyc data off a ++ cyc data ((off + a) % data.length) (n - a) := by
  rw [cyc_mod, ← cyc_add, Nat.add_sub_cancel' h]

theorem copyLoop_eq {data : Bytes} (outlen : Nat) : ∀ (fuel total off : Nat) (out : Bytes),
    off < data.length → outlen - total < fuel →
    copyLoop data data.length outlen fuel total off out =
      some (out ++ cyc data off (outlen - total), (off + (outlen - total)) % data.length) := by
  intro fuel
  induction fuel with
  | zero => intro _ _ _ _ h; omega
  | succ fuel ih =>
    intro total off out hoff hfuel
    simp only [copyLoop]
    split
    · rename_i hlt
      generalize hamount : (if outlen - total > data.length - off then data.length - off else outlen - total) = amount
      have hle : amount ≤ outlen - total := by split at hamount <;> omega
      have hfit : off + amount ≤ data.length := by split at hamount <;> omega
      have hpos : 0 < amount := by split at hamount <;> omega
      rw [readAt_eq_cyc hfit, Option.bind_some, wrap_eq_mod hfit,
        ih _ _ _ (Nat.mod_lt _ (by omega)) (by omega)]
      congr 2
      · rw [cyc_split hle, ← List.append_assoc, Nat.sub_add_eq]
      · rw [Nat.mod_add_mod]; congr 1; omega
    · rename_i hge
      have hn : outlen - total = 0 := by omega
      simp [hn, Nat.mod_eq_of_lt hoff]

theorem cycleLoop_eq {data : Bytes} (outlen : Nat) : ∀ (fuel position off : Nat) (out : Bytes),
    off < data.length → outlen - position < fuel →
    cycleLoop data data.length outlen fuel position off (data.length - off) out =
      some (out ++ cyc data off (outlen - position), (off + (outlen - position)) % data.length) := by
  intro fuel
  induction fuel with
  | zero => intro _ _ _ _ h; omega
  | succ fuel ih =>
    intro position off out hoff hfuel
    simp only [cycleLoop]
    split
    · rename_i hlt
      generalize hcopy : (if outlen - position < data.length - off then outlen - position else data.length - off) = toCopy
      have hle : toCopy ≤ outlen - position := by split at hcopy <;> omega
      have hfit : off + toCopy ≤ data.length := by split at hcopy <;> omega
      have hpos : 0 < toCopy := by split at hcopy <;> omega
      rw [readAt_eq_cyc hfit, Option.bind_some, ih _ _ _ (Nat.mod_lt _ (by omega)) (by omega)]
      congr 2
      · rw [cyc_split hle, ← List.append_assoc, Nat.sub_add_eq]
      · rw [Nat.mod_add_mod]; congr 1; omega
    · rename_i hge
      have hn : outlen - position = 0 := by omega
      simp [hn, Nat.mod_eq_of_lt hoff]

/-! ## One draw -/

/-- The states a source is ever in: cleared, or inside a non-empty buffer of the recorded size. -/
inductive Source.Valid : Source → Prop where
  | cleared : Source.Valid .cleared
  | seeded (b : Installed) (off : Nat) (h : off < b.bytes.length) :
      Source.Valid ⟨some b, b.bytes.length, off⟩

theorem Source.seed?_seeded {b : Installed} {off : Nat} (h : off < b.bytes.length) :
    Source.seed? ⟨some b, b.bytes.length, off⟩ = some b := by
  simp only [Source.seed?]
  rw [if_neg (by omega)]

theorem Source.Valid.cases {s : Source} (h : s.Valid) :
    s = .cleared ∨ ∃ b off, off < b.bytes.length ∧ s = ⟨some b, b.bytes.length, off⟩ := by
  cases h with
  | cleared => exact .inl rfl
  | seeded b off h => exact .inr ⟨b, off, h, rfl⟩

theorem Source.install_buf (bs : Bytes) (call : Nat) :
    Source.install (.buf bs) call = ⟨some ⟨bs, call⟩, bs.length, 0⟩ := rfl

theorem Source.Valid.install {bs : Bytes} (h : 0 < bs.length) (call : Nat) :
    (Source.install (.buf bs) call).Valid :=
  .seeded ⟨bs, call⟩ 0 h

/-- The `k`-th opening of the device, read for `n` bytes: what came, then zeros. -/
def deviceBytes (S : Sys) (k n : Nat) : Bytes :=
  let got := ((S.urandom k).getD []).take n
  got ++ List.replicate (n - got.length) 0

@[simp] theorem length_deviceBytes (S : Sys) (k n : Nat) : (deviceBytes S k n).length = n := by
  simp only [deviceBytes, List.length_append, List.length_replicate]
  have := List.length_take_le n ((S.urandom k).getD [])
  omega

theorem customRandombytesImpl_unseeded (S : Sys) {w : World} {n : Nat} (hn : 0 < n) (hseed : w.ml.seed? = none) :
    customRandombytesImpl S .buf n w = some (deviceBytes S w.opens n, { w with opens := w.opens + 1 }) := by
  unfold customRandombytesImpl
  rw [if_neg (by simp; omega), hseed]
  cases hu : S.urandom w.opens with
  | none => simp [fopenFread, deviceBytes, hu]
  | some got =>
    simp only [fopenFread, deviceBytes, hu, Option.map_some, Option.getD_some]
    split
    · rfl
    · rename_i hge
      have hz : n - (got.take n).length = 0 := by omega
      rw [hz, List.replicate_zero, List.append_nil]

theorem customRandombytesImpl_cleared (S : Sys) {w : World} {n : Nat} (hn : 0 < n) (h : w.ml = .cleared) :
    customRandombytesImpl S .buf n w = some (deviceBytes S w.opens n, { w with opens := w.opens + 1 }) :=
  customRandombytesImpl_unseeded S hn (by rw [h]; rfl)

theorem customRandombytesImpl_seeded (S : Sys) {w : World} {n off : Nat} {b : Installed} (hn : 0 < n)
    (hoff : off < b.bytes.length) (h : w.ml = ⟨some b, b.bytes.length, off⟩) :
    customRandombytesImpl S .buf n w = some (cyc b.bytes off n,
      { w with ml := ⟨some b, b.bytes.length, (off + n) % b.bytes.length⟩,
               draws := w.draws ++ [⟨w.call, b, cyc b.bytes off n⟩] }) := by
  unfold customRandombytesImpl
  rw [if_neg (by simp; omega), h, Source.seed?_seeded hoff]
  simp only []
  rw [copyLoop_eq n _ 0 off [] hoff (by omega)]
  simp

/-- The other source loses a short read whole. -/
def slhDeviceBytes (S : Sys) (k n : Nat) : Bytes :=
  let got := ((S.urandom k).getD []).take n
  if got.length ≠ n then List.replicate n 0 else got

@[simp] theorem length_slhDeviceBytes (S : Sys) (k n : Nat) : (slhDeviceBytes S k n).length = n := by
  simp only [slhDeviceBytes]
  split
  · simp
  · rename_i hfull
    exact not_not.mp hfull

theorem customSlhRandombytesImpl_unseeded (S : Sys) {w : World} {n : Nat} (hseed : w.slh.seed? = none) :
    customSlhRandombytesImpl S .buf n w =
      some (slhDeviceBytes S w.opens n, { w with opens := w.opens + 1 }) := by
  unfold customSlhRandombytesImpl
  rw [if_neg (by simp), hseed]
  cases hu : S.urandom w.opens with
  | none =>
    simp only [fopenFread, slhDeviceBytes, hu, Option.map_none, Option.map_some, Option.getD_none, List.take_nil]
    cases n <;> simp
  | some got => simp only [fopenFread, slhDeviceBytes, hu, Option.map_some, Option.getD_some]

theorem customSlhRandombytesImpl_cleared (S : Sys) {w : World} {n : Nat} (h : w.slh = .cleared) :
    customSlhRandombytesImpl S .buf n w =
      some (slhDeviceBytes S w.opens n, { w with opens := w.opens + 1 }) :=
  customSlhRandombytesImpl_unseeded S (by rw [h]; rfl)

theorem customSlhRandombytesImpl_seeded (S : Sys) {w : World} {n off : Nat} {b : Installed}
    (hoff : off < b.bytes.length) (h : w.slh = ⟨some b, b.bytes.length, off⟩) :
    customSlhRandombytesImpl S .buf n w = some (cyc b.bytes off n,
      { w with slh := ⟨some b, b.bytes.length, (off + n) % b.bytes.length⟩,
               draws := w.draws ++ [⟨w.call, b, cyc b.bytes off n⟩] }) := by
  unfold customSlhRandombytesImpl
  rw [if_neg (by simp), h, Source.seed?_seeded hoff]
  simp only []
  split
  · rw [cycleLoop_eq n _ 0 off [] hoff (by omega)]
    simp
  · rename_i hle
    rw [readAt_eq_cyc (by omega)]
    simp

/-! ## The rule for `randombytes` -/

def Source.delivers (s : Source) (device : Bytes) (n : Nat) : Bytes :=
  match s.seed? with
  | some b => cyc b.bytes s.offset n
  | none => device

/-- What `randombytes` delivers in a given state. -/
def Sys.drawn (S : Sys) (w : World) (n : Nat) : Bytes :=
  match S.link with
  | .dilithium => w.ml.delivers (deviceBytes S w.opens n) n
  | .sphincsplus => w.slh.delivers (slhDeviceBytes S w.opens n) n

theorem Source.delivers_cleared (device : Bytes) (n : Nat) : Source.cleared.delivers device n = device := rfl

theorem Source.delivers_seeded {b : Installed} {off : Nat} (h : off < b.bytes.length) (device : Bytes) (n : Nat) :
    Source.delivers ⟨some b, b.bytes.length, off⟩ device n = cyc b.bytes off n := by
  simp only [Source.delivers, Source.seed?_seeded h]

theorem Source.Valid.length_delivers {s : Source} (h : s.Valid) {device : Bytes} {n : Nat}
    (hd : device.length = n) : (s.delivers device n).length = n := by
  cases h with
  | cleared => exact hd
  | seeded b off h => rw [Source.delivers_seeded h, length_cyc (by omega)]

theorem Sys.length_drawn (S : Sys) {w : World} (hml : w.ml.Valid) (hslh : w.slh.Valid) (n : Nat) :
    (S.drawn w n).length = n := by
  unfold Sys.drawn
  split
  · exact hml.length_delivers (length_deviceBytes S _ n)
  · exact hslh.length_delivers (length_slhDeviceBytes S _ n)

/-- What a draw may change: the offsets, the number of openings, and the ghost record. -/
structure World.DrawFrame (w w' : World) : Prop where
  ml_data : w'.ml.data = w.ml.data
  slh_data : w'.slh.data = w.slh.data
  ml_valid : w'.ml.Valid
  slh_valid : w'.slh.Valid
  heap : w'.heap = w.heap
  call : w'.call = w.call
  /-- Every new draw was served from a buffer installed at the time. -/
  draws : ∃ ds, w'.draws = w.draws ++ ds ∧ ∀ d ∈ ds, d.call = w.call ∧
    (w.ml.data = some d.src ∨ w.slh.data = some d.src) ∧ ∀ x ∈ d.out, x ∈ d.src.bytes

theorem World.DrawFrame.opened {w : World} (hml : w.ml.Valid) (hslh : w.slh.Valid) :
    w.DrawFrame { w with opens := w.opens + 1 } :=
  ⟨rfl, rfl, hml, hslh, rfl, rfl, [], by simp, by simp⟩

theorem randombytes_wp (S : Sys) {w : World} {n : Nat} (hn : 0 < n) (hml : w.ml.Valid) (hslh : w.slh.Valid) :
    wp (randombytes S n) w fun out w' => out = S.drawn w n ∧ w.DrawFrame w' := by
  unfold randombytes Sys.drawn
  cases S.link with
  | dilithium =>
    obtain hw | ⟨b, off, hoff, hw⟩ := hml.cases
    · refine wp_of_eq (customRandombytesImpl_cleared S hn hw) ⟨?_, .opened hml hslh⟩
      simp only [hw, Source.delivers_cleared]
    · refine wp_of_eq (customRandombytesImpl_seeded S hn hoff hw) ⟨?_, ?_⟩
      · simp only [hw, Source.delivers_seeded hoff]
      · exact ⟨by simp [hw], rfl, .seeded b _ (Nat.mod_lt _ (by omega)), hslh, rfl, rfl, _, rfl,
          by simpa [hw] using fun x => mem_of_mem_cyc⟩
  | sphincsplus =>
    obtain hw | ⟨b, off, hoff, hw⟩ := hslh.cases
    · refine wp_of_eq (customSlhRandombytesImpl_cleared S hw) ⟨?_, .opened hml hslh⟩
      simp only [hw, Source.delivers_cleared]
    · refine wp_of_eq (customSlhRandombytesImpl_seeded S hoff hw) ⟨?_, ?_⟩
      · simp only [hw, Source.delivers_seeded hoff]
      · exact ⟨rfl, by simp [hw], hml, .seeded b _ (Nat.mod_lt _ (by omega)), rfl, rfl, _, rfl,
          by simpa [hw] using fun x => mem_of_mem_cyc⟩

end BitcoinPqc
