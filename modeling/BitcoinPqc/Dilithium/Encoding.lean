import BitcoinPqc.Dilithium.Hints

/-!
# Keys and signatures as bytes

Public keys, secret keys and signatures are packed field by field. Each can be read back, and each
is the only encoding of what is read: for the keys any bytes of the right length will do, for a
signature the hints must be well formed.

| here | there |
| --- | --- |
| `packPk`, `packSk`, `packSig`, … | dilithium/ref/packing.c:15, :38, :65, :112, :156, :198 |
| `polyveckPackW1` | dilithium/ref/polyvec.c:384 |
-/
namespace BitcoinPqc.Dilithium
open CSem

section
variable {m : Nat}

/-- `for(i = 0; i < m; ++i) f(out + i*size, &v->vec[i]);` -/
def packVec (f : Poly → Eval Bytes) (v : Vector Poly m) : Eval Bytes := do
  let parts : Vector Bytes m ← Vector.ofFnM fun i => f (v.get i)
  .ok (ofBlocks m fun i => parts[i]?.getD [])

def unpackVec (f : Bytes → Poly) (size : Nat) (bs : Bytes) : Vector Poly m := Vector.ofFn fun i => f (block size i.1 bs)

end

def polyveckPackW1 (w1 : Polyveck) : Eval Bytes := packVec polyw1Pack w1

def packPk (rho : Bytes) (t1 : Polyveck) : Eval Bytes := do .ok (rho ++ (← packVec polyt1Pack t1))

def unpackPk (pk : Bytes) : Eval (Bytes × Polyveck) := do
  let pk ← take? cryptoPublickeybytes pk
  .ok (pk.take seedbytes, unpackVec polyt1Unpack polyt1Packedbytes (pk.drop seedbytes))

/-- What `unpack_sk` fills in. -/
structure SecretKey where
  rho : Bytes
  tr : Bytes
  key : Bytes
  t0 : Polyveck
  s1 : Polyvecl
  s2 : Polyveck

def packSk (sk : SecretKey) : Eval Bytes := do
  let s1 ← packVec polyetaPack sk.s1
  let s2 ← packVec polyetaPack sk.s2
  let t0 ← packVec polyt0Pack sk.t0
  .ok (sk.rho ++ (sk.key ++ (sk.tr ++ (s1 ++ (s2 ++ t0)))))

def unpackSk (sk : Bytes) : Eval SecretKey := do
  let sk ← take? cryptoSecretkeybytes sk
  let rho := sk.take seedbytes
  let sk := sk.drop seedbytes
  let key := sk.take seedbytes
  let sk := sk.drop seedbytes
  let tr := sk.take trbytes
  let sk := sk.drop trbytes
  let s1 := unpackVec polyetaUnpack polyetaPackedbytes sk
  let sk := sk.drop (l * polyetaPackedbytes)
  let s2 := unpackVec polyetaUnpack polyetaPackedbytes sk
  let sk := sk.drop (k * polyetaPackedbytes)
  .ok { rho, tr, key, t0 := unpackVec polyt0Unpack polyt0Packedbytes sk, s1, s2 }

def packSig (c : Bytes) (z : Polyvecl) (h : Polyveck) : Eval Bytes := do
  let z ← packVec polyzPack z
  let h ← packHints h
  .ok (c ++ (z ++ h.toList))

/-- `none` where the source returns 1. -/
def unpackSig (sig : Bytes) : Eval (Option (Bytes × Polyvecl × Polyveck)) := do
  let sig ← take? cryptoBytes sig
  let c := sig.take ctildebytes
  let sig := sig.drop ctildebytes
  let z := unpackVec polyzUnpack polyzPackedbytes sig
  let sig := sig.drop (l * polyzPackedbytes)
  let hints := Vector.ofFn fun j : Fin polyvechPackedbytes => sig[j.1]?.getD 0
  .ok ((unpackHints hints).map fun h => (c, z, h))

/-! ## Vectors -/

section
variable {m size : Nat} {f : Poly → Eval Bytes} {g : Bytes → Poly}

theorem packVec_spec {v : Vector Poly m}
    (h : ∀ i (hi : i < m), Returns (fun bs => bs.length = size ∧ g bs = v[i]) (f v[i])) :
    Returns (fun bs => bs.length = m * size ∧ ∀ rest, unpackVec g size (bs ++ rest) = v) (packVec f v) := by
  refine (Returns.ofFnM (R := fun i bs => ∀ hi : i < m, bs.length = size ∧ g bs = v[i]) fun i => ?_).bind fun parts hparts => ?_
  · exact (h i i.2).mono fun bs hbs _ => hbs
  have hpart : ∀ i (hi : i < m), parts[i]?.getD [] = parts[i] := fun i hi => by simp [hi]
  have hlens : ∀ i < m, (parts[i]?.getD []).length = size := fun i hi => by
    rw [hpart i hi]
    exact (hparts i hi hi).1
  have hlen := length_ofBlocks hlens
  refine Returns.ok ⟨hlen, fun rest => Vector.ext fun i hi => ?_⟩
  rw [unpackVec, Vector.getElem_ofFn, block_append_left hi hlen, block_ofBlocks hlens hi, hpart i hi]
  exact (hparts i hi hi).2

theorem getElem_unpackVec (g : Bytes → Poly) (size : Nat) (bs : Bytes) {i : Nat} (hi : i < m) :
    (unpackVec g size bs : Vector Poly m)[i] = g (block size i bs) := by
  rw [unpackVec, Vector.getElem_ofFn]

theorem packVec_unpackVec (h : ∀ bs : Bytes, bs.length = size → f (g bs) = .ok bs) {bs : Bytes} (hlen : m * size ≤ bs.length) :
    packVec f (unpackVec g size bs : Vector Poly m) = .ok (bs.take (m * size)) := by
  have hparts : Returns (fun parts : Vector Bytes m => ∀ i (hi : i < m), parts[i] = block size i bs)
      (Vector.ofFnM fun i : Fin m => f ((unpackVec g size bs : Vector Poly m).get i)) := by
    refine Returns.ofFnM (R := fun i part => part = block size i bs) fun i => ?_
    rw [get_fin, getElem_unpackVec g size bs i.2]
    exact ⟨_, h _ (length_block i.2 hlen), rfl⟩
  obtain ⟨parts, hparts, heach⟩ := hparts
  rw [packVec, hparts]
  refine congrArg Except.ok ?_
  rw [← ofBlocks_block]
  exact ofBlocks_congr fun i hi => by simp [hi, heach i hi]

end

/-! ## Public keys -/

theorem packPk_spec {rho : Bytes} (hrho : rho.length = seedbytes) {t1 : Polyveck} (ht1 : ∀ i (h : i < k), Between 0 1024 t1[i]) :
    Returns (fun pk => pk.length = cryptoPublickeybytes ∧ unpackPk pk = .ok (rho, t1)) (packPk rho t1) := by
  refine (packVec_spec fun i hi => polyt1Pack_spec (ht1 i hi)).bind fun bs hbs => Returns.ok ?_
  have hlen : (rho ++ bs).length = cryptoPublickeybytes := by rw [List.length_append, hrho, hbs.1]; rfl
  have hunpack := hbs.2 []
  rw [List.append_nil] at hunpack
  refine ⟨hlen, ?_⟩
  rw [unpackPk, take?_ok hlen]
  exact congrArg Except.ok (by rw [List.take_left' hrho, List.drop_left' hrho, hunpack])

theorem unpackPk_spec {pk : Bytes} (hlen : pk.length = cryptoPublickeybytes) :
    Returns (fun p : Bytes × Polyveck => p.1.length = seedbytes ∧ (∀ i (h : i < k), Between 0 1024 p.2[i]) ∧
      packPk p.1 p.2 = .ok pk) (unpackPk pk) := by
  have hrest : (pk.drop seedbytes).length = k * polyt1Packedbytes := by rw [List.length_drop, hlen]; rfl
  rw [unpackPk, take?_ok hlen]
  refine Returns.ok ⟨by rw [List.length_take, hlen]; rfl, fun i hi => ?_, ?_⟩
  · dsimp only
    rw [getElem_unpackVec _ _ _ hi]
    exact polyt1Unpack_range (Nat.le_of_eq (length_block hi (Nat.le_of_eq hrest.symm)).symm)
  · dsimp only
    rw [packPk, packVec_unpackVec (fun _ => polyt1Pack_unpack) (Nat.le_of_eq hrest.symm), ← hrest, List.take_length]
    exact congrArg Except.ok (List.take_append_drop _ _)

theorem unpackPk_range {pk rho : Bytes} {t1 : Polyveck} (hlen : pk.length = cryptoPublickeybytes) (h : unpackPk pk = .ok (rho, t1)) :
    ∀ i (hi : i < k), Between 0 1024 t1[i] := by
  obtain ⟨p, hp, -, hrange, -⟩ := unpackPk_spec hlen
  cases hp.symm.trans h
  exact hrange

/-! ## Secret keys -/

theorem exists_append {bs : Bytes} {a b : Nat} (h : bs.length = a + b) :
    ∃ x y : Bytes, x.length = a ∧ bs = x ++ y ∧ y.length = b :=
  ⟨bs.take a, bs.drop a, by rw [List.length_take]; omega, (List.take_append_drop a bs).symm, by rw [List.length_drop]; omega⟩

/-- What can be packed: lengths, and the ranges the widths of the fields allow. -/
structure SecretKey.Valid (sk : SecretKey) : Prop where
  rho : sk.rho.length = seedbytes
  tr : sk.tr.length = trbytes
  key : sk.key.length = seedbytes
  t0 : ∀ i (h : i < k), Between (-4095) 4097 sk.t0[i]
  s1 : ∀ i (h : i < l), Between (-5) 3 sk.s1[i]
  s2 : ∀ i (h : i < k), Between (-5) 3 sk.s2[i]

theorem packSk_spec {sk : SecretKey} (h : sk.Valid) :
    Returns (fun bs => bs.length = cryptoSecretkeybytes ∧ unpackSk bs = .ok sk) (packSk sk) := by
  refine (packVec_spec fun i hi => polyetaPack_spec (h.s1 i hi)).bind fun s1 hs1 => ?_
  refine (packVec_spec fun i hi => polyetaPack_spec (h.s2 i hi)).bind fun s2 hs2 => ?_
  refine (packVec_spec fun i hi => polyt0Pack_spec (h.t0 i hi)).bind fun t0 ht0 => Returns.ok ?_
  have hlen : (sk.rho ++ (sk.key ++ (sk.tr ++ (s1 ++ (s2 ++ t0))))).length = cryptoSecretkeybytes := by
    simp only [List.length_append, h.rho, h.key, h.tr, hs1.1, hs2.1, ht0.1]
    decide
  have ht0' := ht0.2 []
  rw [List.append_nil] at ht0'
  refine ⟨hlen, ?_⟩
  rw [unpackSk, take?_ok hlen]
  refine congrArg Except.ok ?_
  rw [List.take_left' h.rho, List.drop_left' h.rho, List.take_left' h.key, List.drop_left' h.key, List.take_left' h.tr,
    List.drop_left' h.tr, List.drop_left' hs1.1, List.drop_left' hs2.1, hs1.2, hs2.2, ht0']

theorem unpackSk_spec {bs : Bytes} (hlen : bs.length = cryptoSecretkeybytes) :
    Returns (fun sk => sk.Valid ∧ packSk sk = .ok bs) (unpackSk bs) := by
  have hsize : cryptoSecretkeybytes = seedbytes + (seedbytes + (trbytes + (l * polyetaPackedbytes +
    (k * polyetaPackedbytes + k * polyt0Packedbytes)))) := by decide
  rw [unpackSk, take?_ok hlen]
  rw [hsize] at hlen
  obtain ⟨rho, rest, hrho, rfl, hlen₁⟩ := exists_append hlen
  obtain ⟨key, rest, hkey, rfl, hlen₂⟩ := exists_append hlen₁
  obtain ⟨tr, rest, htr, rfl, hlen₃⟩ := exists_append hlen₂
  obtain ⟨s1, rest, hs1, rfl, hlen₄⟩ := exists_append hlen₃
  obtain ⟨s2, t0, hs2, rfl, ht0⟩ := exists_append hlen₄
  refine Returns.ok ?_
  rw [List.take_left' hrho, List.drop_left' hrho, List.take_left' hkey, List.drop_left' hkey, List.take_left' htr,
    List.drop_left' htr, List.drop_left' hs1, List.drop_left' hs2]
  refine ⟨⟨hrho, htr, hkey, fun i hi => ?_, fun i hi => ?_, fun i hi => ?_⟩, ?_⟩
  · rw [getElem_unpackVec _ _ _ hi]
    exact polyt0Unpack_range (Nat.le_of_eq (length_block hi (Nat.le_of_eq ht0.symm)).symm)
  · rw [getElem_unpackVec _ _ _ hi]
    exact polyetaUnpack_range (Nat.le_of_eq (length_block hi (by rw [List.length_append, hs1]; omega)).symm)
  · rw [getElem_unpackVec _ _ _ hi]
    exact polyetaUnpack_range (Nat.le_of_eq (length_block hi (by rw [List.length_append, hs2]; omega)).symm)
  · rw [packSk, packVec_unpackVec (fun _ => polyetaPack_unpack) (by rw [List.length_append, hs1]; omega), List.take_left' hs1,
      packVec_unpackVec (fun _ => polyetaPack_unpack) (by rw [List.length_append, hs2]; omega), List.take_left' hs2,
      packVec_unpackVec (fun _ => polyt0Pack_unpack) (Nat.le_of_eq ht0.symm), ← ht0, List.take_length]
    rfl

/-! ## Signatures -/

theorem ofFn_toList (hints : HintBytes) : (Vector.ofFn fun j : Fin polyvechPackedbytes => hints.toList[j.1]?.getD 0) = hints :=
  Vector.ext fun j _ => by simp

theorem packSig_spec {c : Bytes} (hc : c.length = ctildebytes) {z : Polyvecl} (hz : ∀ i (h : i < l), Between (-131071) 131073 z[i])
    {h : Polyveck} (hh : IsHint h) :
    Returns (fun sig => sig.length = cryptoBytes ∧ unpackSig sig = .ok (some (c, z, h))) (packSig c z h) := by
  refine (packVec_spec fun i hi => polyzPack_spec (hz i hi)).bind fun zs hzs => ?_
  refine (unpackHints_packHints hh).bind fun hints hhints => Returns.ok ?_
  have hlen : (c ++ (zs ++ hints.toList)).length = cryptoBytes := by
    simp only [List.length_append, hc, hzs.1, Vector.length_toList]
    decide
  refine ⟨hlen, ?_⟩
  rw [unpackSig, take?_ok hlen]
  refine congrArg Except.ok ?_
  rw [List.take_left' hc, List.drop_left' hc, List.drop_left' hzs.1, hzs.2, ofFn_toList, hhints, Option.map_some]

/-- **A signature has one encoding.** -/
theorem unpackSig_spec {sig : Bytes} (hlen : sig.length = cryptoBytes) :
    Returns (fun r => ∀ c z h, r = some (c, z, h) → c.length = ctildebytes ∧ (∀ i (hi : i < l), Between (-131071) 131073 z[i]) ∧
      IsHint h ∧ packSig c z h = .ok sig) (unpackSig sig) := by
  have hsize : cryptoBytes = ctildebytes + (l * polyzPackedbytes + polyvechPackedbytes) := by decide
  rw [unpackSig, take?_ok hlen]
  rw [hsize] at hlen
  obtain ⟨c, rest, hc, rfl, hlen₁⟩ := exists_append hlen
  obtain ⟨zs, hs, hzs, rfl, hhs⟩ := exists_append hlen₁
  have hhints : (Vector.ofFn fun j : Fin polyvechPackedbytes => hs[j.1]?.getD 0).toList = hs :=
    List.ext_getElem (by rw [Vector.length_toList, hhs]) fun j _ hj => by simp [hj]
  refine Returns.ok fun c' z h hr => ?_
  rw [List.take_left' hc, List.drop_left' hc, List.drop_left' hzs] at hr
  obtain ⟨h', hsome, hr⟩ := Option.map_eq_some_iff.mp hr
  cases hr
  refine ⟨hc, fun i hi => ?_, (unpackHints_some hsome).1, ?_⟩
  · rw [getElem_unpackVec _ _ _ hi]
    exact polyzUnpack_range (Nat.le_of_eq (length_block hi (by rw [List.length_append, hzs]; omega)).symm)
  · rw [packSig, packVec_unpackVec (fun _ => polyzPack_unpack) (by rw [List.length_append, hzs]; omega), List.take_left' hzs,
      packHints_unpackHints hsome]
    exact congrArg (fun bs => Except.ok (c ++ (zs ++ bs))) hhints

/-! ## Exact inverses -/

/-- **Signatures have one encoding**: the bytes that are accepted are those that are written. -/
theorem unpackSig_iff (sig : Vector UInt8 cryptoBytes) (c : Bytes) (z : Polyvecl) (h : Polyveck) :
    unpackSig sig.toList = .ok (some (c, z, h)) ↔ c.length = ctildebytes ∧ (∀ i (hi : i < l), Between (-131071) 131073 z[i]) ∧
      IsHint h ∧ packSig c z h = .ok sig.toList := by
  constructor
  · intro hrun
    exact (unpackSig_spec sig.length_toList).sound.of_ok hrun c z h rfl
  · rintro ⟨hc, hz, hh, hpack⟩
    exact ((packSig_spec hc hz hh).sound.of_ok hpack).2

/-- **Keys have one encoding**, and every string of the right length is a key. -/
theorem unpackKeys_iff (pk : Vector UInt8 cryptoPublickeybytes) (sk : Vector UInt8 cryptoSecretkeybytes) :
    (∀ rho t1, unpackPk pk.toList = .ok (rho, t1) ↔
      rho.length = seedbytes ∧ (∀ i (hi : i < k), Between 0 1024 t1[i]) ∧ packPk rho t1 = .ok pk.toList) ∧
    (∀ s, unpackSk sk.toList = .ok s ↔ s.Valid ∧ packSk s = .ok sk.toList) ∧
    (∃ rho t1, unpackPk pk.toList = .ok (rho, t1)) ∧ ∃ s, unpackSk sk.toList = .ok s := by
  refine ⟨fun rho t1 => ⟨fun hrun => (unpackPk_spec pk.length_toList).sound.of_ok hrun, ?_⟩,
    fun s => ⟨fun hrun => (unpackSk_spec sk.length_toList).sound.of_ok hrun, ?_⟩, ?_, ?_⟩
  · rintro ⟨hrho, ht1, hpack⟩
    exact ((packPk_spec hrho ht1).sound.of_ok hpack).2
  · rintro ⟨hs, hpack⟩
    exact ((packSk_spec hs).sound.of_ok hpack).2
  · obtain ⟨p, hp, -⟩ := unpackPk_spec pk.length_toList
    exact ⟨p.1, p.2, hp⟩
  · obtain ⟨s, hs, -⟩ := unpackSk_spec sk.length_toList
    exact ⟨s, hs⟩

end BitcoinPqc.Dilithium
