import BitcoinPqc.Lib.Checks

/-!
# A derived serialisation format, over JSON

A value serialises itself by one call on a serializer (`Shape`) and deserialises itself by one call
on a deserializer (`Deserializer`). Two pairs of them matter here: the JSON ones, and the ones a
flattened field is given instead, which put the entries of the field among those of the struct
around it. The latter are a parameter, `Flattening`; what is used of them is that they know maps and
structs only (`MapsOnly`). `Format` is what a derive makes: one function for each direction. A struct
of two fields round-trips exactly when both do (`struct_roundTrips_iff`); a struct that flattens a
string does not even become JSON (`flattened_string_toJson`), and no JSON becomes it
(`flattened_string_fromJson`).
-/
namespace Serde
open Checks

inductive Error where
  | custom (message : String)
  /-- The code that converts a value for its format panicked. -/
  | panic (message : String)
  deriving DecidableEq

inductive Json where
  | null
  | bool (b : Bool)
  | num (n : Int)
  | str (s : String)
  | arr (items : List Json)
  | obj (entries : List (String × Json))

/-! ## Serializers -/

/-- The call a value makes on its serializer, with its parts serialised already. -/
inductive Shape where
  | str (s : String)
  | struct (name : String) (fields : List (String × Json))
  | map (entries : List (String × Json))

/-- The JSON serializer. -/
def Shape.toJson : Shape → Json
  | .str s => .str s
  | .struct _ fields => .obj fields
  | .map entries => .obj entries

/-! ## Deserializers -/

/-- What a deserializer answers to each call. -/
structure Deserializer where
  string : Except Error String
  map : Except Error (List (String × Json))
  struct : List String → Except Error (List (String × Json))

def invalidType (expected : String) : Error := .custom ("invalid type: expected " ++ expected)

/-- The JSON deserializer; an array may stand for a struct, its items in the order of the fields. -/
def Json.deserializer : Json → Deserializer
  | .str s => ⟨.ok s, .error (invalidType "a map"), fun _ => .error (invalidType "a struct")⟩
  | .obj entries => ⟨.error (invalidType "a string"), .ok entries, fun _ => .ok entries⟩
  | .arr items => ⟨.error (invalidType "a string"), .error (invalidType "a map"), fun fields =>
      if items.length = fields.length then .ok (fields.zip items) else .error (.custom "invalid length")⟩
  | _ => ⟨.error (invalidType "a string"), .error (invalidType "a map"), fun _ => .error (invalidType "a struct")⟩

/-! ## Flattening -/

/-- The serializer of a flattened field, and its deserializer over the entries no other field took. -/
structure Flattening where
  serializer : Shape → Except Error (List (String × Json))
  deserializer : List (String × Json) → Deserializer

/-- Only maps and structs are flattened: a string is not taken, and none is given. -/
structure Flattening.MapsOnly (X : Flattening) : Prop where
  takes : ∀ s entries, X.serializer (.str s) ≠ .ok entries
  gives : ∀ entries s, (X.deserializer entries).string ≠ .ok s

/-- As serde does it. -/
def Flattening.serde : Flattening where
  serializer
    | .str _ => .error (.custom "can only flatten structs and maps (got a string)")
    | .struct _ fields => .ok fields
    | .map entries => .ok entries
  deserializer entries := ⟨.error (.custom "can only flatten structs and maps"), .ok entries,
    fun fields => .ok (entries.filter (·.1 ∈ fields))⟩

theorem Flattening.serde_mapsOnly : Flattening.serde.MapsOnly := ⟨nofun, nofun⟩

/-! ## Fields -/

/-- The value of a field, which must be there once. -/
def takeField (name : String) (entries : List (String × Json)) : Except Error Json :=
  match entries.filter (·.1 = name) with
  | [] => .error (.custom ("missing field " ++ name))
  | [e] => .ok e.2
  | _ => .error (.custom ("duplicate field " ++ name))

/-! ## Formats -/

structure Format (α : Type) where
  serialize : α → Except Error Shape
  deserialize : Deserializer → Except Error α

namespace Format
variable {α β γ : Type}

def toJson (F : Format α) (a : α) : Except Error Json := (F.serialize a).map Shape.toJson

def fromJson (F : Format α) (j : Json) : Except Error α := F.deserialize j.deserializer

/-- The value becomes JSON, and the JSON that value again. -/
def RoundTrips (F : Format α) (a : α) : Prop := ∃ j, F.toJson a = .ok j ∧ F.fromJson j = .ok a

/-- `into = "String"` and `try_from = "String"`. -/
def viaString (into : α → Except Error String) (tryFrom : String → Except Error α) : Format α where
  serialize a := (into a).map .str
  deserialize D := do tryFrom (← D.string)

/-- A struct of two fields. -/
def struct (name first second : String) (F : Format α) (G : Format β) (parts : γ → α × β) (make : α → β → γ) :
    Format γ where
  serialize c := do
    let x ← F.toJson (parts c).1
    let y ← G.toJson (parts c).2
    .ok (.struct name [(first, x), (second, y)])
  deserialize D := do
    let entries ← D.struct [first, second]
    let a ← F.fromJson (← takeField first entries)
    let b ← G.fromJson (← takeField second entries)
    .ok (make a b)

/-- A struct of two fields whose first is flattened; it is serialised as a map. -/
def flattenedStruct (X : Flattening) (second : String) (F : Format α) (G : Format β) (parts : γ → α × β)
    (make : α → β → γ) : Format γ where
  serialize c := do
    let entries ← X.serializer (← F.serialize (parts c).1)
    let y ← G.toJson (parts c).2
    .ok (.map (entries ++ [(second, y)]))
  deserialize D := do
    let entries ← D.map
    let b ← G.fromJson (← takeField second entries)
    let a ← F.deserialize (X.deserializer (entries.filter (·.1 ≠ second)))
    .ok (make a b)

/-! ## What round-trips -/

theorem toJson_ok_iff {F : Format α} {a : α} {j : Json} :
    F.toJson a = .ok j ↔ ∃ s, F.serialize a = .ok s ∧ s.toJson = j := map_ok_iff

section
variable {name first second : String} {F : Format α} {G : Format β} {parts : γ → α × β} {make : α → β → γ}

theorem takeField_pair (h : first ≠ second) (x y : Json) :
    takeField first [(first, x), (second, y)] = .ok x ∧ takeField second [(first, x), (second, y)] = .ok y := by
  have h' : ¬second = first := fun e => h e.symm
  constructor
  · simp [takeField, h']
  · simp [takeField, h]

theorem struct_toJson_ok_iff {c : γ} {j : Json} :
    (struct name first second F G parts make).toJson c = .ok j ↔
      ∃ x y, F.toJson (parts c).1 = .ok x ∧ G.toJson (parts c).2 = .ok y ∧ .obj [(first, x), (second, y)] = j := by
  rw [toJson_ok_iff]
  simp only [struct, bind_ok_iff, Except.ok.injEq]
  constructor
  · rintro ⟨_, ⟨x, hx, y, hy, rfl⟩, rfl⟩
    exact ⟨x, y, hx, hy, rfl⟩
  · rintro ⟨x, y, hx, hy, rfl⟩
    exact ⟨_, ⟨x, hx, y, hy, rfl⟩, rfl⟩

theorem struct_fromJson_ok_iff (hname : first ≠ second) {x y : Json} {c : γ} :
    (struct name first second F G parts make).fromJson (.obj [(first, x), (second, y)]) = .ok c ↔
      ∃ a b, F.fromJson x = .ok a ∧ G.fromJson y = .ok b ∧ make a b = c := by
  obtain ⟨hfirst, hsecond⟩ := takeField_pair hname x y
  show (do
    let a ← F.fromJson (← takeField first [(first, x), (second, y)])
    let b ← G.fromJson (← takeField second [(first, x), (second, y)])
    .ok (make a b) : Except Error γ) = .ok c ↔ _
  simp only [hfirst, hsecond, bind_ok_iff, Except.ok.injEq, exists_eq_left']
  refine exists_congr fun a => ?_
  constructor
  · rintro ⟨ha, b, hb, h⟩
    exact ⟨b, ha, hb, h⟩
  · rintro ⟨b, ha, hb, h⟩
    exact ⟨ha, b, hb, h⟩

theorem struct_roundTrips_iff (hname : first ≠ second) (hmake : ∀ a b, parts (make a b) = (a, b))
    (hparts : ∀ c, make (parts c).1 (parts c).2 = c) (c : γ) :
    (struct name first second F G parts make).RoundTrips c ↔ F.RoundTrips (parts c).1 ∧ G.RoundTrips (parts c).2 := by
  constructor
  · rintro ⟨_, hto, hfrom⟩
    obtain ⟨x, y, hx, hy, rfl⟩ := struct_toJson_ok_iff.mp hto
    obtain ⟨a, b, ha, hb, rfl⟩ := (struct_fromJson_ok_iff hname).mp hfrom
    rw [hmake] at hx hy ⊢
    exact ⟨⟨x, hx, ha⟩, ⟨y, hy, hb⟩⟩
  · rintro ⟨⟨x, hx, ha⟩, ⟨y, hy, hb⟩⟩
    exact ⟨_, struct_toJson_ok_iff.mpr ⟨x, y, hx, hy, rfl⟩,
      (struct_fromJson_ok_iff hname).mpr ⟨_, _, ha, hb, hparts c⟩⟩

variable {X : Flattening} (hX : X.MapsOnly) {into : α → Except Error String} {tryFrom : String → Except Error α}
include hX

/-- A flattened string is refused by the serializer. -/
theorem flattened_string_toJson (c : γ) (j : Json) :
    (flattenedStruct X second (viaString into tryFrom) G parts make).toJson c ≠ .ok j := by
  intro h
  obtain ⟨_, hs, -⟩ := toJson_ok_iff.mp h
  simp only [flattenedStruct, viaString, bind_ok_iff, map_ok_iff] at hs
  obtain ⟨_, ⟨s, -, rfl⟩, entries, hflat, -⟩ := hs
  exact hX.takes s entries hflat

/-- The deserializer of a flattened field has no string to offer. -/
theorem flattened_string_fromJson (j : Json) (c : γ) :
    (flattenedStruct X second (viaString into tryFrom) G parts make).fromJson j ≠ .ok c := by
  intro h
  simp only [fromJson, flattenedStruct, viaString, bind_ok_iff] at h
  obtain ⟨entries, -, _, -, _, -, _, ⟨s, hstring, -⟩, -⟩ := h
  exact hX.gives _ s hstring

theorem flattened_string_not_roundTrips (c : γ) :
    ¬(flattenedStruct X second (viaString into tryFrom) G parts make).RoundTrips c := by
  rintro ⟨j, hto, -⟩
  exact flattened_string_toJson hX c j hto

end

end Format

end Serde
