import ObjectVault.Codec.Default
import ObjectVault.Proofs.PrettyText

namespace ObjectVault

namespace Json

mutual

/-- The number of arrays and objects inside each other. -/
def nesting : Json → Nat
  | .array items => nestingItems items + 1
  | .object fields => nestingFields fields + 1
  | _ => 0

def nestingItems : List Json → Nat
  | [] => 0
  | j :: js => max (nesting j) (nestingItems js)

def nestingFields : List (String × Json) → Nat
  | [] => 0
  | (_, j) :: fs => max (nesting j) (nestingFields fs)

end

theorem nestingItems_le_iff {js : List Json} {n : Nat} :
    nestingItems js ≤ n ↔ ∀ j ∈ js, j.nesting ≤ n := by
  induction js with
  | nil => simp [nestingItems]
  | cons j js ih => rw [nestingItems, Nat.max_le, ih, List.forall_mem_cons]

theorem nestingFields_le_iff {fs : List (String × Json)} {n : Nat} :
    nestingFields fs ≤ n ↔ ∀ f ∈ fs, f.2.nesting ≤ n := by
  induction fs with
  | nil => simp [nestingFields]
  | cons f fs ih => rw [nestingFields, Nat.max_le, ih, List.forall_mem_cons]

end Json

namespace Value
open Json Decimal

/-- The number of lists and objects inside each other. A frame counts as the object of lists that it
is written as. -/
def nesting (v : Value) : Nat :=
  v.toJson.nesting

/-- A value that is made of null, booleans, integers and strings, with lists and objects of such
values. The names in an object are in order. -/
inductive Textual : Value → Prop
  | null : Textual .null
  | bool (b : Bool) : Textual (.bool b)
  | int (n : Int64) : Textual (.int n)
  | string (s : String) : Textual (.string s)
  | list {vs : List Value} (items : ∀ v ∈ vs, Textual v) : Textual (.list vs)
  | object {fs : List (String × Value)} (sorted : fs.Pairwise fun a b => a.1 < b.1)
    (values : ∀ f ∈ fs, Textual f.2) : Textual (.object fs)

theorem jsonItems_eq_map (vs : List Value) : jsonItems vs = vs.map toJson := by
  induction vs with
  | nil => rfl
  | cons v vs ih => rw [jsonItems, ih, List.map_cons]

theorem jsonFields_eq_map (fs : List (String × Value)) :
    jsonFields fs = fs.map fun f => (f.1, toJson f.2) := by
  induction fs with
  | nil => rfl
  | cons f fs ih => rw [jsonFields, ih, List.map_cons]

theorem isSome_ofJsonItems {room : Nat} {js : List Json} :
    (ofJsonItems room js).isSome = true ↔ ∀ j ∈ js, (ofJson room j).isSome = true := by
  induction js with
  | nil => simp [ofJsonItems]
  | cons j js ih =>
    rw [ofJsonItems, List.forall_mem_cons, ← ih]
    cases ofJson room j <;> simp

theorem isSome_ofJsonFields {room : Nat} {fs : List (String × Json)} :
    (ofJsonFields room fs).isSome = true ↔ ∀ f ∈ fs, (ofJson room f.2).isSome = true := by
  induction fs with
  | nil => simp [ofJsonFields]
  | cons f fs ih =>
    rw [ofJsonFields, List.forall_mem_cons, ← ih]
    cases ofJson room f.2 <;> simp

/-- A document whose numbers can be read is a value just if it has not too many arrays and objects
inside each other. -/
theorem isSome_ofJson_reread {j : Json} (h : Legible j) (room : Nat) :
    (ofJson room (reread j)).isSome = true ↔ j.nesting ≤ room := by
  induction h generalizing room with
  | null | bool | string => simp [reread, ofJson, Json.nesting]
  | @number n m literal =>
    rw [reread_number literal]
    cases m with
    | whole n =>
      rw [ofJson]
      split <;> simp [Json.nesting]
    | real x => simp [ofJson, Json.nesting]
  | @array js _ ih =>
    have items : (ofJsonItems (room - 1) (js.map reread)).isSome = true ↔
        nestingItems js ≤ room - 1 := by
      rw [isSome_ofJsonItems, nestingItems_le_iff, List.forall_mem_map]
      exact forall₂_congr fun j mem => ih j mem (room - 1)
    rw [reread, rereadItems_eq_map, ofJson, Json.nesting]
    split
    · next zero => simp [zero]
    · next room_ne =>
      rw [Option.isSome_map, items]
      omega
  | @object fs _ ih =>
    have fields : (ofJsonFields (room - 1) (fs.map fun f => (f.1, reread f.2))).isSome = true ↔
        nestingFields fs ≤ room - 1 := by
      rw [isSome_ofJsonFields, nestingFields_le_iff, List.forall_mem_map]
      exact forall₂_congr fun f mem => ih f mem (room - 1)
    rw [reread, rereadFields_eq_map, ofJson, Json.nesting]
    split
    · next zero => simp [zero]
    · next room_ne =>
      rw [Option.isSome_map, fields]
      omega

theorem Textual.plain {v : Value} (h : Textual v) : Plain v.toJson := by
  induction h with
  | null => exact .null
  | bool b => exact .bool b
  | int n =>
    have low := Int64.le_toInt n
    have high := Int64.toInt_lt n
    exact .number ⟨low, by omega⟩
  | string s => exact .string s
  | @list vs _ ih =>
    rw [toJson, jsonItems_eq_map]
    exact .array (List.forall_mem_map.mpr ih)
  | @object fs _ _ ih =>
    rw [toJson, jsonFields_eq_map]
    exact .object (List.forall_mem_map.mpr ih)

theorem sortFields_of_sorted {fs : List (String × Value)}
    (sorted : fs.Pairwise fun a b => a.1 < b.1) : sortFields fs = fs := by
  rw [sortFields, Table.ofList_entries ⟨fs, sorted⟩]

theorem ofJsonItems_map {room : Nat} {vs ws : List Value}
    (each : ∀ v ∈ vs, ∀ w, ofJson room v.toJson = some w → w = v)
    (h : ofJsonItems room (vs.map toJson) = some ws) : ws = vs := by
  induction vs generalizing ws with
  | nil => simpa [ofJsonItems, eq_comm] using h
  | cons v vs ih =>
    obtain ⟨first, others⟩ := List.forall_mem_cons.mp each
    rw [List.map_cons, ofJsonItems] at h
    obtain ⟨w, own, rest⟩ := Option.bind_eq_some_iff.mp h
    obtain ⟨ws', tail, rfl⟩ := Option.map_eq_some_iff.mp rest
    rw [first w own, ih others tail]

theorem ofJsonFields_map {room : Nat} {fs gs : List (String × Value)}
    (each : ∀ f ∈ fs, ∀ w, ofJson room f.2.toJson = some w → w = f.2)
    (h : ofJsonFields room (fs.map fun f => (f.1, toJson f.2)) = some gs) : gs = fs := by
  induction fs generalizing gs with
  | nil => simpa [ofJsonFields, eq_comm] using h
  | cons f fs ih =>
    obtain ⟨first, others⟩ := List.forall_mem_cons.mp each
    rw [List.map_cons, ofJsonFields] at h
    obtain ⟨w, own, rest⟩ := Option.bind_eq_some_iff.mp h
    obtain ⟨gs', tail, rfl⟩ := Option.map_eq_some_iff.mp rest
    rw [first w own, ih others tail]

/-- The document of a value is no other value. -/
theorem Textual.eq_of_ofJson {v : Value} (h : Textual v) {room : Nat} {w : Value}
    (read : ofJson room v.toJson = some w) : w = v := by
  induction h generalizing room w with
  | null | bool | string => simpa [toJson, ofJson, eq_comm] using read
  | int n =>
    have fits : fitsInt64 n.toInt = true := by
      rw [fitsInt64, Bool.and_eq_true, decide_eq_true_eq, decide_eq_true_eq]
      exact ⟨Int64.minValue_le_toInt n, Int64.toInt_le n⟩
    simpa [toJson, ofJson, fits, eq_comm] using read
  | @list vs _ ih =>
    rw [toJson, jsonItems_eq_map, ofJson] at read
    split at read
    · cases read
    · obtain ⟨ws, items, rfl⟩ := Option.map_eq_some_iff.mp read
      rw [ofJsonItems_map (fun v mem w own => ih v mem own) items]
  | @object fs sorted _ ih =>
    rw [toJson, jsonFields_eq_map, ofJson] at read
    split at read
    · cases read
    · obtain ⟨gs, fields, rfl⟩ := Option.map_eq_some_iff.mp read
      rw [ofJsonFields_map (fun f mem w own => ih f mem own) fields, sortFields_of_sorted sorted]

/-- The document of a value stands for it, if it is nested no deeper than there is room. -/
theorem Textual.ofJson_toJson_iff {v : Value} (h : Textual v) {room : Nat} :
    ofJson room v.toJson = some v ↔ v.nesting ≤ room := by
  have enough := isSome_ofJson_reread h.plain.legible room
  rw [h.plain.reread_eq] at enough
  rw [nesting, ← enough]
  constructor
  · intro read
    rw [read]
    rfl
  · intro readable
    obtain ⟨w, read⟩ := Option.isSome_iff_exists.mp readable
    rw [read, h.eq_of_ofJson read]

end Value

namespace Codec
open Value Text

/-- A document that was written as bytes is read from its text. -/
theorem ofJsonBytes_writeJson {v : Value} (h : Json.Legible v.toJson) :
    ofJsonBytes (writeJson v) = ofJson maxNesting (Json.reread v.toJson) := by
  rw [ofJsonBytes, writeJson, decodeUtf8_encodeUtf8]
  simp only [Json.ofText_pretty_of_legible h, Option.bind_some]

theorem ofJsonBytes_writeJson_of_textual {v : Value} (h : Textual v) :
    ofJsonBytes (writeJson v) = some v ↔ v.nesting ≤ maxNesting := by
  rw [ofJsonBytes_writeJson h.plain.legible, h.plain.reread_eq]
  exact h.ofJson_toJson_iff

theorem exportDefault_of_textual {v : Value} (h : Textual v) :
    exportDefault v = .ok (writeJson v) := by
  cases h <;> rfl

/-- Only a frame is taken from a table. -/
theorem importDefault_eq_ok_iff {bytes : Bytes} {v : Value} (other : ∀ frame, v ≠ .frame frame) :
    importDefault bytes = .ok v ↔ ofJsonBytes bytes = some v := by
  rw [importDefault]
  split
  · next w read => simp [read]
  · next none =>
    rw [none]
    split
    · next text _ =>
      cases Tsv.ofText text with
      | error fault => simp [Except.map]
      | ok frame => simp [Except.map, Ne.symm (other frame)]
    · simp

theorem readJson_eq_ok_iff {bytes : Bytes} {v : Value} :
    readJson bytes = .ok v ↔ ofJsonBytes bytes = some v := by
  rw [readJson]
  cases ofJsonBytes bytes <;> simp

/-- A value without floats and frames is read back from the bytes that are written for it, by
default as well as by name, just if it has not too many lists and objects inside each other. -/
theorem documents_keep_values {v : Value} (h : Textual v) :
    ((exportDefault v).bind importDefault = .ok v ↔ v.nesting ≤ maxNesting) ∧
      ((jsonDumps.encode v).bind jsonLoads.decode = .ok v ↔ v.nesting ≤ maxNesting) := by
  have other : ∀ frame, v ≠ .frame frame := by
    rintro frame rfl
    cases h
  have read := ofJsonBytes_writeJson_of_textual h
  refine ⟨?_, ?_⟩
  · rw [exportDefault_of_textual h, ← read]
    exact importDefault_eq_ok_iff other
  · rw [← read]
    exact readJson_eq_ok_iff

/-- The ends of the integers, empty and full parts, and a text with everything that is escaped. -/
def edgeValue : Value :=
  .object [("", .list []), ("\x22\n", .list [.null, .int Int64.minValue, .int Int64.maxValue]),
    ("a", .object []), ("é", .string "\x00\x1f\t\r\n\x22\\/\x7f😀")]

theorem documents_keep_values_edge :
    Textual edgeValue ∧ edgeValue.nesting = 2 ∧
      (exportDefault edgeValue).bind importDefault = .ok edgeValue ∧
      (jsonDumps.encode edgeValue).bind jsonLoads.decode = .ok edgeValue := by
  have textual : Textual edgeValue := by
    refine .object (by decide) ?_
    simp only [List.forall_mem_cons, List.not_mem_nil, false_implies, implies_true, and_true]
    refine ⟨.list (by simp), .list ?_, .object .nil (by simp), .string _⟩
    simp only [List.forall_mem_cons, List.not_mem_nil, false_implies, implies_true, and_true]
    exact ⟨.null, .int _, .int _⟩
  have nesting : edgeValue.nesting = 2 := by decide
  have small : edgeValue.nesting ≤ maxNesting := by rw [nesting]; decide
  obtain ⟨default, named⟩ := documents_keep_values textual
  exact ⟨textual, nesting, default.mpr small, named.mpr small⟩

end Codec
end ObjectVault
