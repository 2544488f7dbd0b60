import ObjectVault.Proofs.DocumentLines
import ObjectVault.Proofs.FloatText
import ObjectVault.Proofs.TableDocument
import Mathlib

namespace ObjectVault

namespace Value
open Json

theorem legible_float (x : Float) : Legible (.float x) := by
  rw [Json.float]
  split
  · exact .null
  · next finite =>
    simp only [Bool.or_eq_true, not_or, Bool.not_eq_true] at finite
    obtain ⟨y, literal⟩ := literal_real finite.1 finite.2
    exact .number literal

theorem legible_strings (ss : List String) : Legible (.array (ss.map .string)) :=
  .array (List.forall_mem_map.mpr fun s _ => .string s)

mutual

/-- The document of a value can be read, whatever its floats and frames are. -/
theorem legible_toJson : (v : Value) → Legible v.toJson
  | null => .null
  | bool b => .bool b
  | int n => .number (literal_intChars ⟨Int64.le_toInt n, by have := Int64.toInt_lt n; omega⟩)
  | float x => legible_float x
  | string s => .string s
  | list items => .array (legible_jsonItems items)
  | object fields => .object (legible_jsonFields fields)
  | frame ⟨columns, index, rows⟩ => by
    rw [toJson]
    refine .object ?_
    simp only [List.forall_mem_cons, List.not_mem_nil, false_implies, implies_true, and_true]
    exact ⟨legible_strings columns, .array (legible_jsonRows rows),
      .array (legible_jsonItems index)⟩

theorem legible_jsonItems : (vs : List Value) → ∀ j ∈ jsonItems vs, Legible j
  | [] => nofun
  | v :: vs => List.forall_mem_cons.mpr ⟨legible_toJson v, legible_jsonItems vs⟩

theorem legible_jsonFields : (fs : List (String × Value)) → ∀ f ∈ jsonFields fs, Legible f.2
  | [] => nofun
  | (_, v) :: fs => List.forall_mem_cons.mpr ⟨legible_toJson v, legible_jsonFields fs⟩

theorem legible_jsonRows : (rows : List (List Value)) → ∀ j ∈ jsonRows rows, Legible j
  | [] => nofun
  | row :: rows =>
    List.forall_mem_cons.mpr ⟨.array (legible_jsonItems row), legible_jsonRows rows⟩

end

/-- No document is a frame. -/
theorem ne_frame_of_ofJson {room : Nat} {j : Json} {v : Value} (h : ofJson room j = some v)
    (frame : Frame) : v ≠ .frame frame := by
  rintro rfl
  cases j with
  | number n =>
    cases n with
    | whole n =>
      rw [ofJson] at h
      split at h <;> simp at h
    | real x => simp [ofJson] at h
  | array js =>
    rw [ofJson] at h
    split at h <;> simp at h
  | object fs =>
    rw [ofJson] at h
    split at h <;> simp at h
  | _ => simp [ofJson] at h

end Value

namespace Codec
open Value Text

/-- Bytes that are no document are read as the table of their text. -/
theorem importDefault_of_text {text : String} (h : ofJsonBytes (encodeUtf8 text) = none) :
    importDefault (encodeUtf8 text) = (Tsv.ofText text).map .frame := by
  rw [importDefault, h]
  simp only [decodeUtf8_encodeUtf8]

theorem importDefault_of_document {bytes : Bytes} {v : Value} (h : ofJsonBytes bytes = some v) :
    importDefault bytes = .ok v := by
  rw [importDefault, h]

theorem ofJsonBytes_ne_frame {bytes : Bytes} {v : Value} (h : ofJsonBytes bytes = some v)
    (frame : Frame) : v ≠ .frame frame := by
  rw [ofJsonBytes] at h
  split at h
  · obtain ⟨j, -, read⟩ := Option.bind_eq_some_iff.mp h
    exact ne_frame_of_ofJson read frame
  · cases h

/-- A frame is read back as a frame unless the texts in it are a document. -/
theorem importDefault_table {frame : Frame} (h : frame.Rectangular) :
    ∃ w, (exportDefault (.frame frame)).bind importDefault = .ok w ∧
      ((∃ read, w = .frame read) ↔ ¬ Tsv.SpellsDocument frame) := by
  have step : (exportDefault (.frame frame)).bind importDefault =
      importDefault (encodeUtf8 (Tsv.ofFrame frame)) := rfl
  rw [step, ← Tsv.isSome_ofJsonBytes_table]
  cases document : ofJsonBytes (encodeUtf8 (Tsv.ofFrame frame)) with
  | none =>
    obtain ⟨read, made, -⟩ := Tsv.ofText_ofFrame h
    exact ⟨.frame read, by rw [importDefault_of_text document, made]; rfl, by simp⟩
  | some w =>
    have other := ofJsonBytes_ne_frame document
    exact ⟨w, importDefault_of_document document, by simp [other]⟩

/-- Any other value is read back as a frame just if it has too many lists and objects inside each
other. -/
theorem importDefault_document {v : Value} (h : ∀ frame, v ≠ .frame frame) :
    ∃ w, (exportDefault v).bind importDefault = .ok w ∧
      ((∃ frame, w = .frame frame) ↔ maxNesting < v.nesting) := by
  have step : (exportDefault v).bind importDefault = importDefault (writeJson v) := by
    cases v with
    | frame frame => exact absurd rfl (h frame)
    | _ => rfl
  have legible := legible_toJson v
  have enough := isSome_ofJson_reread legible maxNesting
  rw [← ofJsonBytes_writeJson legible] at enough
  rw [step, ← Nat.not_le, nesting, ← enough]
  cases document : ofJsonBytes (writeJson v) with
  | some w =>
    have other := ofJsonBytes_ne_frame document
    exact ⟨w, importDefault_of_document document, by simp [other]⟩
  | none =>
    obtain ⟨frame, made⟩ : ∃ frame, Tsv.ofText v.toJson.pretty = .ok frame := by
      refine Tsv.ofText_pretty_of_nested legible ?_
      rw [document] at enough
      simp at enough
      omega
    exact ⟨.frame frame, by rw [writeJson, importDefault_of_text document, made]; rfl, by simp⟩

/-- Lists inside each other, the innermost one empty. -/
def nestedLists : Nat → Value
  | 0 => .list []
  | depth + 1 => .list [nestedLists depth]

theorem nesting_nestedLists (depth : Nat) : (nestedLists depth).nesting = depth + 1 := by
  induction depth with
  | zero => rfl
  | succ depth ih =>
    rw [nesting] at ih ⊢
    simp [nestedLists, toJson, jsonItems, Json.nesting, Json.nestingItems, ih]

theorem nestedLists_ne_frame (depth : Nat) (frame : Frame) : nestedLists depth ≠ .frame frame := by
  cases depth <;> nofun

/-- A frame of one column without rows. -/
def headerOnly : Frame :=
  ⟨["1"], [], []⟩

/-- The formats are confused: lists that are nested too deep are read back as a frame, and a frame
with a column as a number. -/
theorem formats_are_confused :
    (∃ frame, (exportDefault (nestedLists 127)).bind importDefault = .ok (.frame frame)) ∧
      (∀ frame, nestedLists 127 ≠ .frame frame) ∧ headerOnly.Rectangular ∧
      (exportDefault (.frame headerOnly)).bind importDefault = .ok (.int 1) := by
  have other := nestedLists_ne_frame 127
  refine ⟨?_, other, by decide, by rfl⟩
  obtain ⟨w, read, deep⟩ := importDefault_document other
  rw [nesting_nestedLists] at deep
  obtain ⟨frame, rfl⟩ := deep.mpr (by decide)
  exact ⟨frame, read⟩

/-- What the default export writes is always read back by default: a frame as a frame unless the
texts in it are a document, and any other value as a frame just if it has too many lists and objects
inside each other. -/
theorem formats_are_told_apart :
    (∀ frame : Frame, frame.Rectangular →
      ∃ w, (exportDefault (.frame frame)).bind importDefault = .ok w ∧
        ((∃ read, w = .frame read) ↔ ¬ Tsv.SpellsDocument frame)) ∧
    ∀ v : Value, (∀ frame, v ≠ .frame frame) →
      ∃ w, (exportDefault v).bind importDefault = .ok w ∧
        ((∃ frame, w = .frame frame) ↔ maxNesting < v.nesting) :=
  ⟨fun _ => importDefault_table, fun _ => importDefault_document⟩

/-- A name, a label and a cell that are a list together. -/
def bracketFrame : Frame :=
  ⟨["[1,"], [.float 2.5], [[.string "]"]]⟩

theorem formats_are_told_apart_brackets :
    bracketFrame.Rectangular ∧ Tsv.SpellsDocument bracketFrame ∧
      (∃ w, (exportDefault (.frame bracketFrame)).bind importDefault = .ok w ∧
        ∀ read, w ≠ .frame read) ∧
      (∀ frame, Value.list [.frame bracketFrame] ≠ .frame frame) ∧
      (Value.list [.frame bracketFrame]).nesting = 4 ∧
      ∃ w, (exportDefault (.list [.frame bracketFrame])).bind importDefault = .ok w ∧
        ∀ frame, w ≠ .frame frame := by
  obtain ⟨tables, documents⟩ := formats_are_told_apart
  have rectangular : bracketFrame.Rectangular := by decide
  have document : Tsv.SpellsDocument bracketFrame := by decide +kernel
  have other : ∀ frame, Value.list [.frame bracketFrame] ≠ .frame frame := nofun
  have nesting : (Value.list [.frame bracketFrame]).nesting = 4 := by decide +kernel
  obtain ⟨w, read, table⟩ := tables bracketFrame rectangular
  obtain ⟨u, reread, deep⟩ := documents _ other
  rw [nesting] at deep
  refine ⟨rectangular, document, ⟨w, read, ?_⟩, other, nesting, u, reread, ?_⟩
  · exact fun frame eq => table.mp ⟨frame, eq⟩ document
  · exact fun frame eq => absurd (deep.mp ⟨frame, eq⟩) (by decide)

end Codec
end ObjectVault
