import ObjectVault.Report.Log
import ObjectVault.Proofs.CompactText
import ObjectVault.Proofs.ManifestText

namespace ObjectVault

namespace Json
variable {α : Type} {write : α → Json}

theorem filter_present (name other : String) (write : α → Json) (field : Option α) :
    (present name write field).filter (·.1 == other) =
      if name = other then present name write field else [] := by
  cases field with
  | none => simp [present]
  | some a => by_cases same : name = other <;> simp [present, same]

/-- The one value of the fields of a name. -/
def only : List (String × Json) → Option (Option Json)
  | [] => some none
  | [(_, value)] => some (some value)
  | _ => none

theorem record_object (names : List String) (fields : List (String × Json)) :
    (Json.object fields).record names =
      names.mapM fun name => only (fields.filter (·.1 == name)) :=
  rfl

theorem only_single (name : String) (value : Json) : only [(name, value)] = some (some value) :=
  rfl

theorem only_present (name : String) (write : α → Json) (field : Option α) :
    only (present name write field) = some (field.map write) := by
  cases field <;> rfl

theorem optional_map {read : Json → Option α} (filled : ∀ a, write a ≠ .null)
    (back : ∀ a, read (write a) = some a) (field : Option α) :
    optional read (field.map write) = some field := by
  cases field with
  | none => rfl
  | some a =>
    rw [Option.map_some, optional]
    · rw [back, Option.map_some]
    · exact filled a

theorem optional_string (field : Option String) :
    optional string? (field.map .string) = some field := by
  cases field <;> rfl

theorem plain_present {name : String} {field : Option α} (plain : ∀ a, Plain (write a)) :
    ∀ f ∈ present name write field, Plain f.2 := by
  intro f mem
  rw [present, Option.mem_toList, Option.map_eq_some_iff] at mem
  obtain ⟨a, -, rfl⟩ := mem
  exact plain a

end Json

namespace Checksums

theorem record_toJson (sums : Checksums) :
    sums.toJson.record ["crc32", "sha256"] =
      some [sums.crc32.map .string, sums.sha256.map .string] := by
  simp [toJson, Json.record_object, Json.filter_present, Json.only_present]

theorem ofJson_toJson (sums : Checksums) : ofJson sums.toJson = some sums := by
  rw [ofJson, record_toJson]
  simp [Json.optional_string]

theorem plain_toJson (sums : Checksums) : Json.Plain sums.toJson := by
  refine .object fun f mem => ?_
  rcases List.mem_append.mp mem with mem | mem
  · exact Json.plain_present .string f mem
  · exact Json.plain_present .string f mem

end Checksums

namespace ResultRecord

theorem record_toJson (record : ResultRecord) :
    record.toJson.record ["subject", "old_file", "new_file"] =
      some [some (.string record.subject), record.old.map Checksums.toJson,
        record.new.map Checksums.toJson] := by
  simp [toJson, Json.record_object, Json.filter_present, Json.only_single, Json.only_present]

theorem ofJson_toJson (record : ResultRecord) : ofJson record.toJson = some record := by
  have sums := Json.optional_map (fun sums => Json.noConfusion) Checksums.ofJson_toJson
  rw [ofJson, record_toJson]
  simp [Json.string?, sums]

theorem plain_toJson (record : ResultRecord) : Json.Plain record.toJson := by
  refine .object fun f mem => ?_
  rcases List.mem_append.mp mem with mem | mem
  · rcases List.mem_append.mp mem with mem | mem
    · rw [List.mem_singleton.mp mem]
      exact .string _
    · exact Json.plain_present Checksums.plain_toJson f mem
  · exact Json.plain_present Checksums.plain_toJson f mem

end ResultRecord

namespace Metadata

theorem record_toJson (m : Metadata) :
    m.toJson.record
        ["action", "result", "started", "finished", "finished_human_readable", "command"] =
      some [some (.string m.action), some (.array (m.result.map ResultRecord.toJson)),
        m.started.map .string, m.finished.map .string, m.shownTime.map .string,
        m.command.map .string] := by
  simp [toJson, Json.record_object, Json.filter_present, Json.only_single, Json.only_present]

theorem ofJson_toJson (m : Metadata) : ofJson m.toJson = some m := by
  have result : (m.result.map ResultRecord.toJson).mapM ResultRecord.ofJson =
      some (m.result.map id) :=
    mapM_written fun record _ => record.ofJson_toJson
  rw [ofJson, record_toJson]
  simp [Json.string?, Json.array?, result, Json.optional_string]

theorem plain_toJson (m : Metadata) : Json.Plain m.toJson := by
  have result : Json.Plain (.array (m.result.map ResultRecord.toJson)) := by
    refine .array fun j mem => ?_
    obtain ⟨record, -, rfl⟩ := List.mem_map.mp mem
    exact record.plain_toJson
  have text : ∀ (name : String) (field : Option String),
      ∀ f ∈ Json.present name .string field, Json.Plain f.2 :=
    fun name field => Json.plain_present .string
  refine .object fun f mem => ?_
  simp only [List.mem_append, List.mem_cons, List.not_mem_nil, or_false, or_assoc] at mem
  rcases mem with rfl | rfl | mem | mem | mem | mem
  · exact .string _
  · exact result
  all_goals exact text _ _ f mem

/-- A record is read from the line that was written for it. -/
theorem ofText_compact (m : Metadata) : ofText m.toJson.compact = some m := by
  rw [ofText, Json.ofText_compact m.plain_toJson, Option.bind_some, ofJson_toJson]

end Metadata
end ObjectVault
