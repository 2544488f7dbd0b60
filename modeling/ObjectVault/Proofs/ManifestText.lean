import ObjectVault.Archive.Contents
import ObjectVault.Proofs.PrettyText

namespace ObjectVault
open ObjectVault.Text

/-- Reading each of the written items reads all of them. -/
theorem mapM_written {α β γ : Type} {write : α → β} {read : β → Option γ} {back : α → γ}
    {items : List α} (h : ∀ a ∈ items, read (write a) = some (back a)) :
    (items.map write).mapM read = some (items.map back) := by
  induction items with
  | nil => rfl
  | cons a items ih =>
    rw [List.map_cons, List.mapM_cons, h a List.mem_cons_self,
      ih fun b mem => h b (List.mem_cons_of_mem _ mem)]
    rfl

namespace Json

theorem natBelow?_nat {bound n : Nat} (h : n < bound) : natBelow? bound (.nat n) = some n := by
  simp [natBelow?, nat, h]

theorem optional_present {α : Type} {read : Json → Option α} {write : α → Json} {a : α}
    {fields : List (String × Json)} (object : write a = .object fields)
    (back : read (write a) = some a) : optional read (some (write a)) = some (some a) := by
  rw [object, optional, ← object, back]
  · rfl
  · exact Json.noConfusion

end Json

namespace KeyHeader

theorem ofJson_toJson (header : KeyHeader) : ofJson header.toJson = some header := by
  have salt : (header.salt.map fun b => Json.nat b.toNat).mapM (Json.natBelow? UInt8.size) =
      some (header.salt.map UInt8.toNat) :=
    mapM_written fun b _ => Json.natBelow?_nat b.toNat_lt_size
  have back : (header.salt.map UInt8.toNat).map UInt8.ofNat = header.salt := by
    rw [List.map_map]
    exact List.map_id'' (fun b => UInt8.ofNat_toNat) _
  simp [ofJson, toJson, Json.record, Json.array?, salt, back,
    Json.natBelow?_nat header.iterations.toNat_lt_size]

theorem plain_toJson (header : KeyHeader) : Json.Plain header.toJson := by
  have salt : Json.Plain (.array (header.salt.map fun b => .nat b.toNat)) := by
    refine .array fun j mem => ?_
    obtain ⟨b, -, rfl⟩ := List.mem_map.mp mem
    exact Json.plain_nat (Nat.lt_trans b.toNat_lt (by decide))
  have iterations : Json.Plain (.nat header.iterations.toNat) :=
    Json.plain_nat (Nat.lt_trans header.iterations.toNat_lt (by decide))
  refine .object fun f mem => ?_
  simp only [List.mem_cons, List.not_mem_nil, or_false] at mem
  rcases mem with rfl | rfl
  · exact salt
  · exact iterations

end KeyHeader

namespace MemberEntry

theorem ofJson_of_record {j size crc32 sha256 encrypted : Json}
    (h : j.record ["size", "crc32", "sha256", "encrypted"] =
      some [some size, some crc32, some sha256, some encrypted]) :
    ofJson j = (do
      return ⟨.ofNat (← size.natBelow? UInt64.size), ← crc32.string?, ← sha256.string?,
        ← encrypted.bool?⟩) := by
  rw [ofJson, h]
  rfl

theorem record_toJson (entry : MemberEntry) :
    entry.toJson.record ["size", "crc32", "sha256", "encrypted"] =
      some [some (.nat entry.size.toNat), some (.string entry.crc32), some (.string entry.sha256),
        some (.bool entry.encrypted)] := by
  rw [toJson]
  simp [Json.record]

theorem ofJson_toJson (entry : MemberEntry) : ofJson entry.toJson = some entry := by
  rw [ofJson_of_record entry.record_toJson]
  simp [Json.natBelow?_nat entry.size.toNat_lt_size, Json.string?, Json.bool?]

theorem plain_toJson (entry : MemberEntry) : Json.Plain entry.toJson := by
  refine .object fun f mem => ?_
  simp only [List.mem_cons, List.not_mem_nil, or_false] at mem
  rcases mem with rfl | rfl | rfl | rfl
  · exact Json.plain_nat entry.size.toNat_lt
  · exact .string _
  · exact .string _
  · exact .bool _

end MemberEntry

namespace Manifest

theorem membersOfJson_membersJson (members : Table MemberEntry) :
    membersOfJson (membersJson members) = some members := by
  have written : membersJson members =
      .object (members.entries.map fun e => (e.1, e.2.toJson)) := rfl
  have read : (members.entries.map fun e => (e.1, e.2.toJson)).mapM
      (fun field => (MemberEntry.ofJson field.2).map (field.1, ·)) =
      some (members.entries.map id) :=
    mapM_written fun e _ => by simp [MemberEntry.ofJson_toJson]
  rw [written, membersOfJson, read, List.map_id, Option.map_some, Table.ofList_entries]

theorem plain_membersJson (members : Table MemberEntry) : Json.Plain (membersJson members) := by
  refine .object fun f mem => ?_
  obtain ⟨e, -, rfl⟩ := List.mem_map.mp mem
  exact e.2.plain_toJson

theorem ofJson_of_record {j version writer : Json} {key members : Option Json}
    (h : j.record ["format_version", "writer_version", "kdf", "members"] =
      some [some version, some writer, key, members]) :
    ofJson j = (do
      return ⟨.ofNat (← version.natBelow? UInt32.size), ← writer.string?,
        ← Json.optional KeyHeader.ofJson key, ← (members.map membersOfJson).getD (some ∅)⟩) := by
  rw [ofJson, h]
  rfl

theorem record_toJson (manifest : Manifest) :
    manifest.toJson.record ["format_version", "writer_version", "kdf", "members"] =
      some [some (.nat manifest.version.toNat), some (.string manifest.writer),
        manifest.key.map KeyHeader.toJson, some (membersJson manifest.members)] := by
  rw [toJson]
  cases manifest.key <;> simp [Json.record, Json.present]

theorem ofJson_toJson (manifest : Manifest) : ofJson manifest.toJson = some manifest := by
  have key : Json.optional KeyHeader.ofJson (manifest.key.map KeyHeader.toJson) =
      some manifest.key := by
    cases manifest.key with
    | none => rfl
    | some header => exact Json.optional_present rfl header.ofJson_toJson
  rw [ofJson_of_record manifest.record_toJson]
  simp [Json.natBelow?_nat manifest.version.toNat_lt_size, Json.string?, key,
    membersOfJson_membersJson]

theorem plain_toJson (manifest : Manifest) : Json.Plain manifest.toJson := by
  refine .object fun f mem => ?_
  simp only [List.cons_append, List.nil_append, List.mem_cons, List.mem_append, List.not_mem_nil,
    or_false] at mem
  rcases mem with rfl | rfl | mem | rfl
  · exact Json.plain_nat (Nat.lt_trans manifest.version.toNat_lt (by decide))
  · exact .string _
  · rw [Json.present, Option.mem_toList, Option.map_eq_some_iff] at mem
    obtain ⟨header, -, rfl⟩ := mem
    exact header.plain_toJson
  · exact plain_membersJson _

end Manifest

/-- The text of a manifest reads as the manifest. -/
theorem Contents.readManifest_pretty (manifest : Manifest) :
    readManifest (encodeUtf8 manifest.toJson.pretty) = some manifest := by
  rw [readManifest, decodeUtf8_encodeUtf8]
  simp [Json.ofText_pretty manifest.plain_toJson, Manifest.ofJson_toJson]

end ObjectVault
