import ObjectVault.Proofs.EntryStream
import ObjectVault.Proofs.ManifestText
import ObjectVault.Proofs.PlainPath

namespace ObjectVault.Contents
open ObjectVault.Text ObjectVault.Container

/-- The manifest is of the known version and lists exactly the payloads. -/
structure Consistent (contents : Contents) : Prop where
  current : contents.manifest.version = Manifest.currentVersion
  listed : ∀ member, contents.manifest.members.contains member = contents.payloads.contains member

/-- Every entry is a buffer that a 64-bit size measures. -/
def Measured (contents : Contents) : Prop :=
  ∀ entry ∈ contents.entries, entry.data.length < maxContent

/-- The payloads under the names that reading finds them by. -/
def storedPayloads (contents : Contents) : Table Bytes :=
  .ofList (contents.payloads.entries.filterMap fun (member, data) =>
    (storedAs? member).map (·, data))

theorem measured_of_lengths {contents : Contents}
    (manifest : 4 * (Json.prettyChars 0 contents.manifest.toJson).length < maxContent)
    (payloads : ∀ e ∈ contents.payloads.entries, e.2.length < maxContent) :
    contents.Measured := by
  intro entry mem
  rcases List.mem_cons.mp mem with rfl | mem
  · exact Nat.lt_of_le_of_lt (length_encodeUtf8_ofList _) manifest
  · obtain ⟨e, inner, rfl⟩ := List.mem_map.mp mem
    exact payloads e inner

/-- What the checked contents are checked for. -/
theorem check_eq_ok_iff {contents : Contents} :
    contents.check = .ok () ↔ contents.Consistent := by
  simp only [check]
  constructor
  · intro h
    split at h
    · cases h
    · next current =>
      split at h
      · cases h
      · next payload =>
        split at h
        · cases h
        · next listed =>
          refine ⟨Decidable.not_not.mp current, fun member => Bool.eq_iff_iff.mpr ⟨?_, ?_⟩⟩
          · intro mem
            simpa using List.find?_eq_none.mp payload member (Table.contains_iff.mp mem)
          · intro mem
            simpa using List.find?_eq_none.mp listed member (Table.contains_iff.mp mem)
  · intro h
    have payload : contents.manifest.members.keys.find? (!contents.payloads.contains ·) = none := by
      refine List.find?_eq_none.mpr fun member mem => ?_
      simp [← h.listed, Table.contains_iff.mpr mem]
    have listed : contents.payloads.keys.find? (!contents.manifest.members.contains ·) = none := by
      refine List.find?_eq_none.mpr fun member mem => ?_
      simp [h.listed, Table.contains_iff.mpr mem]
    rw [if_neg (Decidable.not_not.mpr h.current), payload]
    simp only [listed]

theorem manifestData_plain (contents : Contents) :
    manifestData (contents.entries.map Entry.plain) =
      some (encodeUtf8 contents.manifest.toJson.pretty) := by
  have own : plainPath manifestName = manifestName := by decide
  have others : ((contents.payloads.entries.map fun (member, data) =>
      (⟨dataFolder ++ member, data⟩ : Entry)).map Entry.plain).reverse.find?
        (·.name = manifestName) = none := by
    refine List.find?_eq_none.mpr fun entry mem => ?_
    obtain ⟨_, inner, rfl⟩ := List.mem_map.mp (List.mem_reverse.mp mem)
    obtain ⟨e, -, rfl⟩ := List.mem_map.mp inner
    rw [decide_eq_true_eq]
    exact plainPath_ne_manifestName e.1
  rw [manifestData, entries, List.map_cons, List.reverse_cons, List.find?_append, others]
  simp [Entry.plain, own]

theorem payloadsOf_plain (contents : Contents) :
    payloadsOf (contents.entries.map Entry.plain) = contents.storedPayloads := by
  have manifest : memberOf? (plainPath manifestName) = none := by decide
  rw [payloadsOf, storedPayloads, entries, List.map_cons, List.filterMap_cons, List.filterMap_map,
    List.filterMap_map]
  simp only [Entry.plain, manifest, Option.map_none, Function.comp_def, storedAs?]

theorem bytes_eq_ok {contents : Contents} {written : Bytes} (h : contents.bytes = .ok written) :
    ∃ stream, Container.stream contents.entries = .ok stream ∧ written = Zstd.deflate stream := by
  rw [bytes, Contents.stream] at h
  cases eq : Container.stream contents.entries with
  | error fault =>
    rw [eq] at h
    cases h
  | ok stream =>
    rw [eq] at h
    exact ⟨stream, rfl, (Except.ok.inj h).symm⟩

/-- A file of a size below `2^64` holds no larger entries. -/
theorem measured_of_bytes {contents : Contents} {written : Bytes} (h : contents.bytes = .ok written)
    (sized : written.length < maxContent) : contents.Measured := by
  obtain ⟨stream, streamed, rfl⟩ := bytes_eq_ok h
  obtain ⟨front, eq, rfl⟩ := stream_eq_ok streamed
  have packed := Zstd.length_le_deflate (front ++ List.replicate (2 * blockSize) 0)
  intro entry mem
  have inner := length_le_entriesBytes eq entry mem
  rw [List.length_append] at packed
  omega

/-- The manifest is short, and so are the payloads. -/
structure Brief (contents : Contents) : Prop where
  manifest : (Json.prettyChars 0 contents.manifest.toJson).length < 2 ^ 32
  payloads : (contents.payloads.entries.map fun e => e.2.length + 2 * blockSize).sum < 2 ^ 32

/-- Brief contents are written as a short file. -/
theorem Brief.length_lt {contents : Contents} {written : Bytes} (brief : contents.Brief)
    (h : contents.bytes = .ok written) : written.length < maxContent := by
  have manifest := brief.manifest
  have payloads := brief.payloads
  obtain ⟨stream, streamed, rfl⟩ := bytes_eq_ok h
  obtain ⟨front, eq, rfl⟩ := stream_eq_ok streamed
  have packed := Zstd.length_deflate_le (front ++ List.replicate (2 * blockSize) 0)
  have inner := length_entriesBytes_le eq
  have text := length_encodeUtf8_ofList (Json.prettyChars 0 contents.manifest.toJson)
  simp only [Contents.entries, List.map_cons, List.map_map, Function.comp_def, List.sum_cons,
    Json.pretty] at inner
  rw [List.length_append, List.length_replicate] at packed
  have block : blockSize = 512 := rfl
  have limit : maxContent = 2 ^ 64 := rfl
  omega

/-- Reading what was written gives the manifest back, and the payloads by their stored names. -/
theorem ofBytes_bytes_append {contents : Contents} {written : Bytes}
    (h : contents.bytes = .ok written) (measured : contents.Measured) (extra : Bytes) :
    ofBytes (written ++ extra) = (do
      let back : Contents := ⟨contents.manifest, contents.storedPayloads⟩
      back.check
      return back) := by
  obtain ⟨stream, streamed, rfl⟩ := bytes_eq_ok h
  rw [ofBytes, ofBytes_stream streamed measured]
  simp only [ofEntries, manifestData_plain, readManifest_pretty, payloadsOf_plain]

theorem ofBytes_bytes {contents : Contents} {written : Bytes} (h : contents.bytes = .ok written)
    (measured : contents.Measured) :
    ofBytes written = (do
      let back : Contents := ⟨contents.manifest, contents.storedPayloads⟩
      back.check
      return back) := by
  rw [← ofBytes_bytes_append h measured [], List.append_nil]

/-- What is added behind written contents changes nothing about them. -/
theorem ofBytes_append {contents : Contents} {written : Bytes} (h : contents.bytes = .ok written)
    (measured : contents.Measured) (extra : Bytes) :
    ofBytes (written ++ extra) = ofBytes written := by
  rw [ofBytes_bytes_append h measured, ofBytes_bytes h measured]

/-- Payloads of settled members keep their names. -/
theorem storedPayloads_of_settled {contents : Contents}
    (settled : ∀ member ∈ contents.payloads.keys, Settled member) :
    contents.storedPayloads = contents.payloads := by
  have same : (contents.payloads.entries.filterMap fun (member, data) =>
      (storedAs? member).map (·, data)) = contents.payloads.entries.filterMap some := by
    refine List.filterMap_congr fun e mem => ?_
    have own := storedAs?_eq_self_iff.mpr (settled e.1 (List.mem_map_of_mem mem))
    simp [own]
  rw [storedPayloads, same, List.filterMap_some, Table.ofList_entries]

/-- Every name that reading finds a payload by is settled. -/
theorem settled_of_storedPayloads {contents : Contents} {member : String}
    (h : contents.storedPayloads.contains member = true) : Settled member := by
  rw [storedPayloads, Table.contains_ofList] at h
  obtain ⟨found, mem, rfl⟩ := List.mem_map.mp h
  obtain ⟨e, -, own⟩ := List.mem_filterMap.mp mem
  obtain ⟨stored, named, rfl⟩ := Option.map_eq_some_iff.mp own
  exact settled_of_storedAs? named

/-- Consistent contents are read back exactly if every name is settled, and then nothing is lost. -/
theorem ofBytes_bytes_eq_ok_iff {contents back : Contents} {written : Bytes}
    (h : contents.bytes = .ok written) (measured : contents.Measured)
    (consistent : contents.Consistent) :
    ofBytes written = .ok back ↔
      back = contents ∧ ∀ member ∈ contents.payloads.keys, Settled member := by
  rw [ofBytes_bytes h measured]
  constructor
  · intro read
    cases checked : check ⟨contents.manifest, contents.storedPayloads⟩ with
    | error error =>
      simp only [checked] at read
      cases read
    | ok _ =>
      simp only [checked] at read
      cases read
      have listed := (check_eq_ok_iff.mp checked).listed
      have settled : ∀ member ∈ contents.payloads.keys, Settled member := by
        intro member mem
        apply settled_of_storedPayloads
        rw [← listed, consistent.listed]
        exact Table.contains_iff.mpr mem
      exact ⟨by rw [storedPayloads_of_settled settled], settled⟩
  · rintro ⟨rfl, settled⟩
    simp only [storedPayloads_of_settled settled, check_eq_ok_iff.mpr consistent]
    rfl

/-- A file of a size below `2^64` reads as the contents that were written. -/
theorem ofBytes_bytes_of_settled {contents : Contents} {written : Bytes}
    (h : contents.bytes = .ok written) (sized : written.length < maxContent)
    (consistent : contents.Consistent)
    (settled : ∀ member ∈ contents.payloads.keys, Settled member) :
    ofBytes written = .ok contents :=
  (ofBytes_bytes_eq_ok_iff h (measured_of_bytes h sized) consistent).mpr ⟨rfl, settled⟩

/-- Contents whose paths fit can be written. -/
theorem bytes_isOk {contents : Contents}
    (named : ∀ member ∈ contents.payloads.keys,
      ∃ name, nameBytes (dataFolder ++ member) = .ok name) :
    ∃ written, contents.bytes = .ok written := by
  have manifest : nameBytes manifestName = .ok (encodeUtf8 manifestName) := by decide
  obtain ⟨front, eq⟩ : ∃ front, entriesBytes contents.entries = .ok front := by
    refine entriesBytes_isOk fun entry mem => ?_
    rcases List.mem_cons.mp mem with rfl | mem
    · exact ⟨_, manifest⟩
    · obtain ⟨e, inner, rfl⟩ := List.mem_map.mp mem
      exact named e.1 (List.mem_map_of_mem inner)
  rw [bytes, Contents.stream, Container.stream, eq]
  exact ⟨_, rfl⟩

theorem bytes_of_fitting {contents : Contents}
    (fitting : ∀ member ∈ contents.payloads.keys, FittingPath member) :
    ∃ written, contents.bytes = .ok written :=
  bytes_isOk fun member mem => ⟨_, nameBytes_of_fitting (fitting member mem)⟩

/-- Consistent contents under fitting paths have a file that reads as them. -/
theorem reread_of_fitting {contents : Contents} (consistent : contents.Consistent)
    (fitting : ∀ member ∈ contents.payloads.keys, FittingPath member)
    (measured : contents.Measured) :
    ∃ written, contents.bytes = .ok written ∧ ofBytes written = .ok contents := by
  obtain ⟨written, eq⟩ := bytes_of_fitting fitting
  exact ⟨written, eq, (ofBytes_bytes_eq_ok_iff eq measured consistent).mpr
    ⟨rfl, fun member mem => (fitting member mem).settled⟩⟩

/-- Reading undoes writing: contents of the known version that list their payloads, under normal
paths that a header has room for, can be written, and what is written reads as the contents. -/
theorem reading_undoes_writing {contents : Contents}
    (current : contents.manifest.version = Manifest.currentVersion)
    (listed : contents.manifest.members.keys = contents.payloads.keys)
    (fitting : ∀ member ∈ contents.payloads.keys, FittingPath member)
    (measured : contents.Measured) :
    ∃ written, contents.bytes = .ok written ∧ ofBytes written = .ok contents := by
  have consistent : contents.Consistent := by
    refine ⟨current, fun member => Bool.eq_iff_iff.mpr ?_⟩
    rw [Table.contains_iff, Table.contains_iff, listed]
  exact reread_of_fitting consistent fitting measured

/-- Two members; one path needs an escape, and one payload is empty. -/
def sample : Contents :=
  ⟨⟨1, "0.1.0", some ⟨[7, 255], 10⟩,
      .ofList [("frames/\"a\"", ⟨0, "00000000", "", false⟩), ("b", ⟨3, "C", "", true⟩)]⟩,
    .ofList [("frames/\"a\"", []), ("b", [1, 2, 3])]⟩

theorem fitting_sample : ∀ member ∈ sample.payloads.keys, FittingPath member := by
  decide +kernel

theorem measured_sample : sample.Measured :=
  measured_of_lengths (by decide +kernel) (by decide +kernel)

theorem reading_undoes_writing_sample :
    ∃ written, sample.bytes = .ok written ∧ ofBytes written = .ok sample :=
  reading_undoes_writing (by decide) (by decide +kernel) fitting_sample measured_sample

end ObjectVault.Contents
