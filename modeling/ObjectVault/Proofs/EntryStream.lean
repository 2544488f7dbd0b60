import ObjectVault.Proofs.HeaderFields
import ObjectVault.Proofs.StoredFrame
import ObjectVault.Container.Reader

namespace ObjectVault.Container
open ObjectVault.Text

/-- No buffer is so long that its size does not fit in a header. -/
def maxContent : Nat := 2 ^ 64

/-- An entry as it is read: under the name that its header holds. -/
def Entry.plain (entry : Entry) : Entry :=
  ⟨plainPath entry.name, entry.data⟩

theorem nameBytes_eq_ok {path : String} {name : Bytes} (h : nameBytes path = .ok name) :
    name = encodeUtf8 (plainPath path) ∧ name.length ≤ Field.name.width ∧ 0 ∉ name := by
  simp only [nameBytes] at h
  split at h
  · cases h
  · split at h
    · cases h
    · next fits =>
      split at h
      · cases h
      · next nonzero =>
        cases h
        exact ⟨rfl, Nat.le_of_not_lt fits, nonzero⟩

theorem le_roundedUp (size : Nat) : size ≤ roundedUp size := by
  have block : blockSize = 512 := rfl
  simp only [roundedUp, block]
  omega

theorem roundedUp_le (size : Nat) : roundedUp size ≤ size + blockSize := by
  have block : blockSize = 512 := rfl
  simp only [roundedUp, block]
  omega

/-- The blocks of a written entry: its header, and its content with nothing but zeros behind it. -/
theorem Entry.bytes_eq_ok {entry : Entry} {bytes : Bytes} (h : entry.bytes = .ok bytes) :
    ∃ name, nameBytes entry.name = .ok name ∧
      bytes = Header.block name entry.data.length ++
        Header.padded (roundedUp entry.data.length) entry.data := by
  simp only [Entry.bytes, bind, Except.bind, pure, Except.pure] at h
  split at h
  · cases h
  · next name named =>
    cases h
    exact ⟨name, named, rfl⟩

/-- The content of an ordinary file is taken from the blocks behind its header. -/
theorem content_padded {header : Header} (ordinary : header.kind = 0) (block data rest : Bytes) :
    content header block data.length (Header.padded (roundedUp data.length) data ++ rest) =
      .ok (data, roundedUp data.length) := by
  have width := Header.length_padded (le_roundedUp data.length)
  have taken : (Header.padded (roundedUp data.length) data ++ rest).take data.length = data := by
    rw [Header.padded, List.append_assoc, List.take_left' rfl]
  have enough : ¬ (Header.padded (roundedUp data.length) data ++ rest).length <
      roundedUp data.length := by
    rw [List.length_append, width]
    omega
  have sparse : ¬ header.kind = 'S'.toUInt8 := by
    rw [ordinary]
    decide
  rw [content, if_neg sparse]
  simp only [bind, Except.bind, taken, Nat.zero_mul, Nat.zero_add, if_neg enough]

theorem extend?_ordinary (before : Extension) {header : Header} (ordinary : header.kind = 0)
    (data : Bytes) : extend? before header data = none := by
  rw [extend?, ordinary]
  split
  · rfl
  · rfl

/-- A header is no block of zeros: it holds the digits of its sum. -/
theorem block_nonzero {name : Bytes} (fits : name.length ≤ Field.name.width) (size : Nat) :
    ¬ ((Header.block name size).all (· == 0)) = true := by
  intro zeros
  have digits : Field.checksum.read (Header.block name size) =
      Header.octal 7 (headerSum (Header.front name size) Header.back) ++ [0] :=
    Header.read_checksum fits
  obtain ⟨b, rest, eq⟩ : ∃ b rest,
      Header.octal 7 (headerSum (Header.front name size) Header.back) = b :: rest :=
    List.exists_cons_of_length_pos (by rw [Header.length_octal]; decide)
  rw [eq] at digits
  have mem : b ∈ Field.checksum.read (Header.block name size) := by
    rw [digits]
    exact List.mem_cons_self
  have zero := List.all_eq_true.mp zeros b (List.mem_of_mem_drop (List.mem_of_mem_take mem))
  have low := (Header.octal_digit (b := b) (by rw [eq]; exact List.mem_cons_self)).1
  rw [beq_iff_eq.mp zero] at low
  exact absurd low (by decide)

/-- Reading takes a written entry from the front of the bytes. -/
theorem readEntries_entry (fault : Option ContainerFault) {entry : Entry} {bytes : Bytes}
    (written : entry.bytes = .ok bytes) (bounded : entry.data.length < maxContent) (rest : Bytes) :
    readEntries fault .none false (bytes ++ rest) =
      (readEntries fault .none false rest).map (entry.plain :: ·) := by
  obtain ⟨name, named, rfl⟩ := Entry.bytes_eq_ok written
  obtain ⟨eq, fits, nonzero⟩ := nameBytes_eq_ok named
  have width := Header.length_block fits entry.data.length
  have front : (Header.block name entry.data.length ++
      (Header.padded (roundedUp entry.data.length) entry.data ++ rest)).take blockSize =
      Header.block name entry.data.length := List.take_left' width
  have behind : (Header.block name entry.data.length ++
      (Header.padded (roundedUp entry.data.length) entry.data ++ rest)).drop blockSize =
      Header.padded (roundedUp entry.data.length) entry.data ++ rest := List.drop_left' width
  have after : (Header.padded (roundedUp entry.data.length) entry.data ++ rest).drop
      (roundedUp entry.data.length) = rest :=
    List.drop_left' (Header.length_padded (le_roundedUp _))
  have long : ¬ (Header.block name entry.data.length ++
      (Header.padded (roundedUp entry.data.length) entry.data ++ rest)).length < blockSize := by
    rw [List.length_append, width]
    omega
  have header := Header.ofBlock_block fits nonzero bounded
  have sized : entrySize .none ⟨name, entry.data.length, 0, .extended⟩ = entry.data.length := by
    simp only [entrySize, Extension.none, Option.bind_none, Option.getD_none]
    split
    · next zero => exact zero.symm
    · rfl
  have alone : extend? .none ⟨name, entry.data.length, 0, .extended⟩ entry.data = none :=
    extend?_ordinary .none rfl entry.data
  have shown : lossyUtf8 (entryName .none ⟨name, entry.data.length, 0, .extended⟩) =
      plainPath entry.name := by
    simp only [entryName, Extension.none, Option.bind_none]
    rw [eq, lossyUtf8_encodeUtf8]
  rw [List.append_assoc]
  conv => lhs; rw [readEntries.eq_def]
  rw [dif_neg long]
  simp only [front, behind, block_nonzero fits, header, sized, content_padded, alone, after, shown,
    Bool.false_eq_true, ↓reduceIte]
  rfl

/-- Nothing behind the blocks of zeros is read. -/
theorem readEntries_end (fault : Option ContainerFault) (more : Bytes) :
    readEntries fault .none false (List.replicate (2 * blockSize) 0 ++ more) = .ok [] := by
  have two : List.replicate (2 * blockSize) (0 : UInt8) ++ more =
      List.replicate blockSize 0 ++ (List.replicate blockSize 0 ++ more) := by
    rw [Nat.two_mul, ← List.replicate_append_replicate, List.append_assoc]
  have front : (List.replicate blockSize (0 : UInt8) ++
      (List.replicate blockSize 0 ++ more)).take blockSize = List.replicate blockSize 0 :=
    List.take_left' List.length_replicate
  have long : ¬ (List.replicate blockSize (0 : UInt8) ++
      (List.replicate blockSize 0 ++ more)).length < blockSize := by
    rw [List.length_append, List.length_replicate]
    omega
  have zeros : ((List.replicate blockSize (0 : UInt8)).all (· == 0)) = true := by
    rw [List.all_replicate]
    simp
  rw [two, readEntries.eq_def, dif_neg long]
  simp only [front, zeros, ↓reduceIte]
  rfl

theorem entriesBytes_cons_eq_ok {entry : Entry} {entries : List Entry} {bytes : Bytes}
    (written : entriesBytes (entry :: entries) = .ok bytes) :
    ∃ first others, entry.bytes = .ok first ∧ entriesBytes entries = .ok others ∧
      bytes = first ++ others := by
  rw [entriesBytes] at written
  cases own : entry.bytes with
  | error fault => simp [own, Except.mapError, bind, Except.bind] at written
  | ok first =>
    cases rest : entriesBytes entries with
    | error fault => simp [own, rest, Except.mapError, bind, Except.bind] at written
    | ok others =>
      simp only [own, rest, Except.mapError, bind, Except.bind, pure, Except.pure] at written
      cases written
      exact ⟨first, others, rfl, rfl, rfl⟩

/-- Reading gives back the entries that were written, under the names that their headers hold. -/
theorem readEntries_entriesBytes {entries : List Entry} {bytes : Bytes}
    (written : entriesBytes entries = .ok bytes)
    (bounded : ∀ entry ∈ entries, entry.data.length < maxContent)
    (fault : Option ContainerFault) (more : Bytes) :
    readEntries fault .none false (bytes ++ (List.replicate (2 * blockSize) 0 ++ more)) =
      .ok (entries.map Entry.plain) := by
  induction entries generalizing bytes with
  | nil =>
    cases written
    exact readEntries_end fault more
  | cons entry entries ih =>
    obtain ⟨first, others, own, rest, rfl⟩ := entriesBytes_cons_eq_ok written
    rw [List.append_assoc, readEntries_entry fault own (bounded entry List.mem_cons_self),
      ih rest fun e mem => bounded e (List.mem_cons_of_mem _ mem)]
    rfl

theorem stream_eq_ok {entries : List Entry} {bytes : Bytes} (written : stream entries = .ok bytes) :
    ∃ front, entriesBytes entries = .ok front ∧
      bytes = front ++ List.replicate (2 * blockSize) 0 := by
  rw [stream] at written
  cases eq : entriesBytes entries with
  | error fault => simp [eq, bind, Except.bind] at written
  | ok front =>
    simp only [eq, bind, Except.bind, pure, Except.pure] at written
    cases written
    exact ⟨front, rfl, rfl⟩

/-- A compressed stream gives back its entries, whatever stands behind it. -/
theorem ofBytes_stream {entries : List Entry} {bytes : Bytes} (written : stream entries = .ok bytes)
    (bounded : ∀ entry ∈ entries, entry.data.length < maxContent) (extra : Bytes) :
    ofBytes (Zstd.deflate bytes ++ extra) = .ok (entries.map Entry.plain) := by
  obtain ⟨front, eq, rfl⟩ := stream_eq_ok written
  obtain ⟨fuel, inflated⟩ :=
    Zstd.inflate_deflate_append (front ++ List.replicate (2 * blockSize) 0) extra
  rw [ofBytes, inflated, List.append_assoc]
  exact readEntries_entriesBytes eq bounded _ _

theorem length_le_entriesBytes {entries : List Entry} {bytes : Bytes}
    (written : entriesBytes entries = .ok bytes) :
    ∀ entry ∈ entries, entry.data.length ≤ bytes.length := by
  induction entries generalizing bytes with
  | nil => simp
  | cons entry entries ih =>
    obtain ⟨first, others, own, rest, rfl⟩ := entriesBytes_cons_eq_ok written
    obtain ⟨name, -, rfl⟩ := Entry.bytes_eq_ok own
    intro e mem
    rcases List.mem_cons.mp mem with rfl | mem
    · have width := Header.length_padded (le_roundedUp e.data.length)
      have long := le_roundedUp e.data.length
      simp only [List.length_append, width]
      omega
    · have inner := ih rest e mem
      simp only [List.length_append]
      omega

/-- An entry takes its data, a header, and what fills the last block. -/
theorem length_entriesBytes_le {entries : List Entry} {bytes : Bytes}
    (written : entriesBytes entries = .ok bytes) :
    bytes.length ≤ (entries.map fun entry => entry.data.length + 2 * blockSize).sum := by
  induction entries generalizing bytes with
  | nil =>
    cases written
    exact Nat.zero_le _
  | cons entry entries ih =>
    obtain ⟨first, others, own, rest, rfl⟩ := entriesBytes_cons_eq_ok written
    obtain ⟨name, named, rfl⟩ := Entry.bytes_eq_ok own
    have header := Header.length_block (nameBytes_eq_ok named).2.1 entry.data.length
    have width := Header.length_padded (le_roundedUp entry.data.length)
    have filled := roundedUp_le entry.data.length
    have behind := ih rest
    rw [List.map_cons, List.sum_cons, List.length_append, List.length_append, header, width]
    omega

/-- Entries whose names fit can be written. -/
theorem entriesBytes_isOk {entries : List Entry}
    (named : ∀ entry ∈ entries, ∃ name, nameBytes entry.name = .ok name) :
    ∃ bytes, entriesBytes entries = .ok bytes := by
  induction entries with
  | nil => exact ⟨[], rfl⟩
  | cons entry entries ih =>
    obtain ⟨name, own⟩ := named entry List.mem_cons_self
    obtain ⟨rest, others⟩ := ih fun e mem => named e (List.mem_cons_of_mem _ mem)
    simp only [entriesBytes, Entry.bytes, own, others, bind, Except.bind, pure, Except.pure,
      Except.mapError]
    exact ⟨_, rfl⟩

end ObjectVault.Container
