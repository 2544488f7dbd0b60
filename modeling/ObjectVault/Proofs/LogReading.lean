import ObjectVault.Proofs.LogFile
import ObjectVault.Proofs.RecordText
import ObjectVault.Proofs.Splitting
import ObjectVault.Proofs.Trimming

namespace ObjectVault
open ObjectVault.Command ObjectVault.Directory ObjectVault.Text

namespace Report

/-- The text of a log that holds these records. -/
def logText (records : List Metadata) : String :=
  .ofList (records.flatMap fun m => (logLine m).toList)

theorem encodeUtf8_logText_concat (records : List Metadata) (m : Metadata) :
    encodeUtf8 (logText (records ++ [m])) =
      encodeUtf8 (logText records) ++ encodeUtf8 (logLine m) := by
  rw [← encodeUtf8_append]
  congr 1
  apply String.toList_inj.mp
  simp [logText]

/-- The line of a record, without its end. -/
def recordChars (m : Metadata) : List Char :=
  Json.compactChars m.toJson

theorem toList_logLine (m : Metadata) : (logLine m).toList = recordChars m ++ ['\n'] := by
  rw [logLine, String.toList_append, Json.compact, String.toList_ofList]
  rfl

theorem printable_recordChars (m : Metadata) : Json.Printable (recordChars m) :=
  m.plain_toJson.printable

theorem textLines_of_lines {lines : List (List Char)} (unbroken : ∀ line ∈ lines, '\n' ∉ line)
    (unreturned : ∀ line ∈ lines, line.getLast? ≠ some '\r') :
    textLines (lines.flatMap (· ++ ['\n'])) = lines := by
  have parts : (lines.flatMap (· ++ ['\n'])).splitOn '\n' = lines ++ [[]] := by
    simpa using splitOn_flatMap_append unbroken []
  have kept : lines.map (fun line => if line.getLast? = some '\r' then line.dropLast else line) =
      lines := by
    rw [List.map_congr_left fun line mem => if_neg (unreturned line mem), List.map_id']
  rw [textLines, parts, List.dropLast_concat, kept, List.getLast?_concat]
  simp

/-- The records of a log are read back from its text. -/
theorem readLog_logText (records : List Metadata) :
    readLog (logText records) = .ok records := by
  have text : (logText records).toList = (records.map recordChars).flatMap (· ++ ['\n']) := by
    rw [logText, String.toList_ofList, List.flatMap_map]
    simp only [toList_logLine]
  have each : ∀ line ∈ records.map recordChars, ∃ m, line = recordChars m := by
    intro line mem
    obtain ⟨m, -, rfl⟩ := List.mem_map.mp mem
    exact ⟨m, rfl⟩
  have lines : textLines (logText records).toList = records.map recordChars := by
    rw [text]
    apply textLines_of_lines
    · intro line mem broken
      obtain ⟨m, rfl⟩ := each line mem
      exact absurd (printable_recordChars m _ broken) (by decide)
    · intro line mem returned
      obtain ⟨m, rfl⟩ := each line mem
      exact absurd (printable_recordChars m _ (List.mem_of_getLast? returned)) (by decide)
  have filled : ∀ line ∈ records.map recordChars, (!(trim line).isEmpty) = true := by
    intro line mem
    obtain ⟨m, rfl⟩ := each line mem
    have brace : '\x7b' ∈ recordChars m := List.mem_cons_self
    simpa using List.ne_nil_of_mem (mem_trim brace (by decide))
  have read : ∀ m : Metadata, Metadata.ofText (.ofList (recordChars m)) = some m :=
    Metadata.ofText_compact
  have whole : records.mapM (fun m => (pure m : Except StorageError Metadata)) = pure records := by
    rw [List.mapM_pure, List.map_id']
  rw [readLog, lines, List.filter_eq_self.mpr filled, List.mapM_map]
  simp only [Function.comp_def, read]
  exact whole

theorem log_of_read {path : String} {d : Directory} {records : List Metadata}
    (held : d.read path = .ok (encodeUtf8 (logText records))) : log path d = .ok records := by
  have text : d.readText path = .ok (logText records) := by
    rw [readText, held]
    simp only [bind, Except.bind, decodeUtf8_encodeUtf8]
    rfl
  rw [log, text]
  exact readLog_logText records

end Report

/-- The file of a log holds these records; as long as there are none, it may be missing. -/
inductive LogHolds (d : Directory) (path : String) : List Metadata → Prop
  | missing (absent : ∀ bytes, d.read path ≠ .ok bytes) : LogHolds d path []
  | written {records : List Metadata}
    (read : d.read path = .ok (encodeUtf8 (Report.logText records))) : LogHolds d path records

theorem LogHolds.append {d d' : Directory} {path : String} {records : List Metadata}
    {m : Metadata} (h : LogHolds d path records)
    (appended : d.append path (encodeUtf8 (Report.logLine m)) = .ok d') :
    LogHolds d' path (records ++ [m]) := by
  obtain ⟨old, before, after⟩ := read_append appended
  have bytes : old = encodeUtf8 (Report.logText records) := by
    cases h with
    | missing absent =>
      rcases before with found | ⟨rfl, -⟩
      · exact absurd found (absent old)
      · rfl
    | written read =>
      rcases before with found | ⟨-, absent⟩
      · rw [read] at found
        exact (Except.ok.inj found).symm
      · exact absurd read (absent _)
  refine .written ?_
  rw [after, bytes, Report.encodeUtf8_logText_concat]

theorem LogHolds.log {d : Directory} {path : String} {records : List Metadata}
    (h : LogHolds d path records) (nonempty : records ≠ []) : Report.log path d = .ok records := by
  cases h with
  | missing => exact absurd rfl nonempty
  | written read => exact Report.log_of_read read

namespace Session

/-- The reports one after the other, each of them whatever became of those before it, with the
result of each. -/
def emitAll (log : Option String) :
    List Report → World → List (Except CommandError Unit) × World
  | [], world => ([], world)
  | report :: reports, world =>
    let (result, between) := emit log report world
    let (results, after) := emitAll log reports between
    (result :: results, after)

variable {path : String} {report : Report} {world : World}

/-- The world in which the report is among those that were made. -/
def reported (report : Report) (world : World) : World :=
  { world with reports := world.reports ++ [report] }

theorem emit_of_unrecorded (log : Option String) (unrecorded : report.record = none)
    (world : World) : emit log report world = (.ok (), reported report world) := by
  simp only [emit, unrecorded]
  cases log <;> rfl

theorem emit_of_recorded {m : Metadata} (recorded : report.record = some m) :
    emit (some path) report world =
      RunM.onStorage (Report.appendToLog path m) (reported report world) := by
  simp only [emit, recorded]
  rfl

theorem emit_of_append {m : Metadata} {d : Directory} (recorded : report.record = some m)
    (appended : world.host.directory.append path (encodeUtf8 (Report.logLine m)) = .ok d) :
    emit (some path) report world =
      (.ok (), { reported report world with host := { world.host with directory := d } }) := by
  have added : Report.appendToLog path m world.host =
      (.ok (), { world.host with directory := d }) :=
    HostM.change_of_ok appended
  rw [emit_of_recorded recorded]
  simp only [RunM.onStorage, RunM.onHost, HostM.mapError, reported, added]

theorem emit_of_append_error {m : Metadata} {fault : FileFault} (recorded : report.record = some m)
    (failed : world.host.directory.append path (encodeUtf8 (Report.logLine m)) = .error fault) :
    emit (some path) report world = (.error (.storage (.file fault)), reported report world) := by
  have refused : Report.appendToLog path m world.host = (.error (.file fault), world.host) := by
    rw [Report.appendToLog, HostM.change_apply, failed]
  rw [emit_of_recorded recorded]
  simp only [RunM.onStorage, RunM.onHost, HostM.mapError, reported, refused]

/-- A report adds its record, if it has one, to a log that can be written. -/
theorem emit_of_writable {records : List Metadata} (can : world.host.directory.Writable path)
    (holds : LogHolds world.host.directory path records) (report : Report) :
    ∃ after, emit (some path) report world = (.ok (), after) ∧
      after.host.directory.Writable path ∧
      LogHolds after.host.directory path (records ++ report.record.toList) := by
  cases recorded : report.record with
  | none =>
    rw [Option.toList_none, List.append_nil]
    exact ⟨_, emit_of_unrecorded (some path) recorded world, can, holds⟩
  | some m =>
    obtain ⟨d, appended, -⟩ := can.append (encodeUtf8 (Report.logLine m))
    exact ⟨_, emit_of_append recorded appended, can.refiled (refiled_append appended),
      holds.append appended⟩

theorem emitAll_cons {log : Option String} {result : Except CommandError Unit} {between : World}
    (emitted : emit log report world = (result, between)) (reports : List Report) :
    emitAll log (report :: reports) world =
      (result :: (emitAll log reports between).1, (emitAll log reports between).2) := by
  rw [emitAll, emitted]

/-- The records that reports carry, in their order. -/
def carried (reports : List Report) : List Metadata :=
  reports.filterMap Report.record

theorem carried_cons (report : Report) (reports : List Report) :
    carried (report :: reports) = report.record.toList ++ carried reports := by
  cases recorded : report.record <;> simp [carried, recorded]

theorem emitAll_of_writable {records : List Metadata} (can : world.host.directory.Writable path)
    (holds : LogHolds world.host.directory path records) (reports : List Report) :
    (emitAll (some path) reports world).1 = reports.map (fun _ => .ok ()) ∧
      LogHolds (emitAll (some path) reports world).2.host.directory path
        (records ++ carried reports) := by
  induction reports generalizing world records with
  | nil =>
    refine ⟨rfl, ?_⟩
    rwa [carried, List.filterMap_nil, List.append_nil]
  | cons report reports ih =>
    obtain ⟨between, emitted, can', holds'⟩ := emit_of_writable can holds report
    obtain ⟨accepted, held⟩ := ih can' holds'
    rw [emitAll_cons emitted, carried_cons, ← List.append_assoc]
    exact ⟨by rw [List.map_cons, accepted], held⟩

/-- Where the log cannot be written, a report with a record fails, and no file changes. -/
theorem emit_of_unwritable (cannot : ¬ world.host.directory.Writable path) (report : Report) :
    ∃ result after, emit (some path) report world = (result, after) ∧
      after.host.directory = world.host.directory ∧
      (result.isOk = true ↔ report.record = none) := by
  cases recorded : report.record with
  | none =>
    exact ⟨_, _, emit_of_unrecorded (some path) recorded world, rfl,
      by simp [Except.isOk, Except.toBool]⟩
  | some m =>
    cases appended : world.host.directory.append path (encodeUtf8 (Report.logLine m)) with
    | error fault =>
      exact ⟨_, _, emit_of_append_error recorded appended, rfl,
        by simp [Except.isOk, Except.toBool]⟩
    | ok d =>
      obtain ⟨place, located, free, -⟩ := append_eq_ok appended
      exact absurd ⟨place, located, free⟩ cannot

theorem emitAll_of_unwritable (cannot : ¬ world.host.directory.Writable path)
    (reports : List Report) :
    (emitAll (some path) reports world).1.map Except.isOk =
        reports.map (fun report => report.record.isNone) ∧
      (emitAll (some path) reports world).2.host.directory = world.host.directory := by
  induction reports generalizing world with
  | nil => exact ⟨rfl, rfl⟩
  | cons report reports ih =>
    obtain ⟨result, between, emitted, same, accepted⟩ := emit_of_unwritable cannot report
    obtain ⟨results, kept⟩ := ih (same.symm ▸ cannot : ¬ between.host.directory.Writable path)
    have verdict : result.isOk = report.record.isNone := by
      rw [Bool.eq_iff_iff, accepted, Option.isNone_iff_eq_none]
    rw [emitAll_cons emitted]
    exact ⟨by rw [List.map_cons, List.map_cons, results, verdict], kept.trans same⟩

/-- A log that is begun by reports gives back exactly what they carried, if its file can be made;
else the reports that carry something fail, and nothing is written. -/
theorem log_gives_back_reports {path : String} {world : World}
    (begun : ∀ bytes, world.host.directory.read path ≠ .ok bytes) (reports : List Report) :
    (world.host.directory.Writable path →
      (emitAll (some path) reports world).1 = reports.map (fun _ => .ok ()) ∧
      (carried reports ≠ [] →
        Report.log path (emitAll (some path) reports world).2.host.directory =
          .ok (carried reports))) ∧
    (¬ world.host.directory.Writable path →
      (emitAll (some path) reports world).1.map Except.isOk =
        reports.map (fun report => report.record.isNone) ∧
      (emitAll (some path) reports world).2.host.directory = world.host.directory) := by
  refine ⟨fun can => ?_, fun cannot => emitAll_of_unwritable cannot reports⟩
  obtain ⟨accepted, held⟩ := emitAll_of_writable can (.missing begun) reports
  exact ⟨accepted, fun nonempty => held.log nonempty⟩

/-- A record with quotes, a line break and a return in its texts. -/
def brokenRecord : Metadata :=
  ⟨"store", [⟨"x\r", none, some ⟨some "00000000", none⟩⟩], none, some "\n", none,
    some "store x in \"a\n\""⟩

/-- A world without files and names. -/
def bareWorld : World :=
  ⟨Archive.bareHost, ∅, []⟩

theorem log_gives_back_reports_note :
    Report.log "log" (emitAll (some "log") [⟨none, none⟩, ⟨some "stamp", some brokenRecord⟩,
      ⟨none, some brokenRecord⟩] bareWorld).2.host.directory =
        .ok [brokenRecord, brokenRecord] := by
  have begun : ∀ bytes, bareWorld.host.directory.read "log" ≠ .ok bytes := by
    have missing : bareWorld.host.directory.read "log" = .error .missing := by decide +kernel
    intro bytes read
    rw [missing] at read
    cases read
  have can : bareWorld.host.directory.Writable "log" := ⟨["log"], by decide, by decide⟩
  exact ((log_gives_back_reports begun _).1 can).2 (by decide)

/-- A log in a folder that is not there is not begun. -/
theorem log_without_folder :
    (∀ bytes, bareWorld.host.directory.read "logs/log" ≠ .ok bytes) ∧
    carried [⟨none, some brokenRecord⟩] ≠ [] ∧
    ∀ records, Report.log "logs/log"
      (emitAll (some "logs/log") [⟨none, some brokenRecord⟩] bareWorld).2.host.directory ≠
        .ok records := by
  have missing : bareWorld.host.directory.read "logs/log" = .error .missing := by decide +kernel
  have unlogged : Report.log "logs/log"
      (emitAll (some "logs/log") [⟨none, some brokenRecord⟩] bareWorld).2.host.directory =
        .error (.file .missing) := by decide +kernel
  refine ⟨fun bytes read => ?_, by decide, fun records read => ?_⟩
  · rw [missing] at read
    cases read
  · rw [unlogged] at read
    cases read

end Session
end ObjectVault
