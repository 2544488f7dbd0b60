import ObjectVault.Session.Run
import ObjectVault.Proofs.Refiling

namespace ObjectVault
open ObjectVault.Command ObjectVault.Directory ObjectVault.Text

theorem Command.RunM.wellFormed_of_ok {α : Type} {given : Except Malformed α} {a : α}
    (h : given = .ok a) (world : World) : wellFormed given world = (.ok a, world) := by
  rw [h]
  rfl

namespace Session

theorem needOpen_some (session : Session) (world : World) :
    needOpen (some session) world = (.ok session, world) := rfl

theorem now_apply (world : World) :
    now world = (.ok (.ofMicroseconds world.host.now), world) := rfl

/-- The log that the session keeps. -/
def keptLog (session : Session) (log : Option String) : Option String :=
  if session.settings.metadata then log else none

/-- A log that is kept can be written. -/
def CanLog (session : Session) (log : Option String) (d : Directory) : Prop :=
  ∀ path ∈ session.keptLog log, d.Writable path

theorem CanLog.refiled {session : Session} {log : Option String} {d d' : Directory}
    (h : session.CanLog log d) (changed : Refiled d d') : session.CanLog log d' :=
  fun path kept => (h path kept).refiled changed

/-- What a report leaves: the scope as it was, and every file with more at its end at most. -/
structure Reported (before after : World) : Prop where
  scope : after.scope = before.scope
  files : before.host.directory.Extends after.host.directory

/-- A command can be reported if its log can be written. -/
theorem emit_ok {session : Session} {log : Option String} {report : Report} {world : World}
    (recorded : report.record.isSome = session.settings.metadata)
    (can : session.CanLog log world.host.directory) :
    ∃ after, emit log report world = (.ok (), after) ∧ Reported world after := by
  let noted : World := { world with reports := world.reports ++ [report] }
  have note : (modify fun world : World => { world with reports := world.reports ++ [report] } :
      RunM Unit) world = (.ok (), noted) := rfl
  simp only [emit]
  rw [Effect.bind_of_ok note]
  cases log with
  | none => exact ⟨noted, rfl, rfl, .refl _⟩
  | some path =>
    cases record : report.record with
    | none => exact ⟨noted, rfl, rfl, .refl _⟩
    | some record' =>
      have kept : path ∈ session.keptLog (some path) := by
        rw [record, Option.isSome_some] at recorded
        simp [keptLog, ← recorded]
      obtain ⟨d, written, more⟩ := (can path kept).append (encodeUtf8 (Report.logLine record'))
      have appended : Report.appendToLog path record' noted.host =
          (.ok (), { noted.host with directory := d }) :=
        HostM.change_of_ok written
      refine ⟨{ noted with host := { noted.host with directory := d } }, ?_, rfl, more⟩
      simp only [RunM.onStorage, RunM.onHost, HostM.mapError, appended]

variable {session : Session} {line : String} {arguments : Arguments} {action : Action}
  {world after : World} {result : List ResultRecord}

/-- A line whose command was performed reports the results of the command. -/
theorem run_of_performed (log : Option String) (read : Arguments.ofLine line = .ok arguments)
    (acts : Action.ofArguments arguments = .ok action)
    (performed : action.perform session.archive arguments world = (.ok result, after)) :
    ∃ (record : Metadata) (report : Report), record.result = result ∧
      report.record = (if session.settings.metadata then some record else none) ∧
      run (some session) log line world =
        (emit log report >>= fun _ => (pure record : RunM Metadata)) after := by
  let record : Metadata :=
    ⟨action.keyword, result, some (Time.Moment.ofMicroseconds world.host.now).stamp,
      some (Time.Moment.ofMicroseconds after.host.now).stamp,
      some (Time.Moment.ofMicroseconds after.host.now).shown, some line⟩
  let report : Report :=
    { stamp := if session.settings.timestamp then some (Report.stampText action record) else none
      record := if session.settings.metadata then some record else none }
  refine ⟨record, report, rfl, rfl, ?_⟩
  rw [run, Effect.bind_of_ok (needOpen_some session world),
    Effect.bind_of_ok (RunM.wellFormed_of_ok read world),
    Effect.bind_of_ok (RunM.wellFormed_of_ok acts world), Effect.bind_of_ok (now_apply world),
    Effect.bind_of_ok performed, Effect.bind_of_ok (now_apply after)]

/-- A line whose command fails ends there. -/
theorem run_of_perform_error {log : Option String} {e : CommandError}
    (read : Arguments.ofLine line = .ok arguments)
    (acts : Action.ofArguments arguments = .ok action)
    (failed : action.perform session.archive arguments world = (.error e, after)) :
    run (some session) log line world = (.error e, after) := by
  rw [run, Effect.bind_of_ok (needOpen_some session world),
    Effect.bind_of_ok (RunM.wellFormed_of_ok read world),
    Effect.bind_of_ok (RunM.wellFormed_of_ok acts world), Effect.bind_of_ok (now_apply world),
    Effect.bind_of_error failed]

/-- A line whose command can be performed and reported succeeds with the results of the command. -/
theorem run_of_perform {log : Option String} (read : Arguments.ofLine line = .ok arguments)
    (acts : Action.ofArguments arguments = .ok action)
    (performed : action.perform session.archive arguments world = (.ok result, after))
    (can : session.CanLog log after.host.directory) :
    ∃ record last, run (some session) log line world = (.ok record, last) ∧
      record.result = result ∧ Reported after last := by
  obtain ⟨record, report, same, told, ran⟩ := run_of_performed log read acts performed
  have recorded : report.record.isSome = session.settings.metadata := by
    rw [told]
    cases session.settings.metadata <;> rfl
  obtain ⟨last, emitted, reported⟩ := emit_ok recorded can
  exact ⟨record, last, ran.trans (Effect.bind_of_ok emitted), same, reported⟩

end Session
end ObjectVault
