import ObjectVault.Command.Run
import ObjectVault.Report.Log
import ObjectVault.Session.Basic
import ObjectVault.Time.Calendar

namespace ObjectVault.Session
open ObjectVault.Command

/-- Reports a finished command; its record also goes into the log, if there is one. -/
def emit (log : Option String) (report : Report) : RunM Unit := do
  modify fun world => { world with reports := world.reports ++ [report] }
  match log, report.record with
  | some path, some record => RunM.onStorage (Report.appendToLog path record)
  | _, _ => return

def needOpen : Option Session → RunM Session
  | some session => return session
  | none => throw (.configuration .notOpen)

def now : RunM Time.Moment :=
  return .ofMicroseconds (← get).host.now

def run (session : Option Session) (log : Option String) (line : String) : RunM Metadata := do
  let session ← needOpen session
  let arguments ← RunM.wellFormed (Arguments.ofLine line)
  let action ← RunM.wellFormed (Action.ofArguments arguments)
  let started ← now
  let result ← action.perform session.archive arguments
  let finished ← now
  let record : Metadata :=
    ⟨action.keyword, result, some started.stamp, some finished.stamp, some finished.shown,
      some line⟩
  emit log
    { stamp := if session.settings.timestamp then some (Report.stampText action record)
        else none
      record := if session.settings.metadata then some record else none }
  return record

/-- The forms of one action or of all. -/
def help : Option String → Except CommandError String
  | none => .ok ("\n\n".intercalate (Action.all.map Action.explain))
  | some keyword =>
    match Action.ofKeyword? keyword with
    | some action => .ok action.explain
    | none => .error (.rejected (.unknownAction keyword))

end ObjectVault.Session
