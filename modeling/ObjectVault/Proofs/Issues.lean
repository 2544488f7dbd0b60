import ObjectVault.Proofs.PlanResults

namespace ObjectVault
open ObjectVault.Command

/-- A line that a session is given: with the names as they became since the last one, at some time,
and with a log or without one. -/
structure Issue where
  names : Scope → Scope
  now : Int
  log : Option String
  line : String

namespace Issue

/-- A line that is given without a log, with the names as they are. -/
def plain (line : String) : Issue :=
  ⟨id, 0, none, line⟩

/-- The world when the line is given. -/
def start (issue : Issue) (world : World) : World :=
  { world with host := { world.host with now := issue.now }, scope := issue.names world.scope }

def run (issue : Issue) (session : Session) (world : World) :
    Except CommandError Metadata × World :=
  Session.run (some session) issue.log issue.line (issue.start world)

/-- What the line asks for. -/
def task? (issue : Issue) (world : World) : Option Task :=
  Task.ofLine? (issue.start world).context issue.line

/-- The line writes no file that is too long for a 64-bit size. -/
def Short (issue : Issue) (session : Session) (world : World) : Prop :=
  ∀ task, issue.task? world = some task →
    task.plan.Short session.archive task.arguments (task.noted (issue.start world))

/-- What holds of a task, if there is one, can be decided where it can be of the task. -/
instance {α : Type} (given : Option α) (p : α → Prop) [∀ a, Decidable (p a)] :
    Decidable (∀ a, given = some a → p a) :=
  match given with
  | none => .isTrue nofun
  | some a => decidable_of_iff (p a) (by simp)

instance (issue : Issue) (session : Session) (world : World) :
    Decidable (issue.Short session world) :=
  inferInstanceAs (Decidable (∀ task, issue.task? world = some task → _))

end Issue

namespace Session
variable {session : Session} {condition : Issue → World → Prop} {issues : List Issue}
  {world : World} {P : Directory → Prop}

/-- The world after some lines, whether they succeed or not. -/
def runAll (session : Session) (world : World) (issues : List Issue) : World :=
  issues.foldl (fun world issue => (issue.run session world).2) world

/-- Each line meets a condition when it is given. -/
def Throughout (session : Session) (condition : Issue → World → Prop) : List Issue → World → Prop
  | [], _ => True
  | issue :: issues, world =>
    condition issue world ∧ session.Throughout condition issues (issue.run session world).2

instance decideThroughout (session : Session) (condition : Issue → World → Prop)
    [∀ issue world, Decidable (condition issue world)] :
    (issues : List Issue) → (world : World) →
      Decidable (session.Throughout condition issues world)
  | [], _ => .isTrue trivial
  | issue :: issues, world =>
    have := decideThroughout session condition issues (issue.run session world).2
    inferInstanceAs (Decidable (condition issue world ∧ _))

/-- What outlasts each line outlasts all of them. -/
theorem runAll_outlasts
    (each : ∀ issue world, condition issue world → P world.host.directory →
      P (issue.run session world).2.host.directory)
    (throughout : session.Throughout condition issues world) (h : P world.host.directory) :
    P (session.runAll world issues).host.directory := by
  induction issues generalizing world with
  | nil => exact h
  | cons issue issues ih => exact ih throughout.2 (each issue world throughout.1 h)

end Session

namespace Issue
variable {session : Session} {issue : Issue} {world : World} {P : Directory → Prop}

theorem run_keeps
    (each : ∀ task, issue.task? world = some task →
      P (task.noted (issue.start world)).host.directory →
        P (task.run session.archive (task.noted (issue.start world))).2.host.directory)
    (logged : ∀ log d d', Logged log d d' → P d → P d') (h : P world.host.directory) :
    P (issue.run session world).2.host.directory :=
  Session.run_keeps each (logged _) h

/-- What outlasts the writing of a line's plan and its report outlasts the line. -/
theorem run_outlasts
    (outlasts : ∀ task, issue.task? world = some task → task.plan.Outlasts session.archive P)
    (short : issue.Short session world)
    (logged : ∀ log d d', Logged log d d' → P d → P d') (h : P world.host.directory) :
    P (issue.run session world).2.host.directory :=
  run_keeps (fun task asked => Plan.run_outlasts (outlasts task asked) (short task asked)) logged h

end Issue
end ObjectVault
