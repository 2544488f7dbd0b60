import ObjectVault.Command.Arguments
import ObjectVault.Command.Rule
import ObjectVault.Report.Metadata

namespace ObjectVault.Command

/-- What commands change: the host, the bound names, and the reports so far. -/
structure World where
  host : Host
  scope : Scope
  reports : List Report

def World.context (world : World) : Context :=
  ⟨world.scope, world.host.directory⟩

/-- What a command does. What was done before it fails stays done. -/
abbrev RunM := ExceptT CommandError (StateM World)

namespace RunM
variable {α : Type}

def bind (name : String) (b : Binding) : RunM Unit :=
  modify fun world => { world with scope := world.scope.insert name b }

def onHost (run : HostM CommandError α) : RunM α :=
  fun world =>
    let (result, host) := run world.host
    (result, { world with host })

def onStorage (run : HostM StorageError α) : RunM α :=
  onHost (HostM.mapError .storage run)

def wellFormed : Except Malformed α → RunM α
  | .ok a => return a
  | .error fault => throw (.malformed fault)

def noteLookups (names : List String) : RunM Unit :=
  modify fun world => { world with scope := (names.foldl Context.afterLookup world.context).scope }

def lookup (kind name : String) : RunM Binding := do
  let context := (← get).context
  noteLookups [name]
  match context.lookup kind name with
  | .ok b => return b
  | .error e => throw e

def valueOf (name : String) : RunM Value := do
  match ← lookup "variable" name with
  | .value v => return v
  | b => throw (.rejected (.notStorable name b.kind))

end RunM
end ObjectVault.Command
