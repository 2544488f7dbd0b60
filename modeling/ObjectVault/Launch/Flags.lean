import ObjectVault.Text.Likeness

namespace ObjectVault.Launch
open ObjectVault.Text

/-- The options that have a value. -/
inductive Setting
  | vault
  | config
  | encryptionVariable
  | metadataLog
  | logLevel
deriving DecidableEq

/-- The options that have none. -/
inductive Switch
  | insecure
  | noTimestamp
  | noMetadata
  | verbose
  | help
deriving DecidableEq

inductive Flag
  | setting (s : Setting)
  | switch (s : Switch)
deriving DecidableEq

namespace Flag

def all : List Flag :=
  [.setting .vault, .setting .config, .setting .encryptionVariable, .switch .insecure,
    .switch .noTimestamp, .switch .noMetadata, .setting .metadataLog, .switch .verbose,
    .setting .logLevel, .switch .help]

def name : Flag → String
  | .setting .vault => "vault"
  | .setting .config => "config"
  | .setting .encryptionVariable => "encryption-variable"
  | .setting .metadataLog => "metadata-log"
  | .setting .logLevel => "log-level"
  | .switch .insecure => "insecure"
  | .switch .noTimestamp => "no-timestamp"
  | .switch .noMetadata => "no-metadata"
  | .switch .verbose => "verbose"
  | .switch .help => "help"

def letter : Flag → Option Char
  | .setting .vault => some 'p'
  | .setting .encryptionVariable => some 'e'
  | .switch .verbose => some 'v'
  | .switch .help => some 'h'
  | _ => none

def placeholder : Flag → String
  | .setting .vault => " <PATH>"
  | .setting .encryptionVariable => " <NAME>"
  | .setting .config | .setting .metadataLog => " <FILE>"
  | .setting .logLevel => " <LEVEL>"
  | .switch .verbose => "..."
  | _ => ""

def purpose : Flag → String
  | .setting .vault => "Vault archive path (default: storage.vault)"
  | .setting .config => "Settings file (default: vault.toml if present)"
  | .setting .encryptionVariable => "Environment variable holding the vault password"
  | .setting .metadataLog => "Append metadata records as JSON lines to FILE"
  | .setting .logLevel => "Log level: error, warn, info, debug or trace"
  | .switch .insecure => "Do not warn when the vault is not encrypted"
  | .switch .noTimestamp => "Do not print a stamp after each command"
  | .switch .noMetadata => "Do not report full metadata records"
  | .switch .verbose => "More log output on stderr (repeatable)"
  | .switch .help => "Print help"

/-- The flag with what stands for its value. -/
def shown (flag : Flag) : String :=
  "--" ++ flag.name ++ flag.placeholder

def ofName? (name : List Char) : Option Flag :=
  all.find? (·.name.toList == name)

def ofLetter? (c : Char) : Option Flag :=
  all.find? (·.letter == some c)

/-- The flag that a wrong name may be meant for. -/
def alike? (name : List Char) : Option Flag :=
  (mostAlike name (all.map (·.name.toList))).bind ofName?

end Flag

/-- Why arguments are not understood. To ask for help is one reason. Some reasons go with the flags
that were used before. -/
inductive FlagFault
  | unknown (argument : String)
  | unknownName (argument : String) (meant : Option Flag) (used : List Flag)
  | noValue (flag : Flag)
  | repeated (flag : Flag)
  | excluded (flag other : Flag) (used : List Flag)
  | extraValue (flag : Flag) (value : String) (used : List Flag)
  | helpAsked
deriving DecidableEq

/-- The flags that were used, in the order of their last use; the settings with their values; and
how often more output was asked for. -/
structure Flags where
  used : List Flag
  settings : List (Setting × String)
  verbosity : Nat

namespace Flags

def empty : Flags :=
  ⟨[], [], 0⟩

def get? (flags : Flags) (s : Setting) : Option String :=
  flags.settings.lookup s

def has (flags : Flags) (s : Switch) : Bool :=
  flags.used.contains (.switch s)

/-- Gives a setting its value, which it may have once. -/
def set (flags : Flags) (s : Setting) (value : String) : Except FlagFault Flags :=
  if (flags.get? s).isSome then .error (.repeated (.setting s))
  else .ok { flags with
    used := flags.used ++ [.setting s]
    settings := flags.settings ++ [(s, value)] }

/-- Turns a switch on. Only the one for more output may be repeated, and it counts to 255. -/
def turnOn (flags : Flags) (s : Switch) : Except FlagFault Flags :=
  match s with
  | .help => .error .helpAsked
  | .verbose =>
    .ok { flags with
      used := flags.used.erase (.switch .verbose) ++ [.switch .verbose]
      verbosity := min (flags.verbosity + 1) 255 }
  | s =>
    if flags.has s then .error (.repeated (.switch s))
    else .ok { flags with used := flags.used ++ [.switch s] }

/-- Switches for more output and a log level exclude each other. -/
def check (flags : Flags) : Except FlagFault Flags :=
  match flags.used.filter fun flag => flag == .setting .logLevel || flag == .switch .verbose with
  | [flag, other] => .error (.excluded flag other (flags.used.erase other))
  | _ => .ok flags

end Flags

/-- A setting that waits for its value, or has one that is not set yet. -/
structure Pending where
  setting : Setting
  value : Option String

def settle (flags : Flags) : Option Pending → Except FlagFault Flags
  | none => .ok flags
  | some ⟨s, some value⟩ => flags.set s value
  | some ⟨s, none⟩ => .error (.noValue (.setting s))

/-- The flags that were used, with what is pending. One that cannot be set does not count. -/
def usedWith (flags : Flags) (pending : Option Pending) : List Flag :=
  match settle flags pending with
  | .ok flags => flags.used
  | .error (.repeated flag) => flags.used.erase flag
  | .error _ => flags.used

abbrev Step := Except FlagFault (Flags × Option Pending)

/-- A flag that has a value right behind it or none. -/
def takeFlag (flags : Flags) (pending : Option Pending) (flag : Flag) (attached : Option String) :
    Step := do
  match flag, attached with
  | .switch s, some value => throw (.extraValue (.switch s) value (flags.used ++ [.switch s]))
  | .switch s, none => return (← (← settle flags pending).turnOn s, none)
  | .setting s, some value => return (← (← settle flags pending).set s value, none)
  | .setting s, none => return (← settle flags pending, some ⟨s, none⟩)

def attachedValue : List Char → Option String
  | [] => none
  | '=' :: value => some (.ofList value)
  | value => some (.ofList value)

/-- Letters behind one dash. The first that has a value takes the rest for it. -/
def takeLetters (flags : Flags) (pending : Option Pending) : List Char → Step
  | [] => .ok (flags, pending)
  | c :: rest =>
    match Flag.ofLetter? c with
    | none => .error (.unknown (.ofList ['-', c]))
    | some (.setting s) => takeFlag flags pending (.setting s) (attachedValue rest)
    | some (.switch s) => do
      let (flags, pending) ← takeFlag flags pending (.switch s) none
      takeLetters flags pending rest

/-- A name behind two dashes, with a value behind an equals sign or none. -/
def takeName (flags : Flags) (pending : Option Pending) (cs : List Char) : Step :=
  let name := cs.takeWhile (· != '=')
  match Flag.ofName? name with
  | none =>
    let meant := Flag.alike? name
    .error (.unknownName (.ofList ('-' :: '-' :: name)) meant
      (usedWith flags pending ++ meant.toList))
  | some flag =>
    let attached := if cs.contains '=' then some (.ofList (cs.drop (name.length + 1))) else none
    takeFlag flags pending flag attached

/-- Anything that is no flag: the value that is waited for. -/
def takeValue (flags : Flags) (pending : Option Pending) (argument : String) : Step :=
  match pending with
  | some ⟨s, none⟩ => .ok (flags, some ⟨s, some argument⟩)
  | _ => .error (.unknown argument)

/-- Takes the arguments one by one. Two dashes end the flags. -/
def takeAll (flags : Flags) (pending : Option Pending) : List String → Except FlagFault Flags
  | [] => do (← settle flags pending).check
  | argument :: rest =>
    match argument.toList with
    | ['-', '-'] =>
      match rest with
      | [] => do (← settle flags pending).check
      | value :: _ => .error (.unknown value)
    | '-' :: '-' :: cs => do
      let (flags, pending) ← takeName flags pending cs
      takeAll flags pending rest
    | '-' :: c :: cs => do
      let (flags, pending) ← takeLetters flags pending (c :: cs)
      takeAll flags pending rest
    | _ => do
      let (flags, pending) ← takeValue flags pending argument
      takeAll flags pending rest

def Flags.ofArguments (arguments : List String) : Except FlagFault Flags :=
  takeAll .empty none arguments

end ObjectVault.Launch
