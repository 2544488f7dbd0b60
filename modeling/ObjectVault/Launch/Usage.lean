import ObjectVault.Launch.Flags

namespace ObjectVault.Launch

/-- The column of a flag in the list of flags. -/
def listedFlag (flag : Flag) : String :=
  (match flag.letter with
    | some c => String.ofList ['-', c, ',', ' ']
    | none => "    ") ++ flag.shown

/-- The list of flags with what each is for, aligned in two columns. -/
def flagLines : List String :=
  let width := (Flag.all.map fun flag => (listedFlag flag).length).foldl max 0
  Flag.all.map fun flag =>
    let listed := listedFlag flag
    "  " ++ listed ++ .ofList (List.replicate (width - listed.length + 2) ' ') ++ flag.purpose

/-- How the program is called: with options, or with those that were used. -/
def usageLine (used : List Flag) : String :=
  "Usage: datavault " ++
    if used.isEmpty then "[OPTIONS]" else " ".intercalate (used.eraseDups.map (·.shown))

def helpLines : List String :=
  ["Store, import and verify objects in an encrypted data vault", "", usageLine [], "", "Options:"]
    ++ flagLines

namespace FlagFault

def reason : FlagFault → String
  | unknown argument | unknownName argument _ _ => s!"unexpected argument '{argument}' found"
  | noValue flag => s!"a value is required for '{flag.shown}' but none was supplied"
  | repeated flag => s!"the argument '{flag.shown}' cannot be used multiple times"
  | excluded flag other _ =>
    s!"the argument '{flag.shown}' cannot be used with '{other.shown}'"
  | extraValue flag value _ =>
    s!"unexpected value '{value}' for '{flag.shown}' found; no more were expected"
  | helpAsked => ""

def advice : FlagFault → List String
  | unknownName _ (some flag) _ =>
    [s!"  tip: a similar argument exists: '--{flag.name}'", ""]
  | _ => []

def usage : FlagFault → List String
  | noValue _ | helpAsked => []
  | unknown _ | repeated _ => [usageLine [], ""]
  | unknownName _ _ used | excluded _ _ used | extraValue _ _ used => [usageLine used, ""]

/-- What is written about arguments that are not understood. -/
def lines (fault : FlagFault) : List String :=
  ["error: " ++ fault.reason, ""] ++ fault.advice ++ fault.usage ++
    ["For more information, try '--help'."]

end FlagFault
end ObjectVault.Launch
