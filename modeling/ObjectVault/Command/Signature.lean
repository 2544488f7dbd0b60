import ObjectVault.Command.Arguments
import ObjectVault.Command.Rule

namespace ObjectVault.Command

/-- The keywords of one form of a command. A keyword that is disallowed comes with the reason. -/
structure Signature where
  required : List (String × Rule)
  optional : List (String × Rule)
  disallowed : List (String × String)

/-- A keyword with the name of its rule. -/
def shownRule (rule : String × Rule) : String :=
  s!"{rule.1} <{rule.2.name}>"

/-- How one keyword fares. -/
inductive Finding
  | missing
  | wrong (explanation : String)
  | right
deriving DecidableEq

namespace Finding

/-- A keyword earns half a point by being there and half a point by a right value. -/
def halfPoints : Finding → Nat
  | missing => 0
  | wrong _ => 1
  | right => 2

theorem halfPoints_le (f : Finding) : f.halfPoints ≤ 2 := by
  cases f <;> simp [halfPoints]

/-- Findings earn no more than both half points of each keyword. -/
theorem foldl_halfPoints_le (findings : List Finding) (n : Nat) :
    (findings.map halfPoints).foldl (· + ·) n ≤ n + 2 * findings.length := by
  induction findings generalizing n with
  | nil => simp
  | cons f fs ih =>
    have own := f.halfPoints_le
    have rest := ih (n + f.halfPoints)
    rw [List.map_cons, List.foldl_cons, List.length_cons]
    omega

def explanation : Finding → Option String
  | missing => some "is missing"
  | wrong explanation => some explanation
  | right => none

def ofRule (context : Context) (arguments : Arguments) (rule : String × Rule) : Finding :=
  match arguments.get? rule.1 with
  | none => missing
  | some value =>
    match rule.2.check context value with
    | .ok true => right
    | .ok false => wrong ("not a " ++ rule.2.name)
    | .error e => wrong e.message

end Finding

/-- How well arguments fit some rules: the half points earned, the number of rules, and each rule
that is not met with an explanation. No rule earns more than two half points, and so nothing is
earned where there are no rules. -/
structure Concordance where
  halfPoints : Nat
  size : Nat
  misses : List (String × String)
  halfPoints_le : halfPoints ≤ 2 * size
deriving DecidableEq

namespace Concordance

def ofRules (context : Context) (arguments : Arguments) (rules : List (String × Rule)) :
    Concordance :=
  let findings := rules.map (Finding.ofRule context arguments)
  { halfPoints := (findings.map Finding.halfPoints).foldl (· + ·) 0
    size := rules.length
    misses := (rules.zip findings).filterMap fun (rule, finding) =>
      finding.explanation.map (shownRule rule, ·)
    halfPoints_le := by
      have total := Finding.foldl_halfPoints_le findings 0
      rwa [Nat.zero_add, List.length_map] at total }

/-- The share of the points that was earned. -/
def ratio (c : Concordance) : Float :=
  if c.size = 0 then 0 else Float.ofNat c.halfPoints / Float.ofNat (2 * c.size)

def isComplete (c : Concordance) : Bool :=
  0 < c.size && c.halfPoints == 2 * c.size

def compareRatio (a b : Concordance) : Ordering :=
  compare (a.halfPoints * max b.size 1) (b.halfPoints * max a.size 1)

def shownMiss (miss : String × String) : String :=
  s!"'{miss.1}': {miss.2}"

def diff (c : Concordance) : String :=
  ", ".intercalate (c.misses.map shownMiss)

end Concordance

namespace Signature

/-- The keyword that the form is known by. -/
def keyword (signature : Signature) : String :=
  (signature.required.head?.map Prod.fst).getD ""

def shownRules (rules : List (String × Rule)) : String :=
  " ".intercalate (rules.map shownRule)

def text (signature : Signature) : String :=
  s!"{shownRules signature.required} [{shownRules signature.optional}]"

def probe (signature : Signature) (context : Context) (arguments : Arguments) : Concordance :=
  .ofRules context arguments signature.required

/-- Every keyword of the rules that is there has a right value. -/
def checkRules (context : Context) (arguments : Arguments) (rules : List (String × Rule)) :
    Except CommandError Unit :=
  rules.forM fun rule =>
    match arguments.get? rule.1 with
    | none => .ok ()
    | some value => do
      if !(← rule.2.check context value) then
        throw (.rejected (.notA (shownRule rule) rule.2.name))

def absent (signature : Signature) (arguments : Arguments) : List (String × Rule) :=
  signature.required.filter fun rule => !arguments.contains rule.1

/-- The arguments have all required keywords, with right values, optional ones only with right
values, and no disallowed ones. -/
def validate (signature : Signature) (context : Context) (arguments : Arguments) :
    Except CommandError Unit := do
  checkRules context arguments signature.required
  let absent := signature.absent arguments
  if signature.required.isEmpty || !absent.isEmpty then
    throw (.rejected (.incomplete
      (", ".intercalate (absent.map fun rule =>
        Concordance.shownMiss (shownRule rule, "is missing")))))
  checkRules context arguments signature.optional
  match signature.disallowed.find? (arguments.contains ·.1) with
  | some (_, reason) => throw (.rejected (.disallowed reason))
  | none => return

def namesProbed (signature : Signature) (context : Context) (arguments : Arguments) :
    List String :=
  signature.required.flatMap fun rule =>
    ((arguments.get? rule.1).map (rule.2.lookedUp context)).getD []

/-- The names that the check of rules looks up, which ends with the first value that is wrong. -/
def namesChecked (context : Context) (arguments : Arguments) : List (String × Rule) → List String
  | [] => []
  | rule :: rest =>
    match arguments.get? rule.1 with
    | none => namesChecked context arguments rest
    | some value =>
      rule.2.lookedUp context value ++
        match rule.2.check context value with
        | .ok true => namesChecked context arguments rest
        | _ => []

end Signature
end ObjectVault.Command
