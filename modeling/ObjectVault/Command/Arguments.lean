import ObjectVault.Table
import ObjectVault.Text.Blank

namespace ObjectVault.Command
open ObjectVault.Text

/-- Why a line is no command. -/
inductive Malformed
  | quoteInsideToken (quote : Char) (before : String)
  | unterminatedQuote (quote : Char)
  | keywordWithoutValue (keyword : String)
  | unbalancedQuotes (text : String)
  | missingKeyword (keyword : String)
  | noAction (expected : List String)
  | twoActions (first second : String)
deriving DecidableEq, Repr

def Malformed.reason : Malformed → String
  | .quoteInsideToken quote before => s!"quote {quote} must start a new token (after '{before}')"
  | .unterminatedQuote quote => s!"unterminated {quote} quote"
  | .keywordWithoutValue keyword => s!"keyword '{keyword}' has no value"
  | .unbalancedQuotes text => s!"unbalanced quotes in {text}"
  | .missingKeyword keyword => s!"keyword '{keyword}' is required"
  | .noAction expected =>
    "no action keyword, expected one of: " ++ ", ".intercalate expected
  | .twoActions first second => s!"more than one action keyword: {first} and {second}"

def Malformed.message (fault : Malformed) : String :=
  "malformed command: " ++ fault.reason

/-- Either quote opens a literal, which the same quote closes. -/
def isQuote (c : Char) : Bool :=
  c == '"' || c == '\''

/-- The token under construction, if there is one. -/
def pending (current : List Char) : List (List Char) :=
  if current.isEmpty then [] else [current]

/-- A blank ends a token, except after a comma: a list may have blanks behind its commas. -/
def endsToken (current : List Char) : Bool :=
  !current.isEmpty && current.getLast? != some ','

/-- Reads the rest of a line. `quote` is the quote that is open, `escaped` says whether the last
character was a backslash, and `current` holds the token under construction. -/
def scan (quote : Option Char) (escaped : Bool) (current : List Char) :
    List Char → Except Malformed (List (List Char))
  | [] =>
    match quote with
    | some q => .error (.unterminatedQuote q)
    | none => .ok (pending current)
  | c :: rest =>
    match quote with
    | some q =>
      if c == q && !escaped then
        (scan none false [] rest).map ((current ++ [c]) :: ·)
      else scan (some q) (c == '\\') (current ++ [c]) rest
    | none =>
      if isQuote c then
        if current.isEmpty then scan (some c) false [c] rest
        else .error (.quoteInsideToken c (.ofList current))
      else if isBlank c then
        if endsToken current then (scan none false [] rest).map (current :: ·)
        else scan none false current rest
      else if c == '#' then .ok (pending current)
      else scan none false (current ++ [c]) rest

/-- The tokens of a line: words and quoted literals, with the quotes, up to a comment. -/
def tokens (line : String) : Except Malformed (List String) :=
  (scan none false [] (trim line.toList)).map (·.map String.ofList)

/-- Inside a literal a backslash before the quote stands for the quote alone. -/
def unescape (quote : Char) : List Char → List Char
  | [] => []
  | [c] => [c]
  | c :: d :: rest =>
    if c == '\\' && d == quote then quote :: unescape quote rest
    else c :: unescape quote (d :: rest)

/-- The text of a literal; a token without an opening quote is its own text. -/
def unquote (token : String) : Except Malformed String :=
  match token.toList with
  | [] => .ok token
  | quote :: rest =>
    if isQuote quote then
      if rest.getLast? == some quote then .ok (.ofList (unescape quote rest.dropLast))
      else .error (.unbalancedQuotes token)
    else .ok token

def escape (quote : Char) (text : List Char) : List Char :=
  text.flatMap fun c => if c == quote then ['\\', c] else [c]

def quoted (quote : Char) (text : String) : String :=
  .ofList (quote :: escape quote text.toList ++ [quote])

/-- The value of each keyword of a command. -/
abbrev Arguments := Table String

/-- A keyword may be written with dashes in front. -/
def withoutDashes (keyword : String) : String :=
  .ofList (keyword.toList.dropWhile (· == '-'))

def pairs : List String → Except Malformed (List (String × String))
  | [] => .ok []
  | [keyword] => .error (.keywordWithoutValue keyword)
  | keyword :: value :: rest => (pairs rest).map ((withoutDashes keyword, value) :: ·)

/-- Takes the tokens as keywords with their values; a repeated keyword has its last value. -/
def Arguments.ofTokens (ts : List String) : Except Malformed Arguments :=
  (pairs ts).map Table.ofList

def Arguments.ofLine (line : String) : Except Malformed Arguments := do
  Arguments.ofTokens (← tokens line)

/-- The value of a keyword that the command cannot do without. -/
def Arguments.need (arguments : Arguments) (keyword : String) : Except Malformed String :=
  match arguments.get? keyword with
  | some value => .ok value
  | none => .error (.missingKeyword keyword)

end ObjectVault.Command
