import ObjectVault.Toml.Moment
import ObjectVault.Toml.Number
import ObjectVault.Toml.Quoted
import ObjectVault.Toml.Tree

namespace ObjectVault.Toml
open ObjectVault.Decimal

def skipSpace (cs : List Char) : List Char :=
  cs.dropWhile isSpace

/-- The rest behind a comment, if one stands here. -/
def skipComment : List Char → List Char
  | '#' :: rest => rest.dropWhile isPlain
  | cs => cs

/-- The rest of the text behind the end of a line, which may have a comment. -/
def endLine (cause : Cause) (cs : List Char) : Except Stop (List Char) :=
  match skipComment (skipSpace cs) with
  | [] => .ok []
  | cs =>
    match lineEnd? cs with
    | some rest => .ok rest
    | none => stop cause cs

/-- The rest behind blanks, line ends and comments. -/
def skipLines : (fuel : Nat) → List Char → List Char
  | 0, cs => cs
  | fuel + 1, cs =>
    let cs := skipSpace cs
    match cs, lineEnd? (skipComment cs) with
    | _, some rest => skipLines fuel rest
    | cs, none => cs

/-- The rest behind a text that has to stand here. -/
def expect (cause : Cause) (mark : List Char) (cs : List Char) : Except Stop (List Char) :=
  if mark.isPrefixOf cs then .ok (cs.drop mark.length) else stop cause cs

def spanOf (start rest : List Char) : Span :=
  ⟨start.length, start.length - rest.length⟩

def isKeyChar (c : Char) : Bool :=
  c.isAlphanum || c == '_' || c == '-'

/-- A key without dots, in quotes of one line or without quotes. -/
def simpleKey : List Char → Except Stop (String × List Char)
  | '"' :: rest => (basicText rest).map fun (text, rest) => (.ofList text, rest)
  | '\'' :: rest => (literalText rest).map fun (text, rest) => (.ofList text, rest)
  | cs =>
    let name := cs.takeWhile isKeyChar
    if name.isEmpty then stop .noKey cs else .ok (.ofList name, cs.dropWhile isKeyChar)

/-- The parts of a key behind its first one, each behind a dot. A dot with no key behind it is not
a part of the key. -/
def moreParts : (fuel : Nat) → List Char → Except Stop (List String × List Char)
  | 0, cs => .ok ([], cs)
  | fuel + 1, cs =>
    match cs with
    | '.' :: rest =>
      match simpleKey (skipSpace rest) with
      | .ok (part, rest) =>
        (moreParts fuel (skipSpace rest)).map fun (parts, rest) => (part :: parts, rest)
      | .error fault => if fault.cause = .noKey then .ok ([], cs) else .error fault
    | cs => .ok ([], cs)

/-- The number of values that may stand in one another, and of parts that a key may have. -/
def maxDepth : Nat := 79

/-- The parts of a key stand between dots. -/
def key (cs : List Char) : Except Stop (Key × List Char) := do
  let start := skipSpace cs
  let (first, rest) ← simpleKey start
  let span := spanOf start rest
  let (others, rest) ← moreParts rest.length (skipSpace rest)
  let parts := first :: others
  if parts.length ≤ maxDepth then return (⟨parts.dropLast, parts.getLastD first, span⟩, rest)
  else stop .nesting cs

/-- A number is not followed by an underscore. -/
def endNumber (value : Scalar) : List Char → Except Stop (Scalar × List Char)
  | '_' :: rest => stop .noDigit rest
  | rest => .ok (value, rest)

def number (cs : List Char) : Except Stop (Scalar × List Char) :=
  match float cs with
  | some (x, rest) => endNumber (.float x) rest
  | none =>
    match wholeNumber cs with
    | some (n, rest) =>
      if fitsInt64 n then endNumber (.integer n) rest
      else stop (if n < 0 then .tooSmall else .tooLarge) cs
    | none =>
      match cs with
      | [] => stop .stray []
      | '_' :: _ => stop .noLeadingDigit cs
      | '.' :: _ => stop .noLeadingDigitOfFloat cs
      | c :: rest =>
        if c == '+' || c == '-' then stop .brokenInteger rest
        else if c.isDigit then stop .brokenInteger cs
        else stop .noValue cs

/-- The value of a word or a number. -/
def plainValue : List Char → Except Stop (Scalar × List Char)
  | 't' :: 'r' :: 'u' :: 'e' :: rest => .ok (.boolean true, rest)
  | 'f' :: 'a' :: 'l' :: 's' :: 'e' :: rest => .ok (.boolean false, rest)
  | cs =>
    match moment cs with
    | some rest => .ok (.time, rest)
    | none => number cs

/-- Whether nothing of a value was read before the stop. The beginning of a truth value counts as
a part of one. -/
def Stop.beforeValue (fault : Stop) (cs : List Char) : Bool :=
  (fault.cause = .noValue || fault.cause = .stray || fault.cause = .brokenInteger) &&
    !(cs.take 1 == ['t'] || cs.take 1 == ['f'])

mutual

/-- A value, in which others may stand up to a depth. -/
def value : (fuel depth : Nat) → List Char → Except Stop (Scalar × List Char)
  | 0, _, cs => stop .nesting cs
  | fuel + 1, depth, cs =>
    match cs with
    | '[' :: rest =>
      match depth with
      | 0 => stop .nesting cs
      | depth + 1 => (items fuel depth rest).map (.array, ·)
    | '\x7b' :: rest =>
      match depth with
      | 0 => stop .nesting cs
      | depth + 1 =>
        match skipSpace rest with
        | '\x7d' :: rest => .ok (.inlineTable, rest)
        | rest => (pairs fuel depth [] rest rest).map (.inlineTable, ·)
    | '"' :: _ | '\'' :: _ => (quotedText cs).map fun (text, rest) => (.string (.ofList text), rest)
    | _ => plainValue cs

/-- The rest behind the values of an array. A comma may stand behind the last one. -/
def items : (fuel depth : Nat) → List Char → Except Stop (List Char)
  | 0, _, cs => stop .nesting cs
  | fuel + 1, depth, cs =>
    match skipLines (cs.length + 1) cs with
    | ']' :: rest => .ok rest
    | cs =>
      match value fuel depth cs with
      | .error fault => if fault.beforeValue cs then stop .openArray cs else .error fault
      | .ok (_, rest) =>
        match skipLines (rest.length + 1) rest with
        | ',' :: rest => items fuel depth rest
        | ']' :: rest => .ok rest
        | rest => stop .openArray rest

/-- The rest behind the keys of an inline table, which differ. `start` is the text from the comma
before the keys, if there is one. -/
def pairs : (fuel depth : Nat) → Fields → (start cs : List Char) → Except Stop (List Char)
  | 0, _, _, _, cs => stop .nesting cs
  | fuel + 1, depth, fields, start, cs =>
    match key cs with
    | .error fault => if fault.cause = .noKey then stop .openInlineTable start else .error fault
    | .ok (key, rest) => do
      let rest := skipSpace (← expect .noEquals ['='] rest)
      let (v, rest) ← value fuel depth rest
      match fields.assign key.name key.span (.leaf v key.span) key.path with
      | .error .taken => stop (.repeatedPart key.name) cs
      | .error (.blocked part) => stop (.repeatedPart part) cs
      | .ok fields =>
        match skipSpace rest with
        | ',' :: after => pairs fuel depth fields (',' :: after) after
        | '\x7d' :: rest => return rest
        | rest => stop .openInlineTable rest

end

/-- The fault of a header at the beginning of the text. -/
def headerConflict (key : Key) (cs : List Char) : Conflict → Stop
  | .taken => ⟨.repeatedTable key.name key.path, cs⟩
  | .blocked part => ⟨.repeatedTable part key.path, cs⟩

/-- The fault of a key at the beginning of the text, in a table. -/
def keyConflict (key : Key) (place : List String) (cs : List Char) : Conflict → Stop
  | .taken => ⟨.repeatedKey key.name place, cs⟩
  | .blocked part => ⟨.repeatedPart part, cs⟩

/-- Reads a header, with its first and last brackets, to the end of its line. -/
def header (first last : List Char) (missing : Cause)
    (openWith : String → Span → Fields → Except Conflict Fields) (fields : Fields)
    (cs : List Char) : Except Stop ((List String × Fields) × List Char) := do
  let (key, rest) ← key (cs.drop first.length)
  let rest ← expect missing last rest
  let after ← endLine .noLineEndOfHeader rest
  let fields ← (fields.descend key.span (openWith key.name (spanOf cs rest)) key.path).mapError
    (headerConflict key cs)
  return ((key.path ++ [key.name], fields), after)

/-- Reads a key with its value in a table, to the end of their line. -/
def keyValue (place : List String) (fields : Fields) (cs : List Char) :
    Except Stop (Fields × List Char) := do
  let (key, rest) ← key cs
  let start := skipSpace (← expect .noEquals ['='] rest)
  let (v, rest) ← value (2 * start.length + 2) maxDepth start
  let after ← endLine .noLineEnd rest
  let node := .leaf v (spanOf start rest)
  let fields ← (fields.descend key.span (·.assign key.name key.span node key.path) place).mapError
    (keyConflict key place cs)
  return (fields, after)

/-- Reads the rest of a document. `place` is the table that the last header opened. -/
def lines : (fuel : Nat) → (place : List String) → Fields → List Char → Except Stop Fields
  | 0, _, _, cs => stop .stray cs
  | fuel + 1, place, fields, cs =>
    match skipSpace cs with
    | [] => .ok fields
    | '[' :: '[' :: rest => do
      let ((place, fields), rest) ←
        header ['[', '['] [']', ']'] .openRowHeader Fields.openRow fields ('[' :: '[' :: rest)
      lines fuel place fields rest
    | '[' :: rest => do
      let ((place, fields), rest) ←
        header ['['] [']'] .openHeader Fields.openTable fields ('[' :: rest)
      lines fuel place fields rest
    | '#' :: rest => do lines fuel place fields (← endLine .stray ('#' :: rest))
    | cs =>
      match lineEnd? cs with
      | some rest => lines fuel place fields rest
      | none =>
        if cs.take 1 == ['\r'] then stop .stray cs
        else do
          let (fields, rest) ← keyValue place fields cs
          lines fuel place fields rest

/-- A stop as a fault of the whole text. -/
def Stop.fault (fault : Stop) (text : List Char) : Fault :=
  ⟨fault.cause, Span.excerpt ⟨fault.left.length, 1⟩ text⟩

/-- The fields of a document, which may begin with a byte order mark. -/
def fieldsOf (text : String) : Except Fault Fields :=
  let cs := text.toList
  let body := match cs with
    | '\uFEFF' :: rest => rest
    | cs => cs
  (lines (body.length + 1) [] [] body).mapError (·.fault cs)

end ObjectVault.Toml
