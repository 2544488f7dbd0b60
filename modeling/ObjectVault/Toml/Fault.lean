import ObjectVault.Text.Utf8

namespace ObjectVault.Toml
open ObjectVault.Text

/-- The ways to write a text: with escapes or without, on one line or on several. -/
inductive Quotes
  | basic
  | basicLines
  | literal
  | literalLines
deriving DecidableEq

def Quotes.name : Quotes → String
  | basic => "basic string"
  | basicLines => "multiline basic string"
  | literal => "literal string"
  | literalLines => "multiline literal string"

/-- What is wrong with a text that is no document, or with a value in a document. -/
inductive Cause
  | stray
  | noKey
  | noEquals
  | noValue
  | noDigit
  | noLeadingDigit
  | noLeadingDigitOfFloat
  | brokenInteger
  | tooLarge
  | tooSmall
  | openText (quotes : Quotes)
  | escape
  | shortCode (digits : Nat)
  | noCharacter (digits : Nat)
  | noLineEnd
  | noLineEndOfHeader
  | openHeader
  | openRowHeader
  | openArray
  | openInlineTable
  | nesting
  | repeatedKey (key : String) (table : List String)
  | repeatedPart (key : String)
  | repeatedTable (key : String) (table : List String)
  | wrongKind (found expected : String)
  | wrongNumber (found expected : String)
deriving DecidableEq

/-- The name of the table that a header leads to. -/
def tableName : List String → String
  | [] => "document root"
  | path => "table `" ++ ".".intercalate path ++ "`"

def Cause.message : Cause → String
  | stray => ""
  | noKey => "invalid key"
  | noEquals => "expected `.`, `=`"
  | noValue => "invalid string\nexpected `\"`, `'`"
  | noDigit => "invalid integer\nexpected digit"
  | noLeadingDigit => "invalid integer\nexpected leading digit"
  | noLeadingDigitOfFloat => "invalid floating-point number\nexpected leading digit"
  | brokenInteger => "invalid integer"
  | tooLarge => "number too large to fit in target type"
  | tooSmall => "number too small to fit in target type"
  | openText quotes => "invalid " ++ quotes.name
  | escape =>
    "invalid escape sequence\nexpected `b`, `f`, `n`, `r`, `t`, `u`, `U`, `\\`, `\"`"
  | shortCode digits => s!"invalid unicode {digits}-digit hex code"
  | noCharacter digits => s!"invalid unicode {digits}-digit hex code\nvalue is out of range"
  | noLineEnd => "expected newline, `#`"
  | noLineEndOfHeader => "invalid table header\nexpected newline, `#`"
  | openHeader => "invalid table header\nexpected `.`, `]`"
  | openRowHeader => "invalid table header\nexpected `.`, `]]`"
  | openArray => "invalid array\nexpected `]`"
  | openInlineTable => "invalid inline table\nexpected `\x7d`"
  | nesting => "recursion limit exceeded"
  | repeatedKey key table => s!"duplicate key `{key}` in " ++ tableName table
  | repeatedPart key => s!"duplicate key `{key}`"
  | repeatedTable key table =>
    s!"invalid table header\nduplicate key `{key}` in " ++ tableName table
  | wrongKind found expected => s!"invalid type: {found}, expected {expected}"
  | wrongNumber found expected => s!"invalid value: {found}, expected {expected}"

/-- A line of a document with a mark under a part of it. The numbers count from zero. -/
structure Excerpt where
  row : Nat
  column : Nat
  line : String
  width : Nat
deriving DecidableEq

def Excerpt.lines (excerpt : Excerpt) : List String :=
  let number := toString (excerpt.row + 1)
  let margin := "".pushn ' ' (number.length + 1) ++ "|"
  [s!"TOML parse error at line {number}, column {excerpt.column + 1}",
    margin,
    s!"{number} | {excerpt.line}",
    margin ++ "".pushn ' ' (excerpt.column + 1) ++ "".pushn '^' excerpt.width]

/-- A cause with its place. -/
structure Fault where
  cause : Cause
  excerpt : Excerpt
deriving DecidableEq

def Fault.message (fault : Fault) : String :=
  "\n".intercalate (fault.excerpt.lines ++ [fault.cause.message, ""])

/-- The part of a document before `left` characters and the next `count` of them. -/
structure Span where
  left : Nat
  count : Nat
deriving DecidableEq

/-- The line of a span with a mark under it. The mark stays on the line and is one wide at least.
Columns count characters, but bytes in front of a character of several bytes. The end of a text that
ends with a line break counts as a part of the last line. -/
def Span.excerpt (span : Span) (text : List Char) : Excerpt :=
  let read := text.take (text.length - span.left)
  let next := text.drop (text.length - span.left)
  let before := if next.isEmpty then read.dropLast else read
  let line := lastLine before
  let row := lineEnds before
  let column :=
    if next.isEmpty then (if read.isEmpty then 0 else line.length + 1)
    else if (next.take 1).all (·.utf8Size == 1) then line.length
    else byteCount line
  let shown := ((String.ofList text).splitOn "\n").getD row ""
  { row, column
    line := shown
    width := max 1 (min (byteCount (next.take span.count)) (shown.utf8ByteSize - column)) }

end ObjectVault.Toml
