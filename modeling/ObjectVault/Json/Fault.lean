import ObjectVault.Text.Utf8

namespace ObjectVault.Json

/-- What is wrong where a text stops being a document. -/
inductive Cause
  | endInValue
  | endInString
  | endInArray
  | endInObject
  | noValue
  | otherWord
  | noKey
  | noColon
  | noItemEnd
  | noFieldEnd
  | trailingComma
  | trailingText
  | number
  | numberRange
  | escape
  | controlCharacter
  | loneSurrogate
  | cutSurrogatePair
  | codePoint
  | nesting
deriving DecidableEq

def Cause.message : Cause → String
  | endInValue => "EOF while parsing a value"
  | endInString => "EOF while parsing a string"
  | endInArray => "EOF while parsing a list"
  | endInObject => "EOF while parsing an object"
  | noValue => "expected value"
  | otherWord => "expected ident"
  | noKey => "key must be a string"
  | noColon => "expected `:`"
  | noItemEnd => "expected `,` or `]`"
  | noFieldEnd => "expected `,` or `\x7d`"
  | trailingComma => "trailing comma"
  | trailingText => "trailing characters"
  | number => "invalid number"
  | numberRange => "number out of range"
  | escape => "invalid escape"
  | controlCharacter => "control character (\\u0000-\\u001F) found while parsing a string"
  | loneSurrogate => "lone leading surrogate in hex escape"
  | cutSurrogatePair => "unexpected end of hex escape"
  | codePoint => "invalid unicode code point"
  | nesting => "recursion limit exceeded"

/-- A cause with its place: the number of the line, and the bytes of that line up to the place. -/
structure Fault where
  cause : Cause
  line : Nat
  column : Nat
deriving DecidableEq

def Fault.message (fault : Fault) : String :=
  s!"{fault.cause.message} at line {fault.line} column {fault.column}"

/-- The fault at the end of what was read. -/
def Cause.behind (cause : Cause) (read : List Char) : Fault :=
  { cause
    line := 1 + Text.lineEnds read
    column := Text.byteCount (Text.lastLine read) }

end ObjectVault.Json
