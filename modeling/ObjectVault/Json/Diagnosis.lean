import ObjectVault.Json.Fault
import ObjectVault.Json.Reader

namespace ObjectVault.Json

/-- Where reading stops, by the text that is left. The fault lies in the first character left, or in
the last one read. -/
structure Stop where
  cause : Cause
  ahead : Bool
  left : List Char

/-- The fault of a stop in a text. Of a character ahead, one byte counts as read. -/
def Stop.fault (stop : Stop) (text : List Char) : Fault :=
  let read := text.take (text.length - stop.left.length)
  let next := if stop.ahead then stop.left.take 1 else []
  stop.cause.behind (read ++ next.map fun c => if c == '\n' then c else ' ')

/-- The rest behind what was read, or a stop. -/
abbrev Passage := Except Stop (List Char)

def stopBehind (cause : Cause) (left : List Char) : Passage :=
  .error ⟨cause, false, left⟩

def stopBefore (cause : Cause) (left : List Char) : Passage :=
  .error ⟨cause, true, left⟩

/-- Passes the rest of a string. The second half of a surrogate pair has to come at once if the
first half was read last. -/
def passString : (halfRead : Bool) → List Char → Passage
  | _, [] => stopBehind .endInString []
  | true, '\\' :: 'u' :: a :: b :: c :: d :: rest =>
    match hexFour a b c d with
    | none => stopBehind .escape rest
    | some n =>
      if 0xDC00 ≤ n && n ≤ 0xDFFF then passString false rest else stopBehind .loneSurrogate rest
  | true, '\\' :: 'u' :: _ => stopBehind .endInString []
  | true, ['\\'] => stopBehind .endInString []
  | true, '\\' :: _ :: rest => stopBehind .cutSurrogatePair rest
  | true, _ :: rest => stopBehind .cutSurrogatePair rest
  | false, '"' :: rest => .ok rest
  | false, '\\' :: 'u' :: a :: b :: c :: d :: rest =>
    match hexFour a b c d with
    | none => stopBehind .escape rest
    | some n =>
      if 0xDC00 ≤ n && n ≤ 0xDFFF then stopBehind .loneSurrogate rest
      else passString (0xD800 ≤ n && n ≤ 0xDBFF) rest
  | false, '\\' :: 'u' :: _ => stopBehind .endInString []
  | false, ['\\'] => stopBehind .endInString []
  | false, '\\' :: c :: rest =>
    if (escaped c).isSome then passString false rest else stopBehind .escape rest
  | false, c :: rest =>
    if c.toNat < 32 then stopBehind .controlCharacter rest else passString false rest

def passWord : (word : List Char) → List Char → Passage
  | [], cs => .ok cs
  | _ :: _, [] => stopBehind .endInValue []
  | w :: word, c :: rest => if c = w then passWord word rest else stopBehind .otherWord rest

/-- Passes the digits before the point, behind the sign. -/
def passWhole : List Char → Passage
  | [] => stopBehind .endInValue []
  | '0' :: c :: rest => if c.isDigit then stopBefore .number (c :: rest) else .ok (c :: rest)
  | c :: rest => if c.isDigit then .ok (rest.dropWhile Char.isDigit) else stopBehind .number rest

def passFraction : List Char → Passage
  | ['.'] => stopBefore .endInValue []
  | '.' :: c :: rest =>
    if c.isDigit then .ok (rest.dropWhile Char.isDigit) else stopBefore .number (c :: rest)
  | cs => .ok cs

def passExponent : List Char → Passage
  | [] => .ok []
  | mark :: rest =>
    if mark == 'e' || mark == 'E' then
      let digits := match rest with
        | '+' :: rest => rest
        | '-' :: rest => rest
        | rest => rest
      match digits with
      | [] => stopBehind .endInValue []
      | c :: rest =>
        if c.isDigit then .ok (rest.dropWhile Char.isDigit) else stopBehind .number rest
    else .ok (mark :: rest)

/-- Passes a number, which has to be one that is not too large. -/
def passNumber (cs : List Char) : Passage := do
  let unsigned := match cs with
    | '-' :: rest => rest
    | cs => cs
  let rest ← passExponent (← passFraction (← passWhole unsigned))
  match readNumber cs with
  | some (.unreadable, rest) => stopBehind .numberRange rest
  | _ => return rest

mutual

/-- Passes a value, in which others may stand up to a depth. -/
def passValue : (fuel depth : Nat) → List Char → Passage
  | 0, _, cs => .ok cs
  | fuel + 1, depth, cs =>
    match skipSpace cs with
    | [] => stopBefore .endInValue []
    | '"' :: rest => passString false rest
    | '[' :: rest =>
      match depth with
      | 0 => stopBefore .nesting ('[' :: rest)
      | depth + 1 =>
        match skipSpace rest with
        | [] => stopBefore .endInArray []
        | ']' :: rest => .ok rest
        | rest => passItems fuel depth rest
    | '\x7b' :: rest =>
      match depth with
      | 0 => stopBefore .nesting ('\x7b' :: rest)
      | depth + 1 =>
        match skipSpace rest with
        | [] => stopBefore .endInObject []
        | '\x7d' :: rest => .ok rest
        | rest => passFields fuel depth rest
    | 'n' :: rest => passWord ['u', 'l', 'l'] rest
    | 't' :: rest => passWord ['r', 'u', 'e'] rest
    | 'f' :: rest => passWord ['a', 'l', 's', 'e'] rest
    | c :: rest =>
      if c == '-' || c.isDigit then passNumber (c :: rest) else stopBefore .noValue (c :: rest)

/-- Passes the items of an array, behind its bracket or a comma. -/
def passItems : (fuel depth : Nat) → List Char → Passage
  | 0, _, cs => .ok cs
  | fuel + 1, depth, cs => do
    match skipSpace (← passValue fuel depth cs) with
    | [] => stopBefore .endInArray []
    | ']' :: rest => .ok rest
    | ',' :: rest =>
      match skipSpace rest with
      | ']' :: rest => stopBefore .trailingComma (']' :: rest)
      | rest => passItems fuel depth rest
    | rest => stopBefore .noItemEnd rest

/-- Passes the fields of an object, behind its brace or a comma. -/
def passFields : (fuel depth : Nat) → List Char → Passage
  | 0, _, cs => .ok cs
  | fuel + 1, depth, cs =>
    match skipSpace cs with
    | '"' :: rest => do
      match skipSpace (← passString false rest) with
      | [] => stopBefore .endInObject []
      | ':' :: rest =>
        match skipSpace (← passValue fuel depth rest) with
        | [] => stopBefore .endInObject []
        | '\x7d' :: rest => .ok rest
        | ',' :: rest =>
          match skipSpace rest with
          | [] => stopBefore .endInValue []
          | '\x7d' :: rest => stopBefore .trailingComma ('\x7d' :: rest)
          | rest => passFields fuel depth rest
        | rest => stopBefore .noFieldEnd rest
      | rest => stopBefore .noColon rest
    | rest => stopBefore .noKey rest

end

/-- The first fault of a text that is no document of values nested up to a depth. -/
def faultOf (depth : Nat) (text : List Char) : Fault :=
  match passValue (2 * text.length + 2) depth text with
  | .error stop => stop.fault text
  | .ok rest => Stop.fault ⟨.trailingText, true, skipSpace rest⟩ text

end ObjectVault.Json
