import ObjectVault.Json.Reader
import ObjectVault.Toml.Fault

namespace ObjectVault.Toml

/-- Where reading stops, by the text that is left. -/
structure Stop where
  cause : Cause
  left : List Char

def stop {α : Type} (cause : Cause) (left : List Char) : Except Stop α :=
  .error ⟨cause, left⟩

/-- The characters that lines may hold: all but control characters other than the tab. -/
def isPlain (c : Char) : Bool :=
  c == '\t' || (' ' ≤ c && c != '\x7f')

def isSpace (c : Char) : Bool :=
  c == ' ' || c == '\t'

def lineEnd? : List Char → Option (List Char)
  | '\n' :: rest => some rest
  | '\r' :: '\n' :: rest => some rest
  | _ => none

def ofHex (digits left : List Char) : Except Stop Char :=
  match digits.mapM Json.hexValue with
  | none => stop (.shortCode digits.length) left
  | some values =>
    let n := values.foldl (fun n d => 16 * n + d) 0
    if n.isValidChar then .ok (.ofNat n) else stop (.noCharacter digits.length) left

/-- The character that a letter stands for behind a backslash. -/
def escaped : Char → Option Char
  | 'b' => some '\x08'
  | 't' => some '\t'
  | 'n' => some '\n'
  | 'f' => some '\x0c'
  | 'r' => some '\r'
  | '"' => some '"'
  | '\\' => some '\\'
  | _ => none

/-- The character of an escape by letter, from its letter. -/
def ofLetter (letter : Char) (left : List Char) : Except Stop Char :=
  match escaped letter with
  | some c => .ok c
  | none =>
    if letter == 'u' then stop (.shortCode 4) left
    else if letter == 'U' then stop (.shortCode 8) left
    else stop .escape left

def putFirst (c : Char) (read : Except Stop (List Char × List Char)) :
    Except Stop (List Char × List Char) :=
  read.map fun (text, rest) => (c :: text, rest)

/-- A text in double quotes, behind the first quote. -/
def basicText : List Char → Except Stop (List Char × List Char)
  | [] => stop (.openText .basic) []
  | '"' :: rest => .ok ([], rest)
  | '\\' :: 'u' :: a :: b :: c :: d :: rest => do
    putFirst (← ofHex [a, b, c, d] (a :: b :: c :: d :: rest)) (basicText rest)
  | '\\' :: 'U' :: a :: b :: c :: d :: e :: f :: g :: h :: rest => do
    putFirst (← ofHex [a, b, c, d, e, f, g, h] (a :: b :: c :: d :: e :: f :: g :: h :: rest))
      (basicText rest)
  | '\\' :: c :: rest => do putFirst (← ofLetter c rest) (basicText rest)
  | c :: rest =>
    if isPlain c && c != '\\' then putFirst c (basicText rest)
    else stop (.openText .basic) (c :: rest)

/-- A text in single quotes, behind the first quote. -/
def literalText : List Char → Except Stop (List Char × List Char)
  | [] => stop (.openText .literal) []
  | '\'' :: rest => .ok ([], rest)
  | c :: rest =>
    if isPlain c then putFirst c (literalText rest) else stop (.openText .literal) (c :: rest)

/-- Where a text of several lines stands: in the text, or behind a backslash at the end of a line,
which also takes away the blanks of the next lines. -/
inductive Joint
  | text
  | lineEnd
  | blanks

/-- A text of several lines in double quotes, behind the first three. Up to two quotes may stand
before the last three. -/
def basicLines : Joint → List Char → Except Stop (List Char × List Char)
  | _, [] => stop (.openText .basicLines) []
  | .lineEnd, '\n' :: rest => basicLines .blanks rest
  | .lineEnd, '\r' :: '\n' :: rest => basicLines .blanks rest
  | .lineEnd, c :: rest =>
    if isSpace c then basicLines .lineEnd rest else stop (.openText .basicLines) (c :: rest)
  | .blanks, '\n' :: rest => basicLines .blanks rest
  | .blanks, '\r' :: '\n' :: rest => basicLines .blanks rest
  | .blanks, ' ' :: rest => basicLines .blanks rest
  | .blanks, '\t' :: rest => basicLines .blanks rest
  | _, '"' :: '"' :: '"' :: '"' :: '"' :: rest => .ok (['"', '"'], rest)
  | _, '"' :: '"' :: '"' :: '"' :: rest => .ok (['"'], rest)
  | _, '"' :: '"' :: '"' :: rest => .ok ([], rest)
  | _, '\\' :: 'u' :: a :: b :: c :: d :: rest => do
    putFirst (← ofHex [a, b, c, d] (a :: b :: c :: d :: rest)) (basicLines .text rest)
  | _, '\\' :: 'U' :: a :: b :: c :: d :: e :: f :: g :: h :: rest => do
    putFirst (← ofHex [a, b, c, d, e, f, g, h] (a :: b :: c :: d :: e :: f :: g :: h :: rest))
      (basicLines .text rest)
  | _, '\\' :: '\n' :: rest => basicLines .blanks rest
  | _, '\\' :: '\r' :: rest => basicLines .lineEnd ('\r' :: rest)
  | _, '\\' :: ' ' :: rest => basicLines .lineEnd rest
  | _, '\\' :: '\t' :: rest => basicLines .lineEnd rest
  | _, '\\' :: c :: rest => do putFirst (← ofLetter c rest) (basicLines .text rest)
  | _, '\r' :: '\n' :: rest => putFirst '\n' (basicLines .text rest)
  | _, '\n' :: rest => putFirst '\n' (basicLines .text rest)
  | _, c :: rest =>
    if isPlain c && c != '\\' then putFirst c (basicLines .text rest)
    else stop (.openText .basicLines) (c :: rest)

/-- A text of several lines in single quotes, behind the first three. -/
def literalLines : List Char → Except Stop (List Char × List Char)
  | [] => stop (.openText .literalLines) []
  | '\'' :: '\'' :: '\'' :: '\'' :: '\'' :: rest => .ok (['\'', '\''], rest)
  | '\'' :: '\'' :: '\'' :: '\'' :: rest => .ok (['\''], rest)
  | '\'' :: '\'' :: '\'' :: rest => .ok ([], rest)
  | '\r' :: '\n' :: rest => putFirst '\n' (literalLines rest)
  | '\n' :: rest => putFirst '\n' (literalLines rest)
  | c :: rest =>
    if isPlain c then putFirst c (literalLines rest) else stop (.openText .literalLines) (c :: rest)

/-- A line end right behind the first three quotes does not count. -/
def behindLineEnd (cs : List Char) : List Char :=
  (lineEnd? cs).getD cs

/-- A text in one of the four kinds of quotes. -/
def quotedText : List Char → Except Stop (List Char × List Char)
  | '"' :: '"' :: '"' :: rest => basicLines .text (behindLineEnd rest)
  | '"' :: rest => basicText rest
  | '\'' :: '\'' :: '\'' :: rest => literalLines (behindLineEnd rest)
  | '\'' :: rest => literalText rest
  | cs => stop .noValue cs

end ObjectVault.Toml
