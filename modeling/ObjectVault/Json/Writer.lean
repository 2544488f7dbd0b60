import ObjectVault.Json.Number

namespace ObjectVault.Json

def hexChar (n : Nat) : Char :=
  if n < 10 then Char.ofNat (48 + n) else Char.ofNat (87 + n)

/-- A quote, a backslash and the control characters are escaped, by a letter where there is one. -/
def escapeChar (c : Char) : List Char :=
  if c = '"' then ['\\', '"']
  else if c = '\\' then ['\\', '\\']
  else if c = '\n' then ['\\', 'n']
  else if c = '\r' then ['\\', 'r']
  else if c = '\t' then ['\\', 't']
  else if c.toNat = 8 then ['\\', 'b']
  else if c.toNat = 12 then ['\\', 'f']
  else if c.toNat < 32 then
    ['\\', 'u', '0', '0', hexChar (c.toNat / 16), hexChar (c.toNat % 16)]
  else [c]

def stringChars (s : String) : List Char :=
  '"' :: s.toList.flatMap escapeChar ++ ['"']

mutual

def compactChars : Json → List Char
  | .null | .unreadable => ['n', 'u', 'l', 'l']
  | .bool true => ['t', 'r', 'u', 'e']
  | .bool false => ['f', 'a', 'l', 's', 'e']
  | .number n => n.chars
  | .string s => stringChars s
  | .array [] => ['[', ']']
  | .array (item :: items) => '[' :: (compactChars item ++ compactItems items)
  | .object [] => ['\x7b', '\x7d']
  | .object ((key, value) :: fields) =>
    '\x7b' :: (stringChars key ++ ':' :: (compactChars value ++ compactFields fields))

def compactItems : List Json → List Char
  | [] => [']']
  | item :: items => ',' :: (compactChars item ++ compactItems items)

def compactFields : List (String × Json) → List Char
  | [] => ['\x7d']
  | (key, value) :: fields =>
    ',' :: (stringChars key ++ ':' :: (compactChars value ++ compactFields fields))

end

/-- A line break and two spaces for each level. -/
def newline (level : Nat) : List Char :=
  '\n' :: List.replicate (2 * level) ' '

mutual

/-- The document with one item or field on each line. -/
def prettyChars (level : Nat) : Json → List Char
  | .null | .unreadable => ['n', 'u', 'l', 'l']
  | .bool true => ['t', 'r', 'u', 'e']
  | .bool false => ['f', 'a', 'l', 's', 'e']
  | .number n => n.chars
  | .string s => stringChars s
  | .array [] => ['[', ']']
  | .array (item :: items) =>
    '[' :: (newline (level + 1) ++ (prettyChars (level + 1) item ++ prettyItems level items))
  | .object [] => ['\x7b', '\x7d']
  | .object ((key, value) :: fields) =>
    '\x7b' :: (newline (level + 1) ++ (stringChars key ++
      ':' :: ' ' :: (prettyChars (level + 1) value ++ prettyFields level fields)))

def prettyItems (level : Nat) : List Json → List Char
  | [] => newline level ++ [']']
  | item :: items =>
    ',' :: (newline (level + 1) ++ (prettyChars (level + 1) item ++ prettyItems level items))

def prettyFields (level : Nat) : List (String × Json) → List Char
  | [] => newline level ++ ['\x7d']
  | (key, value) :: fields =>
    ',' :: (newline (level + 1) ++ (stringChars key ++
      ':' :: ' ' :: (prettyChars (level + 1) value ++ prettyFields level fields)))

end

def compact (j : Json) : String :=
  .ofList (compactChars j)

def pretty (j : Json) : String :=
  .ofList (prettyChars 0 j)

end ObjectVault.Json
