import ObjectVault.Decimal.Shortest
import ObjectVault.Toml.Tree

namespace ObjectVault.Toml
open ObjectVault.Decimal

/-- The letter that stands for a character behind a backslash in a message. -/
def escapeLetter : Char → Option Char
  | '"' => some '"'
  | '\\' => some '\\'
  | '\n' => some 'n'
  | '\r' => some 'r'
  | '\t' => some 't'
  | '\x00' => some '0'
  | _ => none

/-- A character of a text in a message. Control characters are given by their numbers. -/
def shownChar (c : Char) : List Char :=
  match escapeLetter c with
  | some letter => ['\\', letter]
  | none =>
    if c.toNat < 32 || (127 ≤ c.toNat && c.toNat < 160) then
      ['\\', 'u', '\x7b'] ++ Nat.toDigits 16 c.toNat ++ ['\x7d']
    else [c]

def floatStyle : FloatStyle :=
  ⟨.up, fun _ => true, false, "NaN", "inf"⟩

/-- What a value is, in the words of a message. -/
def Scalar.describe : Scalar → String
  | string s => "string \"" ++ String.ofList (s.toList.flatMap shownChar) ++ "\""
  | integer n => "integer `" ++ String.ofList (intChars n) ++ "`"
  | float x => "floating point `" ++ String.ofList (floatStyle.chars x) ++ "`"
  | boolean b => "boolean `" ++ (if b then "true" else "false") ++ "`"
  | time => "map"
  | array => "sequence"
  | inlineTable => "map"

/-- A field of another kind than the one that is asked for, with its place in the document. -/
structure Mismatch where
  cause : Cause
  span : Span

def Mismatch.fault (mismatch : Mismatch) (text : List Char) : Fault :=
  ⟨mismatch.cause, mismatch.span.excerpt text⟩

namespace Node

/-- A node of another kind than the expected one. -/
def mismatch (node : Node) (expected : String) : Mismatch :=
  match node with
  | leaf v span => ⟨.wrongKind v.describe expected, span⟩
  | table _ span _ => ⟨.wrongKind "map" expected, span⟩
  | rows span _ => ⟨.wrongKind "sequence" expected, span⟩

def text : Node → Except Mismatch String
  | leaf (.string s) _ => .ok s
  | node => .error (node.mismatch "a string")

def truth : Node → Except Mismatch Bool
  | leaf (.boolean b) _ => .ok b
  | node => .error (node.mismatch "a boolean")

def count : Node → Except Mismatch UInt64
  | leaf (.integer n) span =>
    if 0 ≤ n then .ok (.ofNat n.toNat)
    else .error ⟨.wrongNumber (Scalar.integer n).describe "u64", span⟩
  | node => .error (node.mismatch "u64")

end Node
end ObjectVault.Toml
