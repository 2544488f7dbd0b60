import ObjectVault.Zstd.Literals
import ObjectVault.Zstd.Sequences

namespace ObjectVault.Zstd

/-- What a block takes over from the blocks before it. -/
structure Context where
  output : Array UInt8
  code : Option HuffmanTable
  tables : SequenceTables
  recent : Nat × Nat × Nat

def Context.initial : Context :=
  ⟨#[], none, ⟨none, none, none⟩, (1, 4, 8)⟩

/-- The distance of a match and the recent distances after it. Without literals in front the small
offsets are shifted by one, and three means one less than the latest distance. -/
def distance (recent : Nat × Nat × Nat) (s : Sequence) : Nat × (Nat × Nat × Nat) :=
  let (a, b, c) := recent
  if s.offset > 3 then (s.offset - 3, (s.offset - 3, a, b))
  else
    match (if s.literals = 0 then s.offset + 1 else s.offset) with
    | 1 => (a, (a, b, c))
    | 2 => (b, (b, a, c))
    | 3 => (c, (c, a, b))
    | _ => (a - 1, (a - 1, a, b))

/-- Appends `count` bytes from `back` places before the end, one after the other. -/
def copyBack (back : Nat) : (count : Nat) → Array UInt8 → Array UInt8
  | 0, output => output
  | count + 1, output => copyBack back count (output.push (output.getD (output.size - back) 0))

/-- Carries out the sequences and appends the literals that are left. -/
def execute : List Sequence → Bytes → (recent : Nat × Nat × Nat) → Array UInt8 →
    Option (Array UInt8 × (Nat × Nat × Nat))
  | [], literals, recent, output => some (literals.foldl Array.push output, recent)
  | s :: sequences, literals, recent, output =>
    let own := literals.take s.literals
    let (back, recent) := distance recent s
    let output := own.foldl Array.push output
    if own.length < s.literals || back = 0 || back > output.size then none
    else execute sequences (literals.drop s.literals) recent (copyBack back s.length output)

def Context.decompress (ctx : Context) (limit : Nat) (bytes : Bytes) : Option Context := do
  let (literals, code, rest) ← readLiterals ctx.code limit bytes
  let (sequences, tables) ← readSequenceSection ctx.tables rest
  let (output, recent) ← execute sequences literals ctx.recent ctx.output
  if output.size > ctx.output.size + limit then none
  else some ⟨output, code, tables, recent⟩

end ObjectVault.Zstd
