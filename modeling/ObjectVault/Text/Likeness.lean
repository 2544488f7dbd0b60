namespace ObjectVault.Text

/-- A free position of a character, from `low` to below `high`. -/
def partner? (c : Char) (low high : Nat) (taken : List Nat) (b : List Char) : Option Nat :=
  (b.zipIdx.find? fun (d, j) => low ≤ j && j < high && c == d && !taken.contains j).map (·.2)

/-- The characters that two words share, with their positions in the second one. Partners lie less
than half the longer word apart. -/
def shared (a b : List Char) : List (Char × Nat) :=
  let reach := max a.length b.length / 2 - 1
  a.zipIdx.foldl (fun found (c, i) =>
    match partner? c (i - reach) (i + reach + 1) (found.map (·.2)) b with
    | some j => found ++ [(c, j)]
    | none => found) []

/-- How many of the shared characters have changed places, in pairs. -/
def swaps (b : List Char) (found : List (Char × Nat)) : Nat :=
  let inOrder := b.zipIdx.filter fun (_, j) => (found.map (·.2)).contains j
  ((found.zip inOrder).countP fun (x, y) => x.1 != y.1) / 2

/-- A fraction from nought to one. -/
structure Likeness where
  part : Nat
  whole : Nat

namespace Likeness

/-- The mean of three shares: what each word shares with the other, and what of that kept its
place. -/
def ofWords (a b : List Char) : Likeness :=
  let found := shared a b
  let m := found.length
  if m = 0 then ⟨0, 1⟩
  else
    { part := m * m * (a.length + b.length) + (m - swaps b found) * a.length * b.length
      whole := 3 * m * a.length * b.length }

def le (x y : Likeness) : Bool :=
  x.part * y.whole ≤ y.part * x.whole

end Likeness

/-- The word that is most like another, if the likeness is above seven tenths. Of several the last
one counts. -/
def mostAlike (word : List Char) (words : List (List Char)) : Option (List Char) :=
  let alike := (words.map fun other => (other, Likeness.ofWords word other)).filter fun (_, x) =>
    !x.le ⟨7, 10⟩
  (alike.foldl (fun best (other, x) =>
    match best with
    | some (_, y) => if y.le x then some (other, x) else best
    | none => some (other, x)) (none : Option (List Char × Likeness))).map (·.1)

end ObjectVault.Text
