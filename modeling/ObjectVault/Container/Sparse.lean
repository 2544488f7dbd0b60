import ObjectVault.Container.Header

namespace ObjectVault.Container

/-- A run of bytes that a sparse content holds. Between the runs it is zero. -/
structure Run where
  start : Nat
  size : Nat

namespace Run

/-- The width of a run in a list of runs. -/
def width : Nat := 24

/-- A run in a list. An entry that begins with zero, or whose size does, is empty. -/
def ofBytes (bytes : Bytes) : Option (Option Run) :=
  let start := bytes.take 12
  let size := bytes.drop 12
  if start.headD 0 = 0 || size.headD 0 = 0 then some none
  else do return some ⟨← readOctal start, ← readOctal size⟩

end Run

/-- A list of at most `count` runs, and whether a block goes on with it. -/
structure RunList where
  start : Nat
  count : Nat

namespace RunList

def inHeader : RunList := ⟨386, 4⟩

/-- The list in a block that goes on with another one. -/
def inBlock : RunList := ⟨0, 21⟩

def runs (list : RunList) (block : Bytes) : Option (List Run) := do
  let entry (i : Nat) := (block.drop (list.start + i * Run.width)).take Run.width
  let read ← (List.range list.count).mapM fun i => Run.ofBytes (entry i)
  return read.filterMap id

def goesOn (list : RunList) (block : Bytes) : Bool :=
  block.getD (list.start + list.count * Run.width) 0 == 1

end RunList

/-- The blocks behind a header that go on with its list of runs. -/
def runBlocks : (fuel : Nat) → (more : Bool) → Bytes → Option (List Bytes)
  | _, false, _ => some []
  | 0, true, _ => none
  | fuel + 1, true, bytes =>
    let block := bytes.take blockSize
    if block.length < blockSize then none
    else (runBlocks fuel (RunList.inBlock.goesOn block) (bytes.drop blockSize)).map (block :: ·)

def allRuns (header : Bytes) (blocks : List Bytes) : Option (List Run) := do
  let first ← RunList.inHeader.runs header
  let others ← blocks.mapM RunList.inBlock.runs
  return first ++ others.flatten

/-- Lays the data out in its runs. The runs are in order and do not overlap, every run begins in a
new block of the data, and the data and the content are as long as they are said to be. -/
def layOut (size realSize : Nat) : (position used : Nat) → List Run → Bytes → Option Bytes
  | position, used, [], _ => if position = realSize && used = size then some [] else none
  | position, used, run :: runs, data =>
    if (run.size ≠ 0 && used % blockSize ≠ 0) || run.start < position || size < used + run.size then
      none
    else
      (layOut size realSize (run.start + run.size) (used + run.size) runs (data.drop run.size)).map
        fun rest => List.replicate (run.start - position) 0 ++ data.take run.size ++ rest

/-- The size of the whole content, in a header. -/
def realSize (header : Bytes) : Option Nat :=
  readOctal ((header.drop 483).take 12)

/-- The content of a sparse entry, of whose bytes `size` follow the header and the blocks that go on
with its list of runs; and the number of those blocks. -/
def sparseContent (header : Bytes) (size : Nat) (rest : Bytes) : Option (Bytes × Nat) := do
  let blocks ← runBlocks (rest.length / blockSize + 1) (RunList.inHeader.goesOn header) rest
  let runs ← allRuns header blocks
  let data := (rest.drop (blocks.length * blockSize)).take size
  return (← layOut size (← realSize header) 0 0 runs data, blocks.length)

end ObjectVault.Container
