import ObjectVault.Bytes
import ObjectVault.Directory.Path
import ObjectVault.Table
import ObjectVault.Text.Utf8

namespace ObjectVault
open ObjectVault.Text

/-- Why a file could not be read or written. -/
inductive FileFault
  | missing
  | exists
  | notAFolder
  | isAFolder
  | notText
deriving DecidableEq

def FileFault.message : FileFault → String
  | .missing => "No such file or directory (os error 2)"
  | .exists => "File exists (os error 17)"
  | .notAFolder => "Not a directory (os error 20)"
  | .isAFolder => "Is a directory (os error 21)"
  | .notText => "stream did not contain valid UTF-8"

/-- Where something lies, seen from the working folder. Steps out of it come first. -/
abbrev Location := List String

/-- The files that the vault sees, by their places, and the folders that hold them. -/
structure Directory where
  files : Table Bytes
  folders : List Location

namespace Directory

def empty : Directory :=
  ⟨∅, []⟩

def key (place : Location) : String :=
  "/".intercalate place

def parent (place : Location) : Location :=
  if place == ["/"] then place
  else if place.all (· == "..") then place ++ [".."]
  else place.dropLast

/-- The working folder and those around it are always there. -/
def isFolder (d : Directory) (place : Location) : Bool :=
  place.all (· == "..") || place == ["/"] || d.folders.contains place

def isFile (d : Directory) (place : Location) : Bool :=
  d.files.contains (key place)

def step (place : Location) (part : String) : Location :=
  if part == "" || part == "." then place
  else if part == ".." then parent place
  else place ++ [part]

/-- Follows the parts of a path. Only the last of them may be missing. -/
def walk (d : Directory) (place : Location) : List String → Except FileFault Location
  | [] => .ok place
  | part :: rest =>
    if d.isFile place then .error .notAFolder
    else if !d.isFolder place then .error .missing
    else d.walk (step place part) rest

def locate (d : Directory) (path : String) : Except FileFault Location :=
  match pathParts path with
  | "" :: rest => if rest.isEmpty then .error .missing else d.walk ["/"] rest
  | parts => d.walk [] parts

/-- The places that some parts of a path lead through. -/
def placesFrom (place : Location) : List String → List Location
  | [] => [place]
  | part :: rest => place :: placesFrom (step place part) rest

def placesAlong (path : String) : List Location :=
  match pathParts path with
  | "" :: rest => placesFrom ["/"] rest
  | parts => placesFrom [] parts

def hasFolder (d : Directory) (path : String) : Bool :=
  match d.locate path with
  | .ok place => d.isFolder place
  | .error _ => false

/-- Whether there is a file or a folder at the path. -/
def has (d : Directory) (path : String) : Bool :=
  match d.locate path with
  | .ok place => d.isFolder place || d.isFile place
  | .error _ => false

def read (d : Directory) (path : String) : Except FileFault Bytes := do
  let place ← d.locate path
  if d.isFolder place then throw .isAFolder
  match d.files.get? (key place) with
  | some bytes => return bytes
  | none => throw .missing

def readText (d : Directory) (path : String) : Except FileFault String := do
  match decodeUtf8 (← d.read path) with
  | .ok text => return text
  | .error _ => throw .notText

def write (d : Directory) (path : String) (bytes : Bytes) : Except FileFault Directory := do
  let place ← d.locate path
  if d.isFolder place then throw .isAFolder
  return { d with files := d.files.insert (key place) bytes }

/-- Writes at the end of a file, which need not exist. -/
def append (d : Directory) (path : String) (bytes : Bytes) : Except FileFault Directory := do
  let place ← d.locate path
  if d.isFolder place then throw .isAFolder
  return { d with
    files := d.files.insert (key place) ((d.files.get? (key place)).getD [] ++ bytes) }

def remove (d : Directory) (path : String) : Except FileFault Directory := do
  let place ← d.locate path
  if d.isFolder place then throw .isAFolder
  if !d.isFile place then throw .missing
  return { d with files := d.files.erase (key place) }

/-- Gives a file another path. A file that has it is replaced. -/
def rename (d : Directory) (source target : String) : Except FileFault Directory := do
  let bytes ← d.read source
  let d ← if (← d.locate source) = (← d.locate target) then pure d else d.remove source
  d.write target bytes

def makeFolder (d : Directory) (path : String) : Except FileFault Directory := do
  let place ← d.locate path
  if d.isFolder place || d.isFile place then throw .exists
  return { d with folders := d.folders ++ [place] }

/-- Makes a folder and those that it lies in, given its components from the innermost. Folders that
were made stay when a later one cannot be made. -/
def makeFolders (d : Directory) : List String → Directory × Except FileFault Unit
  | [] => (d, .ok ())
  | name :: parents =>
    let path := ofComponents (name :: parents).reverse
    let present := fun (d : Directory) (fault : FileFault) =>
      (d, if d.hasFolder path then .ok () else .error fault)
    match d.makeFolder path with
    | .ok made => (made, .ok ())
    | .error .missing =>
      match d.makeFolders parents with
      | (d, .error fault) => (d, .error fault)
      | (d, .ok ()) =>
        match d.makeFolder path with
        | .ok made => (made, .ok ())
        | .error fault => present d fault
    | .error fault => present d fault

end Directory
end ObjectVault
