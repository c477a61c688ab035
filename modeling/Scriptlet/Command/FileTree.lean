import Scriptlet.Channel
import Scriptlet.Text.Bytes

/-!
Directories and files, and what a path finds among them. A path is followed
name by name, from the root if it begins with a slash and else from the
working directory. Every name is looked up in a directory, so what follows a
file, be it only a slash, makes the path fail at that file. Links are left
out.
-/

namespace Scriptlet

/-- The pieces of a list between separators. A separator at either end has an empty piece
beside it. -/
def Text.pieces {α : Type} [DecidableEq α] (separator : α) : List α → List (List α)
  | [] => [[]]
  | a :: rest =>
    match pieces separator rest with
    | [] => [[a]]
    | piece :: more => if a = separator then [] :: piece :: more else (a :: piece) :: more

namespace Command

abbrev Location := List String

structure FileTree where
  directories : List Location
  files : List (Location × List UInt8)
  working : Location

namespace FileTree

def maxName : Nat := 255

def maxPath : Nat := 4095

def isDirectory (t : FileTree) (location : Location) : Bool :=
  location.isEmpty || t.directories.contains location

def holds (t : FileTree) (location : Location) : Bool :=
  t.isDirectory location || (t.files.lookup location).isSome

/-- The empty name, between two slashes or after the last, stands for staying
where one is. -/
def step (t : FileTree) (here : Location) (name : String) : Except Failure Location :=
  if !t.isDirectory here then .error .notDirectory
  else if name = "" ∨ name = "." then .ok here
  else if name = ".." then .ok here.dropLast
  else if maxName < (Text.bytes name).length then .error .longName
  else if t.holds (here ++ [name]) then .ok (here ++ [name])
  else .error .missingFile

def names (path : String) : List String :=
  (Text.pieces '/' path.toList).map String.ofList

def start (t : FileTree) (path : String) : Location :=
  if path.toList.head? = some '/' then [] else t.working

def locate (t : FileTree) (path : String) : Except Failure Location :=
  if path = "" then .error .missingFile
  else if maxPath < (Text.bytes path).length then .error .longName
  else (names path).foldlM t.step (t.start path)

def read (t : FileTree) (path : String) : Except Failure (List UInt8) := do
  match t.files.lookup (← t.locate path) with
  | some contents => return contents
  | none => throw .isDirectory

/-- Puts a file into the working directory, or below it if its name has
slashes. It hides an earlier file of the same name. -/
def put (t : FileTree) (name : String) (contents : List UInt8) : FileTree :=
  let location := t.working ++ (names name).filter fun part => part ≠ "" ∧ part ≠ "."
  let above := (List.range location.length).map location.take
  { t with directories := above ++ t.directories, files := (location, contents) :: t.files }

/-- What a system has besides the working directory, which is empty: the usual
directories under the root, a file without contents, and the input as a file. -/
def initial (input : List UInt8) : FileTree :=
  let top := ["bin", "boot", "dev", "etc", "home", "lib", "media", "mnt", "opt", "proc",
    "root", "run", "sbin", "srv", "sys", "tmp", "usr", "var"]
  let working := ["tmp", "work"]
  ⟨working :: top.map ([·]), [(["dev", "null"], []), (["dev", "stdin"], input)], working⟩

def ofFiles (input : List UInt8) (files : List (String × List UInt8)) : FileTree :=
  files.foldl (fun t (name, contents) => t.put name contents) (initial input)

end FileTree

end Command

end Scriptlet
