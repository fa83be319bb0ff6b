import Equate.Bytes
import Equate.Sorting
/-!
# Directories

A directory of files without subdirectories, as far as a program in it sees it by paths. Of what
lies outside, only the directories above, the root and the directories that every system has in its
root are known to be there.
-/

namespace Equate

/-- Files by name, in the order of their creation. -/
structure Directory where
  files : List (Bytes × Bytes) := []
  deriving DecidableEq, Repr

/-- A directory that a path can pass through. -/
inductive Place where
  | here
  | above
  | root
  | devices
  | temporary
  | system
  deriving DecidableEq, Repr

def Place.parent : Place → Place
  | .here | .above => .above
  | .root | .devices | .temporary | .system => .root

/-- What a path leads to. -/
inductive PathTarget where
  | directory (place : Place)
  /-- A file of this directory, whether it is there yet or not. -/
  | file (name : Bytes)
  /-- A file elsewhere that can be created but is not seen. -/
  | unseen
  /-- A device that reads as empty and drops what is written to it. -/
  | nullDevice
  | nowhere
  deriving DecidableEq, Repr

/-- The most bytes that a name can have. -/
def maxNameLength : Nat := 255

/-- The most bytes that a path can have. -/
def maxPathLength : Nat := 4095

/-- The directories in the root whose contents are of no concern. -/
def systemNames : List Bytes :=
  ["bin", "boot", "etc", "home", "lib", "media", "mnt", "opt", "proc", "root", "run", "sbin", "srv",
    "sys", "usr", "var"].map utf8

/-- What a name leads to in a directory. -/
def Place.find (name : Bytes) : Place → PathTarget
  | .here => .file name
  | .above | .temporary => .unseen
  | .root =>
    if name = utf8 "dev" then .directory .devices
    else if name = utf8 "tmp" then .directory .temporary
    else if systemNames.contains name then .directory .system
    else .nowhere
  | .devices => if name = utf8 "null" then .nullDevice else .nowhere
  | .system => .nowhere

/-- Follows one more part of a path. Only directories have parts; an empty part and a dot stay, and
two dots go to the parent. -/
def PathTarget.follow (target : PathTarget) (part : Bytes) : PathTarget :=
  match target with
  | .directory place =>
    if part.isEmpty ∨ part = [Ascii.dot] then .directory place
    else if part = utf8 ".." then .directory place.parent
    else if maxNameLength < part.length then .nowhere
    else place.find part
  | _ => .nowhere

/-- The parts of a path between its slashes. -/
def pathParts : Bytes → List Bytes
  | [] => [[]]
  | b :: bs =>
    if b = Ascii.slash then [] :: pathParts bs
    else
      match pathParts bs with
      | part :: parts => (b :: part) :: parts
      | [] => [[b]]

namespace Directory

/-- Where a path leads: from the root if it starts with a slash, else from here. -/
def resolve (path : Bytes) : PathTarget :=
  let start : Place := if path.head? = some Ascii.slash then .root else .here
  if path.isEmpty ∨ maxPathLength < path.length then .nowhere
  else (pathParts path).foldl PathTarget.follow (.directory start)

/-- The contents of the file with a name. -/
def contents? (d : Directory) (name : Bytes) : Option Bytes :=
  (d.files.find? fun f => f.1 == name).map Prod.snd

/-- Reads a file. A directory reads as empty. -/
def read? (d : Directory) (path : Bytes) : Option Bytes :=
  match resolve path with
  | .file name => d.contents? name
  | .directory _ | .nullDevice => some []
  | .unseen | .nowhere => none

/-- Whether a path can be written to. -/
def canWrite (path : Bytes) : Bool :=
  match resolve path with
  | .file _ | .unseen | .nullDevice => true
  | .directory _ | .nowhere => false

/-- Replaces the contents of a file, or appends a new file. -/
def writeFile (name contents : Bytes) : List (Bytes × Bytes) → List (Bytes × Bytes)
  | [] => [(name, contents)]
  | f :: fs => if f.1 = name then (name, contents) :: fs else f :: writeFile name contents fs

/-- Writes a file; a path that leads elsewhere changes nothing. -/
def write (d : Directory) (path contents : Bytes) : Directory :=
  match resolve path with
  | .file name => ⟨writeFile name contents d.files⟩
  | _ => d

/-- The files that are new or differ from those of `before`, by name. -/
def changesSince (before d : Directory) : List (Bytes × Bytes) :=
  sortBy (fun a b => !Bytes.lt b.1 a.1) (d.files.filter fun f => before.contents? f.1 != some f.2)

end Directory

end Equate
