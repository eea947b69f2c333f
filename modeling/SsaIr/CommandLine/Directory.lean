import SsaIr.CommandLine.Run

/-!
# Directories

Running a command in a directory that holds files and no other directories. A path is followed
part by part: `.` stays, `..` leaves the directory for one above it, of which nothing is known but
that it is a directory, and any other part but the last has to be a directory and so leads nowhere.
The main statement is `lookup_put`: what has been put under a name is found there, and nothing else
changes.
-/

namespace SsaIr.CommandLine

/-- Files with their names and texts. -/
structure Directory where
  files : List (String × String) := []
  deriving DecidableEq, Inhabited

/-- What a path leads to. -/
inductive Place where
  /-- This directory or one above it. -/
  | directory
  /-- The device that is empty and swallows what is written to it. -/
  | nullDevice
  /-- A name in this directory, of a file or of none. -/
  | entry (name : String)
  deriving DecidableEq, Inhabited

/-- The number of bytes that a name can have. -/
def maxNameBytes : Nat := 255

/-- The number of bytes that a path can have. -/
def maxPathBytes : Nat := 4095

/-- The names of a path, without the slashes between them. -/
def pathParts (path : String) : List String :=
  (Text.runs (· == '/') path.toList).map String.ofList

namespace Directory

/-- Follow the parts of a path from this directory (`inside`) or from one above it. -/
def follow (d : Directory) (inside : Bool) : List String → Except FileFault Place
  | [] => .ok .directory
  | part :: rest =>
    if part = "." then d.follow inside rest
    else if part = ".." then d.follow false rest
    else if inside ∧ rest = [] then .ok (.entry part)
    else if maxNameBytes < part.utf8ByteSize then .error .nameTooLong
    else if inside ∧ (d.files.lookup part).isSome then .error .notDirectory
    else .error .notFound

/-- What a path leads to from this directory. -/
def place (d : Directory) (path : String) : Except FileFault Place :=
  let absolute := path.toList.head? = some '/'
  let parts := pathParts path
  if maxPathBytes < path.utf8ByteSize then .error .nameTooLong
  else if absolute ∧ parts = ["dev", "null"] then .ok .nullDevice
  else d.follow (!absolute) parts

/-- Whether a path can only lead to a directory. -/
def endsInSlash (path : String) : Bool := path.toList.getLast? = some '/'

/-- The text of the file at a path. -/
def read (d : Directory) (path : String) : Except FileFault String := do
  match ← d.place path with
  | .directory => throw .isDirectory
  | .nullDevice => if endsInSlash path then throw .notDirectory else return ""
  | .entry name =>
    if maxNameBytes < name.utf8ByteSize then throw .nameTooLong
    match d.files.lookup name with
    | none => throw .notFound
    | some text => if endsInSlash path then throw .notDirectory else return text

/-- Put a text under a name, in the place of the file that had it. -/
def put (d : Directory) (name text : String) : Directory :=
  { files := (name, text) :: d.files.filter (·.1 ≠ name) }

/-- Write a text to the file at a path. -/
def write (d : Directory) (path text : String) : Except FileFault Directory := do
  match ← d.place path with
  | .directory => throw .isDirectory
  | .nullDevice => if endsInSlash path then throw .isDirectory else return d
  | .entry name =>
    if endsInSlash path then throw .isDirectory
    if maxNameBytes < name.utf8ByteSize then throw .nameTooLong
    return d.put name text

/-- What has been put under a name is found there, and nothing else changes. -/
theorem lookup_put (d : Directory) (name text other : String) :
    (d.put name text).files.lookup other =
      if other = name then some text else d.files.lookup other := by
  by_cases h : other = name
  · simp [put, h]
  · have hne : (other == name) = false := by simpa using h
    simp only [put, List.lookup_cons, hne, h, if_false]
    induction d.files with
    | nil => rfl
    | cons file files ih =>
        rw [List.filter_cons]
        split
        · rw [List.lookup_cons, List.lookup_cons, ih]
        · next hk =>
            have hk : file.1 = name := by simpa using hk
            rw [ih, List.lookup_cons, hk, hne]

end Directory

/-- What a command leaves behind. -/
structure Aftermath where
  directory : Directory
  printed : String := ""
  failure : Option Failure := none
  deriving DecidableEq, Inhabited

/-- Run a command in a directory. -/
def Command.runIn (c : Command) (d : Directory) : Aftermath :=
  let outcome := c.run (d.read c.input)
  let { printed, failure, .. } := outcome
  match outcome.written with
  | none => { directory := d, printed, failure }
  | some (path, text) =>
    match d.write path text with
    | .ok directory => { directory, printed, failure }
    | .error fault => { directory := d, printed, failure := some (.unwritable path fault) }

end SsaIr.CommandLine
