import GrammarTrace.RuleText.Fault
import GrammarTrace.Text.Path

/-!
# A directory of files

The files below a directory, and what opening a path from it gives. A file has one place, however
its path is written. The failures are those of a file system in which a name has at most 255 bytes
and a path fewer than 4096.
-/

namespace GrammarTrace

namespace FileFailure

/-- There is no file of that name. -/
def notFound : FileFailure := ⟨.notFound, "No such file or directory (os error 2)"⟩

/-- A path leads through something that is no directory. -/
def notADirectory : FileFailure := ⟨.notADirectory, "Not a directory (os error 20)"⟩

/-- A directory cannot be read as a file. -/
def isADirectory : FileFailure := ⟨.isADirectory, "Is a directory (os error 21)"⟩

/-- A name or a path is too long. -/
def nameTooLong : FileFailure := ⟨.invalidFilename, "File name too long (os error 36)"⟩

/-- A path has a null character. -/
def nullInName : FileFailure :=
  ⟨.invalidInput, "file name contained an unexpected NUL byte"⟩

end FileFailure

/-- A place among the files, the innermost name first. The directory itself is the empty list, what
lies around it is reached by `..` from there, and an absolute place ends with a slash. -/
abbrev Place := List String

namespace Place

/-- The place around a place. Nothing lies around the root. -/
def parent : Place → Place
  | [] => [".."]
  | ".." :: outer => ".." :: ".." :: outer
  | ["/"] => ["/"]
  | _ :: outer => outer

/-- The place that a piece of a path leads to. -/
def enter (here : Place) (piece : String) : Place :=
  if piece = "" ∨ piece = "." then here
  else if piece = ".." then here.parent
  else piece :: here

/-- The place at which a path begins. -/
def start (path : String) : Place := if path.startsWith '/' then ["/"] else []

/-- The place that a path names. -/
def ofPath (path : String) : Place := (Text.pathPieces path).foldl enter (start path)

end Place

/-- Files by place, the youngest first. -/
structure Directory where
  files : List (Place × ByteArray)

namespace Directory

/-- A directory without files. Around it there is the null device. -/
def empty : Directory := ⟨[(Place.ofPath "/dev/null", .empty)]⟩

/-- What the file at a place holds. -/
def contents? (d : Directory) (place : Place) : Option ByteArray := d.files.lookup place

/-- Write a file. It takes the place of an older one, and the directories that lead to it are made
with it. -/
def write (d : Directory) (path : String) (contents : ByteArray) : Directory :=
  ⟨(Place.ofPath path, contents) :: d.files⟩

/-- The directory in which these files have been written, one after the other. -/
def ofList (files : List (String × ByteArray)) : Directory :=
  files.foldl (fun d file => d.write file.1 file.2) empty

/-- Writing a file changes what is at its place only. -/
theorem contents?_write (d : Directory) (path : String) (contents : ByteArray) (place : Place) :
    (d.write path contents).contents? place =
      if place = Place.ofPath path then some contents else d.contents? place := by
  by_cases h : place = Place.ofPath path
  · simp [write, contents?, h]
  · simp [write, contents?, List.lookup_cons, h, beq_eq_false_iff_ne.mpr h]

/-- Whether a file lies below a place. -/
def isDirectory (d : Directory) (place : Place) : Bool :=
  d.files.any fun file => place.isSuffixOf file.1

/-- Follow the pieces of a path. -/
def follow (d : Directory) (here : Place) : List String → Except FileFailure ByteArray
  | [] => .error .isADirectory
  | piece :: rest =>
    let next := here.enter piece
    if piece = "" ∨ piece = "." ∨ piece = ".." then d.follow next rest
    else if 255 < piece.utf8ByteSize then .error .nameTooLong
    else
      match d.contents? next with
      | some contents => if rest.isEmpty then .ok contents else .error .notADirectory
      | none => if d.isDirectory next then d.follow next rest else .error .notFound

/-- What opening a path gives. -/
def openFile (d : Directory) (path : String) : Except FileFailure ByteArray :=
  if '\x00' ∈ path.toList then .error .nullInName
  else if 4096 ≤ path.utf8ByteSize then .error .nameTooLong
  else if path = "" then .error .notFound
  else d.follow (Place.start path) (Text.pathPieces path)

end Directory

end GrammarTrace
