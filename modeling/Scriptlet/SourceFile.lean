namespace Scriptlet

inductive ReadError
  | missing
  | isDirectory
  | notDirectory
  | nameTooLong
  | denied
  | other (description : String)

def ReadError.describe : ReadError → String
  | missing => "No such file or directory"
  | isDirectory => "Is a directory"
  | notDirectory => "Not a directory"
  | nameTooLong => "File name too long"
  | denied => "Permission denied"
  | other description => description

structure SourcePath where
  absolute : Bool
  parts : List String

namespace SourcePath

def ofString (path : String) : SourcePath :=
  ⟨path.toList.head? = some '/',
    (path.splitOn "/").filter fun part => part ≠ "" && part ≠ "."⟩

def toString (p : SourcePath) : String :=
  let steps := "/".intercalate p.parts
  if p.absolute then "/" ++ steps else if p.parts.isEmpty then "." else steps

end SourcePath

/-- A folder with the files below it, each by the parts of its path, and the folders below it that
may hold no file. -/
structure Folder where
  files : List (List String × List UInt8)
  folders : List (List String)

namespace Folder

def maxName : Nat := 255

def maxPath : Nat := 4095

def system : Folder :=
  ⟨[(["dev", "null"], [])],
    ["bin", "boot", "dev", "etc", "home", "lib", "media", "mnt", "opt", "proc", "run", "sbin",
      "srv", "sys", "tmp", "usr", "var"].map ([·])⟩

def file? (f : Folder) (parts : List String) : Option (List UInt8) :=
  f.files.lookup parts

def isFolder (f : Folder) (parts : List String) : Bool :=
  f.folders.any parts.isPrefixOf ||
    f.files.any fun (path, _) => parts.isPrefixOf path && path ≠ parts

def above : List String → ReadError
  | [] => .isDirectory
  | part :: rest =>
    if part = ".." then above rest
    else if maxName < part.utf8ByteSize then .nameTooLong
    else .missing

def walk (f : Folder) (isRoot : Bool) (place : List String) :
    List String → Except ReadError (List UInt8)
  | [] =>
    match f.file? place with
    | some bytes => .ok bytes
    | none => .error .isDirectory
  | part :: rest =>
    if (f.file? place).isSome then .error .notDirectory
    else if maxName < part.utf8ByteSize then .error .nameTooLong
    else if part = ".." then
      if place.isEmpty && !isRoot then .error (above rest)
      else walk f isRoot place.dropLast rest
    else
      let place := place ++ [part]
      if (f.file? place).isSome || f.isFolder place then walk f isRoot place rest
      else .error .missing

def read (f : Folder) (path : String) : Except ReadError (List UInt8) :=
  let p := SourcePath.ofString path
  if maxPath < p.toString.utf8ByteSize then .error .nameTooLong
  else if p.absolute then system.walk true [] p.parts
  else f.walk false [] p.parts

end Folder

end Scriptlet
