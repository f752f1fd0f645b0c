import PlcTags.Bridge.Basic

/-!
# Opening a folder

A bridge from a folder of files: one of them holds the configuration, which may name another one with
structure definitions.
-/

namespace PlcTags

/-- A folder as the contents of its files by name. -/
abbrev Folder := List (String × String)

/-- Why a folder cannot be opened. -/
inductive FolderError
  | unreadable
  | badConfig
  | config (cause : ConfigError)
  | definition (cause : Layout.DefinitionError)
  deriving DecidableEq, Repr

namespace Folder

/-- The parts of a relative path that lead somewhere: empty parts and `.` before the last part do
not. -/
def pathParts : List (List Char) → List (List Char)
  | [] => []
  | [last] => [last]
  | part :: rest => if part.isEmpty || part == ['.'] then pathParts rest else part :: pathParts rest

/-- The content of the file at a path. A path that begins with a slash leads out of the folder. -/
def read? (folder : Folder) (path : String) : Option String :=
  if path.toList.head? = some '/' then none
  else
    let name := List.intercalate ['/'] (pathParts (path.toList.splitOn '/'))
    Keyed.find? (String.ofList name) folder

end Folder

namespace Bridge

/-- The bridge with the structures of a file, if it could be read and all of them can be used. -/
def withStructFile (b : Bridge) (folder : Folder) (path : String) : Except FolderError Bridge :=
  match folder.read? path with
  | none => .error .unreadable
  | some text =>
    match b.loadStructs (.ofText text) with
    | (loaded, .ok ()) => .ok loaded
    | (_, .error cause) => .error (.definition cause)

/-- A bridge to a controller with the configuration in a file of a folder. -/
def ofFolder (ids : ValueId.Supply) (folder : Folder) (configFile : String) (plc : Plc) :
    Except FolderError Bridge :=
  match folder.read? configFile with
  | none => .error .unreadable
  | some text =>
    match Config.ofText? text with
    | none => .error .badConfig
    | some config =>
      match ofConfig ids config plc with
      | .error cause => .error (.config cause)
      | .ok b =>
        match config.structFile with
        | none => .ok b
        | some path => b.withStructFile folder path

end Bridge

end PlcTags
