import JavaSyntax.Fragment.Basic

/-!
Files as the command line sees them. A `Disk` is all that it asks of a file system, in any monad;
`Files` is a directory held in memory, which serves as one.
-/

namespace JavaSyntax

/-- Reads files, and lists the regular files under a path. -/
structure Disk (m : Type → Type) where
  read : String → m (Except ReadError String)
  filesUnder : String → m (List String)

/-- The text that bytes encode. -/
def decodeText (bytes : ByteArray) : Except ReadError String :=
  match String.fromUTF8? bytes with
  | some text => .ok text
  | none => .error .notText

namespace Path

/-- The parts of a path that lead somewhere. -/
def parts (path : String) : List String :=
  (path.splitOn "/").filter fun part => part != "" && part != "."

/-- A path below another one. -/
def join (path below : String) : String :=
  if path.endsWith "/" then path ++ below else path ++ "/" ++ below

/-- What stands behind the last dot of a file's name; a dot at its start makes no extension. -/
def extension? (path : String) : Option String :=
  match ((path.splitOn "/").getLast?.getD "").splitOn "." with
  | [_] | ["", _] => none
  | pieces => pieces.getLast?

end Path

inductive Content where
  | directory
  | file (bytes : ByteArray)

/-- The entries of a directory at any depth, each with the parts of its path. -/
structure Files where
  entries : List (List String × Content)

namespace Files

def empty : Files := ⟨[]⟩

def find? (files : Files) (place : List String) : Option Content :=
  if place.isEmpty then some .directory else files.entries.lookup place

/-- Adds an entry unless the place is taken. -/
def place (files : Files) (parts : List String) (content : Content) : Files :=
  if (files.find? parts).isSome then files else ⟨files.entries ++ [(parts, content)]⟩

/-- Adds an entry and the directories above it. -/
def add (files : Files) (path : String) (content : Content) : Files :=
  let parts := Path.parts path
  let prefixes := (List.range parts.length).map parts.take
  (prefixes.foldl (fun files above => files.place above .directory) files).place parts content

/-- What lies at the end of a path that starts at a place. Nothing outside the directory is known,
apart from that there is a directory around it. -/
def follow (files : Files) (place : List String) : List String → Option (List String × Content)
  | [] => (files.find? place).map (place, ·)
  | part :: rest =>
    match files.find? place with
    | some .directory =>
      if part != ".." then files.follow (place ++ [part]) rest
      else if !place.isEmpty then files.follow place.dropLast rest
      else if rest.isEmpty then some ([], .directory)
      else none
    | _ => none

def lookup (files : Files) (path : String) : Option (List String × Content) :=
  if path.isEmpty || path.startsWith "/" then none else files.follow [] (Path.parts path)

def read (files : Files) (path : String) : Except ReadError String :=
  match files.lookup path with
  | none => .error .notFound
  | some (_, .directory) => .error .isDirectory
  | some (_, .file bytes) => decodeText bytes

/-- The regular files at or under a path, each told by way of that path. -/
def filesUnder (files : Files) (path : String) : List String :=
  match files.lookup path with
  | none => []
  | some (_, .file _) => [path]
  | some (place, .directory) =>
    files.entries.filterMap fun
      | (parts, .file _) =>
        if place.isPrefixOf parts then
          some (Path.join path ("/".intercalate (parts.drop place.length)))
        else none
      | _ => none

def disk (files : Files) : Disk Id :=
  ⟨files.read, files.filesUnder⟩

end Files

end JavaSyntax
