import TapeMachine.Keyed

/-!
Directories and files below a working directory, and what can go wrong when one of them is read.
Names are texts, and a directory is listed either in full or not at all: names that are not UTF-8
and listings that break off at an entry are left out.
-/

namespace TapeMachine

inductive Fault where
  | notFound
  | notDirectory
  | isDirectory
  | notText
  | other (message : String)
  deriving DecidableEq, Repr

def Fault.message : Fault → String
  | .notFound => "No such file or directory (os error 2)"
  | .notDirectory => "Not a directory (os error 20)"
  | .isDirectory => "Is a directory (os error 21)"
  | .notText => "stream did not contain valid UTF-8"
  | .other message => message

inductive FileTree where
  | file (bytes : ByteArray)
  | directory (entries : List (String × FileTree))

namespace FileTree

def decode (bytes : ByteArray) : Except Fault String :=
  match String.fromUTF8? bytes with
  | some text => .ok text
  | none => .error .notText

theorem decode_toUTF8 (s : String) : decode s.toUTF8 = .ok s := by
  have hread : String.fromUTF8? s.toUTF8 = some s := dif_pos s.isValidUTF8
  simp only [decode, hread]

def isDirectory : FileTree → Bool
  | .file _ => false
  | .directory _ => true

def child? (name : String) (entries : List (String × FileTree)) : Option FileTree :=
  (Keyed.find? Prod.fst name entries).map Prod.snd

/-- Follows the names of a path from a node, where `above` holds the directories on the way to it,
the nearest first. Nothing but the working directory is known of what lies above it. -/
def walk (above : List FileTree) (node : FileTree) : List String → Except Fault FileTree
  | [] => .ok node
  | name :: rest =>
      match node with
      | .file _ => .error .notDirectory
      | .directory entries =>
          if name = "" ∨ name = "." then walk above node rest
          else if name = ".." then
            match above with
            | [] => walk [] (.directory []) rest
            | parent :: above => walk above parent rest
          else
            match child? name entries with
            | none => .error .notFound
            | some child => walk (node :: above) child rest

def pathNames (path : String) : List String :=
  (path.toList.splitOn '/').map String.ofList

def resolve (root : FileTree) (path : String) : Except Fault FileTree :=
  if path = "" then .error .notFound else walk [] root (pathNames path)

def holds (root : FileTree) (path : String) : Bool :=
  (root.resolve path).isOk

def readText (root : FileTree) (path : String) : Except Fault String :=
  match root.resolve path with
  | .error fault => .error fault
  | .ok (.directory _) => .error .isDirectory
  | .ok (.file bytes) => decode bytes

def list (root : FileTree) (path : String) : Except Fault (List (String × FileTree)) :=
  match root.resolve path with
  | .error fault => .error fault
  | .ok (.file _) => .error .notDirectory
  | .ok (.directory entries) => .ok entries

def join (directory name : String) : String :=
  if directory.toList.getLast? = some '/' then directory ++ name else directory ++ "/" ++ name

/-- The extension of a file name: what follows its last dot, unless that dot begins the name. -/
def extension? (name : String) : Option String :=
  match (name.toList.splitOn '.').reverse with
  | _ :: [] :: [] => none
  | last :: _ :: _ => some (String.ofList last)
  | _ => none

/-- Puts a node where a path of names leads, making the directories on the way. A directory that
is there already is kept. -/
def place (node : FileTree) : List String → List (String × FileTree) → List (String × FileTree)
  | [], entries => entries
  | name :: rest, entries =>
      let inner :=
        match child? name entries with
        | some (.directory inner) => inner
        | _ => []
      match rest, node with
      | [], .file _ => Keyed.put Prod.fst (name, node) entries
      | rest, _ => Keyed.put Prod.fst (name, .directory (place node rest inner)) entries

/-- The tree with the given files, and with an empty directory at each path without content. -/
def ofFiles (files : List (String × Option ByteArray)) : FileTree :=
  .directory <| files.foldl
    (fun entries (path, content) =>
      let names := (pathNames path).filter fun name => name ≠ "" ∧ name ≠ "."
      place (content.elim (.directory []) .file) names entries)
    []

end FileTree

end TapeMachine
