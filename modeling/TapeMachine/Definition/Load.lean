import TapeMachine.Definition.Basic

namespace TapeMachine.Definition

def fileExtension : String := "tm"

/-- The definition in the file at a path, given what reading the file gave. -/
def ofFile (path : String) (content : Except Fault String) : Except Error Definition :=
  match content with
  | .error fault => .error (.unreadableFile path fault)
  | .ok text =>
      if text.utf8ByteSize > maxDefinitionSize then .error (.oversizedFile path)
      else parse .normal text

def load (root : FileTree) (path : String) : Except Error Definition :=
  ofFile path (root.readText path)

def isDefinitionFile (entry : String × FileTree) : Bool :=
  !entry.2.isDirectory && FileTree.extension? entry.1 == some fileExtension

def loadEntry (root : FileTree) (path : String) : Except Error (String × Definition) :=
  match load root path with
  | .ok definition => .ok (path, definition)
  | .error cause => .error (.unloadableEntry path cause)

def loadEntries (root : FileTree) (directory : String) (entries : List (String × FileTree)) :
    List (Except Error (String × Definition)) :=
  (entries.filter isDefinitionFile).map fun entry =>
    loadEntry root (FileTree.join directory entry.1)

/-- The definitions in the files of a directory, or what is wrong with them. No entry fails to be
listed here, so there is no message of that kind. -/
def loadDirectory (root : FileTree) (directory : String) :
    List (Except Error (String × Definition)) :=
  if root.holds directory then
    match root.list directory with
    | .error fault => [.error (.unreadableDirectory directory fault)]
    | .ok entries => loadEntries root directory entries
  else [.error (.missingDirectory directory)]

theorem loadEntries_perm (root : FileTree) (directory : String)
    {entries entries' : List (String × FileTree)} (h : entries.Perm entries') :
    (loadEntries root directory entries).Perm (loadEntries root directory entries') :=
  (h.filter _).map _

end TapeMachine.Definition
