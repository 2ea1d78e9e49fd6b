import ChartScript.Command.Path
/-!
Files and directories: what can go wrong with them, the operations that the commands need, and a
tree of files that offers them without any outside world.
-/
namespace ChartScript

inductive FileFault where
  | notFound
  | exists_
  | notADirectory
  | isADirectory
  /-- The content is not valid text. -/
  | notText
  | other (message : String)
deriving DecidableEq, Repr

def FileFault.message : FileFault → String
  | notFound => "No such file or directory (os error 2)"
  | exists_ => "File exists (os error 17)"
  | notADirectory => "Not a directory (os error 20)"
  | isADirectory => "Is a directory (os error 21)"
  | notText => "stream did not contain valid UTF-8"
  | other message => message

/-- What commands need from the place where they run. -/
structure Host (m : Type → Type) where
  isDirectory : (path : String) → m Bool
  fileNames : (path : String) → m (Except FileFault (List String))
  readText : (path : String) → m (Except FileFault String)
  createDirectories : (path : String) → m (Except FileFault Unit)
  writeText : (path content : String) → m (Except FileFault Unit)
  printOut : (text : String) → m Unit
  printError : (text : String) → m Unit

/-! ## Trees -/

inductive FileNode where
  | directory
  /-- A file, without content if it is not text. -/
  | file (content : Option String)
deriving DecidableEq, Repr

/-- Files and directories by the parts of their paths. The root is a directory. -/
structure FileTree where
  nodes : List (List String × FileNode) := []
deriving DecidableEq, Repr

namespace FileTree

def node? (t : FileTree) (place : List String) : Option FileNode :=
  if place = [] then some .directory else t.nodes.lookup place

def set (t : FileTree) (place : List String) (node : FileNode) : FileTree :=
  { nodes := t.nodes.filter (·.1 != place) ++ [(place, node)] }

/-- Where some parts lead from a directory. Nothing above the root can be reached. -/
def walk (t : FileTree) (place : List String) : List String → Except FileFault (List String)
  | [] => .ok place
  | part :: rest =>
    if Path.isStay part then t.walk place rest
    else if part = ".." then
      if place = [] then .error .notFound else t.walk place.dropLast rest
    else
      match t.node? (place ++ [part]) with
      | none => .error .notFound
      | some .directory => t.walk (place ++ [part]) rest
      | some (.file _) => if rest = [] then .ok (place ++ [part]) else .error .notADirectory

def find (t : FileTree) (path : String) : Except FileFault (List String) :=
  if Path.isAbsolute path then .error .notFound else t.walk [] (Path.parts path)

def isDirectory (t : FileTree) (path : String) : Bool :=
  match t.find path with
  | .ok place => t.node? place == some .directory
  | .error _ => false

def fileNames (t : FileTree) (path : String) : Except FileFault (List String) := do
  let place ← t.find path
  return t.nodes.filterMap fun (p, node) =>
    match node, p.getLast? with
    | .file _, some name => if p.dropLast = place then some name else none
    | _, _ => none

def readText (t : FileTree) (path : String) : Except FileFault String := do
  let place ← t.find path
  match t.node? place with
  | some (.file (some content)) => return content
  | some (.file none) => .error .notText
  | some .directory => .error .isADirectory
  | none => .error .notFound

def make (t : FileTree) (place : List String) : List String → Except FileFault FileTree
  | [] => .ok t
  | part :: rest =>
    if Path.isStay part then t.make place rest
    else if part = ".." then
      if place = [] then .error .notFound else t.make place.dropLast rest
    else
      match t.node? (place ++ [part]) with
      | none => (t.set (place ++ [part]) .directory).make (place ++ [part]) rest
      | some .directory => t.make (place ++ [part]) rest
      | some (.file _) =>
        if rest.all (· == "") then .error .exists_ else .error .notADirectory

def createDirectories (t : FileTree) (path : String) : Except FileFault FileTree :=
  if Path.isAbsolute path then .error .notFound else t.make [] (Path.parts path)

def writeText (t : FileTree) (path content : String) : Except FileFault FileTree := do
  if Path.isAbsolute path then .error .notFound
  else
    let parts := Path.parts path
    let place ← t.walk [] parts.dropLast
    let target := place ++ parts.getLast?.toList
    match t.node? place, t.node? target with
    | some .directory, some .directory => .error .isADirectory
    | some .directory, _ => return t.set target (.file (some content))
    | _, _ => .error .notADirectory

/-- A directory together with those above it, as far as no file is in the way. -/
def addDirectory (t : FileTree) (path : String) : FileTree :=
  match t.createDirectories path with
  | .ok made => made
  | .error _ => t

def addFile (t : FileTree) (path : String) (content : Option String) : FileTree :=
  let parts := (Path.parts path).filter (!Path.isStay ·)
  (t.addDirectory ("/".intercalate parts.dropLast)).set parts (.file content)

/-- The files of the tree that are not the same in another. -/
def changedSince (t before : FileTree) : List (String × String) :=
  t.nodes.filterMap fun (place, node) =>
    match node with
    | .file (some content) =>
      if before.node? place = some node then none else some ("/".intercalate place, content)
    | _ => none

end FileTree

structure Desk where
  tree : FileTree := {}
  output : String := ""
  errors : String := ""

/-- Runs an operation that may change the tree. -/
def Desk.change (f : FileTree → Except FileFault FileTree) : StateM Desk (Except FileFault Unit) :=
  fun d =>
    match f d.tree with
    | .ok tree => (.ok (), { d with tree := tree })
    | .error e => (.error e, d)

/-- A host that is nothing but a tree of files. -/
def Desk.host : Host (StateM Desk) where
  isDirectory path := return (← get).tree.isDirectory path
  fileNames path := return (← get).tree.fileNames path
  readText path := return (← get).tree.readText path
  createDirectories path := Desk.change (·.createDirectories path)
  writeText path content := Desk.change (·.writeText path content)
  printOut text := modify fun d => { d with output := d.output ++ text }
  printError text := modify fun d => { d with errors := d.errors ++ text }

end ChartScript
