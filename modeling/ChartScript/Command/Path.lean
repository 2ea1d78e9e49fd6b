/-!
Paths as texts with slashes between the parts.
-/
namespace ChartScript.Path

/-- The parts of a path between its slashes, empty ones included. -/
def split : List Char → List (List Char)
  | [] => [[]]
  | c :: rest =>
    if c = '/' then [] :: split rest
    else match split rest with
      | [] => [[c]]
      | part :: more => (c :: part) :: more

def parts (path : String) : List String :=
  (split path.toList).map String.ofList

/-- A part that stays in the directory it stands for. -/
def isStay (part : String) : Bool :=
  part == "" || part == "."

def isAbsolute (path : String) : Bool :=
  path.toList.head? == some '/'

def join (directory name : String) : String :=
  if directory.toList.getLast?.all (· == '/') then directory ++ name else directory ++ "/" ++ name

/-- The last part that is a name. -/
def fileName? (path : String) : Option String :=
  match ((parts path).filter (!isStay ·)).getLast? with
  | some ".." => none
  | name => name

/-- A file name before and after its last dot. A dot at the very front divides nothing. -/
def splitName (name : String) : String × Option String :=
  let backward := name.toList.reverse
  match backward.dropWhile (· != '.') with
  | [] => (name, none)
  | _ :: before =>
    if before.isEmpty then (name, none)
    else (String.ofList before.reverse,
      some (String.ofList (backward.takeWhile (· != '.')).reverse))

def stem (path : String) : String :=
  match fileName? path with
  | some name => (splitName name).1
  | none => path

def extension? (name : String) : Option String :=
  (splitName name).2

end ChartScript.Path
