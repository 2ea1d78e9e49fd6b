import ChartScript.Emitted.Token
/-!
Well-formedness of the parts of emitted code that hold text from outside: the path that things are
imported from, and the fields with titles above them.

A reader takes the tokens of one thing off the front and gives back the others. Types nest, so their
readers count down the levels; as a level takes at least one token, the number of tokens is enough.
-/
namespace ChartScript.Emitted

/-! ## Paths -/

/-- Names that each have two colons after them. -/
def isPathOpening : List Token → Bool
  | [] => true
  | name :: .colons :: rest => (name.isName || name.isModuleWord) && isPathOpening rest
  | _ => false

/-- Things can be imported from the path. The empty path stands for the root. -/
def isImportPath (path : String) : Bool :=
  match Token.ofText (path ++ "::") with
  | some (.colons :: rest) => isPathOpening rest
  | some tokens => isPathOpening tokens
  | none => false

/-! ## Types -/

/-- Things with commas between them, up to the closing mark. -/
def separated (reader : List Token → Option (List Token)) (close : Char) :
    (count : Nat) → List Token → Option (List Token)
  | 0, _ => none
  | count + 1, tokens =>
    if tokens.head? = some (.mark close) then some tokens.tail
    else match reader tokens with
      | some (.mark ',' :: rest) => separated reader close count rest
      | some (.mark c :: rest) => if c = close then some rest else none
      | _ => none

/-- The arguments of a type, with or without colons before them. -/
def typeArguments (type : List Token → Option (List Token)) (tokens : List Token) :
    Option (List Token) :=
  let argument := fun
    | .lifetime _ :: rest | .digits :: rest => some rest
    | ts => type ts
  match tokens with
  | .mark '<' :: rest | .colons :: .mark '<' :: rest =>
    separated argument '>' tokens.length rest
  | _ => some tokens

/-- The names of a path, each with its arguments. -/
def pathNames (type : List Token → Option (List Token)) :
    (count : Nat) → List Token → Option (List Token)
  | count + 1, name :: rest =>
    let after :=
      if name.isModuleWord then some rest
      else if name.isName || name = .word "Self" then typeArguments type rest
      else none
    match after with
    | some (.colons :: more) => pathNames type count more
    | other => other
  | _, _ => none

def typePath (type : List Token → Option (List Token)) (tokens : List Token) :
    Option (List Token) :=
  match tokens with
  | .colons :: rest => pathNames type tokens.length rest
  | _ => pathNames type tokens.length tokens

/-- A type that is nested less than `depth` deep. -/
def type : (depth : Nat) → List Token → Option (List Token)
  | 0, _ => none
  | depth + 1, tokens =>
    match tokens with
    | .mark '!' :: rest | .word "_" :: rest => some rest
    | .mark '&' :: .lifetime _ :: .word "mut" :: rest | .mark '&' :: .lifetime _ :: rest
    | .mark '&' :: .word "mut" :: rest | .mark '&' :: rest
    | .mark '*' :: .word "const" :: rest | .mark '*' :: .word "mut" :: rest => type depth rest
    | .mark '(' :: rest => separated (type depth) ')' tokens.length rest
    | .mark '[' :: rest =>
      match type depth rest with
      | some (.mark ']' :: after) | some (.mark ';' :: .digits :: .mark ']' :: after) => some after
      | _ => none
    | _ => typePath (type depth) tokens

def isPath (text : String) : Bool :=
  match Token.ofText text with
  | some tokens => typePath (type tokens.length) tokens == some []
  | none => false

/-! ## Fields -/

def skipDocs (tokens : List Token) : List Token :=
  tokens.dropWhile (· == .doc)

/-- How far a field can be seen. -/
def visibility : List Token → List Token
  | .word "pub" :: .mark '(' :: .word place :: .mark ')' :: rest =>
    if moduleWords.contains place then rest else .mark '(' :: .word place :: .mark ')' :: rest
  | .word "pub" :: rest => rest
  | tokens => tokens

def field (tokens : List Token) : Option (List Token) :=
  match visibility (skipDocs tokens) with
  | name :: .mark ':' :: rest =>
    if name.isName || name = .word "_" then type rest.length rest else none
  | _ => none

def isFieldList (text : String) : Bool :=
  match Token.ofText (text ++ "\x7d") with
  | some tokens => separated field '\x7d' tokens.length tokens == some []
  | none => false

end ChartScript.Emitted
