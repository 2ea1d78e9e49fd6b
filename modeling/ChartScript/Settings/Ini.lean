import ChartScript.Decimal.Read
import ChartScript.Text.Blank
import ChartScript.Text.Lines
import ChartScript.Text.LowerCase
/-!
Configuration text: sections of keys with values, one to a line. A semicolon or a number sign starts
a comment. Sections and keys are the same in capitals and small letters, and of several values for
one key the last counts.
-/
namespace ChartScript

inductive IniFault where
  | openSection (line : Nat)
  /-- Nothing stands before the sign between key and value. -/
  | emptyKey (line : Nat)
deriving DecidableEq, Repr

def IniFault.message : IniFault → String
  | openSection line =>
    s!"line {line}: Found opening bracket for section name but no closing bracket"
  | emptyKey line => s!"line {line}:0: Key cannot be empty"

structure IniEntry where
  heading : String
  key : String
  value : Option String
deriving DecidableEq, Repr

/-- The entries in the order of the text. -/
structure Ini where
  entries : List IniEntry := []
deriving DecidableEq, Repr

namespace Ini

inductive Line where
  | blank
  | header (heading : String)
  | entry (key : String) (value : Option String)
deriving DecidableEq, Repr

def isCommentSign (c : Char) : Bool :=
  c == ';' || c == '#'

/-- The section of keys that stand before the first header. -/
def defaultSection : String :=
  "default"

/-- The characters before the last closing bracket. -/
def beforeBracket? (cs : List Char) : Option (List Char) :=
  match cs.reverse.dropWhile (· != ']') with
  | [] => none
  | _ :: rest => some rest.reverse

def lower (cs : List Char) : String :=
  Text.lowerCase (String.ofList cs)

/-- A line without the white space around it and without its comment. -/
def content (cs : List Char) : List Char :=
  Text.trimEnd ((Text.trimStart cs).takeWhile fun c => !isCommentSign c)

def readLine (number : Nat) (cs : List Char) : Except IniFault Line :=
  match content cs with
  | [] => .ok .blank
  | '[' :: rest =>
    match beforeBracket? rest with
    | some name => .ok (.header (lower (Text.trimChars name)))
    | none => .error (.openSection number)
  | cs =>
    let isSign (c : Char) : Bool := c == '=' || c == ':'
    let key := Text.trimEnd (cs.takeWhile (!isSign ·))
    match cs.dropWhile (!isSign ·) with
    | [] => .ok (.entry (lower key) none)
    | _ :: value =>
      if key.isEmpty then .error (.emptyKey number)
      else .ok (.entry (lower key) (some (String.ofList (Text.trimChars value))))

/-- Reads lines, of which the first has the given number, within a section. -/
def readLines (number : Nat) (heading : String) : List (List Char) → Except IniFault (List IniEntry)
  | [] => .ok []
  | line :: rest => do
    match ← readLine number line with
    | .blank => readLines (number + 1) heading rest
    | .header name => readLines (number + 1) name rest
    | .entry key value => return ⟨heading, key, value⟩ :: (← readLines (number + 1) heading rest)

def read (text : List Char) : Except IniFault Ini := do
  return { entries := ← readLines 1 defaultSection (Text.lines text) }

/-! ## Look-up -/

def get? (ini : Ini) (heading key : String) : Option String :=
  let heading := Text.lowerCase heading
  let key := Text.lowerCase key
  (ini.entries.reverse.find? fun e => e.heading == heading && e.key == key).bind (·.value)

def int? (ini : Ini) (heading key : String) : Option Int :=
  (ini.get? heading key).bind Decimal.readInt64?

def float? (ini : Ini) (heading key : String) : Option Float :=
  (ini.get? heading key).bind Decimal.readFloat?

def yes : List String :=
  ["true", "yes", "1"]

def no : List String :=
  ["false", "no", "0"]

def readBool? (text : String) : Option Bool :=
  let word := Text.lowerCase (Text.trim text)
  if yes.contains word then some true else if no.contains word then some false else none

def bool? (ini : Ini) (heading key : String) : Option Bool :=
  (ini.get? heading key).bind readBool?

end Ini

end ChartScript
