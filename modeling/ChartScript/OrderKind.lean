/-!
The requests a strategy can make, and what each of them needs to know.
-/
namespace ChartScript

inductive Direction where
  | long | short
deriving DecidableEq, Repr

def Direction.tag : Direction → String
  | long => "Long"
  | short => "Short"

inductive OrderKind where
  | entry | order | close | closeAll | exit | cancel | cancelAll
deriving DecidableEq, Repr

namespace OrderKind

/-- Name of the call after `strategy.`. -/
def name : OrderKind → String
  | entry => "entry" | order => "order" | close => "close" | closeAll => "close_all"
  | exit => "exit" | cancel => "cancel" | cancelAll => "cancel_all"

def tag : OrderKind → String
  | entry => "Entry" | order => "Order" | close => "Close" | closeAll => "CloseAll"
  | exit => "Exit" | cancel => "Cancel" | cancelAll => "CancelAll"

def all : List OrderKind := [entry, order, close, closeAll, exit, cancel, cancelAll]

def ofName? (name : String) : Option OrderKind :=
  all.find? (·.name == name)

def qualifiedName (k : OrderKind) : String :=
  "strategy." ++ k.name

/-- Parameters in the order in which unnamed arguments fill them. -/
def positional : OrderKind → List String
  | entry | order => ["id", "direction", "qty", "limit", "stop"]
  | close => ["id", "comment", "qty"]
  | closeAll => ["comment"]
  | exit => ["id", "from_entry", "qty", "qty_percent", "profit", "limit"]
  | cancel => ["id"]
  | cancelAll => []

def needsId : OrderKind → Bool
  | closeAll | cancelAll => false
  | _ => true

def needsDirection : OrderKind → Bool
  | entry | order => true
  | _ => false

end OrderKind

end ChartScript
