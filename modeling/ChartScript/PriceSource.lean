/-!
The prices of a bar that a script can name: the five recorded fields and four averages of them.
-/
namespace ChartScript

/-- The recorded fields, which every script can name directly. -/
inductive BarField where
  | open_ | high | low | close | volume
deriving DecidableEq, Repr

namespace BarField

def name : BarField → String
  | open_ => "open" | high => "high" | low => "low" | close => "close" | volume => "volume"

def all : List BarField := [open_, high, low, close, volume]

def ofName? (name : String) : Option BarField :=
  all.find? (·.name == name)

end BarField

inductive Average where
  | hl2 | hlc3 | hlcc4 | ohlc4
deriving DecidableEq, Repr

namespace Average

def name : Average → String
  | hl2 => "hl2" | hlc3 => "hlc3" | hlcc4 => "hlcc4" | ohlc4 => "ohlc4"

def all : List Average := [hl2, hlc3, hlcc4, ohlc4]

def ofName? (name : String) : Option Average :=
  all.find? (·.name == name)

end Average

inductive PriceSource where
  | field (f : BarField)
  | average (a : Average)
deriving DecidableEq, Repr

namespace PriceSource

def name : PriceSource → String
  | field f => f.name
  | average a => a.name

def ofName? (name : String) : Option PriceSource :=
  ((BarField.ofName? name).map field).or ((Average.ofName? name).map average)

end PriceSource

end ChartScript
