import ChartScript.Text.Printable
/-!
Double-quoted text literals. The quote, the backslash and the usual controls are escaped by a
backslash; what is unprintable or would attach to its neighbour is written by its code point; all
else stands for itself.
-/
namespace ChartScript.Text

/-- A code point in braces, in lower-case hexadecimal digits. -/
def escapeCode (c : Char) : List Char :=
  ['\\', 'u', '\x7b'] ++ Nat.toDigits 16 c.toNat ++ ['\x7d']

def escapeChar (c : Char) : List Char :=
  if c = '"' then ['\\', '"']
  else if c = '\\' then ['\\', '\\']
  else if c = '\n' then ['\\', 'n']
  else if c = '\r' then ['\\', 'r']
  else if c = '\t' then ['\\', 't']
  else if c.toNat = 0 then ['\\', '0']
  else if isAttaching c || !isPrintable c then escapeCode c
  else [c]

def quote (text : String) : String :=
  String.ofList ('"' :: text.toList.flatMap escapeChar ++ ['"'])

end ChartScript.Text
