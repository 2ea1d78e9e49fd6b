/-!
Sorted lists of texts without repetitions.
-/
namespace ChartScript.Text

def insertSorted (x : String) : List String → List String
  | [] => [x]
  | y :: rest =>
    if x = y then y :: rest
    else if x < y then x :: y :: rest
    else y :: insertSorted x rest

def sortedOnce (xs : List String) : List String :=
  xs.foldl (fun sorted x => insertSorted x sorted) []

end ChartScript.Text
