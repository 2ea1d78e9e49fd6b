/-!
Computing bar by bar. A result depends only on the bars up to its own, because all that is handed
from one bar to the next is a state.
-/
namespace ChartScript

/-- Results of a step that is taken for each item in turn, handing on a state. -/
def scan {σ α β : Type} (step : σ → α → σ × β) (state : σ) : List α → List β
  | [] => []
  | a :: rest => (step state a).2 :: scan step (step state a).1 rest

/-- Results of a function of the items so far, of which the newest comes first. -/
def scanHistory {α β : Type} (f : List α → β) (items : List α) : List β :=
  scan (fun past a => (a :: past, f (a :: past))) [] items

end ChartScript
