import ChartScript.Proofs.Script.Layout
/-!
# Reading further down

Where a text stands in a source has no say in how it is read: behind other lines, the pass finds the
same tokens, only further down.
-/
namespace ChartScript

open Text

/-- The place further down, by a number of bytes and a number of lines. -/
def Span.down (bytes lines : Nat) (s : Span) : Span :=
  ⟨s.start + bytes, s.stop + bytes, s.line + lines, s.column⟩

/-- The token at another place. -/
def Token.relocate (φ : Span → Span) (t : Token) : Token :=
  { t with span := φ t.span }

namespace Lexer

def Position.down (bytes lines : Nat) (p : Position) : Position :=
  ⟨p.offset + bytes, p.line + lines, p.column⟩

def State.down (bytes lines : Nat) (s : State) : State :=
  { s with position := s.position.down bytes lines }

section

variable (bytes lines : Nat)

theorem token_down (p : Position) (kind : TokenKind) (chars : List Char) :
    (p.down bytes lines).token kind chars = (p.token kind chars).relocate (.down bytes lines) := by
  simp only [Position.token, Position.down, Token.relocate, Span.down, Token.mk.injEq, Span.mk.injEq,
    true_and, and_true]
  omega

theorem Position.advance_down (p : Position) (c : Char) :
    (p.down bytes lines).advance c = (p.advance c).down bytes lines := by
  unfold Position.advance
  split <;> simp only [Position.down, Position.mk.injEq, and_true] <;> omega

theorem advance_down (s : State) (c : Char) : (s.down bytes lines).advance c = (s.advance c).down bytes lines := by
  rw [State.advance, State.advance, State.down, State.down, Position.advance_down]

theorem settle_down (s : State) (cs : List Char) : (s.down bytes lines).settle cs =
    ((s.settle cs).1.map (·.relocate (.down bytes lines)), (s.settle cs).2.down bytes lines) := by
  cases hm : s.margin with
  | none =>
    rw [State.settle_of_none (s := s.down bytes lines) _ hm, State.settle_of_none _ hm]
    rfl
  | some width =>
    have hdown : (s.down bytes lines).margin = some width := hm
    simp only [State.settle, hdown, hm]
    split
    · rfl
    · simp only [List.map_map, Prod.mk.injEq]
      exact ⟨List.map_congr_left fun kind _ => token_down bytes lines s.position kind [], rfl⟩

theorem finish_down (s : State) : (s.down bytes lines).finish = s.finish.map (·.relocate (.down bytes lines)) := by
  have htoken := token_down bytes lines s.position
  simp only [State.finish, State.token_eq, State.down, htoken, List.map_append, List.map_map]
  split
  · rfl
  · rfl

theorem after_down (p : Position) (cs : List Char) :
    (p.down bytes lines).after cs = (p.after cs).down bytes lines := by
  induction cs generalizing p with
  | nil => rfl
  | cons c cs ih => rw [Position.after_cons, Position.after_cons, ← ih, Position.advance_down]

theorem Advances.down {s s' : State} {cs rest : List Char} {ts : List Token} (h : Advances s cs ts s' rest) :
    Advances (s.down bytes lines) cs (ts.map (·.relocate (.down bytes lines))) (s'.down bytes lines) rest := by
  have hadvance := advance_down bytes lines s
  cases h with
  | ends h =>
    have hs : s.below.down bytes lines = (s.down bytes lines).below := by
      rw [State.below, State.below, hadvance]; rfl
    rw [hs, List.map_singleton, ← token_down]
    exact .ends h
  | runsOn h =>
    have hs : s.onward.down bytes lines = (s.down bytes lines).onward := by
      rw [State.onward, State.onward, hadvance]; rfl
    rw [hs]
    exact .runsOn h
  | @margin c _ width w hm hw =>
    have hs : (s.indented c (width + w)).down bytes lines = (s.down bytes lines).indented c (width + w) := by
      rw [State.indented, State.indented, hadvance]; rfl
    rw [hs]
    exact .margin hm hw
  | blank hb hc hm =>
    have h : Advances (s.down bytes lines) _ _ _ rest := .blank hb hc hm
    rwa [settle_down, advance_down] at h
  | @word c rest kind n hx =>
    have h := Advances.word (s := s.down bytes lines) hx
    rw [settle_down] at h
    rw [List.map_append, List.map_singleton, ← token_down]
    have hs : ((s.settle (c :: rest)).2.past kind (c :: rest) n).down bytes lines =
        ((s.settle (c :: rest)).2.down bytes lines).past kind (c :: rest) n := by
      rw [State.past, State.past, State.down, State.down, after_down]; rfl
    rw [hs]
    exact h

theorem scan_down (s : State) (cs : List Char) :
    scan 0 (s.down bytes lines) cs = (scan 0 s cs).map (·.relocate (.down bytes lines)) := by
  induction s, cs using scan_induction with
  | finish s => rw [scan_nil, scan_nil, finish_down]
  | step s cs ts s' rest h ih => rw [(h.down bytes lines).scan_eq, h.scan_eq, ih, List.map_append]

end

end Lexer

end ChartScript
