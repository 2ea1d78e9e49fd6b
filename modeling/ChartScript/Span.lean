/-!
Places in a text. Offsets count bytes of the UTF-8 form from zero; lines and columns count from
one, columns in characters.
-/
namespace ChartScript

/-- The piece of a text from byte `start` up to byte `stop`, and where it begins. -/
structure Span where
  start : Nat
  stop : Nat
  line : Nat
  column : Nat
deriving DecidableEq, Repr

namespace Span

/-- The empty piece at the beginning of a text. -/
def origin : Span := ⟨0, 0, 1, 1⟩

instance : Inhabited Span := ⟨origin⟩

/-- From the beginning of `a` to the end of `b`, or of `a` if that comes later. -/
def through (a b : Span) : Span :=
  { a with stop := max b.stop a.stop }

def length (s : Span) : Nat :=
  s.stop - s.start

def isEmpty (s : Span) : Bool :=
  s.start == s.stop

/-- A place measured inside the piece that begins at `base`, seen from the whole text. Only the
first line of the piece is shifted to the right. -/
def offsetBy (s base : Span) : Span where
  start := base.start + s.start
  stop := base.start + s.stop
  line := base.line + s.line - 1
  column := if s.line = 1 then base.column + s.column - 1 else s.column

end Span

/-- A cause of failure and the place it points at. -/
structure Located (α : Type) where
  span : Span
  cause : α
deriving DecidableEq, Repr

def Located.map {α β : Type} (f : α → β) (x : Located α) : Located β :=
  ⟨x.span, f x.cause⟩

end ChartScript
