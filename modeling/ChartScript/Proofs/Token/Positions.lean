import ChartScript.Proofs.Token.Cut
import ChartScript.Proofs.Token.Lossless
/-!
# Places in a text

The pass over a text counts lines and columns one character at a time. At each point it has counted
what the text before the point says: the line feeds in it, and the characters behind the last of
them. So every token knows its place exactly, those of the layout and the end of input included.

An exact place stays exact when it is drawn out to the end of another one, and when it is found in a
piece of the text and moved to where the piece stands.
-/
namespace ChartScript

open Text

namespace Text

open Lexer

theorem takeBytes_eq_some {n : Nat} {cs pre : List Char} :
    takeBytes n cs = some pre ↔ ∃ rest, cs = pre ++ rest ∧ n = byteSize pre := by
  constructor
  · intro h
    fun_induction takeBytes n cs generalizing pre with
    | case1 cs =>
      cases h
      exact ⟨cs, rfl, rfl⟩
    | case2 => cases h
    | case3 n c cs hle ih =>
      obtain ⟨more, hmore, rfl⟩ := Option.map_eq_some_iff.1 h
      obtain ⟨rest, rfl, hsize⟩ := ih hmore
      exact ⟨rest, rfl, by rw [byteSize]; omega⟩
    | case4 => cases h
  · rintro ⟨rest, rfl, rfl⟩
    exact takeBytes_append pre rest

theorem divide_further {as bs cs ds : List Char} (h : as ++ bs = cs ++ ds)
    (hle : byteSize as ≤ byteSize cs) : ∃ m, cs = as ++ m ∧ bs = m ++ ds := by
  rcases List.append_eq_append_iff.1 h with ⟨m, hm, hrest⟩ | ⟨m, hm, hrest⟩
  · exact ⟨m, hm, hrest⟩
  · have : m = [] := by
      by_contra hne
      have := byteSize_pos hne
      rw [hm, byteSize_append] at hle
      omega
    subst this
    exact ⟨[], by simpa using hm.symm, by simpa using hrest.symm⟩

end Text

def Span.BeginsIn (s : Span) (source : List Char) : Prop :=
  ∃ pre, takeBytes s.start source = some pre ∧ s.line = 1 + pre.count '\n' ∧ s.column = 1 + (leading pre).length

/-- The place is a piece of the text, and it begins where it says. -/
structure Span.Exact (s : Span) (source : List Char) : Prop where
  start_le_stop : s.start ≤ s.stop
  begins : s.BeginsIn source
  /-- It ends between two characters as well. -/
  ends : ∃ pre, takeBytes s.stop source = some pre

namespace Lexer

theorem Position.after_start (pre : List Char) : State.start.position.after pre =
    ⟨byteSize pre, 1 + pre.count '\n', 1 + (leading pre).length⟩ := by
  induction pre using List.reverseRecOn with
  | nil => rfl
  | append_singleton pre c ih =>
    rw [after_append, ih, after_cons, after_nil, byteSize_append]
    by_cases hc : c = '\n'
    · subst hc
      simp [advance, byteSize, Nat.add_assoc]
    · rw [leading_append pre (by simpa using Ne.symm hc)]
      simp [advance, hc, byteSize, Nat.add_assoc]

end Lexer

/-! ## Pieces of a text -/

/-- The place of `piece` in the text. -/
def Span.Cuts (s : Span) (source piece : List Char) : Prop :=
  ∃ pre rest, source = pre ++ (piece ++ rest) ∧ Lexer.State.start.position.after pre = ⟨s.start, s.line, s.column⟩ ∧
    s.stop = s.start + byteSize piece

namespace Span

variable {s base : Span} {source text piece : List Char}

theorem Cuts.exact (h : s.Cuts source piece) : s.Exact source := by
  obtain ⟨pre, rest, rfl, hpoint, hstop⟩ := h
  obtain ⟨hstart, hline, hcolumn⟩ := Lexer.Position.mk.inj ((Lexer.Position.after_start pre).symm.trans hpoint)
  refine ⟨by omega, ⟨pre, takeBytes_eq_some.2 ⟨_, rfl, hstart.symm⟩, hline.symm, hcolumn.symm⟩,
    pre ++ piece, takeBytes_eq_some.2 ⟨rest, by rw [List.append_assoc], ?_⟩⟩
  rw [Lexer.byteSize_append]
  omega

theorem Cuts.divides (h : s.Cuts source piece) : ∃ pre rest, source = pre ++ (piece ++ rest) ∧
    byteSize pre = s.start ∧ s.stop = s.start + byteSize piece := by
  obtain ⟨pre, rest, hsource, hpoint, hstop⟩ := h
  rw [Lexer.Position.after_start] at hpoint
  exact ⟨pre, rest, hsource, (Lexer.Position.mk.inj hpoint).1, hstop⟩

theorem Cuts.slice (h : s.Cuts source piece) : Text.slice source s.start s.stop = some piece := by
  obtain ⟨pre, rest, rfl, hstart, hstop⟩ := h.divides
  rw [hstop, ← hstart]
  exact slice_append pre piece rest

theorem Exact.cuts (h : s.Exact source) : s.Cuts source ((Text.slice source s.start s.stop).getD []) := by
  obtain ⟨pre, hpre, hline, hcolumn⟩ := h.begins
  obtain ⟨rest, hsource, hstart⟩ := takeBytes_eq_some.1 hpre
  obtain ⟨upto, hupto⟩ := h.ends
  obtain ⟨rest', hsource', hstop⟩ := takeBytes_eq_some.1 hupto
  have hle := h.start_le_stop
  obtain ⟨piece, rfl, rfl⟩ := divide_further (hsource.symm.trans hsource') (by omega)
  rw [Lexer.byteSize_append] at hstop
  have hcuts : s.Cuts source piece := by
    refine ⟨pre, rest', hsource, ?_, by omega⟩
    rw [Lexer.Position.after_start, hstart, hline, hcolumn]
  rw [hcuts.slice]
  exact hcuts

theorem exact_origin (source : List Char) : origin.Exact source :=
  ⟨Nat.le_refl _, ⟨[], takeBytes_eq_some.2 ⟨source, rfl, rfl⟩, rfl, rfl⟩,
    [], takeBytes_eq_some.2 ⟨source, rfl, rfl⟩⟩

theorem Exact.stop_le (h : s.Exact source) : s.stop ≤ byteSize source := by
  obtain ⟨pre, hpre⟩ := h.ends
  obtain ⟨rest, rfl, hstop⟩ := takeBytes_eq_some.1 hpre
  rw [Lexer.byteSize_append]
  omega

theorem Exact.through {a b : Span} (ha : a.Exact source) (hb : b.Exact source) : (a.through b).Exact source := by
  refine ⟨ha.start_le_stop.trans (Nat.le_max_right _ _), ha.begins, ?_⟩
  show ∃ pre, takeBytes (max b.stop a.stop) source = some pre
  rcases Nat.le_total a.stop b.stop with hle | hle
  · rw [Nat.max_eq_left hle]
    exact hb.ends
  · rw [Nat.max_eq_right hle]
    exact ha.ends

theorem Cuts.offsetBy (hbase : base.Cuts source text) (h : s.Cuts text piece) :
    (s.offsetBy base).Cuts source piece := by
  obtain ⟨before, after, rfl, hbegin, -⟩ := hbase
  obtain ⟨pre, rest, rfl, hpoint, hstop⟩ := h
  have hmoved : Lexer.State.start.position.after before = Lexer.State.start.position.offsetBy base := by
    rw [hbegin]
    simp [Lexer.Position.offsetBy, Lexer.State.start]
  refine ⟨before ++ pre, rest ++ after, by simp, ?_, ?_⟩
  · rw [Lexer.Position.after_append, hmoved, Lexer.Position.after_offsetBy ⟨Nat.one_pos, Nat.one_pos⟩, hpoint]
    rfl
  · simp only [Span.offsetBy]
    omega

end Span

/-! ## Tokens -/

namespace Lexer

theorem tokenize_cuts {source : List Char} {t : Token} (h : t ∈ tokenize source) :
    t.span.Cuts source t.text.toList := by
  obtain ⟨pre, rest, hsource, heq⟩ := (tokenize_tiles source).divides h
  refine ⟨pre, rest, hsource, ?_, ?_⟩
  · rw [heq]
    rfl
  · rw [heq]
    simp [Position.token]

theorem tokenize_exact {source : List Char} {t : Token} (h : t ∈ tokenize source) : t.span.Exact source :=
  (tokenize_cuts h).exact

/-- The line and the column of every token are those of the point at which it begins. -/
theorem tokenize_positions (source : List Char) : ∀ t ∈ tokenize source,
    ∃ pre, takeBytes t.span.start source = some pre ∧ t.span.line = 1 + pre.count '\n' ∧
      t.span.column = 1 + (leading pre).length :=
  fun _ ht => (tokenize_exact ht).begins

/-- A mark that closes a block is found behind characters of two bytes and two line feeds. -/
theorem tokenize_positions_dedent : let source := "// é\n\tx = é(\n é)".toList
    ∃ t ∈ tokenize source, t.kind = .dedent ∧ ∃ pre, takeBytes t.span.start source = some pre ∧
      t.span.line = 1 + pre.count '\n' ∧ t.span.column = 1 + (leading pre).length := by
  intro source
  have hdedent : ⟨.dedent, ⟨19, 19, 3, 4⟩, ""⟩ ∈ tokenize source := by decide +kernel
  exact ⟨_, hdedent, rfl, tokenize_positions source _ hdedent⟩

end Lexer

end ChartScript
