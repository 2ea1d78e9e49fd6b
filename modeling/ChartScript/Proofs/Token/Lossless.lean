import ChartScript.Proofs.Text.Rows
import ChartScript.Proofs.Token.Words
/-!
# Tokens cover their text

The tokens of a text lie in it one behind the other, each where its own place says, and between them
there is nothing but white space. `Tiles` says so along the text, from a point on; the pass keeps it
at every step, whichever way a character is read. Everything else follows from the tiling alone.
-/
namespace ChartScript.Lexer

open List Text

/-- From the point `p` on, the tokens lie in the text one behind the other with only white space
between them, and the end of input comes at the end of the text and nowhere else. -/
inductive Tiles : Position → List Char → List Token → Prop
  | finish (p : Position) : Tiles p [] [p.token .eof []]
  | gap {p : Position} {c : Char} {cs : List Char} {ts : List Token} : isBlank c = true →
      Tiles (p.advance c) cs ts → Tiles p (c :: cs) ts
  | token {p : Position} {kind : TokenKind} (chars : List Char) {rest : List Char}
      {ts : List Token} : kind ≠ .eof → Tiles (p.after chars) rest ts →
      Tiles p (chars ++ rest) (p.token kind chars :: ts)

/-! ## The pass tiles the text -/

theorem Tiles.layout {p : Position} {cs : List Char} {ts : List Token} (h : Tiles p cs ts) {kinds : List TokenKind}
    (hkinds : .eof ∉ kinds) : Tiles p cs (kinds.map (p.token · []) ++ ts) := by
  induction kinds with
  | nil => exact h
  | cons kind kinds ih =>
    obtain ⟨hkind, hkinds⟩ := not_or.1 (mem_cons.not.1 hkinds)
    exact .token [] (Ne.symm hkind) (ih hkinds)

theorem settle_kinds (s : State) (cs : List Char) : ∃ kinds : List TokenKind,
    (s.settle cs).1 = kinds.map (s.position.token · []) ∧ .eof ∉ kinds := by
  unfold State.settle
  split
  · exact ⟨[], rfl, by simp⟩
  · next width _ =>
    split
    · exact ⟨[], rfl, by simp⟩
    · refine ⟨(reindent s.indents width).1, rfl, fun h => ?_⟩
      simp only [reindent] at h
      split at h
      · simp at h
      · simp at h

theorem Tiles.settle {s : State} {cs : List Char} {ts : List Token} (h : Tiles s.position cs ts)
    (margin : List Char) : Tiles s.position cs ((s.settle margin).1 ++ ts) := by
  obtain ⟨kinds, hkinds, hend⟩ := settle_kinds s margin
  rw [hkinds]
  exact h.layout hend

theorem finish_tiles (s : State) : Tiles s.position [] s.finish := by
  have hdedents : s.indents.map (fun _ => s.token .dedent []) =
      (s.indents.map fun _ => TokenKind.dedent).map (s.position.token · []) := by
    simp [State.token_eq]
  have hopen : Tiles s.position [] ((s.indents.map fun _ => TokenKind.dedent).map
      (s.position.token · []) ++ [s.token .eof []]) :=
    (Tiles.finish s.position).layout (by simp)
  rw [State.finish, hdedents, append_assoc]
  split
  · exact .token [] (by simp) hopen
  · exact hopen

theorem scan_tiles (s : State) (cs : List Char) : Tiles s.position cs (scan 0 s cs) := by
  induction s, cs using scan_induction with
  | finish s => exact finish_tiles s
  | step s cs ts s' rest h ih =>
    rw [h.scan_eq]
    cases h with
    | ends => exact .token ['\n'] (by simp) ih
    | runsOn => exact .gap rfl ih
    | margin hm hw => exact .gap (isBlank_of_marginWidth hw) ih
    | @blank c rest hb hc hm =>
      rw [s.settle_advance] at ih
      exact Tiles.settle (.gap hb ih) _
    | @word c rest kind n hx =>
      have hkind : kind ≠ .eof := by
        rintro rfl
        have := lexeme_not_layout hx .origin ""
        cases this
      rw [s.settle_past] at ih
      rw [append_assoc]
      refine Tiles.settle ?_ _
      have := Tiles.token ((c :: rest).take n) hkind ih
      rwa [take_append_drop] at this

theorem tokenize_tiles (source : List Char) : Tiles State.start.position source (tokenize source) :=
  scan_tiles .start source

/-! ## What a tiling says -/

namespace Tiles

variable {p : Position} {cs : List Char} {ts : List Token}

theorem ends (h : Tiles p cs ts) : ∃ init, ts = init ++ [(p.after cs).token .eof []] ∧
    ∀ t ∈ init, t.kind ≠ .eof := by
  induction h with
  | finish p => exact ⟨[], rfl, by simp⟩
  | gap _ _ ih => exact ih
  | @token p kind chars rest ts hkind _ ih =>
    obtain ⟨init, rfl, hinit⟩ := ih
    refine ⟨p.token kind chars :: init, by rw [Position.after_append]; rfl, fun t ht => ?_⟩
    rcases mem_cons.1 ht with rfl | ht
    · exact hkind
    · exact hinit t ht

theorem divides (h : Tiles p cs ts) {t : Token} (ht : t ∈ ts) :
    ∃ pre rest, cs = pre ++ (t.text.toList ++ rest) ∧ t = (p.after pre).token t.kind t.text.toList := by
  induction h with
  | finish p =>
    rw [mem_singleton.1 ht]
    exact ⟨[], [], by simp [Position.token], by simp [Position.token]⟩
  | @gap p c cs ts _ _ ih =>
    obtain ⟨pre, rest, rfl, heq⟩ := ih ht
    exact ⟨c :: pre, rest, rfl, heq⟩
  | @token p kind chars rest ts _ _ ih =>
    rcases mem_cons.1 ht with rfl | ht
    · exact ⟨[], rest, by simp [Position.token], by simp [Position.token]⟩
    · obtain ⟨pre, rest', rfl, heq⟩ := ih ht
      refine ⟨chars ++ pre, rest', by rw [append_assoc], ?_⟩
      rwa [Position.after_append]

theorem offset_le (h : Tiles p cs ts) : ∀ t ∈ ts, p.offset ≤ t.span.start := by
  intro t ht
  obtain ⟨pre, rest, -, heq⟩ := h.divides ht
  rw [heq]
  simp only [Position.token, Position.after_offset]
  omega

theorem pairwise (h : Tiles p cs ts) : ts.Pairwise (·.span.stop ≤ ·.span.start) := by
  induction h with
  | finish p => exact pairwise_singleton _ _
  | gap _ _ ih => exact ih
  | @token p kind chars rest ts _ h ih =>
    refine pairwise_cons.2 ⟨fun t ht => ?_, ih⟩
    have := h.offset_le t ht
    rwa [Position.after_offset] at this

theorem covered (h : Tiles p cs ts) {pre rest : List Char} {c : Char} (hcs : cs = pre ++ c :: rest)
    (hc : isBlank c = false) :
    ∃ t ∈ ts, t.span.start ≤ p.offset + byteSize pre ∧ p.offset + byteSize pre < t.span.stop := by
  induction h generalizing pre with
  | finish p => simp at hcs
  | @gap p d cs ts hd _ ih =>
    cases pre with
    | nil =>
      cases hcs
      rw [hd] at hc
      cases hc
    | cons d' pre =>
      cases hcs
      obtain ⟨t, ht, hstart, hstop⟩ := ih rfl
      rw [Position.advance_offset] at hstart hstop
      exact ⟨t, ht, by rw [byteSize]; omega, by rw [byteSize]; omega⟩
  | @token p kind chars rest' ts _ _ ih =>
    rcases append_eq_append_iff.1 hcs with ⟨more, rfl, hmore⟩ | ⟨more, rfl, hmore⟩
    · obtain ⟨t, ht, hstart, hstop⟩ := ih hmore
      rw [Position.after_offset] at hstart hstop
      refine ⟨t, mem_cons_of_mem _ ht, ?_, ?_⟩
      · rw [byteSize_append]
        omega
      · rw [byteSize_append]
        omega
    · cases more with
      | nil =>
        obtain ⟨t, ht, hstart, hstop⟩ := ih (show _ = [] ++ c :: rest from hmore.symm)
        rw [Position.after_offset, byteSize] at hstart hstop
        refine ⟨t, mem_cons_of_mem _ ht, by simpa using hstart, by simpa using hstop⟩
      | cons d more =>
        cases hmore
        refine ⟨_, mem_cons_self, Nat.le_add_right _ _, ?_⟩
        have := c.utf8Size_pos
        simp only [Position.token, byteSize_append, byteSize]
        omega

theorem joined (h : Tiles p cs ts) : (ts.flatMap (·.text.toList)).filter (!isBlank ·) = cs.filter (!isBlank ·) := by
  induction h with
  | finish p => simp [Position.token]
  | gap hblank _ ih => rw [ih, filter_cons_of_neg (by simpa using hblank)]
  | token chars _ _ ih => simp [Position.token, filter_append, ih]

end Tiles

/-- Splitting a text into tokens loses nothing. The end of input is the last token and no other, at
the end of the text. Every token is the piece of the text at its own place, the places follow each
other without overlap, and what no token covers is white space. So the tokens joined are the text,
apart from white space. -/
theorem tokenize_lossless (source : List Char) :
    (∃ init eof, tokenize source = init ++ [eof] ∧ (∀ t ∈ init, t.kind ≠ .eof) ∧ eof.kind = .eof ∧
      eof.span.start = byteSize source ∧ eof.span.stop = byteSize source) ∧
    (∀ t ∈ tokenize source, t.span.start ≤ t.span.stop ∧
      slice source t.span.start t.span.stop = some t.text.toList) ∧
    (tokenize source).Pairwise (·.span.stop ≤ ·.span.start) ∧
    (∀ pre c rest, source = pre ++ c :: rest → isBlank c = true ∨ ∃ t ∈ tokenize source,
      t.span.start ≤ byteSize pre ∧ byteSize pre < t.span.stop) ∧
    ((tokenize source).flatMap (·.text.toList)).filter (!isBlank ·) =
      source.filter (!isBlank ·) := by
  have htiles := tokenize_tiles source
  have horigin : State.start.position.offset = 0 := rfl
  refine ⟨?_, fun t ht => ?_, htiles.pairwise, fun pre c rest hsource => ?_, htiles.joined⟩
  · obtain ⟨init, hinit, hkinds⟩ := htiles.ends
    refine ⟨init, _, hinit, hkinds, rfl, ?_, ?_⟩
    · simp [Position.token, Position.after_offset, horigin]
    · simp [Position.token, Position.after_offset, horigin, byteSize]
  · obtain ⟨pre, rest, hsource, heq⟩ := htiles.divides ht
    have hplace : t.span.start = byteSize pre ∧ t.span.stop = byteSize pre + byteSize t.text.toList := by
      rw [heq]
      simp [Position.token, Position.after_offset, horigin]
    rw [hplace.1, hplace.2]
    refine ⟨Nat.le_add_right _ _, ?_⟩
    conv => lhs; rw [hsource]
    exact slice_append pre _ rest
  · cases hc : isBlank c with
    | true => exact .inl rfl
    | false =>
      obtain ⟨t, ht, hstart, hstop⟩ := htiles.covered hsource hc
      rw [horigin, Nat.zero_add] at hstart hstop
      exact .inr ⟨t, ht, hstart, hstop⟩

/-- The quote that opens a string which is not closed is a token by itself. -/
theorem tokenize_lossless_unclosed : ∃ t ∈ tokenize "x = \"é /* y".toList,
    t.span.start ≤ byteSize "x = ".toList ∧ byteSize "x = ".toList < t.span.stop := by
  obtain ⟨-, -, -, hcovered, -⟩ := tokenize_lossless "x = \"é /* y".toList
  exact (hcovered "x = ".toList '"' "é /* y".toList rfl).resolve_left (by decide)

end ChartScript.Lexer
