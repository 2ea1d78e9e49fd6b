import ChartScript.Proofs.Script.Division
import ChartScript.Proofs.Script.Pieces
import ChartScript.Proofs.Sorted
import ChartScript.Proofs.Token.Spelling
/-!
# Members of qualifiers

A word is read as a qualifier only together with its dot and only if another word begins right behind
the dot. So the token behind a qualifier is always a word of the same statement, and every pair of a
qualifier and a name is found among the tokens of the script.
-/
namespace ChartScript

/-! ## Behind a qualifier -/

namespace Lexer

open Text

theorem startsWord_of_qualifier {c : Char} {mid rest : List Char}
    (h : lexeme c (mid ++ rest) = .token .qualifier (mid.length + 1)) :
    ∃ d more, rest = d :: more ∧ startsWord d = true := by
  have hr := reads_lexeme c (mid ++ rest)
  rw [h] at hr
  generalize hx : Lexeme.token .qualifier (mid.length + 1) = x at hr
  cases hr with
  | word =>
    simp only [word] at hx
    split at hx
    · next hqualifier =>
      have hleads := (Bool.and_eq_true_iff.1 hqualifier).1
      have hlength := (Lexeme.token.inj hx).2
      rw [Nat.add_right_cancel_iff] at hlength
      rw [← hlength] at hleads
      -- the dot is the last of the characters of the qualifier
      have hdrop : ((c :: (mid ++ rest)).drop mid.length).drop 1 = rest := by
        rw [List.drop_drop, ← List.cons_append]
        exact List.drop_left' (by simp)
      generalize (c :: (mid ++ rest)).drop mid.length = tail at hleads hdrop
      unfold leadsOn at hleads
      split at hleads
      · next d more => exact ⟨d, more, hdrop.symm, hleads⟩
      · cases hleads
    · next hkind => exact absurd (Lexeme.token.inj hx).1.symm (wordKind_ne _).2.2.2.2
  | _ => cases hx

theorem lexeme_of_startsWord {d : Char} (h : startsWord d = true) (more : List Char) :
    ∃ kind n, lexeme d more = .token kind n ∧ kind ≠ .comment := by
  have hr := reads_lexeme d more
  cases hx : lexeme d more with
  | gap =>
    rw [hx] at hr
    generalize hgap : Lexeme.gap = x at hr
    cases hr with
    | blank hblank =>
      rw [isBlank_of_class startsWord_endCodes h] at hblank
      cases hblank
    | word =>
      simp only [word] at hgap
      split at hgap <;> cases hgap
    | _ => cases hgap
  | token kind n =>
    refine ⟨kind, n, rfl, ?_⟩
    rintro rfl
    rw [(comment_cases hx).1] at h
    exact absurd h (by decide)

theorem content_of_qualifier {source : List Char} {t v : Token} (h : [t, v] <:+: tokenize source)
    (hk : t.kind = .qualifier) : v.isContent = true := by
  obtain ⟨before, after, hsplit⟩ := h
  have hscan : scan 0 State.start source = before ++ t :: (v :: after) := by
    rw [show scan 0 State.start source = tokenize source from rfl, ← hsplit]
    simp
  obtain ⟨pre, c, mid, rest, s', -, hx, -, hmargin, -, hafter⟩ :=
    scan_split hscan (by simp [Statement.isLayout, hk])
  rw [hk] at hx
  obtain ⟨d, more, rfl, hletter⟩ := startsWord_of_qualifier hx
  obtain ⟨kind, n, hword, hcomment⟩ := lexeme_of_startsWord hletter more
  rw [scan_past hmargin hword] at hafter
  rw [(List.cons.inj hafter).1, Token.isContent_eq, Bool.and_eq_true]
  exact ⟨by simp [Position.token, lexeme_not_layout hword], by simpa [Position.token] using hcomment⟩

end Lexer

/-! ## Pairs of a qualifier and a name -/

namespace Script

theorem mem_memberUses {ts : List Token} {t u : Token} (h : [t, u] <:+: ts)
    (ht : t.kind = .qualifier) (hu : u.isWord = true) :
    ∃ called, (⟨t.qualifierName, u.text, t.span.through u.span⟩, called) ∈ memberUses ts := by
  obtain ⟨rest, hsuffix⟩ := exists_suffix_of_pair h
  exact ⟨_, mem_gather.2 ⟨t, u :: rest, hsuffix, if_pos ⟨ht, hu⟩⟩⟩

theorem mem_indicators {source : List Char} {s : Script} (h : parse source = .ok s) {t u : Token}
    (hpair : [t, u] <:+: (tokenize source).filter Token.isContent) (ht : t.kind = .qualifier)
    (hta : t.qualifierName = "ta") (hu : u.isWord = true) : "ta." ++ u.text ∈ s.indicators := by
  -- no comment and no end of a line comes between the two
  obtain ⟨v, hnext, hv⟩ := next_of_filter hpair
  have hcontent := Lexer.content_of_qualifier hnext ht
  obtain rfl : v = u := hv.resolve_right (by simp [hcontent])
  have hkinds : [t, v].filter (·.kind != .comment) = [t, v] := by
    rw [Token.isContent_eq, Bool.and_eq_true] at hcontent
    simp [ht, hcontent.2]
  have htokens : [t, v] <:+: tokens source := by
    have hkept := List.IsInfix.filter (·.kind != .comment) hnext
    rwa [hkinds] at hkept
  obtain ⟨called, hmember⟩ := mem_memberUses htokens ht hu
  obtain ⟨header, r, -, -, rfl⟩ := assembled_of_parse h
  refine Text.mem_sortedOnce.2 (List.mem_map.2 ⟨_, List.mem_filter.2 ⟨hmember, ?_⟩, rfl⟩)
  simp [hta]

end Script

end ChartScript
