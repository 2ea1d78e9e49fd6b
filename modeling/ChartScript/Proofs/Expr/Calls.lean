import ChartScript.Proofs.Expr.Tokens
/-!
# How calls and members are spelled

An expression calls a plain name where the name is written and a round bracket opens behind it.
-/
namespace ChartScript

open List

variable {e : Expr} {g : String} {text : List Char} {base : Span}

namespace Expr

def ownCalled : Expr → List String
  | call _ (.plain x) _ _ => [x]
  | _ => []

def called (e : Expr) : List String :=
  e.nodes.flatMap ownCalled

def reference? : Expr → Option Reference
  | name _ reference => some reference
  | _ => none

/-- What is spelled by two neighbouring tokens. -/
inductive Spelling where
  | call (name : String)
  | member (qualifier name : String)

def ownSpellings : Expr → List Spelling
  | call _ (.plain x) _ _ => [.call x]
  | call _ (.member qualifier x) _ _ | name _ (.member qualifier x) => [.member qualifier x]
  | _ => []

def spellings (e : Expr) : List Spelling :=
  e.nodes.flatMap ownSpellings

theorem call_mem_spellings (h : g ∈ e.called) : .call g ∈ e.spellings := by
  obtain ⟨n, hn, hg⟩ := mem_flatMap.1 h
  refine mem_flatMap.2 ⟨n, hn, ?_⟩
  unfold ownCalled at hg
  split at hg
  · rw [mem_singleton.1 hg]
    exact mem_singleton_self _
  · cases hg

end Expr

def Token.MayName (t : Token) (g : String) : Prop :=
  (t.isWord = true ∧ t.text = g) ∨ g = "na"

namespace ExprParser

def CallSpelled (ts : List Token) (g : String) : Prop :=
  ∃ t u, [t, u] <:+: ts ∧ t.MayName g ∧ (u.isDelimiter .openParen = true ∨ u.isDelimiter .closeParen = true)

def MemberSpelled (ts : List Token) (qualifier x : String) : Prop :=
  ∃ t u, [t, u] <:+: ts ∧ t.kind = .qualifier ∧ t.qualifierName = qualifier ∧ u.isWord = true ∧ u.text = x

def Spelled (ts : List Token) : Expr.Spelling → Prop
  | .call g => CallSpelled ts g
  | .member qualifier x => MemberSpelled ts qualifier x

section

variable {us vs : List Token} {part : Part}

theorem Spelled.of_infix {w : Expr.Spelling} (h : Spelled us w) (hin : us <:+: vs) : Spelled vs w := by
  cases w with
  | call g =>
    obtain ⟨t, u, hwithin, hrest⟩ := h
    exact ⟨t, u, hwithin.trans hin, hrest⟩
  | member qualifier x =>
    obtain ⟨t, u, hwithin, hrest⟩ := h
    exact ⟨t, u, hwithin.trans hin, hrest⟩

def Names (us : List Token) : Reference → Prop
  | .plain g => ∃ t, t.MayName g ∧ ([t] <:+ us ∨ ∃ u, [t, u] <:+: us ∧ u.isDelimiter .closeParen = true)
  | .member qualifier x => MemberSpelled us qualifier x

def Part.reference? : Part → Option Reference
  | value _ e => e.reference?
  | callee _ reference => some reference
  | _ => none

theorem Phrase.names (h : Phrase us part) : ∀ r ∈ part.reference?, Names us r := by
  induction h with
  | @leaf t e h =>
    intro r hr
    unfold leaf? at h
    split at h
    case h_6 hk =>
      cases h
      cases hr
      exact ⟨t, .inl ⟨by simp [Token.isWord, hk], rfl⟩, .inl (suffix_refl _)⟩
    case h_1 => split at h <;> cases h; cases hr
    all_goals cases h <;> cases hr
  | member ht hu =>
    rintro _ ⟨⟩
    exact ⟨_, _, infix_rfl, ht, rfl, hu, rfl⟩
  | @enclosed l r us e _ hr _ ih =>
    intro reference href
    have hin : us <:+: l :: (us ++ [r]) := infix_between [] l us [r]
    have hnames := ih reference (by cases e <;> exact href)
    cases reference with
    | plain g =>
      obtain ⟨t, hname, ⟨init, rfl⟩ | ⟨u, hwithin, hmark⟩⟩ := hnames
      · exact ⟨t, hname, .inr ⟨r, ⟨l :: init, [], by simp⟩, beq_of_eq hr⟩⟩
      · exact ⟨t, hname, .inr ⟨u, hwithin.trans hin, hmark⟩⟩
    | member qualifier x =>
      obtain ⟨t, u, hwithin, hrest⟩ := hnames
      exact ⟨t, u, hwithin.trans hin, hrest⟩
  | loosen _ _ ih => exact ih
  | name _ ih => exact ih
  | @calledWord t x h =>
    rintro _ ⟨⟩
    refine ⟨t, ?_, .inl (suffix_refl _)⟩
    unfold calledWord? at h
    split at h
    · cases h
      exact .inr rfl
    · next hk =>
      split at h <;> cases h
      exact .inl ⟨by simp [Token.isWord, hk], rfl⟩
    · cases h
  | _ => rintro _ ⟨⟩

def Part.ownSpellings : Part → List Expr.Spelling
  | value _ e => e.ownSpellings
  | _ => []

theorem Phrase.spelled (h : Phrase us part) : ∀ w ∈ part.ownSpellings, Spelled us w := by
  induction h with
  | leaf h =>
    unfold leaf? at h
    split at h
    case h_8 => cases h
    case h_1 => split at h <;> cases h; simp [Part.ownSpellings, Expr.ownSpellings]
    all_goals cases h; simp [Part.ownSpellings, Expr.ownSpellings]
  | member ht hu =>
    intro w hw
    rw [mem_singleton.1 hw]
    exact ⟨_, _, infix_rfl, ht, rfl, hu, rfl⟩
  | @enclosed l r us e _ _ _ ih =>
    intro w hw
    refine Spelled.of_infix (ih w ?_) (infix_between [] l us [r])
    cases e with
    | call _ callee => cases callee <;> exact hw
    | name _ reference => cases reference <;> exact hw
    | _ => cases hw
  | @call us vs l r _ callee _ hcallee hl _ _ _ _ =>
    intro w hw
    have hnames := hcallee.names callee rfl
    cases callee with
    | plain g =>
      rw [mem_singleton.1 hw]
      obtain ⟨t, hname, ⟨init, rfl⟩ | ⟨u, hwithin, hmark⟩⟩ := hnames
      · exact ⟨t, l, ⟨init, vs ++ [r], by simp⟩, hname, .inl (beq_of_eq hl)⟩
      · exact ⟨t, u, hwithin.trans (prefix_append _ _).isInfix, hname, .inr hmark⟩
    | member qualifier x =>
      rw [mem_singleton.1 hw]
      exact Spelled.of_infix hnames (prefix_append _ _).isInfix
  | loosen _ _ ih => exact ih
  | _ => simp [Part.ownSpellings, Expr.ownSpellings]

end

end ExprParser

/-! ## Texts -/

theorem Expr.spelled_of_parse (h : Expr.parse text base = .ok e)
    {w : Spelling} (hw : w ∈ e.spellings) : ExprParser.Spelled ((tokenize text).filter Token.isContent) w := by
  obtain ⟨n, hn, hw⟩ := mem_flatMap.1 hw
  obtain ⟨vs, hin, hphrase⟩ := (phrase_of_parse h).node n hn
  -- the tokens that are read are the same at another place
  have hmoved : ∀ {t u : Token}, [t, u] <:+: vs → ∃ t' u',
      [t', u'] <:+: (tokenize text).filter Token.isContent ∧ t = t'.offsetBy base ∧ u = u'.offsetBy base := by
    intro t u hwithin
    obtain ⟨pair, hpair, hmap⟩ := infix_map_iff.1 (hwithin.trans hin)
    obtain ⟨t', rest, rfl, rfl, hrest⟩ := map_eq_cons_iff.1 hmap.symm
    obtain ⟨u', rfl, rfl⟩ := map_eq_singleton_iff.1 hrest
    exact ⟨t', u', hpair, rfl, rfl⟩
  have hspelled := hphrase.spelled w hw
  cases w with
  | call g =>
    obtain ⟨t, u, hwithin, hrest⟩ := hspelled
    obtain ⟨t', u', hpair, rfl, rfl⟩ := hmoved hwithin
    exact ⟨t', u', hpair, hrest⟩
  | member qualifier x =>
    obtain ⟨t, u, hwithin, hrest⟩ := hspelled
    obtain ⟨t', u', hpair, rfl, rfl⟩ := hmoved hwithin
    exact ⟨t', u', hpair, hrest⟩

end ChartScript
