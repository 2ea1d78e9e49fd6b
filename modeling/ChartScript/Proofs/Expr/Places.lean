import ChartScript.Proofs.Expr.Tokens
import ChartScript.Proofs.Token.Spelling
/-!
# The places of an expression

The tokens of an expression are moved to their places in the script before they are read.
-/
namespace ChartScript

open List Text

variable {source : List Char}

def Reference.Fits (source : List Char) (s : Span) : Reference → Prop
  | plain _ => True
  | member qualifier x => s.start + byteSize qualifier.toList + byteSize x.toList ≤ byteSize source

theorem Reference.Fits.mono {r : Reference} {s s' : Span} (h : r.Fits source s)
    (hle : s'.start ≤ s.start) : r.Fits source s' := by
  cases r with
  | plain x => trivial
  | member qualifier x =>
    simp only [Fits] at h ⊢
    omega

namespace Expr

def Sited (source : List Char) : Expr → Prop
  | call span callee calleeSpan args => span.Exact source ∧ callee.Fits source span ∧
      calleeSpan.Exact source ∧ ∀ arg ∈ args, arg.span.Exact source
  | name span reference => span.Exact source ∧ reference.Fits source span
  | e => e.span.Exact source

def Exact (e : Expr) (source : List Char) : Prop :=
  ∀ n ∈ e.nodes, n.Sited source

theorem Sited.span {e : Expr} (h : e.Sited source) : e.span.Exact source := by
  cases e with
  | call => exact h.1
  | name => exact h.1
  | _ => exact h

theorem Exact.span {e : Expr} (h : e.Exact source) : e.span.Exact source :=
  Sited.span (h e e.self_mem_nodes)

theorem exact_name {span : Span} {reference : Reference} :
    (name span reference).Exact source ↔ span.Exact source ∧ reference.Fits source span := by
  simp [Exact, nodes, Sited]

theorem exact_binary {span : Span} {op : BinaryOp} {left right : Expr} :
    (binary span op left right).Exact source ↔ span.Exact source ∧ left.Exact source ∧ right.Exact source := by
  simp [Exact, nodes, Sited, Expr.span, or_imp, forall_and]

theorem Sited.withSpan {e : Expr} {s : Span} (h : e.Sited source) (hs : s.Exact source)
    (hle : s.start ≤ e.span.start) : (e.withSpan s).Sited source := by
  cases e with
  | name => exact ⟨hs, h.2.mono hle⟩
  | call => exact ⟨hs, h.2.1.mono hle, h.2.2⟩
  | _ => exact hs

end Expr

/-- A fault with an expression: its place is exact, and expressions can have it. -/
structure ExprFault.Arises (source : List Char) (e : Located ExprFault) : Prop where
  exact : e.span.Exact source
  cause : e.cause.isGuard = false

namespace ExprParser

/-- The tokens stand in the text where they say, one behind the other, and the numbers among them can
be read. -/
structure InPlace (source : List Char) (ts : List Token) : Prop where
  cuts : ∀ t ∈ ts, t.span.Cuts source t.text.toList
  ordered : ts.Pairwise (·.span.stop ≤ ·.span.start)
  numbers : ∀ t ∈ ts, t.kind = .literal .number → (Decimal.readFloat? t.text).isSome = true

namespace InPlace

variable {ts us : List Token}

theorem of_infix (h : InPlace source ts) (hs : us <:+: ts) : InPlace source us :=
  ⟨fun t ht => h.cuts t (hs.mem ht), h.ordered.sublist hs.sublist, fun t ht => h.numbers t (hs.mem ht)⟩

theorem left (h : InPlace source (us ++ ts)) : InPlace source us :=
  h.of_infix (prefix_append us ts).isInfix

theorem right (h : InPlace source (us ++ ts)) : InPlace source ts :=
  h.of_infix (suffix_append us ts).isInfix

theorem exact (h : InPlace source ts) {t : Token} (ht : t ∈ ts) : t.span.Exact source :=
  (h.cuts t ht).exact

theorem peek (h : InPlace source ts) : (peek ts).span.Exact source := by
  cases ts with
  | nil => exact Span.exact_origin source
  | cons t rest => exact h.exact mem_cons_self

end InPlace

/-! ## Phrases -/

theorem member_fits {t u : Token} (h : InPlace source [t, u]) :
    Reference.Fits source (t.span.through u.span) (.member t.qualifierName u.text) := by
  obtain ⟨-, -, -, -, hstop⟩ := h.cuts t (by simp)
  obtain ⟨-, -, -, -, hstop'⟩ := h.cuts u (by simp)
  have horder : t.span.stop ≤ u.span.start := by simpa using h.ordered
  have hend := (h.exact (t := u) (by simp)).stop_le
  have hname : byteSize t.qualifierName.toList ≤ byteSize t.text.toList := by
    rw [Token.qualifierName, String.toList_ofList]
    conv_rhs => rw [← takeWhile_append_dropWhile (p := (· ≠ '.')) (l := t.text.toList)]
    rw [Lexer.byteSize_append]
    omega
  show t.span.start + byteSize t.qualifierName.toList + byteSize u.text.toList ≤ _
  omega

def Part.Sited (source : List Char) (start : Nat) : Part → Prop
  | value _ e => e.Sited source ∧ e.span.start = start
  | callee span reference => (span.Exact source ∧ reference.Fits source span) ∧ span.start = start
  | items _ => True
  | argument arg => arg.span.Exact source
  | arguments args => ∀ arg ∈ args, arg.span.Exact source

theorem sited_of_leaf {t : Token} {e : Expr} (h : leaf? t = some e) (ht : t.span.Exact source) :
    e.Sited source ∧ e.span.start = t.span.start := by
  unfold leaf? at h
  split at h
  case h_8 => cases h
  case h_1 => split at h <;> cases h; exact ⟨ht, rfl⟩
  case h_6 => cases h; exact ⟨⟨ht, trivial⟩, rfl⟩
  all_goals cases h; exact ⟨ht, rfl⟩

theorem Phrase.sited {us : List Token} {part : Part} (h : Phrase us part) (hus : InPlace source us) :
    part.Sited source (peek us).span.start := by
  induction h with
  | leaf h => exact sited_of_leaf h (hus.exact (by simp))
  | member => exact ⟨⟨(hus.exact (by simp)).through (hus.exact (by simp)), member_fits hus⟩, rfl⟩
  | @enclosed l r us e _ _ h ih =>
    obtain ⟨hsited, hstart⟩ := ih (@InPlace.right source _ [l] hus).left
    refine ⟨hsited.withSpan ((hus.exact (by simp)).through (hus.exact (by simp))) ?_, ?_⟩
    · -- the bracket stands before whatever the expression begins with
      obtain ⟨t, more, rfl⟩ := exists_cons_of_ne_nil (h.ne_nil rfl)
      have hle := (pairwise_cons.1 hus.ordered).1 t (by simp)
      have hl := (hus.exact (t := l) (by simp)).start_le_stop
      rw [hstart, peek_cons]
      exact Nat.le_trans hl hle
    · rw [Expr.span_withSpan]
      rfl
  | tuple => exact ⟨(hus.exact (by simp)).through (hus.exact (by simp)), rfl⟩
  | @call _ _ l _ _ _ _ hcallee _ _ _ ih ihargs =>
    rw [peek_append (hcallee.ne_nil rfl)]
    obtain ⟨⟨hspan, hfits⟩, hstart⟩ := ih hus.left
    exact ⟨⟨hspan.through (hus.exact (by simp)), hfits, hspan,
      ihargs (@InPlace.right source _ [l] hus.right).left⟩, hstart⟩
  | @index _ _ l _ _ _ h _ _ _ _ ih _ =>
    rw [peek_append (h.ne_nil rfl)]
    obtain ⟨hsited, hstart⟩ := ih hus.left
    exact ⟨hsited.span.through (hus.exact (by simp)), hstart⟩
  | @sign t _ _ _ _ _ ih => exact ⟨(hus.exact (by simp)).through (ih (@InPlace.right source _ [t] hus)).1.span, rfl⟩
  | @operation _ _ _ t _ _ _ _ h _ ihl ihr =>
    rw [peek_append (h.ne_nil rfl)]
    obtain ⟨hsited, hstart⟩ := ihl hus.left
    exact ⟨hsited.span.through (ihr (@InPlace.right source _ [t] hus.right)).1.span, hstart⟩
  | @ternary _ _ _ t u _ _ _ h _ _ _ _ ihc _ ihn =>
    rw [peek_append (h.ne_nil rfl)]
    obtain ⟨hsited, hstart⟩ := ihc hus.left
    have hno := (@InPlace.right source _ [t] hus.right).right
    exact ⟨hsited.span.through (ihn (@InPlace.right source _ [u] hno)).1.span, hstart⟩
  | loosen _ _ ih => exact ih hus
  | name _ ih => exact ih hus
  | calledWord => exact ⟨⟨hus.exact (by simp), trivial⟩, rfl⟩
  | positional _ _ ih => exact hus.peek.through (ih hus).1.span
  | @named t u us _ _ _ _ ih =>
    exact (hus.exact (by simp)).through (ih (@InPlace.right source us [t, u] hus)).1.span
  | noArguments => simp [Part.Sited]
  | lastArgument _ ih => simpa [Part.Sited] using ih hus
  | @moreArguments _ _ t _ _ _ _ _ ih ihs =>
    exact forall_mem_cons.2 ⟨ih hus.left, ihs (@InPlace.right source _ [t] hus.right)⟩
  | noItems | lastItem | item => trivial

theorem FaultOf.arises {ts : List Token} {fault : Located ExprFault} (h : FaultOf ts fault)
    (hts : InPlace source ts) : ExprFault.Arises source fault where
  exact := by
    rcases h.place with ⟨us, hus, hspan⟩ | ⟨t, ht, u, hu, hspan⟩
    · exact hspan ▸ (hts.of_infix hus.isInfix).peek
    · exact hspan ▸ (hts.exact ht).through (hts.exact hu)
  cause := by
    by_contra hguard
    obtain ⟨t, ht, hk, hnone⟩ := h.number (by simpa using hguard)
    simpa [hnone] using hts.numbers t ht hk

theorem inPlace_of_cuts {text : List Char} {base : Span} (hbase : base.Cuts source text) :
    InPlace source (((tokenize text).filter (!·.kind.isTrivia)).map
      fun t => { t with span := t.span.offsetBy base }) := by
  refine ⟨fun t ht => ?_, ?_, fun t ht hk => ?_⟩
  · obtain ⟨u, hu, rfl⟩ := mem_map.1 ht
    exact hbase.offsetBy (Lexer.tokenize_cuts (mem_filter.1 hu).1)
  · refine pairwise_map.2 (((Lexer.tokenize_tiles text).pairwise.sublist filter_sublist).imp ?_)
    intro a b hab
    exact Nat.add_le_add_left hab _
  · obtain ⟨u, hu, rfl⟩ := mem_map.1 ht
    have hreads := Lexer.readFloat_of_number (mem_filter.1 hu).1 hk
    exact hreads

end ExprParser

theorem Expr.parse_exact {text : List Char} {base : Span} (hbase : base.Cuts source text) :
    Yields (fun e => e.Exact source) (ExprFault.Arises source) (Expr.parse text base) := by
  obtain ⟨eof, -, htokens, hyields⟩ := Expr.parse_takes text base
  have hts := ExprParser.inPlace_of_cuts hbase
  rw [htokens] at hts
  refine hyields.mono (fun e hphrase n hn => ?_) fun fault hfault => ?_
  · obtain ⟨vs, hin, hnode⟩ := hphrase.node n hn
    exact (hnode.sited (hts.left.of_infix hin)).1
  · rcases hfault with hfault | rfl
    · exact hfault.arises hts
    · exact ⟨hbase.exact, rfl⟩

end ChartScript
