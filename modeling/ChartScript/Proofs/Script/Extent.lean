import ChartScript.Proofs.Script.Lines
/-!
# Where statements begin and end

The place of a statement reaches exactly from the first to the last of its tokens, those of its
block included.
-/
namespace ChartScript

open List

/-- Tokens that follow each other in the text, none of them empty. -/
structure Ordered (ts : List Token) : Prop where
  pairwise : ts.Pairwise (·.span.stop ≤ ·.span.start)
  nonempty : ∀ t ∈ ts, t.span.start < t.span.stop

variable {as bs line ts us : List Token} {t : Token} {s : Span}

namespace Ordered

theorem left (h : Ordered (as ++ bs)) : Ordered as :=
  ⟨(pairwise_append.1 h.pairwise).1, fun t ht => h.nonempty t (mem_append_left _ ht)⟩

theorem right (h : Ordered (as ++ bs)) : Ordered bs :=
  ⟨(pairwise_append.1 h.pairwise).2.1, fun t ht => h.nonempty t (mem_append_right _ ht)⟩

theorem stop_le_start (h : Ordered (as ++ bs)) {a b : Token} (ha : a ∈ as) (hb : b ∈ bs) :
    a.span.stop ≤ b.span.start :=
  (pairwise_append.1 h.pairwise).2.2 a ha b hb

theorem of_flatten {lines : List (List Token)} (h : Ordered lines.flatten) (hline : line ∈ lines) :
    Ordered line := by
  obtain ⟨as, bs, rfl⟩ := append_of_mem hline
  rw [flatten_append, flatten_cons] at h
  exact h.right.left

theorem stop_le_last {init : List Token} {last : Token} (h : Ordered (init ++ [last]))
    (ht : t ∈ init ++ [last]) : t.span.stop ≤ last.span.stop := by
  rcases mem_append.1 ht with hinit | hlast
  · have := h.stop_le_start hinit (mem_singleton.2 rfl)
    have := h.nonempty last (by simp)
    omega
  · rw [mem_singleton.1 hlast]

end Ordered

/-- The place reaches from the first of the tokens to the last. -/
structure Span.Covers (s : Span) (ts : List Token) : Prop where
  start_le : ∀ t ∈ ts, s.start ≤ t.span.start
  le_stop : ∀ t ∈ ts, t.span.stop ≤ s.stop
  first : ∃ t ∈ ts, t.span.start = s.start
  last : ∃ t ∈ ts, t.span.stop = s.stop

/-- The place is not empty; it begins where one of the tokens does and ends where one does. -/
structure Span.Among (s : Span) (ts : List Token) : Prop where
  start_lt_stop : s.start < s.stop
  first : ∃ t ∈ ts, t.span.start = s.start
  last : ∃ t ∈ ts, t.span.stop = s.stop

theorem Span.Among.mono (h : s.Among ts) (hsub : ts ⊆ us) : s.Among us :=
  ⟨h.start_lt_stop, h.first.imp fun _ ht => ⟨hsub ht.1, ht.2⟩, h.last.imp fun _ ht => ⟨hsub ht.1, ht.2⟩⟩

namespace Span.Covers

theorem token (t : Token) : t.span.Covers [t] := by
  constructor <;> simp

theorem through {a b : Span} {as m bs : List Token} (ha : a.Covers as) (hb : b.Covers bs)
    (ho : Ordered (as ++ (m ++ bs))) : (a.through b).Covers (as ++ (m ++ bs)) := by
  obtain ⟨x, hx, hxs⟩ := ha.first
  obtain ⟨y, hy, hys⟩ := ha.last
  obtain ⟨z, hz, hzs⟩ := hb.last
  have hz' : z ∈ m ++ bs := mem_append_right _ hz
  have hxlt := ho.nonempty x (mem_append_left _ hx)
  have hzlt := ho.nonempty z (mem_append_right _ hz')
  have hyz := ho.stop_le_start hy hz'
  have hstop : (a.through b).stop = b.stop := by simp only [Span.through]; omega
  refine ⟨fun t ht => ?_, fun t ht => ?_, ⟨x, mem_append_left _ hx, hxs⟩,
    ⟨z, mem_append_right _ hz', by rw [hstop, hzs]⟩⟩
  · show a.start ≤ t.span.start
    rcases mem_append.1 ht with ht | ht
    · exact ha.start_le t ht
    · have := ho.stop_le_start hx ht
      omega
  · rw [hstop]
    rcases mem_append.1 ht with ht | ht
    · have := ha.le_stop t ht
      omega
    rcases mem_append.1 ht with ht | ht
    · have := ho.right.stop_le_start ht hz
      omega
    · exact hb.le_stop t ht

theorem among (h : s.Covers ts) (ho : Ordered ts) : s.Among ts := by
  refine ⟨?_, h.first, h.last⟩
  obtain ⟨x, hx, hxs⟩ := h.first
  have := h.le_stop x hx
  have := ho.nonempty x hx
  omega

theorem within {b : Span} (h : s.Covers ts) (hb : b.Covers us) (hsub : us ⊆ ts) :
    s.start ≤ b.start ∧ b.stop ≤ s.stop := by
  obtain ⟨x, hx, hxs⟩ := hb.first
  obtain ⟨y, hy, hys⟩ := hb.last
  exact ⟨hxs ▸ h.start_le x (hsub hx), hys ▸ h.le_stop y (hsub hy)⟩

theorem start_eq (h : s.Covers (t :: ts)) (ho : Ordered (t :: ts)) : s.start = t.span.start := by
  obtain ⟨u, hu, hus⟩ := h.first
  have := h.start_le t (.head _)
  have := ho.nonempty t (.head _)
  rcases mem_cons.1 hu with rfl | hu
  · exact hus.symm
  · have := (pairwise_cons.1 ho.pairwise).1 u hu
    omega

theorem stop_eq (h : s.Covers (ts ++ [t])) (ho : Ordered (ts ++ [t])) : s.stop = t.span.stop := by
  obtain ⟨u, hu, hus⟩ := h.last
  have := h.le_stop t (by simp)
  have := ho.stop_le_last hu
  omega

theorem stop_le (h : s.Covers as) (ho : Ordered (as ++ bs)) : ∀ t ∈ bs, s.stop ≤ t.span.start := by
  intro t ht
  obtain ⟨y, hy, hys⟩ := h.last
  have := ho.stop_le_start hy ht
  omega

end Span.Covers

theorem Line.covers_span (ho : Ordered ts) (h : Line.span? ts = some s) : s.Covers ts := by
  cases ts with
  | nil => simp [Line.span?] at h
  | cons t rest =>
    rcases eq_nil_or_concat rest with rfl | ⟨mid, last, rfl⟩
    · simp only [Line.span?, head?_cons, getLast?_singleton, Option.some.injEq] at h
      subst h
      simpa [Span.through] using Span.Covers.token t
    · have hl : Line.span? (t :: (mid ++ [last])) = some (t.span.through last.span) := by
        rw [Line.span?, ← cons_append, getLast?_concat, cons_append, head?_cons]
      rw [concat_eq_append] at h ho ⊢
      cases hl.symm.trans h
      exact (Span.Covers.token t).through (Span.Covers.token last) ho

theorem Line.span?_isSome (h : ts ≠ []) : ∃ s, Line.span? ts = some s := by
  obtain ⟨t, rest, rfl⟩ := exists_cons_of_ne_nil h
  exact ⟨_, by rw [Line.span?, head?_cons, getLast?_cons]⟩

namespace Statement

/-- No line of the statements is empty, and their tokens follow each other in the text. -/
structure Proper (ss : List Statement) : Prop where
  ne_nil : ∀ line ∈ linesAll ss, line ≠ []
  ordered : Ordered (tokensAll ss)

namespace Proper

variable {rest : List Statement}

theorem head {s : Statement} (h : Proper (s :: rest)) : Proper [s] :=
  ⟨fun line hl => h.ne_nil line (by simp_all), by
    have := h.ordered
    rw [tokensAll_cons] at this
    simpa using this.left⟩

theorem tail {s : Statement} (h : Proper (s :: rest)) : Proper rest :=
  ⟨fun line hl => h.ne_nil line (by simp [hl]), by
    have := h.ordered
    rw [tokensAll_cons] at this
    exact this.right⟩

theorem body {body : List Statement} (h : Proper (.mk line body :: rest)) : Proper body :=
  ⟨fun l hl => h.ne_nil l (by simp [hl]), by
    have := h.head.ordered
    simp only [tokensAll_cons, tokens_mk, tokensAll_nil, append_nil] at this
    exact this.right⟩

theorem line_ordered {body : List Statement} (h : Proper (.mk line body :: rest)) :
    Ordered (line ++ tokensAll body) := by
  simpa using h.head.ordered

end Proper

mutual

theorem covers_span : (s : Statement) → Proper [s] → s.span.Covers s.tokens
  | mk line body, h => by
    have hne : line ≠ [] := h.ne_nil line (by simp)
    obtain ⟨own, hown⟩ := Line.span?_isSome hne
    have hline := Line.covers_span h.line_ordered.left hown
    rw [span, hown, tokens_mk]
    cases hb : blockSpan? body with
    | none =>
      cases body with
      | nil => simpa using hline
      | cons s rest => rw [blockSpan?] at hb; split at hb <;> cases hb
    | some inner => exact hline.through (m := []) (covers_blockSpan body h.body hb) h.line_ordered

theorem covers_blockSpan : (ss : List Statement) → Proper ss → {span : Span} →
    blockSpan? ss = some span → span.Covers (tokensAll ss)
  | [], _, _, hs => by simp [blockSpan?] at hs
  | s :: rest, h, span, hs => by
    have hfirst := covers_span s h.head
    have ho := h.ordered
    rw [blockSpan?] at hs
    rw [tokensAll_cons] at ho ⊢
    cases hl : lastSpan? rest with
    | none =>
      cases rest with
      | nil =>
        rw [hl, Option.some.injEq] at hs
        simpa [hs] using hfirst
      | cons s rest => rw [lastSpan?] at hl; split at hl <;> cases hl
    | some last =>
      obtain ⟨mid, ts, htokens, hlast⟩ := covers_lastSpan rest h.tail hl
      rw [hl, Option.some.injEq] at hs
      rw [htokens] at ho ⊢
      exact hs ▸ hfirst.through hlast ho

theorem covers_lastSpan : (ss : List Statement) → Proper ss → {span : Span} →
    lastSpan? ss = some span → ∃ before ts, tokensAll ss = before ++ ts ∧ span.Covers ts
  | [], _, _, hs => by simp [lastSpan?] at hs
  | s :: rest, h, span, hs => by
    rw [lastSpan?] at hs
    cases hl : lastSpan? rest with
    | none =>
      rw [hl, Option.some.injEq] at hs
      cases rest with
      | nil => exact ⟨[], s.tokens, by simp, hs ▸ covers_span s h.head⟩
      | cons s rest => rw [lastSpan?] at hl; split at hl <;> cases hl
    | some last =>
      rw [hl, Option.some.injEq] at hs
      obtain ⟨mid, ts, htokens, hlast⟩ := covers_lastSpan rest h.tail hl
      exact ⟨s.tokens ++ mid, ts, by simp [htokens], hs ▸ hlast⟩

end

theorem start_mem_line {body : List Statement} (h : Proper [mk line body]) :
    ∃ t ∈ line, t.span.start = (mk line body).span.start := by
  obtain ⟨own, hown⟩ := Line.span?_isSome (h.ne_nil line (by simp))
  have hstart : (mk line body).span.start = own.start := by
    rw [span, hown]
    cases blockSpan? body <;> rfl
  rw [hstart]
  exact (Line.covers_span h.line_ordered.left hown).first

end Statement

/-! ## Rising starts -/

/-- The numbers rise, and each is where one of the tokens starts. -/
structure Rising (xs : List Nat) (ts : List Token) : Prop where
  pairwise : xs.Pairwise (· < ·)
  mem : ∀ x ∈ xs, ∃ t ∈ ts, t.span.start = x

namespace Rising

theorem nil (ts : List Token) : Rising [] ts := ⟨.nil, by simp⟩

theorem token (ht : t ∈ ts) : Rising [t.span.start] ts :=
  ⟨by simp, fun _ hx => ⟨t, ht, (mem_singleton.1 hx).symm⟩⟩

theorem append {xs ys : List Nat} (h : Rising xs ts) (h' : Rising ys us) (ho : Ordered (ts ++ us)) :
    Rising (xs ++ ys) (ts ++ us) := by
  refine ⟨pairwise_append.2 ⟨h.pairwise, h'.pairwise, fun x hx y hy => ?_⟩, fun x hx => ?_⟩
  · obtain ⟨t, ht, rfl⟩ := h.mem x hx
    obtain ⟨u, hu, rfl⟩ := h'.mem y hy
    have := ho.stop_le_start ht hu
    have := ho.nonempty t (mem_append_left _ ht)
    omega
  · rcases mem_append.1 hx with hx | hx
    · exact (h.mem x hx).imp fun t ht => ⟨mem_append_left _ ht.1, ht.2⟩
    · exact (h'.mem x hx).imp fun t ht => ⟨mem_append_right _ ht.1, ht.2⟩

end Rising

end ChartScript
