import ChartScript.Lowering.Function
import ChartScript.Proofs.Script.Layout
/-!
# Where lines begin

Tokens fall into lines at their layout.
-/
namespace ChartScript

open List

variable {t : Token} {layout tokens : List Token} {rest : List (Bool × Token)}
  {lines : List (List Token)}

namespace Statement

def marked : (fresh : Bool) → List Token → List (Bool × Token)
  | _, [] => []
  | fresh, t :: rest => if isLayout t then marked true rest else (fresh, t) :: marked false rest

/-- Marked words cut into lines. -/
def cut : List (Bool × Token) → List (List Token)
  | [] => []
  | (_, t) :: rest =>
    match rest.head?, cut rest with
    | some (false, _), line :: more => (t :: line) :: more
    | _, more => [t] :: more

theorem marked_layout (fresh : Bool) (rest : List Token) (h : isLayout t = true) :
    marked fresh (t :: rest) = marked true rest := by
  rw [marked, if_pos h]

theorem marked_word (fresh : Bool) (rest : List Token) (h : isLayout t = false) :
    marked fresh (t :: rest) = (fresh, t) :: marked false rest := by
  rw [marked, if_neg (by simp [h])]

theorem marked_append_layout (h : ∀ t ∈ layout, isLayout t = true)
    (rest : List Token) : marked true (layout ++ rest) = marked true rest := by
  induction layout with
  | nil => rfl
  | cons t layout ih =>
    rw [cons_append, marked_layout true _ (h t (.head _))]
    exact ih fun u hu => h u (.tail _ hu)

theorem marked_eq_nil (h : ∀ t ∈ layout, isLayout t = true) (fresh : Bool) :
    marked fresh layout = [] := by
  induction layout generalizing fresh with
  | nil => rfl
  | cons t layout ih =>
    rw [marked_layout fresh _ (h t (.head _))]
    exact ih (fun u hu => h u (.tail _ hu)) true

theorem mark_of_head {ts : List Token} {mark : Bool}
    (h : (marked true ts).head? = some (mark, t)) : mark = true := by
  induction ts with
  | nil => cases h
  | cons u rest ih =>
    cases hu : isLayout u with
    | true => exact ih (by rwa [marked_layout true rest hu] at h)
    | false =>
      rw [marked_word true rest hu] at h
      cases h
      rfl

theorem cut_cons (mark : Bool) (t : Token) (rest : List (Bool × Token)) :
    cut ((mark, t) :: rest) = match rest.head?, cut rest with
      | some (false, _), line :: more => (t :: line) :: more
      | _, more => [t] :: more := by
  rw [cut]

theorem cut_cons_mark (mark : Bool)
    (h : ∀ m u, rest.head? = some (m, u) → m = true) : cut ((mark, t) :: rest) = [t] :: cut rest := by
  rw [cut_cons]
  split
  · next hhead _ => cases h _ _ hhead
  · rfl

/-- The lines of tokens are their marked words, cut at the marks. -/
theorem lines_items (ts : List Token) (fresh : Bool) : (items ts).filterMap Item.line? = cut (marked fresh ts) := by
  induction ts generalizing fresh with
  | nil => rfl
  | cons t rest ih =>
    cases ht : isLayout t with
    | true =>
      rw [marked_layout fresh rest ht]
      rcases items_layout rest ht with hi | hi | hi <;> simp [hi, ih true, filterMap_cons]
    | false =>
      rw [marked_word fresh rest ht, items_line rest ht, filterMap_cons_some (Item.line?_line _)]
      cases rest with
      | nil => rfl
      | cons u more =>
        cases hu : isLayout u with
        | true =>
          rw [takeWhile_cons_of_neg (by simp [hu]), dropWhile_cons_of_neg (by simp [hu]),
            cut_cons_mark fresh, ih false]
          rw [marked_layout false more hu]
          exact fun m v => mark_of_head
        | false =>
          have hlines := ih false
          rw [items_line more hu, filterMap_cons_some (Item.line?_line _)] at hlines
          rw [takeWhile_cons_of_pos (by simp [hu]), dropWhile_cons_of_pos (by simp [hu]),
            cut_cons, ← hlines, marked_word false more hu]
          rfl

/-! ## Lines and their marked words -/

def uncut (lines : List (List Token)) : List (Bool × Token) :=
  lines.flatMap fun
    | [] => []
    | t :: rest => (true, t) :: rest.map (false, ·)

theorem uncut_cons (t : Token) (line : List Token) (lines : List (List Token)) :
    uncut ((t :: line) :: lines) = (true, t) :: (line.map (false, ·) ++ uncut lines) := rfl

theorem uncut_append (as bs : List (List Token)) : uncut (as ++ bs) = uncut as ++ uncut bs :=
  flatMap_append

theorem map_uncut (lines : List (List Token)) : (uncut lines).map (·.2) = lines.flatten := by
  induction lines with
  | nil => rfl
  | cons line lines ih =>
    cases line with
    | nil => exact ih
    | cons t line =>
      rw [uncut_cons, map_cons, map_append, ih, map_map, flatten_cons]
      exact congrArg (t :: · ++ _) (map_id line)

theorem exists_line_of_mark (h : (true, t) ∈ uncut lines) :
    ∃ line, t :: line ∈ lines := by
  obtain ⟨line, hline, ht⟩ := mem_flatMap.1 h
  cases line with
  | nil => cases ht
  | cons u line =>
    rcases mem_cons.1 ht with heq | hmem
    · cases heq
      exact ⟨line, hline⟩
    · obtain ⟨_, _, heq⟩ := mem_map.1 hmem
      cases heq

theorem uncut_cut_cons (mark : Bool) (t : Token) (rest : List (Bool × Token)) :
    uncut (cut ((mark, t) :: rest)) = (true, t) :: rest := by
  induction rest generalizing mark t with
  | nil => rfl
  | cons x rest ih =>
    obtain ⟨mark', u⟩ := x
    have hrest := ih mark' u
    cases mark' with
    | true =>
      rw [cut_cons_mark mark (by simp), uncut_cons, hrest]
      rfl
    | false =>
      rw [cut_cons, head?_cons]
      match hcut : cut ((false, u) :: rest) with
      | [] => rw [hcut] at hrest; cases hrest
      | line :: more =>
        rw [hcut] at hrest
        cases line with
        | nil =>
          -- a line that is cut off is never empty
          rw [cut_cons] at hcut
          split at hcut <;> cases hcut
        | cons v line =>
          rw [uncut_cons] at hrest
          obtain ⟨hhead, htail⟩ := List.cons.inj hrest
          cases hhead
          rw [uncut_cons, map_cons, cons_append, htail]

theorem uncut_cut {xs : List (Bool × Token)} (h : ∀ m t, xs.head? = some (m, t) → m = true) :
    uncut (cut xs) = xs := by
  cases xs with
  | nil => rfl
  | cons x rest =>
    obtain ⟨mark, t⟩ := x
    rw [uncut_cut_cons, h mark t rfl]

theorem cut_line (mark : Bool) (t : Token) (line : List Token)
    (h : ∀ m u, rest.head? = some (m, u) → m = true) :
    cut ((mark, t) :: (line.map (false, ·) ++ rest)) = (t :: line) :: cut rest := by
  induction line generalizing mark t with
  | nil => exact cut_cons_mark mark h
  | cons u line ih => rw [map_cons, cons_append, cut_cons, head?_cons, ih]

theorem cut_uncut (h : ∀ line ∈ lines, line ≠ []) : cut (uncut lines) = lines := by
  induction lines with
  | nil => rfl
  | cons line lines ih =>
    have hrest := ih fun l hl => h l (.tail _ hl)
    cases line with
    | nil => exact absurd rfl (h [] (.head _))
    | cons t line =>
      rw [uncut_cons, cut_line, hrest]
      intro m u hhead
      cases lines with
      | nil => cases hhead
      | cons next lines =>
        cases next with
        | nil => exact absurd rfl (h [] (.tail _ (.head _)))
        | cons v next => cases hhead; rfl

theorem cut_map (f : Token → Token) (xs : List (Bool × Token)) :
    cut (xs.map fun x => (x.1, f x.2)) = (cut xs).map (·.map f) := by
  induction xs with
  | nil => rfl
  | cons x rest ih =>
    obtain ⟨mark, t⟩ := x
    rw [map_cons, cut_cons, cut_cons, ih, head?_map]
    cases rest.head? with
    | none => rfl
    | some y =>
      obtain ⟨m, u⟩ := y
      cases m <;> cases cut rest <;> rfl

end Statement

/-! ## Marks of a text -/

namespace Lexer

open Statement

def State.Sound (s : State) : Prop :=
  s.margin ≠ none → s.hasContent = false

theorem marked_settle {s : State} (h : s.Sound) (cs : List Char) (p : Token → Bool) (rest : List Token) :
    marked (!s.hasContent) ((s.settle cs).1.filter p ++ rest) = marked (!s.hasContent) rest := by
  by_cases hm : s.margin = none
  · rw [State.settle_of_none cs hm]
    rfl
  · rw [h hm]
    exact marked_append_layout (fun t ht => s.settle_layout cs t (mem_filter.1 ht).1) rest

theorem marked_inner (s : State) (cs : List Char) (h : s.Sound) :
    marked (!s.hasContent) ((scan 0 s cs).filter BodyLine.isInner) =
    marked (!s.hasContent) ((scan 0 s cs).filter (·.kind != .comment)) := by
  induction s, cs using scan_induction with
  | finish s =>
    rw [scan_nil, marked_eq_nil, marked_eq_nil]
    · exact fun t ht => s.finish_layout t (mem_filter.1 ht).1
    · exact fun t ht => s.finish_layout t (mem_filter.1 ht).1
  | step s cs ts s' rest hstep ih =>
    rw [hstep.scan_eq, filter_append, filter_append]
    cases hstep with
    | ends => exact ih fun _ => rfl
    | runsOn => exact ih fun hm => absurd rfl hm
    | margin hm hw => exact ih fun _ => h (by simp [hm])
    | @blank c rest hb hc hm =>
      rw [marked_settle h, marked_settle h]
      have hrest := ih fun hne => absurd (s.settle_margin _) hne
      rwa [show ((s.settle (c :: rest)).2.advance c).hasContent = _ from s.settle_hasContent _] at hrest
    | @word c rest kind n hx =>
      rw [filter_append, filter_append, append_assoc, append_assoc, marked_settle h, marked_settle h]
      have hrest := ih fun hne => absurd (s.settle_margin _) hne
      rw [hasContent_past hx, s.settle_hasContent] at hrest
      by_cases hk : kind = .comment
      · subst hk
        simpa [Position.token, BodyLine.isInner] using hrest
      · have hlayout : isLayout (s.position.token kind ((c :: rest).take n)) = false := lexeme_not_layout hx _ _
        have hinner : BodyLine.isInner (s.position.token kind ((c :: rest).take n)) = true := by
          cases kind <;> simp_all [BodyLine.isInner, Position.token, isLayout]
        rw [filter_cons_of_pos hinner, filter_cons_of_pos (by simpa [Position.token] using hk), filter_nil,
          filter_nil, singleton_append, singleton_append, marked_word _ _ hlayout, marked_word _ _ hlayout]
        rw [bne_iff_ne.2 hk, Bool.or_true] at hrest
        exact congrArg _ hrest

end Lexer

namespace BodyLine

def valueTokens (tokens : List Token) : List Token :=
  let skip := (tokens.takeWhile isTypeWord).length
  if (target? tokens skip).isSome then tokens.drop (skip + 2) else tokens

theorem target?_isSome {skip : Nat} (h : (target? tokens skip).isSome = true) :
    ∃ name sign value more, tokens.drop skip = name :: sign :: value :: more ∧ name.kind = .identifier ∧
    (sign.kind = .operator .assign ∨ sign.kind = .operator .reassign) := by
  unfold target? at h
  split at h
  · next name sign value more hdrop =>
    split at h
    · next hkinds =>
      exact ⟨name, sign, value, more, hdrop, hkinds.1, hkinds.2.imp (eq_of_beq ·) (eq_of_beq ·)⟩
    · cases h
  · cases h

theorem valueTokens_suffix (h : tokens ≠ []) :
    valueTokens tokens ≠ [] ∧ ∃ before, tokens = before ++ valueTokens tokens := by
  unfold valueTokens
  dsimp only
  split
  · next hsome =>
    obtain ⟨name, sign, value, more, hdrop, -⟩ := target?_isSome hsome
    refine ⟨?_, _, (take_append_drop _ tokens).symm⟩
    rw [← drop_drop, hdrop]
    simp
  · exact ⟨h, [], rfl⟩

theorem ofFunction_of_block {s : Script} {f : FuncDecl} (h : f.singleLine = false) :
    BodyLine.ofFunction s f = ((Statement.items (Script.tokens (s.text f.body))).filterMap Statement.Item.line?).map
    (BodyLine.ofTokens (s.text f.body) f.body) := by
  have hlines : (Statement.items ((tokenize (s.text f.body)).filter isInner)).filterMap Statement.Item.line? =
      (Statement.items (Script.tokens (s.text f.body))).filterMap Statement.Item.line? := by
    rw [Statement.lines_items _ true, Statement.lines_items _ true]
    exact congrArg _ (Lexer.marked_inner .start (s.text f.body) fun _ => rfl)
  rw [← hlines, map_filterMap, ofFunction, if_neg (by simp [h])]
  congr 1
  funext item
  cases item <;> rfl

end BodyLine

end ChartScript
