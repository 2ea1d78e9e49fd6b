import ChartScript.Proofs.Token.Relocated
import Mathlib.Data.Option.Basic
/-!
# Lines at other places

What a line says does not depend on where it stands. If all places are moved by a map that respects
how places are drawn out, and the source has at the new places the text it had at the old ones, then
each line is read as before, and what is read has its places moved.
-/
namespace ChartScript

open List Text Line

/-! ## Computations that run alike -/

section

variable {ε α β γ δ : Type}

/-- The second computation fails where the first does, and else has the image of its value. -/
def Mirrors (f : α → β) (x : Except ε α) (y : Except ε β) : Prop :=
  y.toOption = x.toOption.map f

namespace Mirrors

variable {f : α → β} {g : γ → δ} {x : Except ε α} {y : Except ε β}

theorem ok (a : α) : Mirrors f (.ok a : Except ε α) (.ok (f a)) := rfl

theorem error (e e' : ε) : Mirrors f (.error e : Except ε α) (.error e') := rfl

theorem bind {k : α → Except ε γ} {k' : β → Except ε δ} (h : Mirrors f x y)
    (hk : ∀ a, Mirrors g (k a) (k' (f a))) : Mirrors g (x >>= k) (y >>= k') := by
  cases x with
  | error e =>
    cases y with
    | error e' => exact error _ _
    | ok b => cases h
  | ok a =>
    cases y with
    | error e' => cases h
    | ok b =>
      cases h
      exact hk a

theorem mapM {k : α → Except ε γ} {k' : β → Except ε δ} {xs : List α} (hk : ∀ a ∈ xs, Mirrors g (k a) (k' (f a))) :
    Mirrors (List.map g) (xs.mapM k) ((xs.map f).mapM k') := by
  induction xs with
  | nil => exact ok []
  | cons a xs ih =>
    rw [map_cons, mapM_cons, mapM_cons]
    refine (hk a mem_cons_self).bind fun c => ?_
    refine (ih fun b hb => hk b (mem_cons_of_mem _ hb)).bind fun cs => ?_
    exact ok (c :: cs)

theorem eq_ok (h : Mirrors f x y) {b : β} : y = .ok b ↔ ∃ a, x = .ok a ∧ f a = b := by
  cases x with
  | error e =>
    cases y with
    | error e' => simp
    | ok b' => cases h
  | ok a =>
    cases y with
    | error e' => cases h
    | ok b' =>
      cases h
      simp

end Mirrors

end

/-! ## Places -/

/-- Drawing places out and moving them can be done in either order. -/
def Span.Respects (φ : Span → Span) : Prop :=
  ∀ a b, φ (a.through b) = (φ a).through (φ b)

/-- The text between any two tokens of a line is in the other source at the moved place. -/
def Line.Keeps (φ : Span → Span) (source source' : List Char) (line : List Token) : Prop :=
  ∀ a ∈ line, ∀ b ∈ line, slice source' (φ (a.span.through b.span)).start
    (φ (a.span.through b.span)).stop = slice source (a.span.through b.span).start (a.span.through b.span).stop

theorem Line.Keeps.mono {φ : Span → Span} {source source' : List Char} {line part : List Token}
    (h : Keeps φ source source' line) (hpart : part ⊆ line) : Keeps φ source source' part :=
  fun a ha b hb => h a (hpart ha) b (hpart hb)

namespace Token

variable (φ : Span → Span) (t : Token)

-- The proofs are in brackets so that `simp` does not take the equations for definitional: it would
-- rewrite the condition of an `if` with them but leave its instance.

@[simp] theorem relocate_kind : (t.relocate φ).kind = t.kind := (rfl)

@[simp] theorem relocate_text : (t.relocate φ).text = t.text := (rfl)

@[simp] theorem relocate_span : (t.relocate φ).span = φ t.span := (rfl)

@[simp] theorem relocate_isKeyword (word : Keyword) : (t.relocate φ).isKeyword word = t.isKeyword word := (rfl)

@[simp] theorem relocate_isOperator (op : Operator) : (t.relocate φ).isOperator op = t.isOperator op := (rfl)

@[simp] theorem relocate_isDelimiter (mark : Delimiter) :
    (t.relocate φ).isDelimiter mark = t.isDelimiter mark := (rfl)

@[simp] theorem relocate_isWord : (t.relocate φ).isWord = t.isWord := (rfl)

@[simp] theorem relocate_qualifierName : (t.relocate φ).qualifierName = t.qualifierName := (rfl)

@[simp] theorem relocate_bracketDelta : bracketDelta (t.relocate φ) = bracketDelta t := (rfl)

@[simp] theorem relocate_isLayout : Statement.isLayout (t.relocate φ) = Statement.isLayout t := (rfl)

end Token

/-! ## Lines -/

namespace Line

variable {φ : Span → Span}

theorem span?_relocate (hφ : Span.Respects φ) (ts : List Token) :
    span? (ts.map (·.relocate φ)) = (span? ts).map φ := by
  unfold span?
  rw [head?_map, getLast?_map]
  cases ts.head? with
  | none => rfl
  | some first =>
    cases ts.getLast? with
    | none => rfl
    | some last => simp [hφ first.span last.span]

theorem closingPosition?_relocate (ts : List Token) (depth : Int) :
    closingPosition? depth (ts.map (·.relocate φ)) = closingPosition? depth ts := by
  induction ts generalizing depth with
  | nil => rfl
  | cons t ts ih => simp [closingPosition?, ih]

theorem matchingClose?_relocate (ts : List Token) (start : Nat) :
    matchingClose? (ts.map (·.relocate φ)) start = matchingClose? ts start := by
  rw [matchingClose?, ← map_drop, closingPosition?_relocate, matchingClose?]

theorem outerPosition?_relocate {p : Token → Bool} (hp : ∀ t, p (t.relocate φ) = p t) (ts : List Token)
    (depth : Int) : outerPosition? p depth (ts.map (·.relocate φ)) = outerPosition? p depth ts := by
  induction ts generalizing depth with
  | nil => rfl
  | cons t ts ih => simp [outerPosition?, ih, hp]

theorem splitAtCommas_relocate (ts : List Token) (depth : Int) :
    splitAtCommas depth (ts.map (·.relocate φ)) = (splitAtCommas depth ts).map (·.map (·.relocate φ)) := by
  induction ts generalizing depth with
  | nil => rfl
  | cons t ts ih =>
    simp only [map_cons, splitAtCommas, Token.relocate_isDelimiter, Token.relocate_bracketDelta, ih]
    split
    · rfl
    · cases splitAtCommas (depth + bracketDelta t) ts <;> rfl

theorem parts_relocate (ts : List Token) (start close : Nat) :
    parts (ts.map (·.relocate φ)) start close = (parts ts start close).map (·.map (·.relocate φ)) := by
  rw [parts, ← map_take, ← map_drop, splitAtCommas_relocate, filter_map, parts]
  congr 2
  funext part
  simp

theorem checkBracketsFrom_relocate (ts opened : List Token) :
    Mirrors id (checkBracketsFrom opened ts) (checkBracketsFrom (opened.map (·.relocate φ)) (ts.map (·.relocate φ)))
    := by
  induction ts generalizing opened with
  | nil =>
    cases opened with
    | nil => exact .ok ()
    | cons t opened => exact .error _ _
  | cons t ts ih =>
    have hhead : ∀ mark, (opened.map (·.relocate φ)).head?.any (·.isDelimiter mark) =
        opened.head?.any (·.isDelimiter mark) := fun mark => by
      cases opened <;> rfl
    unfold checkBracketsFrom
    simp only [map_cons, Token.relocate_kind, hhead, ← map_drop]
    split
    · exact ih (t :: opened)
    · exact ih (t :: opened)
    · split
      · exact ih _
      · exact .error _ _
    · split
      · exact ih _
      · exact .error _ _
    · exact ih opened

def Arg.relocate (φ : Span → Span) (a : Arg) : Arg :=
  ⟨a.name, a.value.map (·.relocate φ)⟩

theorem Arg.relocate_mk (name : Option String) (value : List Token) :
    (Arg.mk name value).relocate φ = ⟨name, value.map (·.relocate φ)⟩ := rfl

theorem Arg.ofTokens_relocate (ts : List Token) :
    Arg.ofTokens (ts.map (·.relocate φ)) = (Arg.ofTokens ts).relocate φ := by
  rcases ts with _ | ⟨name, _ | ⟨sign, value⟩⟩
  · rfl
  · rfl
  · simp only [map_cons, Arg.ofTokens, Token.relocate_isWord, Token.relocate_isOperator]
    split
    · rfl
    · rfl

theorem arguments_relocate (ts : List Token) (start : Nat) :
    Mirrors (Prod.map (List.map (·.relocate φ)) id) (arguments ts start) (arguments (ts.map (·.relocate φ)) start)
    := by
  unfold arguments
  rw [matchingClose?_relocate]
  cases matchingClose? ts start with
  | none => exact .error _ _
  | some close =>
    have hargs : ((parts ts start close).map (·.map (·.relocate φ))).map Arg.ofTokens =
        ((parts ts start close).map Arg.ofTokens).map (·.relocate φ) := by
      simp [Function.comp_def, Arg.ofTokens_relocate]
    simp only [parts_relocate, hargs]
    exact .ok _

theorem bind_relocate (args : List Arg) (positional : List String) :
    bind (args.map (·.relocate φ)) positional = (bind args positional).map (Prod.map id (List.map (·.relocate φ)))
    := by
  induction args generalizing positional with
  | nil => rfl
  | cons a args ih =>
    obtain ⟨_ | name, value⟩ := a
    · cases positional with
      | nil => simp only [map_cons, Arg.relocate_mk, bind, ih]
      | cons p ps => simp only [map_cons, Arg.relocate_mk, bind, ih, Prod.map_apply, id_eq]
    · simp only [map_cons, Arg.relocate_mk, bind, ih, Prod.map_apply, id_eq]

theorem lookup_relocate (bound : List (String × List Token)) (key : String) :
    (bound.map (Prod.map id (List.map (·.relocate φ)))).lookup key =
    (bound.lookup key).map (List.map (·.relocate φ)) := by
  induction bound with
  | nil => rfl
  | cons b bound ih =>
    obtain ⟨name, value⟩ := b
    simp only [map_cons, Prod.map_apply, id_eq, lookup_cons, ih]
    split <;> rfl

theorem lookup_bind_relocate (args : List Arg) (positional : List String) (key : String) :
    (bind (args.map (·.relocate φ)) positional).lookup key =
    ((bind args positional).lookup key).map (List.map (·.relocate φ)) := by
  rw [bind_relocate, lookup_relocate]

end Line

/-! ## Literals -/

namespace Literal

variable {φ : Span → Span} (ts : List Token)

@[simp] theorem number?_relocate : number? (ts.map (·.relocate φ)) = number? ts := by
  rcases ts with _ | ⟨t, _ | ⟨u, _ | ⟨v, ts⟩⟩⟩ <;> rfl

@[simp] theorem text?_relocate : text? (ts.map (·.relocate φ)) = text? ts := by
  rcases ts with _ | ⟨t, _ | ⟨u, ts⟩⟩ <;> rfl

@[simp] theorem bool?_relocate : bool? (ts.map (·.relocate φ)) = bool? ts := by
  rcases ts with _ | ⟨t, _ | ⟨u, ts⟩⟩ <;> rfl

@[simp] theorem color?_relocate : color? (ts.map (·.relocate φ)) = color? ts := by
  rcases ts with _ | ⟨t, _ | ⟨u, _ | ⟨v, ts⟩⟩⟩ <;> rfl

@[simp] theorem priceSource?_relocate : priceSource? (ts.map (·.relocate φ)) = priceSource? ts := by
  rcases ts with _ | ⟨t, _ | ⟨u, ts⟩⟩ <;> rfl

@[simp] theorem direction?_relocate : direction? (ts.map (·.relocate φ)) = direction? ts := by
  rcases ts with _ | ⟨t, _ | ⟨u, _ | ⟨v, ts⟩⟩⟩ <;> rfl

end Literal

/-! ## Assignments -/

namespace Assignment

variable {φ : Span → Span}

def relocate (φ : Span → Span) (a : Assignment) : Assignment :=
  { a with sign := a.sign.relocate φ, value := a.value.map (·.relocate φ) }

theorem identifier?_relocate (ts : List Token) : identifier? (ts.map (·.relocate φ)) = identifier? ts := by
  rcases ts with _ | ⟨t, _ | ⟨u, ts⟩⟩ <;> rfl

theorem persistenceOf_relocate (ts : List Token) : persistenceOf (ts.map (·.relocate φ)) = persistenceOf ts := by
  cases ts <;> rfl

theorem mapM_identifier?_relocate (parts : List (List Token)) :
    (parts.map (·.map (·.relocate φ))).mapM identifier? = parts.mapM identifier? := by
  induction parts with
  | nil => rfl
  | cons part parts ih => rw [map_cons, mapM_cons, mapM_cons, identifier?_relocate, ih]

theorem target?_relocate (left : List Token) :
    target? (left.map (·.relocate φ)) = (target? left).map (Prod.map id (List.map (·.relocate φ))) := by
  have hopen : (left.map (·.relocate φ)).findIdx? (·.isDelimiter .openBracket) =
      left.findIdx? (·.isDelimiter .openBracket) := by
    rw [findIdx?_map]
    rfl
  unfold target?
  rw [getLast?_map]
  cases left.getLast? with
  | none => rfl
  | some last =>
    simp only [Option.map_some, Option.bind_eq_bind, Option.bind_some, Token.relocate_isDelimiter,
      Token.relocate_kind, Token.relocate_text, hopen]
    split
    · cases left.findIdx? (·.isDelimiter .openBracket) with
      | none => rfl
      | some start =>
        simp only [Option.bind_some]
        rw [← map_drop, ← map_dropLast, splitAtCommas_relocate, mapM_identifier?_relocate, ← map_take]
        cases (splitAtCommas 0 (left.drop (start + 1)).dropLast).mapM identifier? <;> rfl
    · split
      · rw [← map_dropLast]
        rfl
      · rfl

theorem subset_of_target? {left types : List Token} {target : Target}
    (h : target? left = some (target, types)) : types ⊆ left := by
  unfold target? at h
  cases hlast : left.getLast? with
  | none => simp [hlast] at h
  | some last =>
    simp only [hlast, Option.bind_eq_bind, Option.bind_some] at h
    split at h
    · obtain ⟨start, -, h⟩ := Option.bind_eq_some_iff.1 h
      obtain ⟨names, -, h⟩ := Option.bind_eq_some_iff.1 h
      cases h
      exact take_subset start left
    · split at h
      · cases h
        exact dropLast_subset left
      · cases h

variable {source source' : List Char} {ts : List Token}

theorem textOf_relocate (hφ : Span.Respects φ) (h : Keeps φ source source' ts) :
    (span? (ts.map (·.relocate φ))).map (fun s => String.ofList ((slice source' s.start s.stop).getD [])) =
    (span? ts).map fun s => String.ofList ((slice source s.start s.stop).getD []) := by
  rw [span?_relocate hφ, Option.map_map]
  unfold span?
  cases hfirst : ts.head? with
  | none => rfl
  | some first =>
    cases hlast : ts.getLast? with
    | none => rfl
    | some last =>
      have hkeeps := h first (mem_of_mem_head? hfirst) last (mem_of_getLast? hlast)
      simp [hkeeps]

theorem ofLine?_relocate (hφ : Span.Respects φ) (h : Keeps φ source source' ts) :
    ofLine? source' (ts.map (·.relocate φ)) = (ofLine? source ts).map (·.relocate φ) := by
  unfold ofLine?
  rw [outerPosition?_relocate (p := isSign) (fun _ => rfl), persistenceOf_relocate]
  cases outerPosition? isSign 0 ts with
  | none => rfl
  | some position =>
    simp only [Option.bind_eq_bind, Option.bind_some, getElem?_map]
    cases (ts)[position]? with
    | none => rfl
    | some sign =>
      simp only [Option.map_some, Option.bind_some, ← map_take, ← map_drop, target?_relocate]
      cases htarget : target? ((ts.take position).drop (if persistenceOf ts = .each then 0 else 1)) with
      | none => rfl
      | some found =>
        obtain ⟨target, types⟩ := found
        have hsub : types ⊆ ts := fun t ht =>
          take_subset position ts (drop_subset _ _ (subset_of_target? htarget ht))
        have hall : (types.map (·.relocate φ)).all isTypeToken = types.all isTypeToken := by
          rw [all_map]
          rfl
        simp only [Option.map_some, Option.bind_some, Prod.map_apply, id_eq, hall, textOf_relocate hφ (h.mono hsub)]
        have hmode : mode? (sign.relocate φ) = mode? sign := rfl
        rw [hmode]
        cases types.all isTypeToken with
        | false => rfl
        | true => cases mode? sign <;> rfl

end Assignment

/-! ## Inputs -/

namespace InputDecl

variable {φ : Span → Span}

def relocate (φ : Span → Span) (d : InputDecl) : InputDecl :=
  { d with span := φ d.span }

theorem call?_relocate (value : List Token) : call? (value.map (·.relocate φ)) = call? value := by
  have hhead : call?.head? (value.map (·.relocate φ)) = call?.head? value := by
    rcases value with _ | ⟨first, _ | ⟨second, rest⟩⟩
    · rfl
    · rfl
    · simp only [map_cons, call?.head?, head?_map, Option.any_map]
      rfl
  unfold call?
  simp only [hhead, matchingClose?_relocate, length_map]

theorem declaredKind?_relocate (value : List Token) :
    declaredKind? (value.map (·.relocate φ)) = declaredKind? value := by
  rcases value with _ | ⟨t, _ | ⟨u, _ | ⟨v, value⟩⟩⟩ <;> rfl

theorem default?_relocate (kind : Option InputKind) (value : List Token) :
    Mirrors id (default? kind value) (default? kind (value.map (·.relocate φ))) := by
  have hkind : literalKind? (value.map (·.relocate φ)) = literalKind? value := by simp [literalKind?]
  have hvalue : ∀ k, value? k (value.map (·.relocate φ)) = value? k value := by
    intro k
    cases k <;> simp [value?]
  simp only [default?, hkind, hvalue]
  cases kind.or (literalKind? value) with
  | none => exact .error _ _
  | some k =>
    cases hk : value? k value with
    | none => simp only [hk]; exact .error _ _
    | some v => simp only [hk]; exact .ok _

theorem ofLine_relocate {source source' : List Char} {ts : List Token} (hφ : Span.Respects φ)
    (h : Keeps φ source source' ts) (span : Span) :
    Mirrors (relocate φ) (ofLine source ts span) (ofLine source' (ts.map (·.relocate φ)) (φ span)) := by
  unfold ofLine
  rw [Assignment.ofLine?_relocate hφ h]
  cases Assignment.ofLine? source ts with
  | none => exact .error _ _
  | some a =>
    simp only [Option.map_some, Assignment.relocate, call?_relocate]
    cases call? a.value with
    | none => exact .error _ _
    | some call =>
      obtain ⟨kind, start⟩ := call
      cases a.target with
      | tuple names => exact .error _ _
      | single name =>
        refine (arguments_relocate a.value start).bind fun bound => ?_
        obtain ⟨args, close⟩ := bound
        simp only [Prod.map_apply, lookup_bind_relocate, Option.bind_map, Function.comp_def,
          declaredKind?_relocate, Literal.text?_relocate, Literal.number?_relocate]
        cases (bind args ["defval", "title"]).lookup "defval" with
        | none => exact .error _ _
        | some value =>
          refine (default?_relocate _ value).bind fun d => ?_
          exact .ok _

end InputDecl

/-! ## Forms -/

namespace StatementForm

variable {φ : Span → Span}

theorem opensWith_relocate (p : Keyword → Bool) (ts : List Token) :
    opensWith p (ts.map (·.relocate φ)) = opensWith p ts := by
  cases ts <;> rfl

theorem leadingKeyword?_relocate (ts : List Token) :
    leadingKeyword? (ts.map (·.relocate φ)) = leadingKeyword? ts := by
  cases ts with
  | nil => rfl
  | cons t ts =>
    simp only [leadingKeyword?, map_cons, head?_cons, Option.any_some,
      Token.relocate_isKeyword, drop_succ_cons, drop_zero]
    cases t.isKeyword .export_ with
    | true => cases ts <;> rfl
    | false => rfl

theorem getElem?_any_relocate {p : Token → Bool} (hp : ∀ t, p (t.relocate φ) = p t)
    (ts : List Token) (i : Nat) : (ts.map (·.relocate φ))[i]?.any p = (ts)[i]?.any p := by
  rw [getElem?_map, Option.any_map]
  congr 1
  funext t
  exact hp t

theorem isHeader_relocate (ts : List Token) : isHeader (ts.map (·.relocate φ)) = isHeader ts := by
  rw [isHeader, opensWith_relocate, getElem?_any_relocate (fun _ => rfl), isHeader]

theorem isFunction_relocate (ts : List Token) : isFunction (ts.map (·.relocate φ)) = isFunction ts := by
  have hhead : (ts.map (·.relocate φ)).head?.any (·.kind == .identifier) =
      ts.head?.any (·.kind == .identifier) := by
    cases ts <;> rfl
  rw [isFunction, hhead, getElem?_any_relocate (fun _ => rfl), matchingClose?_relocate, isFunction]
  congr 2
  funext close
  exact getElem?_any_relocate (fun _ => rfl) ts (close + 1)

theorem isOrder_relocate (ts : List Token) : isOrder (ts.map (·.relocate φ)) = isOrder ts := by
  rcases ts with _ | ⟨t, _ | ⟨u, _ | ⟨v, ts⟩⟩⟩ <;> rfl

theorem isCallOf_relocate (p : String → Bool) (ts : List Token) :
    isCallOf p (ts.map (·.relocate φ)) = isCallOf p ts := by
  rcases ts with _ | ⟨t, _ | ⟨u, ts⟩⟩ <;> rfl

theorem isDrawing_relocate (ts : List Token) : isDrawing (ts.map (·.relocate φ)) = isDrawing ts := by
  cases ts <;> rfl

variable {source source' : List Char} {ts : List Token}

theorem isInput_relocate (hφ : Span.Respects φ) (h : Keeps φ source source' ts) :
    isInput source' (ts.map (·.relocate φ)) = isInput source ts := by
  rw [isInput, Assignment.ofLine?_relocate hφ h, Option.any_map, isInput]
  congr 1
  funext a
  simp only [Assignment.relocate, InputDecl.call?_relocate]

theorem isConditionalExpr_relocate (hφ : Span.Respects φ) (h : Keeps φ source source' ts) :
    isConditionalExpr source' (ts.map (·.relocate φ)) = isConditionalExpr source ts := by
  rw [isConditionalExpr, Assignment.ofLine?_relocate hφ h, Option.any_map, isConditionalExpr]
  congr 1
  funext a
  simp only [Assignment.relocate, head?_map, Option.any_map]
  rfl

theorem ofLine_relocate (hφ : Span.Respects φ) (h : Keeps φ source source' ts) :
    ofLine source' (ts.map (·.relocate φ)) = ofLine source ts := by
  simp only [ofLine, isHeader_relocate, isInput_relocate hφ h, isFunction_relocate,
    leadingKeyword?_relocate, opensWith_relocate, isConditionalExpr_relocate hφ h, isOrder_relocate,
    isCallOf_relocate, isDrawing_relocate, Assignment.ofLine?_relocate hφ h, Option.isSome_map]

end StatementForm

end ChartScript
