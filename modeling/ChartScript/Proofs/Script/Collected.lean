import ChartScript.Proofs.Script.Parsed
/-!
# Declarations in source order

Each kind of declaration is collected from the statements of the tree from top to bottom.
-/
namespace ChartScript

open List StatementForm

variable {source : List Char}

def Condition.withoutElse (c : Condition) : Condition :=
  { c with falseBody := none }

namespace Statement

mutual

def nodes : Statement → List Statement
  | mk line body => mk line body :: nodesAll body

/-- The statements and all below them, from top to bottom. -/
def nodesAll : List Statement → List Statement
  | [] => []
  | s :: rest => s.nodes ++ nodesAll rest

end

@[simp] theorem nodes_mk (line : List Token) (body : List Statement) :
    (mk line body).nodes = mk line body :: nodesAll body := by
  rw [nodes]

@[simp] theorem nodesAll_nil : nodesAll [] = [] := by
  rw [nodesAll]

@[simp] theorem nodesAll_cons (s : Statement) (rest : List Statement) :
    nodesAll (s :: rest) = s.nodes ++ nodesAll rest := by
  rw [nodesAll]

mutual

theorem map_line_nodes : (s : Statement) → s.nodes.map line = s.lines
  | mk line body => by simp [map_line_nodesAll body, Statement.line]

theorem map_line_nodesAll : (ss : List Statement) → (nodesAll ss).map line = linesAll ss
  | [] => by simp
  | s :: rest => by simp [map_line_nodes s, map_line_nodesAll rest]

end

variable {f : Statement → Nat} {line : List Token} {body : List Statement} {i : Nat}
  {branch : Branch} {chain : List Nat}

mutual

theorem rising_nodes
    (hf : ∀ s, Proper [s] → ∃ t ∈ s.line, t.span.start = f s) : (s : Statement) → Proper [s] →
    Rising (s.nodes.map f) s.tokens
  | mk line body, h => by
    obtain ⟨t, ht, hstart⟩ := hf _ h
    rw [nodes_mk, map_cons, tokens_mk, ← hstart]
    exact (Rising.token ht).append (rising_nodesAll hf body h.body) h.line_ordered

theorem rising_nodesAll
    (hf : ∀ s, Proper [s] → ∃ t ∈ s.line, t.span.start = f s) : (ss : List Statement) → Proper ss →
    Rising ((nodesAll ss).map f) (tokensAll ss)
  | [], _ => by simpa using Rising.nil []
  | s :: rest, h => by
    have ho := h.ordered
    rw [tokensAll_cons] at ho ⊢
    rw [nodesAll_cons, map_append]
    exact (rising_nodes hf s h.head).append (rising_nodesAll hf rest h.tail) ho

end

theorem exists_start (s : Statement) (h : Proper [s]) : ∃ t ∈ s.line, t.span.start = s.span.start := by
  cases s
  exact start_mem_line h

/-! ## Collecting -/

/-- The form that the line of a statement has. -/
def form (source : List Char) (s : Statement) : StatementForm :=
  ofLine source s.line

mutual

def reached (source : List Char) : Statement → List Statement
  | mk line body => mk line body ::
      match ofLine source line with
      | .condition | .alternative => reachedAll source body
      | _ => []

def reachedAll (source : List Char) : List Statement → List Statement
  | [] => []
  | s :: rest => s.reached source ++ reachedAll source rest

end

@[simp] theorem reachedAll_nil (source : List Char) : reachedAll source [] = [] := by
  rw [reachedAll]

@[simp] theorem reachedAll_cons (source : List Char) (s : Statement) (rest : List Statement) :
    reachedAll source (s :: rest) = s.reached source ++ reachedAll source rest := by
  rw [reachedAll]

theorem reached_condition (body : List Statement)
    (h : ofLine source line = .condition ∨ ofLine source line = .alternative) :
    (mk line body).reached source = mk line body :: reachedAll source body := by
  rw [reached]
  rcases h with h | h <;> rw [h]

theorem reached_plain (body : List Statement)
    (hc : ofLine source line ≠ .condition) (ha : ofLine source line ≠ .alternative) :
    (mk line body).reached source = [mk line body] := by
  rw [reached]
  split
  · next h => exact absurd h hc
  · next h => exact absurd h ha
  · rfl

mutual

theorem reached_sublist (source : List Char) : (s : Statement) → (s.reached source).Sublist s.nodes
  | mk line body => by
    refine List.Sublist.cons_cons _ ?_
    split
    · exact reachedAll_sublist source body
    · exact reachedAll_sublist source body
    · exact nil_sublist _

theorem reachedAll_sublist (source : List Char) : (ss : List Statement) →
    (reachedAll source ss).Sublist (nodesAll ss)
  | [] => by simp
  | s :: rest => by
    exact (reached_sublist source s).append (reachedAll_sublist source rest)

end

def hasIf (s : Statement) : Bool :=
  (s.line)[1]?.any (·.isKeyword .if_)

def isCondition (source : List Char) (s : Statement) : Bool :=
  s.form source == .condition || s.form source == .alternative && s.hasIf

def mark (source : List Char) (s : Statement) : Span :=
  match s.form source, (s.line)[1]? with
  | .alternative, some second => second.span.through s.span
  | _, _ => s.span

theorem exists_mark (source : List Char) (s : Statement) (h : Proper [s]) :
    ∃ t ∈ s.line, t.span.start = (s.mark source).start := by
  unfold mark
  split
  · next second _ hsecond => exact ⟨second, mem_of_getElem? hsecond, rfl⟩
  · exact exists_start s h

theorem mark_of_ne {s : Statement} (h : s.form source ≠ .alternative) : s.mark source = s.span := by
  unfold mark
  split
  · next hform _ => exact absurd hform h
  · rfl

/-- The statement makes the condition: its predicate from the line, and what is done when it
holds from the block. -/
structure Makes (source : List Char) (s : Statement) (c : Condition) : Prop where
  span : c.span = s.mark source
  predicate : Line.span? (s.line.drop (if s.form source = .alternative then 2 else 1)) = some c.predicate
  block : blockSpan? s.body = some c.trueBody

section Grows

variable {α : Type} {all : Declarations → List α} {own : Statement → Bool}
  {made : Statement → α → Prop} {d d' d'' : Declarations} {ss ss' : List Statement} {s : Statement}

def Grows (all : Declarations → List α) (own : Statement → Bool) (made : Statement → α → Prop)
    (ss : List Statement) (d d' : Declarations) : Prop :=
  ∃ new, List.Forall₂ made (ss.filter own) new ∧ all d' = all d ++ new

theorem Grows.one (hown : own s = true) {x : α} (hx : made s x) (h : all d' = all d ++ [x]) :
    Grows all own made [s] d d' :=
  ⟨[x], by rw [filter_cons_of_pos hown]; exact .cons hx .nil, h⟩

theorem Grows.none (hown : own s = false) (h : all d' = all d) : Grows all own made [s] d d' :=
  ⟨[], by rw [filter_cons_of_neg (by simp [hown])]; exact .nil, by rw [h, append_nil]⟩

theorem Grows.trans (h : Grows all own made ss d d') (h' : Grows all own made ss' d' d'') :
    Grows all own made (ss ++ ss') d d'' := by
  obtain ⟨new, hmade, hall⟩ := h
  obtain ⟨new', hmade', hall'⟩ := h'
  exact ⟨new ++ new', by rw [filter_append]; exact rel_append hmade hmade', by rw [hall', hall, append_assoc]⟩

end Grows

/-- A kind of declaration: each of its own statements adds one, and nothing else changes those that
were read. -/
structure Kind (source : List Char) (α : Type) where
  all : Declarations → List α
  own : Statement → Bool
  made : Statement → α → Prop
  adds : ∀ {p : Place} {s : Statement} {r r' : Progress} {form : StatementForm},
    s.form source = form → form ≠ .condition → form ≠ .alternative → Adds source p s r form r' →
    Grows all own made [s] r.declared r'.declared
  makes : ∀ {s : Statement} {c : Condition} (d : Declarations), s.isCondition source = true →
    s.Makes source c → Grows all own made [s] d { d with conditions := d.conditions ++ [c] }
  closes : ∀ {s : Statement}, s.form source = .alternative → s.hasIf = false → own s = false
  setFalseBody : ∀ (r : Progress) (chain : List Nat) (span : Span),
    all (r.setFalseBody chain span).declared = all r.declared

variable {p : Place} {r r' : Progress} {ss : List Statement}

theorem Enters.form (h : Enters source p r line body i branch r' chain) :
    ofLine source line = .condition ∨ ofLine source line = .alternative := by
  cases h with
  | opening hform => exact .inl hform
  | chained hform | closing hform => exact .inr hform

theorem Enters.grows (h : Enters source p r line body i branch r' chain) {α : Type}
    (k : Kind source α) : Grows k.all k.own k.made [mk line body] r.declared r'.declared := by
  have hline : (mk line body).line = line := rfl
  have hform : (mk line body).form source = ofLine source line := rfl
  cases h with
  | opening hown hpredicate hblock =>
    rw [hown] at hform
    refine k.makes r.declared (by simp [isCondition, hform]) ⟨?_, ?_, hblock⟩
    · exact (mark_of_ne (by simp [hform])).symm
    · simpa [hform, hline] using hpredicate
  | @chained _ second _ _ hown _ hsecond hif hpredicate hblock =>
    rw [hown] at hform
    rw [Grows, ← k.setFalseBody r p.chain (second.span.through (mk line body).span)]
    refine k.makes _ (by simp [isCondition, hform, hasIf, hline, hsecond, hif]) ⟨?_, ?_, hblock⟩
    · simp only [mark, hform, hline, hsecond]
    · simpa [hform, hline] using hpredicate
  | closing hown _ hif => exact .none (k.closes (hform.trans hown) hif) (k.setFalseBody r _ _)

theorem collected {α : Type} (k : Kind source α) (h : Walk source p r ss r') :
    Grows k.all k.own k.made (reachedAll source ss) r.declared r'.declared := by
  induction h with
  | done => exact ⟨[], .nil, by simp⟩
  | @plain p r r₁ r₂ line body rest form hform hc ha hadd _ ih =>
    subst hform
    rw [reachedAll_cons, reached_plain body hc ha]
    exact (k.adds (s := mk line body) rfl hc ha (adds_of_add hc ha hadd)).trans ih
  | block henter _ _ ihbody ih =>
    rw [reachedAll_cons, reached_condition _ henter.form]
    exact ((henter.grows k).trans ihbody).trans ih

def Kind.ofForm {source : List Char} {α : Type} (all : Declarations → List α)
    (form : StatementForm) (made : Statement → α → Prop)
    (plain : form ≠ .condition ∧ form ≠ .alternative)
    (conditions : ∀ d cs, all { d with conditions := cs } = all d)
    (adds : ∀ {p : Place} {s : Statement} {r r' : Progress} {form' : StatementForm}, Adds source p s r form' r' →
        (form' = form → ∃ x, made s x ∧ all r'.declared = all r.declared ++ [x]) ∧
        (form' ≠ form → all r'.declared = all r.declared)) : Kind source α where
  all := all
  own s := s.form source == form
  made := made
  adds := @fun _ _ _ _ form' hform _ _ h => by
    by_cases hown : form' = form
    · obtain ⟨x, hx, hall⟩ := (adds h).1 hown
      exact .one (by rw [hform, hown, beq_self_eq_true]) hx hall
    · exact .none (by rw [hform]; exact beq_false_of_ne hown) ((adds h).2 hown)
  makes d hcondition _ := by
    refine .none (beq_false_of_ne fun hform => ?_) (conditions d _)
    simp [isCondition, hform, plain.1, plain.2] at hcondition
  closes hform _ := by
    rw [hform]
    exact beq_false_of_ne plain.2.symm
  setFalseBody r _ _ := conditions r.declared _

def Kind.orders (source : List Char) : Kind source OrderCall :=
  .ofForm (·.orders) .order (fun s x => ∃ scope, s.order scope = .ok x) (by decide) (fun _ _ => rfl) fun h => by
      cases h with
      | order hx => exact ⟨fun _ => ⟨_, ⟨_, hx⟩, rfl⟩, (absurd rfl ·)⟩
      | other hkind => exact ⟨(by rintro rfl; cases hkind), fun _ => rfl⟩
      | _ => exact ⟨nofun, fun _ => rfl⟩

def Kind.functions (source : List Char) : Kind source FuncDecl :=
  .ofForm (·.functions) .function (fun s x => s.function source = .ok x) (by decide) (fun _ _ => rfl) fun h => by
      cases h with
      | function _ hx => exact ⟨fun _ => ⟨_, hx, rfl⟩, (absurd rfl ·)⟩
      | other hkind => exact ⟨(by rintro rfl; cases hkind), fun _ => rfl⟩
      | _ => exact ⟨nofun, fun _ => rfl⟩

/-! ## Conditions -/

theorem conditions_of_adds {s : Statement} {form : StatementForm} (h : Adds source p s r form r') :
    r'.declared.conditions = r.declared.conditions := by
  cases h <;> rfl

theorem Progress.setFalseBody_withoutElse (r : Progress) (chain : List Nat) (span : Span) :
    (r.setFalseBody chain span).declared.conditions.map Condition.withoutElse =
    r.declared.conditions.map Condition.withoutElse := by
  apply ext_getElem?
  intro i
  simp only [setFalseBody, getElem?_map, getElem?_mapIdx, Option.map_map]
  cases r.declared.conditions[i]? with
  | none => rfl
  | some c =>
    split <;> rfl

def Kind.conditions (source : List Char) : Kind source Condition where
  all d := d.conditions.map Condition.withoutElse
  own := isCondition source
  made := Makes source
  adds hform hc ha h := .none (by simp [isCondition, hform, hc, ha]) (congrArg _ (conditions_of_adds h))
  makes _ hcondition hmakes :=
    .one (x := Condition.withoutElse _) hcondition ⟨hmakes.span, hmakes.predicate, hmakes.block⟩ map_append
  closes hform hif := by simp [isCondition, hform, hif]
  setFalseBody := Progress.setFalseBody_withoutElse

end Statement

end ChartScript
