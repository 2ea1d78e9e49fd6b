import ChartScript.Proofs.Outcome
import ChartScript.Proofs.Script.Lines
import ChartScript.Script.Parser
/-!
# The walk over the statement tree

`Walk` says once what the walk over the statements of a block can do, statement by statement: add
what a plain statement declares, or enter the block of a condition, which opens a chain of conditions
or goes on with the one before it. Every fact about parsed scripts is an induction on `Walk`.
-/
namespace ChartScript.Statement

/-- What the line of a condition does before its block is read: the condition and the branch that the
block belongs to, what was read by then, and the chain behind the block. -/
inductive Enters (source : List Char) (p : Place) (r : Progress) (line : List Token)
    (body : List Statement) : Nat → Branch → Progress → List Nat → Prop
  /-- The first condition of a chain. -/
  | opening {predicate block : Span} :
      StatementForm.ofLine source line = .condition → Line.span? (line.drop 1) = some predicate →
      blockSpan? body = some block →
      Enters source p r line body r.declared.conditions.length .onTrue
        (r.addCondition ⟨predicate, block, none, p.depth, p.scope, none, (mk line body).span⟩)
        [r.declared.conditions.length]
  /-- A further condition of a chain. -/
  | chained {head : Nat} {second : Token} {predicate block : Span} :
      StatementForm.ofLine source line = .alternative → p.chain.head? = some head →
      (line)[1]? = some second → second.isKeyword .if_ = true →
      Line.span? (line.drop 2) = some predicate → blockSpan? body = some block →
      Enters source p r line body r.declared.conditions.length .onTrue
        ((r.setFalseBody p.chain (second.span.through (mk line body).span)).addCondition
          ⟨predicate, block, none, p.depth, p.scope, some head, second.span.through (mk line body).span⟩)
        (p.chain ++ [r.declared.conditions.length])
  /-- What is done when no condition of a chain holds. -/
  | closing {last : Nat} {block : Span} :
      StatementForm.ofLine source line = .alternative → p.chain.getLast? = some last →
      (line)[1]?.any (·.isKeyword .if_) = false → blockSpan? body = some block →
      Enters source p r line body last .onFalse (r.setFalseBody p.chain block) []

inductive Walk (source : List Char) : Place → Progress → List Statement → Progress → Prop
  | done {p : Place} {r : Progress} : Walk source p r [] r
  /-- A statement whose block, if it has one, is not looked into. -/
  | plain {p : Place} {r r₁ r₂ : Progress} {line : List Token} {body rest : List Statement} {form : StatementForm} :
      StatementForm.ofLine source line = form → form ≠ .condition → form ≠ .alternative →
      r.add source p (mk line body) form = .ok r₁ →
      Walk source { p with chain := [] } r₁ rest r₂ →
      Walk source p r (mk line body :: rest) r₂
  /-- A statement whose block is walked over before what follows it. -/
  | block {p : Place} {r r₀ r₁ r₂ : Progress} {line : List Token} {body rest : List Statement}
      {i : Nat} {branch : Branch} {chain : List Nat} :
      Enters source p r line body i branch r₀ chain → Walk source (p.body i branch) r₀ body r₁ →
      Walk source { p with chain := chain } r₁ rest r₂ → Walk source p r (mk line body :: rest) r₂

@[simp] theorem Progress.setFalseBody_length (r : Progress) (chain : List Nat) (span : Span) :
    (r.setFalseBody chain span).declared.conditions.length = r.declared.conditions.length := by
  simp [Progress.setFalseBody]

theorem requireBlock_eq_ok {line : List Token} {body : List Statement} {what : String} {block : Span}
    (h : (mk line body).requireBlock what = .ok block) : blockSpan? body = some block := by
  unfold requireBlock bodySpan? at h
  split at h
  · next hb => cases h; exact hb
  · cases h

theorem predicate_eq_ok {keyword predicate : Span} {ts : List Token}
    (h : Statement.predicate keyword ts = .ok predicate) : Line.span? ts = some predicate := by
  unfold Statement.predicate at h
  split at h
  · next hp => cases h; exact hp
  · cases h

mutual

theorem walk_cons {source : List Char} {p : Place} {r r₁ r₂ : Progress} {chain : List Nat}
    {rest : List Statement} : (s : Statement) → collect source p r s = .ok (r₁, chain) →
    Walk source { p with chain := chain } r₁ rest r₂ → Walk source p r (s :: rest) r₂
  | mk line body, h, hrest => by
    rw [collect] at h
    obtain ⟨⟨⟩, -, h⟩ := bind_eq_ok.1 h
    obtain ⟨⟨⟩, -, h⟩ := bind_eq_ok.1 h
    split at h
    · next hform =>
      obtain ⟨predicate, hp, h⟩ := bind_eq_ok.1 h
      obtain ⟨block, hb, h⟩ := bind_eq_ok.1 h
      obtain ⟨r', hbody, h⟩ := bind_eq_ok.1 h
      cases pure_eq_ok.1 h
      exact .block (.opening hform (predicate_eq_ok hp) (requireBlock_eq_ok hb))
        (walk_of_collectAll body hbody) hrest
    · next hform =>
      split at h
      · next head hhead =>
        obtain ⟨block, hb, h⟩ := bind_eq_ok.1 h
        have hb' := requireBlock_eq_ok hb
        obtain ⟨last, hlast⟩ : ∃ last, p.chain.getLast? = some last := by
          cases hc : p.chain with
          | nil => simp [hc] at hhead
          | cons i chain => exact ⟨_, List.getLast?_cons⟩
        split at h
        · next hif =>
          obtain ⟨predicate, hp, h⟩ := bind_eq_ok.1 h
          obtain ⟨r', hbody, h⟩ := bind_eq_ok.1 h
          cases pure_eq_ok.1 h
          cases hsecond : (line)[1]? with
          | none => simp [hsecond] at hif
          | some second =>
            simp only [hsecond, Option.map_some, Option.getD_some, Progress.setFalseBody_length,
              Option.any_some] at hbody hrest hif
            exact .block (.chained hform hhead hsecond hif (predicate_eq_ok hp) hb')
              (walk_of_collectAll body hbody) hrest
        · next hif =>
          obtain ⟨r', hbody, h⟩ := bind_eq_ok.1 h
          cases pure_eq_ok.1 h
          rw [hlast, Option.getD_some] at hbody
          exact .block (.closing hform hlast (by simpa using hif) hb') (walk_of_collectAll body hbody) hrest
      · cases h
    · next hc ha =>
      obtain ⟨r', hadd, h⟩ := bind_eq_ok.1 h
      cases pure_eq_ok.1 h
      exact .plain rfl hc ha hadd hrest

theorem walk_of_collectAll {source : List Char} {p : Place} {r r' : Progress} :
    (ss : List Statement) → collectAll source p r ss = .ok r' → Walk source p r ss r'
  | [], h => by
    rw [collectAll] at h
    cases h
    exact .done
  | s :: rest, h => by
    rw [collectAll] at h
    obtain ⟨⟨r₁, chain⟩, hs, h⟩ := bind_eq_ok.1 h
    exact walk_cons s hs (walk_of_collectAll rest h)

end

end ChartScript.Statement
