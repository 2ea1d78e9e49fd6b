import ChartScript.Module.Build
import ChartScript.Proofs.Script.Forest
import ChartScript.Proofs.Script.Declared
/-!
# What a bar does

The actions of a module as they are carried out on one bar, given which tests hold, and the paths
of bodies that lead to the orders of a script.
-/
namespace ChartScript

mutual

/-- The orders that an action makes on a bar, with their numbers. -/
def Action.run (holds : Test → Bool) : Action → List (Nat × EmittedOrder)
  | .order index test order => if test.all holds then [(index, order)] else []
  | .choose chain => chain.run holds

def Chain.run (holds : Test → Bool) : Chain → List (Nat × EmittedOrder)
  | .stop => []
  | .otherwise body => runAll holds body
  | .arm test body rest => if holds test then runAll holds body else rest.run holds

/-- The orders that actions make one after the other. -/
def runAll (holds : Test → Bool) : List Action → List (Nat × EmittedOrder)
  | [] => []
  | action :: rest => action.run holds ++ runAll holds rest

end

namespace Condition

/-! ## Paths of bodies -/

/-- The body `scope` lies in the body `outer`, or is the same. -/
inductive Leads (cs : List Condition) (outer : Option BodyRef) : Option BodyRef → Prop
  | here : Leads cs outer outer
  | body {b : BodyRef} {c : Condition} : cs[b.condition]? = some c →
      Leads cs outer c.parent → Leads cs outer (some b)

variable {cs : List Condition} {outer scope : Option BodyRef}

theorem leads_iff :
    Leads cs outer scope ↔
      scope = outer ∨ ∃ b c, cs[b.condition]? = some c ∧ c.parent = outer ∧ Leads cs (some b) scope := by
  constructor
  · intro h
    induction h with
    | here => exact .inl rfl
    | @body b c hc _ ih =>
      rcases ih with hp | ⟨b', c', hc', hp', hr'⟩
      · exact .inr ⟨b, c, hc, hp, .here⟩
      · exact .inr ⟨b', c', hc', hp', .body hc hr'⟩
  · rintro (rfl | ⟨b, c, hc, hp, hr⟩)
    · exact .here
    · induction hr with
      | here => exact .body hc (hp ▸ .here)
      | body hc' _ ih => exact .body hc' ih

/-- With the given truth of the conditions the body is carried out, once its chain is reached. -/
def Entered (cs : List Condition) (truth : Nat → Bool) (b : BodyRef) : Prop :=
  match b.branch with
  | .onTrue => truth b.condition = true ∧ ∀ d < b.condition, head cs d = head cs b.condition → truth d = false
  | .onFalse => ∀ d < cs.length, head cs d = head cs b.condition → truth d = false

/-- Every body on the way from `outer` to `scope` is entered. -/
inductive Reached (cs : List Condition) (truth : Nat → Bool) (outer : Option BodyRef) :
    Option BodyRef → Prop
  | here : Reached cs truth outer outer
  | body {b : BodyRef} {c : Condition} : cs[b.condition]? = some c →
      Reached cs truth outer c.parent → Entered cs truth b → Reached cs truth outer (some b)

variable {truth : Nat → Bool} {k : Nat} {m c' : Condition}

theorem Reached.leads (h : Reached cs truth outer scope) : Leads cs outer scope := by
  induction h with
  | here => exact .here
  | body hc _ _ ih => exact .body hc ih

theorem reached_iff :
    Reached cs truth outer scope ↔ scope = outer ∨ ∃ b c, cs[b.condition]? = some c ∧ c.parent = outer ∧
      Entered cs truth b ∧ Reached cs truth (some b) scope := by
  constructor
  · intro h
    induction h with
    | here => exact .inl rfl
    | @body b c hc _ hb ih =>
      rcases ih with hp | ⟨b', c', hc', hp', hb', hr'⟩
      · exact .inr ⟨b, c, hc, hp, hb, .here⟩
      · exact .inr ⟨b', c', hc', hp', hb', .body hc hr' hb⟩
  · rintro (rfl | ⟨b, c, hc, hp, hb, hr⟩)
    · exact .here
    · induction hr with
      | here => exact .body hc (hp ▸ .here) hb
      | body hc' _ hb' ih => exact .body hc' ih hb'

section
variable {cs : List Condition} {xs : List Placed}

theorem Nested.first (hn : Nested cs xs) (hm : cs[k]? = some m) :
    ∃ c, cs[head cs k]? = some c ∧ c.chainedFrom = none ∧ c.parent = m.parent := by
  rw [head_of_getElem hm]
  cases hf : m.chainedFrom with
  | none => exact ⟨m, hm, hf, rfl⟩
  | some h =>
    obtain ⟨_, c, _, hc, hnone, hp, -⟩ := hn.chained hm hf
    exact ⟨c, hc, hnone, hp⟩

variable {c : Condition}

theorem Nested.body_within (hn : Nested cs xs) (hm : cs[k]? = some m)
    (hc : cs[head cs k]? = some c) {branch : Branch} {f : Span} (hf : m.body? branch = some f) :
    c.span.start ≤ f.start ∧ f.stop ≤ c.reach := by
  have hown : m.span.start ≤ f.start ∧ f.stop ≤ m.reach := by
    have htrue := hn.trueBody m (List.mem_of_getElem? hm)
    cases branch with
    | onTrue =>
      cases hf
      simp only [reach]
      omega
    | onFalse =>
      have hf : m.falseBody = some f := hf
      have := hn.falseBody m (List.mem_of_getElem? hm) f hf
      simp only [reach, hf, Option.map_some, Option.getD_some]
      omega
  rw [head_of_getElem hm] at hc
  cases hch : m.chainedFrom with
  | none =>
    rw [hch, Option.getD_none] at hc
    cases hm.symm.trans hc
    exact hown
  | some h =>
    rw [hch, Option.getD_some] at hc
    obtain ⟨_, c', g, hc', _, _, _, hg, hlo, hhi⟩ := hn.chained hm hch
    cases hc.symm.trans hc'
    have := hn.falseBody c (List.mem_of_getElem? hc) g hg
    simp only [reach, hg, Option.map_some, Option.getD_some]
    simp only [reach] at hown hhi
    omega

theorem Leads.within (hn : Nested cs xs) {b : BodyRef} (hc : cs[head cs b.condition]? = some c)
    (hr : Leads cs (some b) scope) {start stop : Nat} (hin : ∀ b', scope = some b' → Holds cs b' start stop) :
    c.span.start ≤ start ∧ stop ≤ c.reach := by
  induction hr generalizing start stop with
  | here =>
    obtain ⟨m, f, hm, hf, hlo, hhi⟩ := hin b rfl
    have := hn.body_within hm hc hf
    omega
  | @body b' c' hc' _ ih =>
    obtain ⟨m, f, hm, hf, hlo, hhi⟩ := hin b' rfl
    obtain ⟨d, hd, hnone, hp⟩ := hn.first hc'
    have hf' := hn.body_within hm hd hf
    have := ih fun b'' hb'' => (hn.parent hd (hp.trans hb'')).2
    omega

variable {outer scope : Option BodyRef} {b b' : BodyRef}

theorem Leads.le (hn : Nested cs xs) (h : Leads cs (some b) scope) :
    ∃ b', scope = some b' ∧ b.condition ≤ b'.condition := by
  induction h with
  | here => exact ⟨b, rfl, Nat.le_refl _⟩
  | @body b' c hc _ ih =>
    obtain ⟨b'', hparent, hle⟩ := ih
    exact ⟨b', rfl, hle.trans (hn.parent hc hparent).1.le⟩

theorem Leads.total (h : Leads cs (some b) scope) (h' : Leads cs (some b') scope) :
    Leads cs (some b) (some b') ∨ Leads cs (some b') (some b) := by
  induction h with
  | here => exact .inr h'
  | @body b₁ c hc hparent ih =>
    cases h' with
    | here => exact .inl (.body hc hparent)
    | body hc' hparent' =>
      cases hc.symm.trans hc'
      exact ih hparent'

theorem Leads.not_beside (hn : Nested cs xs) (hc : cs[b.condition]? = some c)
    (hc' : cs[b'.condition]? = some c') (hp : c.parent = c'.parent) (hne : b ≠ b')
    (h : Leads cs (some b) (some b')) : False := by
  cases h with
  | here => exact hne rfl
  | body hc'' hparent =>
    cases hc'.symm.trans hc''
    obtain ⟨b'', hb, hle⟩ := hparent.le hn
    have := (hn.parent hc (hp.trans hb)).1
    omega

theorem Leads.unique (hn : Nested cs xs) (hc : cs[b.condition]? = some c)
    (hc' : cs[b'.condition]? = some c') (hp : c.parent = c'.parent) (h : Leads cs (some b) scope)
    (h' : Leads cs (some b') scope) : b = b' := by
  by_contra hne
  rcases h.total h' with hin | hin
  · exact hin.not_beside hn hc hc' hp hne
  · exact hin.not_beside hn hc' hc hp.symm (Ne.symm hne)

theorem leads_from_top (hn : Nested cs xs) {n : Nat} (hle : n ≤ cs.length)
    (hscope : ∀ b, scope = some b → b.condition < n) : Leads cs none scope := by
  induction n generalizing scope with
  | zero =>
    cases scope with
    | none => exact .here
    | some b => exact absurd (hscope b rfl) (Nat.not_lt_zero _)
  | succ n ih =>
    cases scope with
    | none => exact .here
    | some b =>
      have hlt := hscope b rfl
      have hc := List.getElem?_eq_getElem (hlt.trans_le hle)
      refine .body hc (ih (by omega) fun b' hb' => ?_)
      have := (hn.parent hc hb').1
      omega

end

end Condition

end ChartScript
