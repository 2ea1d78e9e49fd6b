import ChartScript.Proofs.Lowering.Operations
/-!
# What lowered code refers to

Code refers to local names, to names in modules and types, to members of values and to the parameters
of the script.
-/
namespace ChartScript

open List

open Emitted (isWord)

/-- Something that code refers to. -/
inductive Mention where
  | name (name : String)
  | path (segments : List String)
  | member (name : String)
  | setting (field : String)
deriving DecidableEq, Repr

/-- Names that a run gives to the series of the bars. -/
def seriesNames : List String :=
  BarField.all.map BarField.name ++ Average.all.map Average.name ++ ["bar_index"]

namespace Code

mutual

/-- All that code refers to, with the names that it binds itself. -/
def mentions : Code → List Mention
  | name x => [.name x]
  | path segments => [.path segments]
  | setting field => [.setting field]
  | number _ | integer _ | bool _ | text _ => []
  | widen c | borrow c | group c | unary _ c => c.mentions
  | binary _ l r => l.mentions ++ r.mentions
  | choice c a b => c.mentions ++ a.mentions ++ b.mentions
  | call f args => f.mentions ++ mentionsAll args
  | method c m args => c.mentions ++ .member m :: mentionsAll args
  | closure params result lets value =>
    (if result = .series ∨ params.any (·.2 == .series) then [.path ["Series"]] else []) ++
      params.map (.name ·.1) ++ mentionsLets lets ++ value.mentions

def mentionsAll : List Code → List Mention
  | [] => []
  | c :: rest => c.mentions ++ mentionsAll rest

def mentionsLets : List (String × Code) → List Mention
  | [] => []
  | (x, c) :: rest => .name x :: c.mentions ++ mentionsLets rest

end

theorem mentionsAll_eq (cs : List Code) : mentionsAll cs = cs.flatMap mentions := by
  induction cs with
  | nil => rw [mentionsAll]; rfl
  | cons c rest ih => rw [mentionsAll, ih, flatMap_cons]

theorem mentionsLets_eq (lets : List (String × Code)) :
    mentionsLets lets = lets.flatMap fun l => .name l.1 :: l.2.mentions := by
  induction lets with
  | nil => rw [mentionsLets]; rfl
  | cons c rest ih => rw [mentionsLets, ih, flatMap_cons]

attribute [simp] mentions mentionsAll_eq mentionsLets_eq

end Code

variable {v : Lowered}

theorem Lowered.mem_mentions_bindable {m : Mention} (h : m ∈ v.bindable.code.mentions) :
    m ∈ v.code.mentions ∨ m = .member "clone" := by
  unfold bindable at h
  split at h
  · next hplace => simpa [owned, hplace.1, hplace.2] using h
  · exact .inl h

@[simp] theorem Need.mem_indicators {needs : List Need} {q : String} :
    q ∈ indicators needs ↔ .indicator q ∈ needs := by
  rw [indicators, Text.mem_sortedOnce, mem_filterMap]
  constructor
  · rintro ⟨n, hn, hq⟩
    split at hq
    · rwa [← Option.some.inj hq]
    · cases hq
  · exact fun h => ⟨_, h, rfl⟩

def Need.Listed : Need → Prop
  | .indicator q => ∃ i ∈ Indicator.catalogue, i.qualifiedName = q
  | _ => True

/-- All that the code refers to is granted by what it needs. -/
structure Granted (A : List Need → Mention → Prop) (c : Code) (needs : List Need) : Prop where
  mentions : ∀ m ∈ c.mentions, A needs m
  needs : ∀ n ∈ needs, n.Listed

/-! ## Relations between needs and references -/

/-- A relation between needs and references that allows for all that lowering in a context makes of
the names in `R`. -/
structure Grants (ctx : Context) (R : String → Prop) (A : List Need → Mention → Prop) : Prop where
  mono {needs needs' : List Need} {m : Mention} : needs ⊆ needs' → A needs m → A needs' m
  bars {needs : List Need} : A needs (.name "bars")
  field {needs : List Need} {f : BarField} : .field f ∈ needs → A needs (.name f.name)
  average {needs : List Need} {a : Average} : .average a ∈ needs → A needs (.name a.name)
  barIndex {needs : List Need} : .barIndex ∈ needs → A needs (.name "bar_index")
  member {needs : List Need} {m : String} : isWord m = true → A needs (.member m)
  ops {needs : List Need} {f : String} : isWord f = true → .ops ∈ needs → A needs (.path ["ops", f])
  indicator {needs : List Need} {i : Indicator} : i ∈ Indicator.catalogue →
    .indicator i.qualifiedName ∈ needs → A needs (.path ["ta", i.name])
  series {needs : List Need} {f : String} : isWord f = true → .seriesType ∈ needs → A needs (.path ["Series", f])
  direction {needs : List Need} {f : String} : isWord f = true → .direction ∈ needs →
    A needs (.path ["Direction", f])
  standard {needs : List Need} {head : String} {rest : List String} :
    head = "f64" ∨ head = "std" → (∀ x ∈ rest, isWord x = true) → A needs (.path (head :: rest))
  hidden {needs : List Need} {l : LocalName} : l ∈ ctx.locals → A needs (.name l.emitted)
  bound {needs : List Need} {x : String} {b : Binding} : R x → ctx.scope.lookup? x = some b →
    b.role.isEmitted = true → A needs (.name b.emitted)
  setting {needs : List Need} {x : String} {b : Binding} : R x → ctx.scope.lookup? x = some b →
    b.role.isEmitted = false → A needs (.setting b.emitted)
  default {needs : List Need} {x : String} {b : Binding} {sig : Signature} {p : FunctionParam}
    {c : Code} {m : Mention} : R x → ctx.scope.lookup? x = some b → b.role = .function sig →
    p ∈ sig.params → p.default = some c → m ∈ c.mentions → A needs m

def Usage.naming (R : String → Prop) : Usage :=
  ⟨R, fun _ => True, fun q => ∃ i ∈ Indicator.catalogue, i.qualifiedName = q⟩

theorem Need.listed_of_among {R : String → Prop} {needs : List Need}
    (h : Among (Usage.naming R).indicator needs) : ∀ n ∈ needs, n.Listed := by
  intro n hn
  cases n with
  | indicator q => exact h q hn
  | _ => trivial

section

variable {ctx : Context} {R : String → Prop} {A : List Need → Mention → Prop} {needs : List Need}

theorem Library.granted (hA : Grants ctx R A) {segments : List String}
    (h : Library needs segments) : A needs (.path segments) := by
  cases h with
  | ops hf hneed => exact hA.ops hf hneed
  | indicator hi hneed => exact hA.indicator hi hneed
  | series hf hneed => exact hA.series hf hneed
  | direction hf hneed => exact hA.direction hf hneed
  | standard hhead hrest => exact hA.standard hhead hrest

theorem Code.Made.granted (hA : Grants ctx R A) {c : Code} (h : c.Made ctx (.naming R) needs) :
    ∀ m ∈ c.mentions, A needs m := by
  induction h with
  | bars => simpa using hA.bars
  | field hneed => simpa using hA.field hneed
  | average hneed => simpa using hA.average hneed
  | barIndex hneed => simpa using hA.barIndex hneed
  | hidden hl => simpa using hA.hidden hl
  | bound hx hb hrole => simpa using hA.bound hx hb hrole
  | setting hx hb hrole => simpa using hA.setting hx hb hrole
  | path hpath => simpa using hpath.granted hA
  | number | integer | bool | text => simp
  | widen _ ih | borrow _ ih | group _ ih | unary _ _ ih => exact ih
  | binary _ _ _ ihl ihr => exact forall_mem_append.2 ⟨ihl, ihr⟩
  | choice _ _ _ ihc iha ihb => exact forall_mem_append.2 ⟨forall_mem_append.2 ⟨ihc, iha⟩, ihb⟩
  | method hm _ _ ih ihargs =>
    rw [mentions, mentionsAll_eq]
    refine forall_mem_append.2 ⟨ih, forall_mem_cons.2 ⟨hA.member hm, fun m hmem => ?_⟩⟩
    obtain ⟨a, ha, hmem⟩ := mem_flatMap.1 hmem
    exact ihargs a ha m hmem
  | call hpath _ ihargs =>
    rw [mentions, mentionsAll_eq]
    refine forall_mem_cons.2 ⟨hpath.granted hA, fun m hmem => ?_⟩
    obtain ⟨a, ha, hmem⟩ := mem_flatMap.1 hmem
    exact ihargs a ha m hmem
  | function hcalls _ ihargs =>
    rw [mentions, mentionsAll_eq]
    refine forall_mem_cons.2 ⟨?_, fun m hmem => ?_⟩
    · exact hA.bound hcalls.looked hcalls.lookup (by rw [hcalls.role]; rfl)
    · obtain ⟨a, ha, hmem⟩ := mem_flatMap.1 hmem
      exact ihargs a ha m hmem
  | default hcalls hp hc => exact fun m hm => hA.default hcalls.looked hcalls.lookup hcalls.role hp hc hm

theorem Lowered.Made.granted (hA : Grants ctx R A) {v : Lowered} (h : v.Made ctx (.naming R)) :
    Granted A v.code v.needs :=
  ⟨h.code.granted hA, Need.listed_of_among h.needs⟩

theorem Lowered.Made.bindable_granted (hA : Grants ctx R A)
    (h : v.Made ctx (.naming R)) : Granted A v.bindable.code v.needs := by
  simpa using h.bindable.granted hA

namespace Lowering

theorem expression_naming {arity : Option Nat} {e : Expr} (hR : ∀ x ∈ e.references, R x)
    (h : expression ctx arity e = .ok v) : v.Made ctx (.naming R) :=
  expression_made hR (fun _ _ => trivial) (fun i hi => ⟨i, hi, rfl⟩) h

theorem parameterArgument_granted (hA : Grants ctx R A) (hv : v.Made ctx (.naming R))
    {kind : ValueKind} {span : Span} {what : String} {y : Code × List Need}
    (h : v.parameterArgument kind span what = .ok y) : Granted A y.1 (v.needs ++ y.2) := by
  have hy := parameterArgument_made hv h
  exact ⟨hy.code.granted hA, Need.listed_of_among (Need.among_append.2 ⟨hv.needs, hy.needs⟩)⟩

end Lowering

end

end ChartScript
