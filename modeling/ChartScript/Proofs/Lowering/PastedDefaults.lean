import ChartScript.Proofs.Lowering.Placement
import ChartScript.Proofs.Lowering.Scoping
/-!
# Defaults where they are used

The default of a parameter is lowered once, where the function is declared, and its code is pasted into
every call that leaves the parameter out.
-/
namespace ChartScript

open List

def referent (lets : List Let) (locals : List LocalName) (n : String) : Nat :=
  if locals.any (·.emitted == n) then 0 else (lets.reverse.dropWhile (·.emitted != n)).length

variable {n x : String} {lets more : List Let} {locals : List LocalName}

theorem referent_eq_zero : referent lets [] n = 0 ↔ ∀ le ∈ lets, le.emitted ≠ n := by
  simp only [referent, any_nil, Bool.false_eq_true, if_false, length_eq_zero_iff, dropWhile_eq_nil_iff]
  simp

theorem referent_append : referent (lets ++ more) [] n = referent lets [] n ↔ ∀ le ∈ more, le.emitted ≠ n := by
  have hle : (lets.reverse.dropWhile (·.emitted != n)).length ≤ lets.length :=
    (dropWhile_suffix _).length_le.trans_eq length_reverse
  rw [← referent_eq_zero]
  simp only [referent, any_nil, Bool.false_eq_true, if_false, reverse_append, dropWhile_append]
  split
  · next hempty => simp [List.isEmpty_iff.1 hempty]
  · next hmore =>
    have hpos := length_pos_iff.2 fun hnil => hmore (List.isEmpty_iff.2 hnil)
    rw [length_append, length_reverse]
    omega

namespace Scope

def functions (scope : Scope) : List (String × Signature) :=
  scope.bindings.filterMap fun b =>
    match b.role with
    | .function sig => some (b.name, sig)
    | _ => none

end Scope

namespace Lowering

variable {s : Script} {inputs : List InputField} {r r' : Progress} {scope scope' : Scope} {sig : Signature}

/-! ## Functions and where they are declared -/

/-- The scope and the items that lowering a script reaches. -/
inductive Reached (s : Script) (inputs : List InputField) : Progress → Prop
  | start {scope : Scope} : s.inputs.foldlM addInput ({}, []) = .ok (scope, inputs) →
      Reached s inputs { scope := scope }
  | step {r r' : Progress} : Reached s inputs r → Step s r r' → Reached s inputs r'

/-- The item is that of a function, which is lowered in the scope. -/
def Declares (s : Script) (scope : Scope) (item : LoweredItem) (x : String) (sig : Signature) : Prop :=
  ∃ i f, item.key = .function i ∧ s.functions[i]? = some f ∧ f.name = x ∧
    function s scope f = .ok (item.value, sig)

theorem declareAll_functions (scope : Scope) (names : List String) :
    (declareAll scope names).2.functions = scope.functions := by
  induction names generalizing scope with
  | nil => rfl
  | cons x rest ih =>
    refine (ih _).trans ?_
    simp [Scope.functions]

theorem assigned_functions {d : VarDecl} {pattern : Pattern} {v : Lowered}
    (h : Assigned s scope d pattern v scope') : scope'.functions = scope.functions := by
  cases h with
  | declared => simp [Scope.functions, Scope.declare]
  | unpacked => exact declareAll_functions _ _
  | reassigned => simp [Scope.functions]

theorem inputs_functions (h : s.inputs.foldlM addInput ({}, []) = .ok (scope, inputs)) : scope.functions = [] := by
  refine foldlM_keeps (p := fun r : Scope × List InputField => r.1.functions = []) (fun r d r' hstep hr => ?_) h rfl
  obtain ⟨_, _, rfl⟩ := bind_pure_eq_ok.1 hstep
  simpa [Scope.functions, Scope.declare] using hr

theorem step_items (h : Step s r r') : ∃ item : Option LoweredItem, r'.items = r.items ++ item.toList ∧
    r.scope.Binds (item.toList.flatMap (·.lets s)) r'.scope ∧
    ∀ x sig, (x, sig) ∈ r'.scope.functions → (x, sig) ∈ r.scope.functions ∨
      ∃ own, item = some own ∧ Declares s r.scope own x sig := by
  cases h with
  | assignment hd hv =>
    have hassigned := assigned_of_assignment hv
    refine ⟨some _, rfl, ?_, fun x sig hx => .inl (assigned_functions hassigned ▸ hx)⟩
    rw [Option.toList_some, flatMap_singleton]
    exact (assignment_placed hd _ hassigned).binds
  | @function i f out hf hout =>
    refine ⟨some _, rfl, ?_, fun x sig hx => ?_⟩
    · rw [Option.toList_some, flatMap_singleton]
      exact (function_placed hf _ hout).binds
    · have hfunctions : (r.scope.declare f.name (.function out.2)).2.functions =
          r.scope.functions ++ [(f.name, out.2)] := by simp [Scope.functions, Scope.declare]
      rcases mem_append.1 (hfunctions ▸ hx) with hx | hx
      · exact .inl hx
      · cases mem_singleton.1 hx
        exact .inr ⟨_, rfl, i, f, rfl, hf, rfl, hout⟩
  | hoisted hkey _ hv =>
    obtain ⟨_, _, _, rfl, rfl⟩ := hoist_eq_ok hv
    refine ⟨some _, rfl, ?_, fun x sig hx => .inl hx⟩
    rw [Option.toList_some, flatMap_singleton, hoisted_lets hkey]
    exact .fresh _ .nil
  | plotted => exact ⟨some _, rfl, .nil, fun x sig hx => .inl hx⟩
  | directed => exact ⟨none, (append_nil _).symm, .nil, fun x sig hx => .inl hx⟩

theorem Reached.binds (h : Reached s inputs r) : ({} : Scope).Binds (letsBefore s inputs r.items) r.scope := by
  induction h with
  | start hinputs => simpa [letsBefore] using (inputs_read hinputs).binds
  | step _ hstep ih =>
    obtain ⟨item, hitems, hbinds, -⟩ := step_items hstep
    rw [hitems, letsBefore, flatMap_append, ← append_assoc]
    exact ih.trans hbinds

theorem Reached.declared (h : Reached s inputs r) (hx : (x, sig) ∈ r.scope.functions) :
    ∃ r₀ item between, Reached s inputs r₀ ∧ r.items = r₀.items ++ item :: between ∧
      Declares s r₀.scope item x sig := by
  induction h with
  | start hinputs =>
    rw [inputs_functions hinputs] at hx
    cases hx
  | @step r r' hr hstep ih =>
    obtain ⟨item, hitems, -, hfunctions⟩ := step_items hstep
    rcases hfunctions x sig hx with hold | ⟨own, rfl, hdeclares⟩
    · obtain ⟨r₀, item₀, between, hr₀, hsplit, hdeclares⟩ := ih hold
      exact ⟨r₀, item₀, between ++ item.toList, hr₀, by simp [hitems, hsplit], hdeclares⟩
    · exact ⟨r, own, [], hr, hitems, hdeclares⟩

theorem reached_of_split {l : LoweredScript} (h : script s = .ok l) {before after : List LoweredItem}
    {item : LoweredItem} (hsplit : l.items = before ++ item :: after) :
    ∃ r r', Reached s l.inputs r ∧ r.items = before ∧ Step s r r' ∧ r'.items = before ++ [item] := by
  obtain ⟨r, hr, hitems, -⟩ := script_keeps (fun hstep hr => hr.step hstep) h fun _ => Reached.start
  rw [← hitems] at hsplit
  clear hitems h
  induction hr generalizing after with
  | start => simp at hsplit
  | @step r r' hr hstep ih =>
    obtain ⟨own, hown, -⟩ := step_items hstep
    cases own with
    | none => exact ih (by rw [← hsplit, hown, Option.toList_none, append_nil])
    | some own =>
      rw [hown, Option.toList_some] at hsplit
      rcases eq_nil_or_concat after with rfl | ⟨rest, last, rfl⟩
      · obtain ⟨hbefore, hitem⟩ := append_inj' hsplit rfl
        cases hitem
        exact ⟨r, r', hr, hbefore, hstep, by rw [hown, hbefore, Option.toList_some]⟩
      · have hlast : r.items ++ [own] = (before ++ item :: rest) ++ [last] := by simpa using hsplit
        exact ih (append_inj' hlast rfl).1

/-! ## Defaults -/

/-- A default, pasted behind `before` among `locals`, of a function that was declared behind `r`, where
its names are those of the scope. A name means the same here and there unless a local has taken it or the
variable got a new value among the items between. -/
structure Pasted (s : Script) (inputs : List InputField) (before : List LoweredItem) (locals : List LocalName)
    (r : Progress) (between : List LoweredItem) (c : Code) : Prop where
  named : ∀ n, .name n ∈ c.mentions → n ∈ ambientNames ∨ r.scope.Gives (fun _ => True) n
  denotes : ∀ x b, r.scope.lookup? x = some b → b.role.isEmitted = true →
    Let.Denotes (letsBefore s inputs r.items) b.emitted x
  same_iff : ∀ x b, r.scope.lookup? x = some b → b.role.isEmitted = true →
    (referent (letsBefore s inputs before) locals b.emitted =
      referent (letsBefore s inputs r.items) [] b.emitted ↔
      (∀ l ∈ locals, l.emitted ≠ b.emitted) ∧ ⟨b.emitted, some x, true⟩ ∉ between.flatMap (·.lets s))

/-- Calls that leave out a parameter with a default pass the code of the declaration. -/
def PastesDefaults (s : Script) (inputs : List InputField) (r : Progress) : Prop :=
  ∀ (locals : List LocalName) (span calleeSpan : Span) (x emitted : String) (args : List (Argument Expr))
    (v : Lowered) (sig : Signature) (j : Nat) (p : FunctionParam) (c : Code),
    functionOf? ⟨r.scope, locals⟩ (.plain x) = some (emitted, sig) →
    lower ⟨r.scope, locals⟩ (.call span (.plain x) calleeSpan args) = .ok v →
    sig.params[j]? = some p → p.default = some c → (functionSlots sig args)[j]? = some none →
    (∃ codes, v.code = .call (.name emitted) codes ∧ codes[j]? = some c) ∧
    ∃ r₀ item between, Reached s inputs r₀ ∧ r.items = r₀.items ++ item :: between ∧
      Declares s r₀.scope item x sig ∧ Pasted s inputs r.items locals r₀ between c

theorem mem_functions {ctx : Context} {emitted : String} (h : functionOf? ctx (.plain x) = some (emitted, sig)) :
    (x, sig) ∈ ctx.scope.functions := by
  simp only [functionOf?] at h
  split at h
  · next hlookup =>
    cases h
    obtain ⟨hmem, hname⟩ := Scope.lookup?_mem hlookup
    exact mem_filterMap.2 ⟨_, hmem, by simp [← hname]⟩
  · cases h

variable {r₀ : Progress} {item : LoweredItem} {between : List LoweredItem} {p : FunctionParam} {c : Code}

theorem again_iff (hr : Reached s inputs r) (hr₀ : Reached s inputs r₀)
    (hsplit : r.items = r₀.items ++ item :: between) (hitem : Declares s r₀.scope item x sig) {y : String}
    {b : Binding} (hb : r₀.scope.lookup? y = some b) (hrole : b.role.isEmitted = true) :
    (∀ le ∈ (item :: between).flatMap (·.lets s), le.emitted ≠ b.emitted) ↔
      ⟨b.emitted, some y, true⟩ ∉ between.flatMap (·.lets s) := by
  have hshadows := hr.binds.scoped.shadows
  rw [hsplit, letsBefore, flatMap_append, ← append_assoc] at hshadows
  obtain ⟨before, first, after, hlets, hemitted, hname, -⟩ := hr₀.binds.scoped.denotes hb hrole
  have hfirst : first ∈ letsBefore s inputs r₀.items := by simp [hlets]
  have hagain : ∀ le ∈ (item :: between).flatMap (·.lets s), le.emitted = b.emitted →
      le = ⟨b.emitted, some y, true⟩ := fun le hle heq => by
    obtain ⟨hagain, z, hz, hz'⟩ := (pairwise_append.1 hshadows).2.2 first hfirst le hle (hemitted.trans heq.symm)
    rw [hname] at hz
    cases hz
    obtain ⟨_, _, _⟩ := le
    cases heq
    cases hagain
    cases hz'
    rfl
  constructor
  · exact fun h hmem => h _ (mem_append_right _ hmem) rfl
  · intro h le hle heq
    rw [hagain le hle heq] at hle
    rcases mem_append.1 hle with hown | hlater
    · obtain ⟨i, f, hkey, hf, -⟩ := hitem
      simp [LoweredItem.lets, hkey, hf] at hown
    · exact h hlater

theorem pasted (hr : Reached s inputs r) (hr₀ : Reached s inputs r₀)
    (hsplit : r.items = r₀.items ++ item :: between) (hitem : Declares s r₀.scope item x sig)
    (hp : p ∈ sig.params) (hc : p.default = some c) : Pasted s inputs r.items locals r₀ between c where
  named n hn := by
    obtain ⟨i, f, -, -, -, hf⟩ := hitem
    exact names_of_signature hf hp hc hn
  denotes y b hb hrole := hr₀.binds.scoped.denotes hb hrole
  same_iff y b hb hrole := by
    obtain ⟨le, hle, heq⟩ := (hr₀.binds.scoped.denotes hb hrole).mem
    have hbound : referent (letsBefore s inputs r₀.items) [] b.emitted ≠ 0 := fun hzero =>
      referent_eq_zero.1 hzero le hle heq
    have hlets : letsBefore s inputs r.items =
        letsBefore s inputs r₀.items ++ (item :: between).flatMap (·.lets s) := by
      rw [hsplit, letsBefore, letsBefore, flatMap_append, append_assoc]
    by_cases hlocal : locals.any (·.emitted == b.emitted) = true
    · refine iff_of_false ?_ fun h => ?_
      · rw [referent, if_pos hlocal]
        exact hbound.symm
      · obtain ⟨l, hl, heq⟩ := any_eq_true.1 hlocal
        exact h.1 l hl (eq_of_beq heq)
    · have hfree : ∀ l ∈ locals, l.emitted ≠ b.emitted := by simpa using hlocal
      have hnone : referent (letsBefore s inputs r.items) locals b.emitted =
          referent (letsBefore s inputs r.items) [] b.emitted := by
        rw [referent, referent, if_neg hlocal]
        rfl
      rw [hnone, hlets, referent_append, again_iff hr hr₀ hsplit hitem hb hrole]
      exact (and_iff_right hfree).symm

theorem default_passed {function : String} {span : Span} {params : List FunctionParam}
    {slots : List (Option Actual)} {lowered : List (Code × List Need)} {j : Nat}
    (h : (params.zip slots).mapM (fun x => functionArgument function span x.1 x.2) = .ok lowered)
    (hp : params[j]? = some p) (hc : p.default = some c) (hslot : slots[j]? = some none) :
    (lowered.map (·.1))[j]? = some c := by
  have hall := forall₂_of_mapM h
  have hzip : (params.zip slots)[j]? = some (p, none) := getElem?_zip_eq_some.2 ⟨hp, hslot⟩
  obtain ⟨hj, heq⟩ := List.getElem?_eq_some_iff.1 hzip
  have hrun := hall.get hj (hall.length_eq ▸ hj)
  rw [get_eq_getElem, heq] at hrun
  simp only [functionArgument, hc, Except.ok.injEq] at hrun
  rw [getElem?_map, getElem?_eq_getElem (hall.length_eq ▸ hj)]
  exact congrArg (fun y : Code × List Need => some y.1) hrun.symm

/-- In a script that is lowered, a default keeps the meaning that it has where its function is declared in
all calls but those within functions that have taken one of its names, and those behind a new value for
one of its variables. -/
theorem defaults_pasted {l : LoweredScript} (h : script s = .ok l) {before after : List LoweredItem}
    (hsplit : l.items = before ++ item :: after) :
    ∃ r r', Reached s l.inputs r ∧ r.items = before ∧ Step s r r' ∧ r'.items = before ++ [item] ∧
      PastesDefaults s l.inputs r := by
  obtain ⟨r, r', hr, hbefore, hstep, hitems⟩ := reached_of_split h hsplit
  refine ⟨r, r', hr, hbefore, hstep, hitems, ?_⟩
  intro locals span calleeSpan x emitted args v sig j p c hfunction hcall hp hc hslot
  obtain ⟨y, hrun⟩ := call_of_function hfunction
  rw [lower, hrun] at hcall
  obtain ⟨-, lowered, hlowered, rfl⟩ := functionCall_eq_ok_iff.1 hcall
  obtain ⟨r₀, own, between, hr₀, hown, hdeclares⟩ := hr.declared (mem_functions hfunction)
  refine ⟨⟨_, rfl, default_passed hlowered hp hc ?_⟩, r₀, own, between, hr₀, hown, hdeclares,
    pasted hr hr₀ hown hdeclares (mem_of_getElem? hp) hc⟩
  rw [lowerArguments_eq_map, functionSlots_map, getElem?_map, hslot]
  rfl

def reboundSource : List Char :=
  ("//@version=5\nindicator(\"S\")\n" ++
   "x = close\n" ++
   "z = open\n" ++
   "f(a = x, b = z) => a + b\n" ++
   "x := high\n" ++
   "y = f()\n").toList

def seen (s : Script) (inputs : List InputField) (items : List LoweredItem) : List String × List (List Nat) :=
  ((items.drop 4).map (·.value.code.render),
    [2, 4].map fun k => ["x", "z"].map (referent (letsBefore s inputs (items.take k)) []))

theorem rebound_lowered : ∃ s l, Script.parse reboundSource = .ok s ∧ script s = .ok l ∧
    seen s l.inputs l.items = (["f(&x, &z)"], [[1, 2], [4, 2]]) := by
  have hrun : ∃ s, Script.parse reboundSource = .ok s ∧ ∃ l, script s = .ok l ∧
      seen s l.inputs l.items = (["f(&x, &z)"], [[1, 2], [4, 2]]) := by
    decide +kernel
  obtain ⟨s, hs, l, hl, hseen⟩ := hrun
  exact ⟨s, l, hs, hl, hseen⟩

theorem defaults_pasted_rebound : ∃ s l before item, Script.parse reboundSource = .ok s ∧ script s = .ok l ∧
    l.items = before ++ [item] ∧ item.value.code.render = "f(&x, &z)" ∧
    ∃ r r', Reached s l.inputs r ∧ r.items = before ∧ Step s r r' ∧ r'.items = before ++ [item] ∧
      PastesDefaults s l.inputs r := by
  obtain ⟨s, l, hs, hl, hseen⟩ := rebound_lowered
  obtain ⟨item, hlast, hrender⟩ := map_eq_singleton_iff.1 (congrArg Prod.fst hseen)
  have hsplit : l.items = l.items.take 4 ++ [item] := by rw [← hlast, take_append_drop]
  exact ⟨s, l, _, item, hs, hl, hsplit, hrender, defaults_pasted hl hsplit⟩

/-- The default of `a` is the variable `x` of the first let, but in the call it stands for that of the
fourth. -/
theorem default_of_new_value : ∃ s l, Script.parse reboundSource = .ok s ∧ script s = .ok l ∧
    (l.items.drop 4).map (·.value.code.render) = ["f(&x, &z)"] ∧
    referent (letsBefore s l.inputs (l.items.take 2)) [] "x" = 1 ∧
    referent (letsBefore s l.inputs (l.items.take 4)) [] "x" = 4 := by
  obtain ⟨s, l, hs, hl, hseen⟩ := rebound_lowered
  simp only [seen, map_cons, map_nil, Prod.mk.injEq, cons.injEq, and_true] at hseen
  obtain ⟨hcode, ⟨hbefore, -⟩, hcall, -⟩ := hseen
  exact ⟨s, l, hs, hl, hcode, hbefore, hcall⟩

end Lowering

end ChartScript
