import ChartScript.Proofs.Lowering.Mentions
/-!
# The lets of emitted code

A scope grows together with the lets that are emitted: a declaration and a value that is hoisted
each get a name that no let before them has, and only a name that is given a new value has its
emitted name bound once more.
-/
namespace ChartScript

open List

/-- A `let` of emitted code. -/
structure Let where
  emitted : String
  /-- The name of the script that it is for. Values that are hoisted have none. -/
  name : Option String
  /-- It gives the name a new value. -/
  again : Bool
deriving DecidableEq, Repr

variable {lets : List Let} {n x : String} {s scope t : Scope} {R : String → Prop}

namespace Let

def pair? (le : Let) : Option (String × String) :=
  le.name.map (·, le.emitted)

/-- If two lets bind one name, the later one gives it a new value. -/
def Shadows (earlier later : Let) : Prop :=
  earlier.emitted = later.emitted → later.again = true ∧ ∃ x, earlier.name = some x ∧ later.name = some x

def Denotes (lets : List Let) (n x : String) : Prop :=
  ∃ before le after, lets = before ++ le :: after ∧ le.emitted = n ∧ le.name = some x ∧
    ∀ later ∈ after, later.emitted ≠ n ∧ later.name ≠ some x

theorem Denotes.mem (h : Denotes lets n x) : ∃ le ∈ lets, le.emitted = n := by
  obtain ⟨before, le, after, rfl, hn, _⟩ := h
  exact ⟨le, by simp, hn⟩

end Let

def ambientNames : List String :=
  "bars" :: seriesNames

namespace Scope

def emittedNames (s : Scope) : List (String × String) :=
  (s.bindings.filter (·.role.isEmitted)).map fun b => (b.name, b.emitted)

/-- The emitted name `n` comes from a name that `R` allows: the name is emitted as `n`, or it is a
function that has `n` in the default of a parameter. -/
inductive Gives (scope : Scope) (R : String → Prop) (n : String) : Prop
  | name {x : String} {b : Binding} : R x → scope.lookup? x = some b → b.role.isEmitted = true →
      b.emitted = n → Gives scope R n
  | default {x : String} {b : Binding} {sig : Signature} {p : FunctionParam} {c : Code} : R x →
      scope.lookup? x = some b → b.role = .function sig → p ∈ sig.params → p.default = some c →
      .name n ∈ c.mentions → Gives scope R n

theorem Gives.imp {R' : String → Prop} (h : scope.Gives R n) (hR : ∀ x, R x → R' x) : scope.Gives R' n := by
  cases h with
  | name hx hb hrole hn => exact .name (hR _ hx) hb hrole hn
  | default hx hb hrole hp hc hn => exact .default (hR _ hx) hb hrole hp hc hn

theorem lookup?_congr (h : s.bindings = t.bindings) : s.lookup? = t.lookup? := by
  funext x
  rw [lookup?, lookup?, h]

theorem Gives.congr (h : s.bindings = t.bindings) (hs : s.Gives R n) : t.Gives R n := by
  cases hs with
  | name hx hb hrole hn => exact .name hx (lookup?_congr h ▸ hb) hrole hn
  | default hx hb hrole hp hc hn => exact .default hx (lookup?_congr h ▸ hb) hrole hp hc hn

end Scope

namespace Lowering

theorem grants_names (scope : Scope) (R : String → Prop) :
    Grants ⟨scope, []⟩ R fun _ m => ∀ n, m = .name n → n ∈ ambientNames ∨ scope.Gives R n where
  mono _ h := h
  bars := by rintro _ _ ⟨⟩; exact .inl (by decide)
  field := by rintro _ f _ _ ⟨⟩; exact .inl (by cases f <;> decide)
  average := by rintro _ a _ _ ⟨⟩; exact .inl (by cases a <;> decide)
  barIndex := by rintro _ _ _ ⟨⟩; exact .inl (by decide)
  member := by rintro _ _ _ _ ⟨⟩
  ops := by rintro _ _ _ _ _ ⟨⟩
  indicator := by rintro _ _ _ _ _ ⟨⟩
  series := by rintro _ _ _ _ _ ⟨⟩
  direction := by rintro _ _ _ _ _ ⟨⟩
  standard := by rintro _ _ _ _ _ _ ⟨⟩
  hidden := by rintro _ _ ⟨⟩
  bound := by rintro _ _ b hx hb hrole _ ⟨⟩; exact .inr (.name hx hb hrole rfl)
  setting := by rintro _ _ _ _ _ _ _ ⟨⟩
  default := by
    rintro _ _ _ _ _ _ _ hx hb hrole hp hc hm _ rfl
    exact .inr (.default hx hb hrole hp hc hm)

theorem names_of_expression {arity : Option Nat} {e : Expr} {v : Lowered}
    (h : expression ⟨scope, []⟩ arity e = .ok v) (hn : .name n ∈ v.code.mentions) :
    n ∈ ambientNames ∨ scope.Gives (· ∈ e.references) n :=
  ((expression_naming (fun _ hx => hx) h).granted (grants_names scope _)).mentions _ hn n rfl

theorem names_of_default {s : Script} {p : FuncParam} {kind : ValueKind} {c : Code}
    {needs : List Need} (h : parameterDefault s scope p kind = .ok (some c, needs))
    (hn : .name n ∈ c.mentions) : n ∈ ambientNames ∨ scope.Gives (fun _ => True) n := by
  unfold parameterDefault at h
  split at h
  · cases h
  · obtain ⟨v, hv, h⟩ := bind_eq_ok.1 h
    obtain ⟨⟨c', needs'⟩, hc, h⟩ := bind_eq_ok.1 h
    cases pure_eq_ok.1 h
    obtain ⟨e, _, hv⟩ := bind_eq_ok.1 hv
    have hgranted := parameterArgument_granted (grants_names scope fun _ => True)
      (expression_naming (fun _ _ => trivial) hv) hc
    exact hgranted.mentions _ hn n rfl

theorem names_of_signature {s : Script} {f : FuncDecl} {out : Lowered × Signature}
    (h : function s scope f = .ok out) {p : FunctionParam} (hp : p ∈ out.2.params) {c : Code}
    (hc : p.default = some c) (hn : .name n ∈ c.mentions) : n ∈ ambientNames ∨ scope.Gives (fun _ => True) n := by
  obtain ⟨exprs, r₀, r, _, _, _, hr₀, _, hr, _, _, _, _, hsignature⟩ := function_eq_ok h
  have hparams : ∀ p ∈ r₀.params, ∀ c, p.default = some c → .name n ∈ c.mentions →
      n ∈ ambientNames ∨ scope.Gives (fun _ => True) n := by
    refine foldlM_keeps (p := fun r : FunctionProgress => ∀ p ∈ r.params, ∀ c,
      p.default = some c → .name n ∈ c.mentions → n ∈ ambientNames ∨ scope.Gives (fun _ => True) n)
      (fun r q r' hstep hr p hp c hc hn => ?_) hr₀ (by simp)
    obtain ⟨⟨default, needs⟩, hdefault, hstep⟩ := bind_eq_ok.1 hstep
    cases pure_eq_ok.1 hstep
    rcases mem_append.1 hp with hp | hp
    · exact hr p hp c hc hn
    · rw [mem_singleton.1 hp] at hc
      subst hc
      exact names_of_default hdefault hn
  have hlines : r.params = r₀.params := foldlM_keeps (p := fun r : FunctionProgress => r.params = r₀.params)
      (fun _ _ _ hstep hkeep => by
        rcases addAssignment_eq_ok hstep with ⟨_, rfl⟩ | ⟨_, _, _, _, _, hparams, _⟩
        · exact hkeep
        · exact hparams.trans hkeep) hr rfl
  rw [hsignature] at hp
  exact hparams p (hlines ▸ hp) c hc hn

end Lowering

namespace Scope

/-! ## Lets along a scope -/

/-- Lets that take one scope to another. -/
inductive Binds (s : Scope) : List Let → Scope → Prop
  | nil : Binds s [] s
  /-- A parameter of the script that is no series has no let. -/
  | setting {lets : List Let} {t : Scope} (x : String) {kind : InputKind} : Binds s lets t →
      kind ≠ .source → Binds s lets (t.declare x (.input kind)).2
  | declare {lets : List Let} {t : Scope} (x : String) {role : Role} : Binds s lets t → role.isEmitted = true →
      (∀ sig, role = .function sig → ∀ p ∈ sig.params, ∀ c, p.default = some c →
        ∀ n, .name n ∈ c.mentions → n ∈ ambientNames ∨ t.Gives (fun _ => True) n) →
      Binds s (lets ++ [⟨(t.declare x role).1, some x, false⟩]) (t.declare x role).2
  | again {lets : List Let} {t : Scope} {x : String} {b : Binding} {kind : ValueKind}
      (kind' : ValueKind) : Binds s lets t → t.lookup? x = some b → b.role = .value kind →
      Binds s (lets ++ [⟨b.emitted, some x, true⟩])
        { t with bindings := t.bindings ++ [⟨x, b.emitted, .value kind'⟩] }
  | fresh {lets : List Let} {t : Scope} (base : String) : Binds s lets t →
      Binds s (lets ++ [⟨(t.fresh base).1, none, false⟩]) (t.fresh base).2

theorem Binds.trans {u : Scope} {lets' : List Let} (h : Binds s lets t) (h' : Binds t lets' u) :
    Binds s (lets ++ lets') u := by
  induction h' with
  | nil => simpa using h
  | setting x _ hkind ih => exact .setting x ih hkind
  | declare x _ hrole hdefaults ih =>
    rw [← append_assoc]
    exact .declare x ih hrole hdefaults
  | again kind' _ hb hrole ih =>
    rw [← append_assoc]
    exact .again kind' ih hb hrole
  | fresh base _ ih =>
    rw [← append_assoc]
    exact .fresh base ih

theorem Binds.not_taken (h : Binds s lets t) (hs : ∀ b ∈ s.bindings, ∀ kind, b.role ≠ .value kind) :
    s.taken ⊆ t.taken ∧ (∀ le ∈ lets, le.emitted ∉ s.taken) ∧ ∀ b ∈ t.bindings, ∀ kind, b.role = .value kind →
    b.emitted ∉ s.taken := by
  induction h with
  | nil => exact ⟨fun _ hx => hx, by simp, fun b hb kind hrole => absurd hrole (hs b hb kind)⟩
  | setting x _ _ ih =>
    obtain ⟨htaken, hlets, hbindings⟩ := ih
    refine ⟨fun n hn => mem_cons_of_mem _ (htaken hn), hlets, forall_mem_concat hbindings fun k hrole => ?_⟩
    cases hrole
  | @declare _ t x role _ _ _ ih =>
    obtain ⟨htaken, hlets, hbindings⟩ := ih
    have hnew : (t.declare x role).1 ∉ s.taken := fun hn => EmittedName.unique_not_mem _ _ (htaken hn)
    exact ⟨fun n hn => mem_cons_of_mem _ (htaken hn), forall_mem_concat hlets hnew,
      forall_mem_concat hbindings fun _ _ => hnew⟩
  | @again _ t x b kind _ _ hb hrole ih =>
    obtain ⟨htaken, hlets, hbindings⟩ := ih
    have hold : b.emitted ∉ s.taken := hbindings b (lookup?_mem hb).1 kind hrole
    exact ⟨htaken, forall_mem_concat hlets hold, forall_mem_concat hbindings fun _ _ => hold⟩
  | fresh base _ ih =>
    obtain ⟨htaken, hlets, hbindings⟩ := ih
    exact ⟨fun n hn => mem_cons_of_mem _ (htaken hn),
      forall_mem_concat hlets fun hn => EmittedName.numbered_not_mem _ _ (htaken hn), hbindings⟩

/-! ## What holds behind lets -/

/-- The lets so far and the scope so far fit together. -/
structure Scoped (lets : List Let) (s : Scope) : Prop where
  grows : ({} : Scope).Grows s
  named : lets.filterMap Let.pair? = s.emittedNames
  taken : ∀ le ∈ lets, le.emitted ∈ s.taken
  hoisted : ∀ le ∈ lets, le.name = none → ∀ b ∈ s.bindings, b.emitted ≠ le.emitted
  shadows : lets.Pairwise Let.Shadows
  defaults : ∀ b ∈ s.bindings, ∀ sig, b.role = .function sig → ∀ p ∈ sig.params,
    ∀ c, p.default = some c → ∀ n, .name n ∈ c.mentions → n ∈ ambientNames ∨ ∃ le ∈ lets, le.emitted = n

namespace Scoped

variable {lets : List Let} {s : Scope} {b : Binding}

theorem name_eq (h : Scoped lets s) {le : Let} (hle : le ∈ lets) (hb : b ∈ s.bindings)
    (heq : le.emitted = b.emitted) : le.name = some b.name := by
  cases hname : le.name with
  | none => exact absurd heq.symm (h.hoisted le hle hname b hb)
  | some y =>
    have hpair : (y, le.emitted) ∈ s.emittedNames := by
      rw [← h.named]
      exact mem_filterMap.2 ⟨le, hle, by simp [Let.pair?, hname]⟩
    obtain ⟨b', hb', hpair⟩ := mem_map.1 hpair
    obtain ⟨rfl, hemitted⟩ := Prod.mk.inj hpair
    have := h.grows.keptApart.inj _ (mem_map_of_mem (mem_filter.1 hb').1) _ (mem_map_of_mem hb) (hemitted.trans heq)
    rw [show b'.name = b.name from this]

theorem denotes (h : Scoped lets s) (hb : s.lookup? x = some b) (hrole : b.role.isEmitted = true) :
    Let.Denotes lets b.emitted x := by
  obtain ⟨hmem, hx⟩ := lookup?_mem hb
  obtain ⟨hpx, later, earlier, hsplit, hlast⟩ := find?_eq_some_iff_append.1 hb
  have hbindings : s.bindings = earlier.reverse ++ b :: later.reverse := by
    have := congrArg List.reverse hsplit
    simpa using this
  have hnamed := h.named
  rw [emittedNames, hbindings, filter_append, filter_cons, if_pos hrole, map_append, map_cons] at hnamed
  obtain ⟨before, rest, rfl, _, hrest⟩ := filterMap_eq_append_iff.1 hnamed
  obtain ⟨unnamed, le, after, rfl, hunnamed, hpair, hafter⟩ := filterMap_eq_cons_iff.1 hrest
  obtain ⟨y, hy, hpairs⟩ := Option.map_eq_some_iff.1 hpair
  obtain ⟨rfl, hemitted⟩ := Prod.mk.inj hpairs
  refine ⟨before ++ unnamed, le, after, by simp, hemitted, by rw [hy, hx], fun le' hle' => ?_⟩
  have hname : le'.name ≠ some x := by
    intro hname
    have hpair' : (x, le'.emitted) ∈ after.filterMap Let.pair? :=
      mem_filterMap.2 ⟨le', hle', by simp [Let.pair?, hname]⟩
    rw [hafter] at hpair'
    obtain ⟨b', hb', heq⟩ := mem_map.1 hpair'
    have hbefore := hlast b' (mem_reverse.1 (mem_filter.1 hb').1)
    rw [(Prod.mk.inj heq).1] at hbefore
    simp at hbefore
  refine ⟨fun heq => hname ?_, hname⟩
  rw [← hx]
  exact h.name_eq (by simp [hle']) hmem heq

theorem bound_of_gives (h : Scoped lets s) (hn : s.Gives R n) : n ∈ ambientNames ∨ ∃ le ∈ lets, le.emitted = n := by
  cases hn with
  | name _ hb hrole heq =>
    subst heq
    exact .inr (h.denotes hb hrole).mem
  | default _ hb hrole hp hc hn => exact h.defaults _ (lookup?_mem hb).1 _ hrole _ hp _ hc _ hn

theorem nil : Scoped [] {} where
  grows := .refl
  named := rfl
  taken := by simp
  hoisted := by simp
  shadows := .nil
  defaults := by simp

theorem setting (h : Scoped lets s) (x : String) {kind : InputKind} (hkind : kind ≠ .source) :
    Scoped lets (s.declare x (.input kind)).2 where
  grows := .declare x _ h.grows
  named := by simp [h.named, emittedNames, Scope.declare, Role.isEmitted, hkind]
  taken le hle := mem_cons_of_mem _ (h.taken le hle)
  hoisted le hle hname := forall_mem_concat (h.hoisted le hle hname) fun heq =>
    EmittedName.unique_not_mem _ _ (heq ▸ h.taken le hle)
  shadows := h.shadows
  defaults := forall_mem_concat h.defaults fun _ hrole => by cases hrole

theorem declare (h : Scoped lets s) (x : String) {role : Role} (hrole : role.isEmitted = true)
    (hdefaults : ∀ sig, role = .function sig → ∀ p ∈ sig.params, ∀ c, p.default = some c →
      ∀ n, .name n ∈ c.mentions → n ∈ ambientNames ∨ s.Gives (fun _ => True) n) :
    Scoped (lets ++ [⟨(s.declare x role).1, some x, false⟩]) (s.declare x role).2 := by
  have hnew : ∀ le ∈ lets, (s.declare x role).1 ≠ le.emitted := fun le hle heq =>
    EmittedName.unique_not_mem _ _ (heq ▸ h.taken le hle)
  refine ⟨.declare x _ h.grows, ?_,
    forall_mem_concat (fun le hle => mem_cons_of_mem _ (h.taken le hle)) mem_cons_self,
    forall_mem_concat (fun le hle hname => forall_mem_concat (h.hoisted le hle hname) (hnew le hle))
      fun hname => (by cases hname), ?_, fun b hb sig hsig p hp c hc n hn => ?_⟩
  · simp [h.named, emittedNames, Scope.declare, hrole, Let.pair?]
  · refine pairwise_append.2 ⟨h.shadows, by simp, fun le hle le' hle' heq => ?_⟩
    rw [mem_singleton.1 hle'] at heq
    exact absurd heq.symm (hnew le hle)
  · have hbefore : n ∈ ambientNames ∨ ∃ le ∈ lets, le.emitted = n := by
      rcases mem_append.1 hb with hb | hb
      · exact h.defaults b hb sig hsig p hp c hc n hn
      · rw [mem_singleton.1 hb] at hsig
        exact (hdefaults sig hsig p hp c hc n hn).elim .inl h.bound_of_gives
    exact hbefore.imp_right exists_mem_append_left

theorem again (h : Scoped lets s) (hb : s.lookup? x = some b) (kind : ValueKind) :
    Scoped (lets ++ [⟨b.emitted, some x, true⟩])
      { s with bindings := s.bindings ++ [⟨x, b.emitted, .value kind⟩] } := by
  obtain ⟨hmem, hx⟩ := lookup?_mem hb
  have htaken : b.emitted ∈ s.taken := h.grows.keptApart.taken _ (mem_map_of_mem hmem)
  have hgrows : s.redeclare? x (.value kind) = some (b.emitted,
      { s with bindings := s.bindings ++ [⟨x, b.emitted, .value kind⟩] }) := by
    rw [redeclare?, hb, Option.map_some]
  refine ⟨.redeclare h.grows hgrows, ?_, forall_mem_concat h.taken htaken,
    forall_mem_concat (fun le hle hname => forall_mem_concat (h.hoisted le hle hname) (h.hoisted le hle hname b hmem))
      fun hname => (by cases hname), ?_,
    forall_mem_concat (fun b' hb' sig hsig p hp c hc n hn => ?_) fun _ hsig => by cases hsig⟩
  · simp [h.named, emittedNames, Let.pair?, Role.isEmitted]
  · refine pairwise_append.2 ⟨h.shadows, by simp, fun le hle le' hle' heq => ?_⟩
    rw [mem_singleton.1 hle'] at heq ⊢
    exact ⟨rfl, x, hx ▸ h.name_eq hle hmem heq, rfl⟩
  · exact (h.defaults b' hb' sig hsig p hp c hc n hn).imp_right exists_mem_append_left

theorem fresh (h : Scoped lets s) (base : String) :
    Scoped (lets ++ [⟨(s.fresh base).1, none, false⟩]) (s.fresh base).2 := by
  have hnew : ∀ n ∈ s.taken, n ≠ (s.fresh base).1 := by
    rintro n hn rfl
    exact EmittedName.numbered_not_mem _ _ hn
  refine ⟨.fresh base h.grows, ?_,
    forall_mem_concat (fun le hle => mem_cons_of_mem _ (h.taken le hle)) mem_cons_self,
    forall_mem_concat h.hoisted fun _ b hb => hnew _ (h.grows.keptApart.taken _ (mem_map_of_mem hb)), ?_,
    fun b hb sig hsig p hp c hc n hn => ?_⟩
  · simpa [filterMap_cons, Let.pair?, emittedNames, Scope.fresh] using h.named
  · refine pairwise_append.2 ⟨h.shadows, by simp, fun le hle le' hle' heq => ?_⟩
    rw [mem_singleton.1 hle'] at heq
    exact absurd heq (hnew _ (h.taken le hle))
  · exact (h.defaults b hb sig hsig p hp c hc n hn).imp_right exists_mem_append_left

end Scoped

theorem Binds.scoped (h : Binds {} lets s) : Scoped lets s := by
  induction h with
  | nil => exact .nil
  | setting x _ hkind ih => exact ih.setting x hkind
  | declare x _ hrole hdefaults ih => exact ih.declare x hrole hdefaults
  | again kind' _ hb _ ih => exact ih.again hb kind'
  | fresh base _ ih => exact ih.fresh base

end Scope

end ChartScript
