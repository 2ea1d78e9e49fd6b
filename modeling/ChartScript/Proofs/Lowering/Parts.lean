import ChartScript.Proofs.Expr.Tokens
import ChartScript.Proofs.Lowering.Placement
/-!
# Parts of accepted expressions

An expression is lowered from its parts, so all that is written in an accepted one is accepted itself,
unless nobody looks at it.
-/
namespace ChartScript.Lowering

open List

variable {α : Type} {ctx : Context} {callee : Reference} {calleeSpan span : Span} {emitted : String}
  {sig : Signature} {args : List (Argument Actual)} {arg : Argument Actual} {v : Lowered} {k : Nat}

/-! ## Arguments by number -/

/-- The arguments with their numbers as values. -/
def places (args : List (Argument α)) : List (Argument Nat) :=
  args.mapIdx fun k arg => arg.map fun _ => k

theorem map_places (args : List (Argument α)) :
    (places args).map (·.map fun k => args[k]?.map (·.value)) = args.map (·.map some) := by
  refine ext_getElem? fun k => ?_
  rw [places, getElem?_map, getElem?_mapIdx, getElem?_map]
  cases h : args[k]? with
  | none => rfl
  | some arg => simp [Argument.map, h]

theorem functionSlots_places (sig : Signature) (args : List (Argument α)) :
    (functionSlots sig args).map (Option.map some) =
      (functionSlots sig (places args)).map (Option.map fun k => args[k]?.map (·.value)) := by
  rw [← functionSlots_map, ← functionSlots_map, map_places]

/-- The arguments with another value for number `k`. -/
def withValue (k : Nat) (a : α) (args : List (Argument α)) : List (Argument α) :=
  args.modify k fun arg => arg.map fun _ => a

theorem places_withValue (k : Nat) (a : α) (args : List (Argument α)) :
    places (withValue k a args) = places args := by
  refine ext_getElem? fun j => ?_
  rw [places, places, withValue, getElem?_mapIdx, getElem?_mapIdx, getElem?_modify]
  cases args[j]? with
  | none => rfl
  | some arg => by_cases h : k = j <;> simp [h, Argument.map]

theorem map_withValue {β : Type} (g : α → β) (k : Nat) (a : α) (args : List (Argument α)) :
    (withValue k a args).map (·.map g) = withValue k (g a) (args.map (·.map g)) := by
  refine ext_getElem? fun j => ?_
  rw [withValue, withValue, getElem?_modify, getElem?_map, getElem?_map, getElem?_modify]
  cases args[j]? with
  | none => rfl
  | some arg => by_cases h : k = j <;> simp [h, Argument.map]

theorem functionSlots_withValue {args : List (Argument α)} (h : some k ∉ functionSlots sig (places args)) (a : α) :
    functionSlots sig (withValue k a args) = functionSlots sig args := by
  refine map_injective_iff.2 (Option.map_injective fun _ _ => Option.some.inj) ?_
  rw [functionSlots_places, functionSlots_places sig args, places_withValue]
  refine map_congr_left fun slot hslot => ?_
  cases slot with
  | none => rfl
  | some j =>
    have hne : k ≠ j := fun heq => h (heq ▸ hslot)
    simp only [Option.map_some, withValue, getElem?_modify, if_neg hne]
    cases args[j]? <;> rfl

theorem fits_places {args : List (Argument α)} : Fits sig (places args) ↔ Fits sig args := by
  have hsome : Fits sig (args.map (·.map some)) ↔ Fits sig args := fits_map some
  rw [← hsome, ← map_places, fits_map]

/-! ## What a call takes no notice of -/

/-- The call takes no notice of argument number `k`. -/
inductive Ignores (ctx : Context) : Reference → List (Argument Actual) → Nat → Prop
  | replaced {callee : Reference} {emitted : String} {sig : Signature} {args : List (Argument Actual)} {k : Nat} :
    functionOf? ctx callee = some (emitted, sig) → some k ∉ functionSlots sig (places args) →
    Ignores ctx callee args k
  | replacement {value other : Argument Actual} {u : Lowered} : functionOf? ctx (.plain "nz") = none →
    value.value.result = .ok u → u.kind ≠ .series → Ignores ctx (.plain "nz") [value, other] 1

theorem call_nz (h : functionOf? ctx (.plain "nz") = none) (args : List (Argument Actual)) :
    call ctx (.plain "nz") calleeSpan args span = orElse args span := by
  simp only [functionOf?] at h
  split at h
  · cases h
  · simp only [call, if_pos]

theorem call_withValue (hk : Ignores ctx callee args k) (h : call ctx callee calleeSpan args span = .ok v)
    (a : Actual) : call ctx callee calleeSpan (withValue k a args) span = .ok v := by
  cases hk with
  | replaced hfunction hslot =>
    obtain ⟨x, hcall⟩ := call_of_function hfunction
    rw [hcall] at h ⊢
    obtain ⟨hfits, hlowered⟩ := functionCall_eq_ok_iff.1 h
    rw [← functionSlots_withValue hslot a] at hlowered
    refine functionCall_eq_ok_iff.2 ⟨fits_places.1 ?_, hlowered⟩
    rw [places_withValue]
    exact fits_places.2 hfits
  | replacement hnone hu hscalar =>
    rw [call_nz hnone] at h ⊢
    obtain ⟨_, hpair, h⟩ := bind_eq_ok.1 h
    cases hpair
    obtain ⟨u', hu', h⟩ := bind_eq_ok.1 h
    obtain ⟨_, hcheck, h⟩ := bind_eq_ok.1 h
    have heq := hu.symm.trans hu'
    cases heq
    rw [if_pos hscalar] at h
    refine bind_eq_ok.2 ⟨_, rfl, bind_eq_ok.2 ⟨_, hu, bind_eq_ok.2 ⟨_, hcheck, ?_⟩⟩⟩
    exact (if_pos hscalar).trans h

theorem result_of_single {function : String} {finish : Actual → Lowered → Except LoweringError Lowered}
    (h : (single function args span >>= fun a => a.result >>= finish a) = .ok v) (harg : arg ∈ args) :
    ∃ u, arg.value.result = .ok u := by
  obtain ⟨a, ha, hfinish⟩ := bind_eq_ok.1 h
  obtain ⟨u, hu, -⟩ := bind_eq_ok.1 hfinish
  obtain ⟨argSpan, rfl⟩ := eq_singleton_of_single ha
  rw [mem_singleton.1 harg]
  exact ⟨u, hu⟩

theorem result_of_indicatorArgument {i : Indicator} {param : Parameter} {a : Actual} {out : Code × List Need}
    (h : indicatorArgument ctx i span param (some a) = .ok out) : ∃ u, a.result = .ok u := by
  obtain ⟨_, ha, h⟩ := bind_eq_ok.1 h
  cases ha
  obtain ⟨u, hu, -⟩ := bind_eq_ok.1 h
  exact ⟨u, hu⟩

theorem result_of_functionArgument {function : String} {q : FunctionParam} {a : Actual} {out : Code × List Need}
    (h : functionArgument function span q (some a) = .ok out) : ∃ u, a.result = .ok u := by
  obtain ⟨u, hu, -⟩ := bind_eq_ok.1 h
  exact ⟨u, hu⟩

theorem result_of_slot {β γ : Type} {params : List β} {slots : List (Option Actual)}
    {f : β × Option Actual → Except LoweringError γ} {out : List γ} (hlength : slots.length = params.length)
    (hf : ∀ param a y, f (param, some a) = .ok y → ∃ u, a.result = .ok u)
    (h : (params.zip slots).mapM f = .ok out) {a : Actual} (ha : some a ∈ slots) : ∃ u, a.result = .ok u := by
  obtain ⟨j, hj, hslot⟩ := mem_iff_getElem.1 ha
  have hall := forall₂_of_mapM h
  have hzip : j < (params.zip slots).length := by rw [length_zip]; omega
  have hrun := hall.get hzip (hall.length_eq ▸ hzip)
  rw [get_eq_getElem, getElem_zip, hslot] at hrun
  exact hf _ _ _ hrun

theorem result_of_indicator {i : Indicator} (h : indicator ctx i args span = .ok v) (harg : arg ∈ args) :
    ∃ u, arg.value.result = .ok u := by
  obtain ⟨slots, hslots, h⟩ := bind_eq_ok.1 h
  obtain ⟨lowered, hlowered, -⟩ := bind_eq_ok.1 h
  have hcount := count_le_of_bindIndicator hslots
  rw [bindIndicator_eq hcount] at hslots
  obtain ⟨hnames, hone, rfl⟩ := fillNamed_eq_ok_iff.1 hslots
  have hknown : Known i.parameterIndex? i.params.length args := fun arg harg x hx => by
    obtain ⟨j, hj⟩ := Option.isSome_iff_exists.1 (hnames arg harg x hx)
    exact ⟨j, hj, (findIdx?_eq_some_iff_getElem.1 hj).1⟩
  have hmem := (slots_perm hcount hknown (hone rfl)).mem_iff.2 (mem_map_of_mem harg)
  obtain ⟨_, hslot, rfl⟩ := mem_filterMap.1 hmem
  refine result_of_slot ?_ (fun _ _ _ => result_of_indicatorArgument) hlowered hslot
  rw [overridden, length_mapIdx, length_fillPositional]

theorem result_of_orElse (hnone : functionOf? ctx (.plain "nz") = none) (h : orElse args span = .ok v)
    (harg : args[k]? = some arg) : (∃ u, arg.value.result = .ok u) ∨ Ignores ctx (.plain "nz") args k := by
  unfold orElse at h
  split at h
  · next value =>
    obtain ⟨_, hpair, h⟩ := bind_eq_ok.1 h
    cases hpair
    obtain ⟨u, hu, -⟩ := bind_eq_ok.1 h
    rw [mem_singleton.1 (mem_of_getElem? harg)]
    exact .inl ⟨u, hu⟩
  · next value other =>
    obtain ⟨_, hpair, h⟩ := bind_eq_ok.1 h
    cases hpair
    obtain ⟨u, hu, h⟩ := bind_eq_ok.1 h
    obtain ⟨_, -, h⟩ := bind_eq_ok.1 h
    match k with
    | 0 =>
      cases harg
      exact .inl ⟨u, hu⟩
    | 1 =>
      cases harg
      by_cases hscalar : u.kind ≠ .series
      · exact .inr (.replacement hnone hu hscalar)
      · rw [if_neg hscalar] at h
        obtain ⟨r, hr, -⟩ := bind_eq_ok.1 h
        exact .inl ⟨r, hr⟩
  · cases h

theorem result_of_call (h : call ctx callee calleeSpan args span = .ok v) (harg : args[k]? = some arg) :
    (∃ u, arg.value.result = .ok u) ∨ Ignores ctx callee args k := by
  have hmem := mem_of_getElem? harg
  cases hfunction : functionOf? ctx callee with
  | some function =>
    obtain ⟨emitted, sig⟩ := function
    by_cases hk : some k ∈ functionSlots sig (places args)
    · obtain ⟨x, hcall⟩ := call_of_function hfunction
      rw [hcall] at h
      obtain ⟨-, lowered, hlowered, -⟩ := functionCall_eq_ok_iff.1 h
      have hslot : some (some arg.value) ∈ (functionSlots sig args).map (Option.map some) := by
        rw [functionSlots_places]
        exact mem_map.2 ⟨_, hk, by rw [Option.map_some, harg]; rfl⟩
      obtain ⟨slot, hslot, hvalue⟩ := mem_map.1 hslot
      obtain ⟨a, rfl, ha⟩ := Option.map_eq_some_iff.1 hvalue
      cases ha
      exact .inl (result_of_slot (length_functionSlots sig args) (fun _ _ _ => result_of_functionArgument)
        hlowered hslot)
    · exact .inr (.replaced hfunction hk)
  | none =>
    by_cases hta : ∃ x, callee = .member "ta" x
    · obtain ⟨x, rfl⟩ := hta
      rw [call, if_pos rfl] at h
      split at h
      · exact .inl (result_of_indicator h hmem)
      · cases h
    obtain ⟨run, hbuiltIn, hcall⟩ := call_of_none hfunction (not_exists.1 hta) h
    rw [hcall] at h
    cases hbuiltIn with
    | math x =>
      left
      have hkept : Kept args v := by
        cases hone : oneNumber.lookup x with
        | some function => exact (mathCall_one hone h).kept
        | none =>
          cases htwo : twoNumbers.lookup x with
          | some function => exact (mathCall_two hone htwo h).kept
          | none => exact (mathCall_average hone htwo h).1
      obtain ⟨u, hu, -⟩ := hkept arg hmem
      exact ⟨u, hu⟩
    | na => exact .inl (result_of_single h hmem)
    | int => exact .inl (result_of_single h hmem)
    | float => exact .inl (result_of_single h hmem)
    | nz => exact result_of_orElse hfunction h harg

/-! ## Expressions -/

/-- The expression is lowered. -/
def IsLowered (ctx : Context) (e : Expr) : Prop :=
  ∃ v, lower ctx e = .ok v

/-- A call and an argument that it takes no notice of. -/
inductive Drops (ctx : Context) : Expr → Expr → Prop
  | argument {span calleeSpan : Span} {callee : Reference} {args : List (Argument Expr)} {k : Nat}
    {arg : Argument Expr} : args[k]? = some arg → Ignores ctx callee (lowerArguments ctx args) k →
    Drops ctx (.call span callee calleeSpan args) arg.value

/-- The expression is lowered, or in an argument that an accepted call among `ms` takes no notice of. -/
def IsLoweredOrDropped (ctx : Context) (ms : List Expr) (n : Expr) : Prop :=
  IsLowered ctx n ∨ ∃ m ∈ ms, IsLowered ctx m ∧ ∃ p, Drops ctx m p ∧ n ∈ p.nodes

theorem argument_covered {args : List (Argument Expr)}
    (h : IsLowered ctx (.call span callee calleeSpan args)) {arg : Argument Expr} (harg : arg ∈ args) :
    IsLowered ctx arg.value ∨ Drops ctx (.call span callee calleeSpan args) arg.value := by
  obtain ⟨v, hcall⟩ := h
  rw [lower] at hcall
  obtain ⟨k, hk⟩ := mem_iff_getElem?.1 harg
  have hlowered : (lowerArguments ctx args)[k]? = some (arg.map fun e => ⟨e.span, lower ctx e⟩) := by
    rw [lowerArguments_eq_map, getElem?_map, hk]
    rfl
  exact (result_of_call hcall hlowered).imp_right (.argument hk)

mutual

theorem nodes_covered {ms : List Expr} (e : Expr) (hms : e.nodes ⊆ ms) (h : IsLowered ctx e) :
    ∀ n ∈ e.nodes, IsLoweredOrDropped ctx ms n := by
  have hself : IsLoweredOrDropped ctx ms e := .inl h
  cases e with
  | number | text | bool | na | color | name | series => simpa [Expr.nodes] using hself
  | call span callee calleeSpan args =>
    rw [Expr.nodes, cons_subset] at hms
    refine forall_mem_cons.2 ⟨hself, argumentNodes_covered args hms.2 fun arg harg => ?_⟩
    exact (argument_covered h harg).imp_right fun hdrops => ⟨_, hms.1, h, hdrops⟩
  | index span target offset =>
    rw [Expr.nodes, cons_subset, append_subset] at hms
    obtain ⟨v, h⟩ := h
    obtain ⟨t, ht, h⟩ := bind_eq_ok.1 h
    obtain ⟨o, ho, -⟩ := bind_eq_ok.1 h
    exact forall_mem_cons.2 ⟨hself, forall_mem_append.2
      ⟨nodes_covered target hms.2.1 ⟨t, ht⟩, nodes_covered offset hms.2.2 ⟨o, ho⟩⟩⟩
  | unary span op operand =>
    rw [Expr.nodes, cons_subset] at hms
    obtain ⟨v, h⟩ := h
    obtain ⟨u, hu, -⟩ := bind_eq_ok.1 h
    exact forall_mem_cons.2 ⟨hself, nodes_covered operand hms.2 ⟨u, hu⟩⟩
  | binary span op left right =>
    rw [Expr.nodes, cons_subset, append_subset] at hms
    obtain ⟨v, h⟩ := h
    obtain ⟨l, hl, h⟩ := bind_eq_ok.1 h
    obtain ⟨r, hr, -⟩ := bind_eq_ok.1 h
    exact forall_mem_cons.2 ⟨hself, forall_mem_append.2
      ⟨nodes_covered left hms.2.1 ⟨l, hl⟩, nodes_covered right hms.2.2 ⟨r, hr⟩⟩⟩
  | ternary span c yes no =>
    rw [Expr.nodes, cons_subset, append_subset, append_subset] at hms
    obtain ⟨v, h⟩ := h
    obtain ⟨c', hc, h⟩ := bind_eq_ok.1 h
    obtain ⟨a, ha, h⟩ := bind_eq_ok.1 h
    obtain ⟨b, hb, -⟩ := bind_eq_ok.1 h
    exact forall_mem_cons.2 ⟨hself, forall_mem_append.2 ⟨forall_mem_append.2
      ⟨nodes_covered c hms.2.1.1 ⟨c', hc⟩, nodes_covered yes hms.2.1.2 ⟨a, ha⟩⟩,
      nodes_covered no hms.2.2 ⟨b, hb⟩⟩⟩
  | tuple =>
    obtain ⟨v, h⟩ := h
    cases h

theorem argumentNodes_covered {ms : List Expr} (args : List (Argument Expr))
    (hms : Expr.argumentNodes args ⊆ ms) (h : ∀ arg ∈ args, IsLowered ctx arg.value ∨
      ∃ m ∈ ms, IsLowered ctx m ∧ Drops ctx m arg.value) : ∀ n ∈ Expr.argumentNodes args, IsLoweredOrDropped ctx ms n := by
  cases args with
  | nil => simp [Expr.argumentNodes]
  | cons arg rest =>
    obtain ⟨x, value, span⟩ := arg
    rw [Expr.argumentNodes, append_subset] at hms
    obtain ⟨hown, hrest⟩ := forall_mem_cons.1 h
    refine forall_mem_append.2 ⟨?_, argumentNodes_covered rest hms.2 hrest⟩
    rcases hown with hvalue | ⟨m, hm, haccepted, hdrops⟩
    · exact nodes_covered value hms.1 hvalue
    · exact fun n hn => .inr ⟨m, hm, haccepted, _, hdrops, hn⟩

end

/-- What is written in an accepted expression is accepted, unless a call in it takes no notice of it;
and there any expression will do. -/
theorem parts_accepted {e : Expr} (h : IsLowered ctx e) :
    (∀ n ∈ e.nodes, IsLoweredOrDropped ctx e.nodes n) ∧
    ∀ span callee calleeSpan args k v, Expr.call span callee calleeSpan args ∈ e.nodes →
      lower ctx (.call span callee calleeSpan args) = .ok v →
      Ignores ctx callee (lowerArguments ctx args) k →
      ∀ other, lower ctx (.call span callee calleeSpan (withValue k other args)) = .ok v := by
  refine ⟨nodes_covered e (List.Subset.refl _) h, fun span callee calleeSpan args k v _ hcall hk other => ?_⟩
  have hvalue : lowerArguments ctx (withValue k other args) =
      withValue k ⟨other.span, lower ctx other⟩ (lowerArguments ctx args) := by
    rw [lowerArguments_eq_map, lowerArguments_eq_map, map_withValue]
  rw [lower] at hcall ⊢
  rw [hvalue]
  exact call_withValue hk hcall _

def singleOr (x : Expr) : Expr :=
  .call .origin (.plain "nz") .origin [⟨none, .number .origin 1.0 true, .origin⟩, ⟨none, x, .origin⟩]

theorem parts_accepted_single : IsLowered ⟨{}, []⟩ (singleOr (.na .origin)) ∧
    ∀ other, lower ⟨{}, []⟩ (singleOr other) = .ok (.ofNumber 1.0 true) := by
  have haccepted : IsLowered ⟨{}, []⟩ (singleOr (.na .origin)) := ⟨_, rfl⟩
  have hscalar : (Lowered.ofNumber 1.0 true).kind ≠ .series := by decide
  refine ⟨haccepted, fun other => ?_⟩
  exact (parts_accepted haccepted).2 _ _ _ _ 1 _ mem_cons_self rfl (.replacement rfl rfl hscalar) other

/-- `nz(1, x)` and `channel(x, low, upper=close)` are accepted, but not the name `x` in them, which stands
for nothing. -/
theorem unknown_name_accepted : ∃ x : Expr, ¬ IsLowered withChannel x ∧ IsLowered withChannel (singleOr x) ∧
    IsLowered withChannel (.call .origin (.plain "channel") .origin [⟨none, x, .origin⟩,
      ⟨none, .series .origin .low, .origin⟩, ⟨some "upper", .series .origin .close, .origin⟩]) :=
  ⟨.name .origin (.plain "x"), fun ⟨_, h⟩ => (by cases h), ⟨_, rfl⟩, ⟨_, rfl⟩⟩

end ChartScript.Lowering
