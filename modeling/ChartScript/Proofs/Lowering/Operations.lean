import ChartScript.Proofs.Expr.Places
import ChartScript.Proofs.Lowering.Made
/-!
# What operations yield

An operation finds fault with its operands at the places it is given, and a call with its arguments
at theirs or at its own.
-/
namespace ChartScript

open List Lowered Need

open Emitted (isWord)

/-- Faults that no script has once it could be read. -/
def LoweringFault.isGuard : LoweringFault → Bool
  | expr fault => fault.isGuard
  | inputDefault _ | compoundOperator _ | notDeclared _ | emptyFunction _ | noResult => true
  | _ => false

variable {x : String}

variable {needs : List Need} {f : String} {sig : Signature} {slot : Option Actual} {e : Expr}

namespace Lowering

abbrev At (bad : LoweringError → Prop) (span : Span) : Prop :=
  ∀ fault : LoweringFault, fault.isGuard = false → bad ⟨span, fault⟩

abbrev Lowers (ctx : Context) (u : Usage) (bad : LoweringError → Prop)
    (x : Except LoweringError Lowered) : Prop :=
  Yields (Made ctx u) bad x

/-- Code in the form that a parameter takes is made of what may be used, with its own needs and those
from before. -/
structure MadeWith (ctx : Context) (u : Usage) (before : List Need) (y : Code × List Need) :
    Prop where
  code : y.1.Made ctx u (before ++ y.2)
  needs : Among u.indicator y.2

section

variable {ctx : Context} {u : Usage} {bad : LoweringError → Prop} {span : Span} {v : Lowered}

theorem MadeWith.after {x : Except LoweringError (Code × List Need)}
    (hx : Yields (MadeWith ctx u needs) bad x) (hneeds : Among u.indicator needs) :
    Yields (MadeWith ctx u []) bad (x >>= fun y => pure (y.1, needs ++ y.2)) :=
  hx.bind fun _ hy => ⟨hy.code, among_append.2 ⟨hneeds, hy.needs⟩⟩

theorem MadeWith.all {ys : List (Code × List Need)} (h : ∀ y ∈ ys, MadeWith ctx u [] y)
    (hsub : ys.flatMap (·.2) ⊆ needs) : ∀ c ∈ ys.map (·.1), c.Made ctx u needs := by
  intro c hc
  obtain ⟨y, hy, rfl⟩ := mem_map.1 hc
  exact (h y hy).code.mono fun n hn => hsub (mem_flatMap.2 ⟨y, hy, hn⟩)

/-! ## Values -/

theorem checkOperand_faults (v : Lowered) (h : At bad span) : Faults bad (v.checkOperand span) := by
  unfold checkOperand
  split
  · trivial
  · trivial
  · trivial
  · exact h _ rfl
  · exact h _ rfl

theorem checkNumeric_faults (v : Lowered) (what : String) (h : At bad span) :
    Faults bad (v.checkNumeric span what) := by
  unfold checkNumeric
  split
  · trivial
  · exact h _ rfl

theorem seriesArgument_yields (hv : v.Made ctx u) (what : String) (h : At bad span) :
    Yields (MadeWith ctx u v.needs) bad (v.seriesArgument span what) := by
  have hspread : MadeWith ctx u v.needs (.borrow (.broadcast v.code), [.ops]) :=
    ⟨.borrow ((hv.code.mono (by simp)).broadcast (by simp)), by simp⟩
  unfold seriesArgument
  split
  · exact ⟨.borrow (hv.code.mono (by simp)), among_nil⟩
  · exact hspread
  · exact hspread
  · exact h _ rfl

theorem lengthArgument_yields (hv : v.Made ctx u) (what : String) (h : At bad span) :
    Yields (MadeWith ctx u v.needs) bad (v.lengthArgument span what) := by
  unfold lengthArgument
  split
  · split
    · next c hc => exact ⟨(hv.length c hc).mono (by simp), among_nil⟩
    · exact ⟨.ops rfl (by simp) (by simpa using hv.code.mono (by simp)), by simp⟩
  · exact h _ rfl

theorem parameterArgument_yields (hv : v.Made ctx u) (kind : ValueKind) (what : String)
    (h : At bad span) : Yields (MadeWith ctx u v.needs) bad (v.parameterArgument kind span what) := by
  unfold parameterArgument
  split
  · exact seriesArgument_yields hv what h
  · split
    · exact ⟨hv.code.mono (by simp), among_nil⟩
    · exact h _ rfl

variable {b : Binding} {α : Type} {function : String} {index? : String → Option Nat} {once : Bool}

theorem bound_yields (hx : u.name x) (hb : ctx.scope.lookup? x = some b) (h : At bad span) :
    Lowers ctx u bad (bound b span) := by
  have hname : b.role.isEmitted = true → ∀ needs, (Code.name b.emitted).Made ctx u needs :=
    fun hrole _ => .bound hx hb hrole
  have hsetting : b.role.isEmitted = false → ∀ needs, (Code.setting b.emitted).Made ctx u needs :=
    fun hrole _ => .setting hx hb hrole
  unfold bound
  split
  case h_1 hrole =>
    have hcode := hsetting (by rw [hrole]; rfl)
    refine ⟨.widen (hcode _), ?_, by simp⟩
    rintro _ ⟨⟩
    exact .ops rfl (by simp) (by simpa using hcode _)
  case h_2 hrole => exact made_mk (hsetting (by rw [hrole]; rfl) _) among_nil
  case h_3 hrole => exact made_mk (hsetting (by rw [hrole]; rfl) _) among_nil
  case h_9 => exact h _ rfl
  case h_6 hrole => exact made_mk (hname (by rw [hrole]; rfl) _) among_nil
  case h_7 hrole => exact made_mk (hname (by rw [hrole]; rfl) _) among_nil
  case h_8 hrole => exact made_mk (hname (by rw [hrole]; rfl) _) among_nil
  all_goals
    next hrole =>
    have hcode := hsetting (by rw [hrole]; rfl) []
    exact made_mk (.method rfl hcode (by simp)) among_nil

theorem name_yields (hx : u.name x) (h : At bad span) : Lowers ctx u bad (name ctx x span) := by
  unfold name
  split
  · next l hl =>
    have hmem := mem_reverse.1 (mem_of_find?_eq_some hl)
    split
    · exact made_mk (.hidden hmem) among_nil
    · exact made_mk (.hidden hmem) among_nil
  · next hb => exact bound_yields hx hb h
  · exact made_mk (.average (by simp)) (by simp)
  · split
    · exact made_mk (.barIndex (by simp)) (by simp)
    · exact h _ rfl

theorem field_made (f : BarField) : (field f).Made ctx u :=
  made_mk (.field (by simp)) (by simp)

/-! ## Operations -/

theorem binary_yields (op : BinaryOp) {l r : Lowered} (hl : l.Made ctx u) (hr : r.Made ctx u)
    (h : At bad span) : Lowers ctx u bad (binary op l r span) := by
  have hneeds := among_append.2 ⟨hl.needs, hr.needs⟩
  have hleft := hl.code.mono (subset_append_left l.needs r.needs)
  have hright := hr.code.mono (subset_append_right l.needs r.needs)
  have hword : isWord op.elementwise = true := by cases op <;> rfl
  refine (checkOperand_faults l h).bind fun _ _ => ?_
  refine (checkOperand_faults r h).bind fun _ _ => ?_
  split
  · refine made_mk (.ops hword (by simp) (forall_mem_cons.2 ⟨?_, ?_⟩)) hneeds.ops
    · exact made_operand (hleft.mono (subset_append_left _ _))
    · exact forall_mem_singleton.2 (made_operand (hright.mono (subset_append_left _ _)))
  split
  · exact made_mk (.binary op (made_truth hleft) (made_truth hright)) hneeds
  split
  · split
    · exact made_mk (.binary op hleft hright) hneeds
    · exact h _ rfl
  split
  · exact made_mk (.binary op hleft hright) hneeds
  · exact h _ rfl

theorem made_ops_operand (hf : isWord f = true) (hv : v.Made ctx u) {more : List Code}
    (hmore : ∀ c ∈ more, c.Made ctx u (v.needs ++ [.ops])) :
    (ofSeries (.ops f (v.operand :: more)) (v.needs ++ [.ops])).Made ctx u :=
  made_mk (.ops hf (by simp) (forall_mem_cons.2
    ⟨made_operand (hv.code.mono (subset_append_left _ _)), hmore⟩)) hv.needs.ops

theorem kept_made (hv : v.Made ctx u) : (kept v).Made ctx u := by
  have hsub : v.needs ⊆ (kept v).needs := subset_append_left _ _
  refine ⟨.ops rfl (mem_append_right _ (.head _)) (forall_mem_singleton.2 ?_),
    fun c hc => (hv.length c hc).mono hsub, hv.needs.ops⟩
  exact made_operand (hv.code.mono hsub)

theorem unary_yields (op : UnaryOp) (hv : v.Made ctx u) (h : At bad span) : Lowers ctx u bad (unary op v span) := by
  refine (checkOperand_faults v h).bind fun _ _ => ?_
  split
  · exact hv
  · exact hv
  · exact made_mk (.unary .neg hv.code) hv.needs
  · exact made_mk (.unary .not hv.code) hv.needs
  · exact made_mk (.binary .eq hv.code (.number _)) hv.needs
  · exact made_ops_operand rfl hv (by simp)
  · exact made_ops_operand rfl hv (by simp)
  · exact h _ rfl

theorem conditional_yields {c a b : Lowered} {cSpan aSpan bSpan : Span} (hc : c.Made ctx u) (ha : a.Made ctx u)
    (hb : b.Made ctx u) (hcSpan : At bad cSpan) (haSpan : At bad aSpan) (hbSpan : At bad bSpan) (h : At bad span) :
    Lowers ctx u bad (conditional c a b cSpan aSpan bSpan span) := by
  have hneeds : Among u.indicator (c.needs ++ a.needs ++ b.needs) := by simp [hc.needs, ha.needs, hb.needs]
  have hparts : ∀ needs, c.needs ++ a.needs ++ b.needs ⊆ needs → c.code.Made ctx u needs ∧
      a.code.Made ctx u needs ∧ b.code.Made ctx u needs := fun needs hsub =>
    ⟨hc.code.mono fun _ hn => hsub (by simp [hn]), ha.code.mono fun _ hn => hsub (by simp [hn]),
      hb.code.mono fun _ hn => hsub (by simp [hn])⟩
  refine (checkOperand_faults c hcSpan).bind fun _ _ => ?_
  refine (checkOperand_faults a haSpan).bind fun _ _ => ?_
  refine (checkOperand_faults b hbSpan).bind fun _ _ => ?_
  split
  · split
    · obtain ⟨hc, ha, hb⟩ := hparts _ (List.Subset.refl _)
      exact made_mk (.choice (made_truth hc) ha hb) hneeds
    · exact h _ rfl
  · obtain ⟨hc, ha, hb⟩ := hparts _ (subset_append_left _ [.ops])
    exact made_mk (.ops rfl (by simp) (forall_mem_cons.2 ⟨made_operand hc, forall_mem_cons.2
        ⟨made_operand ha, forall_mem_singleton.2 (made_operand hb)⟩⟩)) hneeds.ops

theorem history_yields {offset : Lowered} {offsetSpan : Span} (hv : v.Made ctx u) (ho : offset.Made ctx u)
    (h : At bad span) (hoffset : At bad offsetSpan) : Lowers ctx u bad (history v offset span offsetSpan) := by
  unfold history
  dsimp only
  by_cases hk : offset.kind = .series
  · rw [if_pos hk]
    exact hoffset _ rfl
  rw [if_neg hk]
  refine (lengthArgument_yields ho _ hoffset).bind fun y hy => ?_
  have hneeds : Among u.indicator (v.needs ++ offset.needs ++ y.2) := by simp [hv.needs, ho.needs, hy.needs]
  have hsub : v.needs ⊆ v.needs ++ offset.needs ++ y.2 := fun _ hn => by simp [hn]
  have hcode := hv.code.mono hsub
  have hagain : Made ctx u { v with needs := v.needs ++ offset.needs ++ y.2 } :=
    ⟨hcode, fun c hc => (hv.length c hc).mono hsub, hneeds⟩
  split
  · refine made_mk (.method rfl ?_ ?_) hneeds
    · split
      · exact hcode
      · exact .group hcode
    · exact forall_mem_singleton.2 (hy.code.mono (by simp))
  · exact hagain
  · exact hagain
  · exact h _ rfl

/-! ## Arguments -/

/-- What the argument yields is made of what may be used, and the faults that are found with it have the
property. -/
structure SoundArgument (ctx : Context) (u : Usage) (bad : LoweringError → Prop)
    (arg : Argument Actual) : Prop where
  span : At bad arg.span
  value : At bad arg.value.span
  result : Lowers ctx u bad arg.value.result

theorem fillNamed_faults {args : List (Argument α)} (hargs : ∀ arg ∈ args, At bad arg.span)
    (slots : List (Option α)) : Faults bad (fillNamed function index? once slots args) := by
  induction args generalizing slots with
  | nil => trivial
  | cons arg rest ih =>
    have hown := hargs arg mem_cons_self
    have hrest := ih fun a ha => hargs a (mem_cons_of_mem _ ha)
    unfold fillNamed
    split
    · exact hrest slots
    · split
      · exact hown _ rfl
      · split
        · exact hown _ rfl
        · exact hrest _

theorem fillNamed_mem {slots slots' : List (Option α)} {args : List (Argument α)} {a : α}
    (h : fillNamed function index? once slots args = .ok slots') (ha : some a ∈ slots') :
    some a ∈ slots ∨ ∃ arg ∈ args, arg.value = a := by
  induction args generalizing slots with
  | nil =>
    cases h
    exact .inl ha
  | cons arg rest ih =>
    unfold fillNamed at h
    split at h
    · exact (ih h).imp_right fun ⟨arg, harg, heq⟩ => ⟨arg, mem_cons_of_mem _ harg, heq⟩
    · split at h
      · cases h
      · split at h
        · cases h
        · rcases ih h with hslot | ⟨arg', harg, heq⟩
          · rcases mem_or_eq_of_mem_set hslot with hslot | hslot
            · exact .inl hslot
            · exact .inr ⟨arg, mem_cons_self, (Option.some.inj hslot).symm⟩
          · exact .inr ⟨arg', mem_cons_of_mem _ harg, heq⟩

theorem fillPositional_mem {count shift : Nat} {args : List (Argument α)} {a : α}
    (h : some a ∈ fillPositional count shift (positional args)) : ∃ arg ∈ args, arg.value = a := by
  obtain ⟨i, _, hi⟩ := mem_map.1 h
  split at hi
  · cases hi
  · obtain ⟨arg, harg, heq⟩ := mem_map.1 (mem_of_getElem? hi)
    exact ⟨arg, (mem_filter.1 harg).1, heq⟩

theorem slots_yields {args : List (Argument α)} (hargs : ∀ arg ∈ args, At bad arg.span) (count shift : Nat) :
    Yields (fun slots => ∀ a, some a ∈ slots → ∃ arg ∈ args, arg.value = a) bad (fillNamed function index? once
    (fillPositional count shift (positional args)) args) :=
  .of_faults (fillNamed_faults hargs _) fun _ hslots _ ha => (fillNamed_mem hslots ha).elim fillPositional_mem id

theorem bindIndicator_yields {i : Indicator} {args : List (Argument α)} (h : At bad span)
    (hargs : ∀ arg ∈ args, At bad arg.span) :
    Yields (fun slots => ∀ a, some a ∈ slots → ∃ arg ∈ args, arg.value = a) bad (bindIndicator i args span) := by
  unfold bindIndicator
  extract_lets values count firstNamed shift
  split
  · exact h _ rfl
  · exact slots_yields hargs count shift

variable {args : List (Argument Actual)}

theorem single_yields (function : String) (h : At bad span) (hargs : ∀ arg ∈ args, SoundArgument ctx u bad arg) :
    Yields (fun a => At bad a.span ∧ Lowers ctx u bad a.result) bad (single function args span) := by
  unfold single
  split
  · next named hnamed => exact (hargs named (mem_of_find?_eq_some hnamed)).span _ rfl
  · split
    · next arg _ =>
      have harg := hargs arg mem_cons_self
      exact ⟨harg.value, harg.result⟩
    · exact h _ rfl

/-! ## Functions of the language -/

section

variable (h : At bad span) (hargs : ∀ arg ∈ args, SoundArgument ctx u bad arg)
include h hargs

theorem orElse_yields : Lowers ctx u bad (orElse args span) := by
  unfold orElse
  split
  · next value =>
    have hvalue := hargs value (by simp)
    refine hvalue.result.bind fun v hv => ?_
    refine (checkOperand_faults v hvalue.span).bind fun _ _ => ?_
    split
    · exact hv
    · exact made_ops_operand rfl hv (by simpa using .number _)
  · next value replacement =>
    have hvalue := hargs value (by simp)
    have hreplacement := hargs replacement (by simp)
    refine hvalue.result.bind fun v hv => ?_
    refine (checkOperand_faults v hvalue.span).bind fun _ _ => ?_
    dsimp only
    split
    · exact hv
    · refine hreplacement.result.bind fun r hr => ?_
      refine (checkOperand_faults r hreplacement.span).bind fun _ _ => ?_
      refine made_mk (.ops rfl (by simp) ?_) (among_append.2 ⟨hv.needs, hr.needs⟩).ops
      simpa using ⟨made_operand (hv.code.mono fun _ hn => by simp [hn]),
        made_operand (hr.code.mono fun _ hn => by simp [hn])⟩
  · exact h _ rfl

theorem isMissing_yields : Lowers ctx u bad (isMissing args span) := by
  refine (single_yields "na" h hargs).bind fun a ha => ?_
  refine ha.2.bind fun v hv => ?_
  refine (checkOperand_faults v ha.1).bind fun _ _ => ?_
  split
  · exact made_ops_operand rfl hv (by simp)
  · exact made_mk (.bool false) hv.needs

theorem toInteger_yields : Lowers ctx u bad (toInteger args span) := by
  refine (single_yields "int" h hargs).bind fun a ha => ?_
  refine ha.2.bind fun v hv => ?_
  refine (checkNumeric_faults v _ ha.1).bind fun _ _ => ?_
  split
  · exact ⟨.method rfl (.group hv.code) (by simp), hv.length, hv.needs⟩
  · exact made_ops_operand rfl hv (by simpa using .path (.standard (.inl rfl) (by simp; rfl)))

theorem toNumber_yields : Lowers ctx u bad (toNumber args span) := by
  refine (single_yields "float" h hargs).bind fun a ha => ?_
  refine ha.2.bind fun v hv => ?_
  exact (checkNumeric_faults v _ ha.1).bind fun _ _ => hv

end

theorem numericResult_yields {arg : Argument Actual} (h : SoundArgument ctx u bad arg) :
    Lowers ctx u bad (numericResult arg) := by
  refine h.result.bind fun v hv => ?_
  exact (checkNumeric_faults v _ h.span).bind fun _ _ => hv

theorem applyOne_made (hf : isWord function = true) (hv : v.Made ctx u) : (applyOne function v).Made ctx u := by
  unfold applyOne
  split
  · split
    · exact made_mk (.ops rfl (by simp) (by simpa using hv.code.mono (subset_append_left _ _))) hv.needs.ops
    · exact made_mk (.method hf (.group hv.code) (by simp)) hv.needs
  · refine made_ops_operand rfl hv (forall_mem_singleton.2 ?_)
    split
    · exact .path (.ops rfl (by simp))
    · exact .path (.standard (.inl rfl) (by simpa using hf))

theorem applyTwo_made (hf : isWord function = true) {a b : Lowered} (ha : a.Made ctx u)
    (hb : b.Made ctx u) : (applyTwo function a b).Made ctx u := by
  have hneeds := among_append.2 ⟨ha.needs, hb.needs⟩
  unfold applyTwo
  split
  · exact made_mk (.method hf (.group (ha.code.mono (subset_append_left _ _)))
      (by simpa using hb.code.mono (subset_append_right _ _))) hneeds
  · refine made_mk (.ops rfl (by simp) ?_) hneeds.ops
    have hpath : (Code.path ["f64", function]).Made ctx u (a.needs ++ b.needs ++ [.ops]) :=
      .path (.standard (.inl rfl) (by simpa using hf))
    simpa using ⟨made_operand (ha.code.mono fun _ hn => by simp [hn]),
      made_operand (hb.code.mono fun _ hn => by simp [hn]), by simpa using hpath⟩

theorem isWord_of_lookup {table : List (String × String)} (htable : table.all (fun p => isWord p.2) = true)
    (h : table.lookup x = some f) : isWord f = true := by
  obtain ⟨before, after, rfl, _⟩ := lookup_eq_some_iff.1 h
  exact all_eq_true.1 htable (x, f) (by simp)

theorem mathCall_yields (x : String) (h : At bad span) (hargs : ∀ arg ∈ args, SoundArgument ctx u bad arg) :
    Lowers ctx u bad (mathCall x args span) := by
  unfold mathCall
  split
  · next hfunction =>
    refine (single_yields _ h hargs).bind fun a ha => ?_
    refine ha.2.bind fun v hv => ?_
    exact (checkNumeric_faults v _ ha.1).bind fun _ _ => applyOne_made (isWord_of_lookup rfl hfunction) hv
  · next hfunction =>
    split
    · next first second more =>
      dsimp only
      split
      · exact h _ rfl
      split
      · next named hnamed => exact (hargs named (mem_of_find?_eq_some hnamed)).span _ rfl
      refine (numericResult_yields (hargs first mem_cons_self)).bind fun start hstart => ?_
      refine Yields.foldlM (fun v arg harg hv => ?_) hstart
      have hown := hargs arg (mem_cons_of_mem _ harg)
      exact (numericResult_yields hown).bind fun r hr => applyTwo_made (isWord_of_lookup rfl hfunction) hv hr
    · exact h _ rfl
  · split
    · split
      · exact h _ rfl
      · next first more =>
        refine (hargs first mem_cons_self).result.bind fun start hstart => ?_
        have hadd : ∀ v : Lowered, ∀ arg ∈ more, v.Made ctx u →
            Lowers ctx u bad (arg.value.result >>= fun r => binary .add v r arg.span) := by
          intro v arg harg hv
          have hown := hargs arg (mem_cons_of_mem _ harg)
          exact hown.result.bind fun r hr => binary_yields .add hv hr hown.span
        refine (Yields.foldlM hadd hstart).bind fun sum hsum => ?_
        exact binary_yields .div hsum (made_ofNumber _ _) h
    · exact h _ rfl

/-! ## Functions of the script -/

theorem functionArgument_yields (function : String) (hcalls : ctx.Calls u x b sig)
    {param : FunctionParam} (hparam : param ∈ sig.params) (h : At bad span)
    (hslot : ∀ a, slot = some a → At bad a.span ∧ Lowers ctx u bad a.result) :
    Yields (MadeWith ctx u []) bad (functionArgument function span param slot) := by
  unfold functionArgument
  split
  · next operand =>
    obtain ⟨hspan, hresult⟩ := hslot operand rfl
    refine hresult.bind fun v hv => ?_
    exact MadeWith.after (parameterArgument_yields hv param.kind _ hspan) hv.needs
  · split
    · next hc => exact ⟨.default hcalls hparam hc, among_nil⟩
    · exact h _ rfl

theorem functionCall_yields (hcalls : ctx.Calls u x b sig) (h : At bad span)
    (hargs : ∀ arg ∈ args, SoundArgument ctx u bad arg) :
    Lowers ctx u bad (functionCall x b.emitted sig args span) := by
  unfold functionCall
  dsimp only
  split
  · exact h _ rfl
  · have hspans : ∀ arg ∈ args, At bad arg.span := fun arg harg => (hargs arg harg).span
    refine (slots_yields hspans _ _).bind fun slots hmem => ?_
    have hall : ∀ y ∈ sig.params.zip slots, Yields (MadeWith ctx u []) bad (functionArgument x span y.1 y.2) := by
      rintro ⟨param, slot⟩ hy
      refine functionArgument_yields x hcalls (of_mem_zip hy).1 h fun a ha => ?_
      obtain ⟨arg, harg, rfl⟩ := hmem a (ha ▸ (of_mem_zip hy).2)
      exact ⟨(hargs arg harg).value, (hargs arg harg).result⟩
    refine (Yields.mapM hall).bind fun lowered hlowered => ?_
    exact made_mk (.function hcalls (MadeWith.all hlowered (List.Subset.refl _)))
      (among_flatMap fun y hy => (hlowered y hy).needs)

end

end Lowering

/-! ## Indicators -/

def DefaultArgument.suits : DefaultArgument → ParamKind → Bool
  | .price (.field _), .source | .price (.average .hlc3), .source => true
  | .integer _, .length | .integer _, .value | .decimal _, .value | .flag _, .flag => true
  | _, _ => false

theorem Indicator.default_suits {i : Indicator} (hi : i ∈ catalogue) {p : Parameter}
    (hp : p ∈ i.params) {d : DefaultArgument} (hd : p.default = some d) : d.suits p.kind = true := by
  have hall : ∀ i ∈ catalogue, ∀ p ∈ i.params, p.default.all (·.suits p.kind) = true := by decide
  simpa [hd] using hall i hi p hp

namespace Lowering

abbrev AtDefault (bad : LoweringError → Prop) (ctx : Context) (call : Span) : Prop :=
  Yields (fun v => ∀ what, Faults bad (v.seriesArgument { call with stop := call.start + 4 } what))
    bad (name ctx "hlc3" { call with stop := call.start + 4 })

section

variable {ctx : Context} {u : Usage} {bad : LoweringError → Prop} {span : Span} {i : Indicator}

theorem indicatorArgument_yields (hi : i ∈ Indicator.catalogue) (hnames : ∀ x ∈ i.averageNames, u.name x)
    {param : Parameter} (hparam : param ∈ i.params) (h : At bad span)
    (hdefault : AtDefault bad ctx span) (hslot : ∀ a, slot = some a → At bad a.span ∧ Lowers ctx u bad a.result) :
    Yields (MadeWith ctx u []) bad (indicatorArgument ctx i span param slot) := by
  unfold indicatorArgument
  cases slot with
  | some a =>
    obtain ⟨hspan, hresult⟩ := hslot a rfl
    dsimp only
    refine hresult.bind fun v hv => ?_
    have hown : MadeWith ctx u [] (v.code, v.needs ++ []) := ⟨hv.code.mono (by simp), by simpa using hv.needs⟩
    split
    · exact MadeWith.after (seriesArgument_yields hv _ hspan) hv.needs
    · exact MadeWith.after (lengthArgument_yields hv _ hspan) hv.needs
    · split
      · exact hown
      · exact hspan _ rfl
    · split
      · exact hown
      · exact hspan _ rfl
  | none =>
    cases hd : param.default with
    | none => exact h _ rfl
    | some d =>
      have hsuits := Indicator.default_suits hi hparam hd
      have hname : ∀ a, d = .price (.average a) → u.name a.name := fun a ha =>
        hnames _ (mem_filterMap.2 ⟨param, hparam, by rw [hd, ha]⟩)
      obtain ⟨x, kind, default⟩ := param
      dsimp only at hd hsuits ⊢
      unfold DefaultArgument.suits at hsuits
      split at hsuits
      · exact ⟨.borrow (.field (by simp [field, ofPlace])), by simp [field, ofPlace]⟩
      · have hmade : Lowers ctx u (fun _ => True) (name ctx "hlc3" { span with stop := span.start + 4 }) :=
          name_yields (hname .hlc3 rfl) fun _ _ => trivial
        refine (hdefault.and hmade).bind fun v hv => ?_
        refine MadeWith.after (.of_faults (hv.2 _) fun y hy => ?_) hv.1.needs
        refine Yields.value (?_ : Yields _ (fun _ => True) _) hy
        exact seriesArgument_yields hv.1 _ fun _ _ => trivial
      · exact ⟨.integer _, among_nil⟩
      · exact ⟨.number _, among_nil⟩
      · exact ⟨.number _, among_nil⟩
      · exact ⟨.bool _, among_nil⟩
      · cases hsuits

theorem indicator_yields (hi : i ∈ Indicator.catalogue) (hown : u.indicator i.qualifiedName)
    (hnames : ∀ x ∈ i.averageNames, u.name x) {args : List (Argument Actual)} (h : At bad span)
    (hdefault : AtDefault bad ctx span) (hargs : ∀ arg ∈ args, SoundArgument ctx u bad arg) :
    Lowers ctx u bad (indicator ctx i args span) := by
  have hspans : ∀ arg ∈ args, At bad arg.span := fun arg harg => (hargs arg harg).span
  refine (bindIndicator_yields h hspans).bind fun slots hmem => ?_
  have hall : ∀ y ∈ i.params.zip slots, Yields (MadeWith ctx u []) bad (indicatorArgument ctx i span y.1 y.2) := by
    rintro ⟨param, slot⟩ hy
    refine indicatorArgument_yields hi hnames (of_mem_zip hy).1 h hdefault fun a ha => ?_
    obtain ⟨arg, harg, rfl⟩ := hmem a (ha ▸ (of_mem_zip hy).2)
    exact ⟨(hargs arg harg).value, (hargs arg harg).result⟩
  refine (Yields.mapM hall).bind fun lowered hlowered => ?_
  refine made_mk (.call (.indicator hi (by simp)) (forall_mem_append.2 ⟨?_, ?_⟩))
    (among_append.2 ⟨among_flatMap fun y hy => (hlowered y hy).needs, by simpa using hown⟩)
  · split
    · exact forall_mem_singleton.2 .bars
    · simp
  · exact MadeWith.all hlowered (subset_append_left _ _)

end

end Lowering

/-! ## Expressions -/

def Expr.ownPlaces : Expr → List Span
  | call span _ calleeSpan args => span :: calleeSpan :: args.map (·.span)
  | e => [e.span]

namespace Lowering

/-- The names in the expression itself may be used, and the faults at its places have the property. -/
structure Admits (ctx : Context) (u : Usage) (bad : LoweringError → Prop) (n : Expr) : Prop where
  names : ∀ x ∈ n.ownReferences, u.name x
  called : ∀ x ∈ n.ownCalled, u.function x
  indicators : ∀ x i, .member "ta" x ∈ n.ownSpellings → Indicator.find? ("ta." ++ x) = some i →
    u.indicator i.qualifiedName ∧ AtDefault bad ctx n.span
  places : ∀ s ∈ n.ownPlaces, At bad s

section

variable {ctx : Context} {u : Usage} {bad : LoweringError → Prop} {span : Span}

theorem Admits.place {n : Expr} (h : Admits ctx u bad n) : At bad n.span :=
  h.places _ (by cases n <;> exact mem_cons_self)

theorem member_yields {qualifier : String} (hn : Admits ctx u bad (.name span (.member qualifier x))) :
    Lowers ctx u bad (member ctx qualifier x span) := by
  have hconstant : ∀ x, isWord x = true → (Code.path ["std", "f64", "consts", x]).Made ctx u [] := fun x hx =>
    .path (.standard (.inr rfl) (by simpa using ⟨rfl, rfl, hx⟩))
  unfold member
  split
  · exact made_mk (.path (.direction rfl (by simp))) (by simp)
  split
  · exact made_mk (.path (.direction rfl (by simp))) (by simp)
  split
  · exact made_mk (hconstant _ rfl) among_nil
  split
  · exact made_mk (hconstant _ rfl) among_nil
  split
  · exact made_mk (.text _) among_nil
  split
  · next hta =>
    subst hta
    split
    · next i hi =>
      obtain ⟨hown, hdefault⟩ := hn.indicators x i (mem_singleton_self _) hi
      split
      · exact indicator_yields (mem_of_find?_eq_some hi) hown
          (by simpa [Expr.ownReferences, hi] using hn.names) hn.place hdefault (by simp)
      · exact hn.place _ rfl
    · exact hn.place _ rfl
  · exact hn.place _ rfl

theorem call_yields {callee : Reference} {calleeSpan : Span} {exprs : List (Argument Expr)}
    (hn : Admits ctx u bad (.call span callee calleeSpan exprs)) {args : List (Argument Actual)}
    (hargs : ∀ arg ∈ args, SoundArgument ctx u bad arg) :
    Lowers ctx u bad (call ctx callee calleeSpan args span) := by
  have hspan : At bad span := hn.place
  have hcallee : At bad calleeSpan := hn.places _ (mem_cons_of_mem _ mem_cons_self)
  unfold call
  cases callee with
  | member qualifier x =>
    dsimp only
    split
    · next hta =>
      subst hta
      split
      · next i hi =>
        obtain ⟨hown, hdefault⟩ := hn.indicators x i (mem_singleton_self _) hi
        exact indicator_yields (mem_of_find?_eq_some hi) hown
          (by simpa [Expr.ownReferences, hi] using hn.names) hspan hdefault hargs
      · exact hcallee _ rfl
    split
    · exact mathCall_yields x hspan hargs
    · exact hcallee _ rfl
  | plain x =>
    dsimp only
    split
    · next y emitted sig hb =>
      have hcalls : ctx.Calls u x ⟨y, emitted, .function sig⟩ sig :=
        ⟨hn.names x (mem_singleton_self x), hn.called x (mem_singleton_self x), hb, rfl⟩
      exact functionCall_yields hcalls hspan hargs
    split
    · exact orElse_yields hspan hargs
    split
    · exact isMissing_yields hspan hargs
    split
    · exact toInteger_yields hspan hargs
    split
    · exact toNumber_yields hspan hargs
    · exact hcallee _ rfl

mutual

theorem lower_yields (e : Expr) (he : ∀ n ∈ e.nodes, Admits ctx u bad n) : Lowers ctx u bad (lower ctx e) := by
  cases e with
  | number span x isInt =>
    exact made_ofNumber x isInt
  | text | color =>
    rw [lower]
    exact made_mk (.text _) among_nil
  | bool =>
    exact made_mk (.bool _) among_nil
  | na =>
    rw [lower]
    exact made_mk (.call (.series rfl (by simp)) (by simpa using .barCount)) (by simp)
  | series span f =>
    exact field_made f
  | name span reference =>
    have hn := he _ mem_cons_self
    cases reference with
    | plain x =>
      exact name_yields (hn.names x (mem_singleton_self x)) hn.place
    | member qualifier x =>
      rw [lower]
      exact member_yields hn
  | call span callee calleeSpan args =>
    rw [Expr.nodes, forall_mem_cons] at he
    rw [lower]
    refine call_yields he.1 (lowerArguments_sound args he.2 fun arg harg => he.1.places _ ?_)
    exact mem_cons_of_mem _ (mem_cons_of_mem _ (mem_map_of_mem harg))
  | index span target offset =>
    rw [Expr.nodes, forall_mem_cons, forall_mem_append] at he
    refine (lower_yields target he.2.1).bind fun v hv => ?_
    refine (lower_yields offset he.2.2).bind fun n hn => ?_
    exact history_yields hv hn (he.2.1 _ target.self_mem_nodes).place (he.2.2 _ offset.self_mem_nodes).place
  | unary span op operand =>
    rw [Expr.nodes, forall_mem_cons] at he
    rw [lower]
    exact (lower_yields operand he.2).bind fun v hv => unary_yields op hv he.1.place
  | binary span op left right =>
    rw [Expr.nodes, forall_mem_cons, forall_mem_append] at he
    refine (lower_yields left he.2.1).bind fun l hl => ?_
    exact (lower_yields right he.2.2).bind fun r hr => binary_yields op hl hr he.1.place
  | ternary span c yes no =>
    rw [Expr.nodes, forall_mem_cons, forall_mem_append, forall_mem_append] at he
    obtain ⟨hown, ⟨hc, hyes⟩, hno⟩ := he
    rw [lower]
    refine (lower_yields c hc).bind fun c' hc' => ?_
    refine (lower_yields yes hyes).bind fun a ha => ?_
    refine (lower_yields no hno).bind fun b hb => ?_
    exact conditional_yields hc' ha hb (hc _ c.self_mem_nodes).place (hyes _ yes.self_mem_nodes).place
      (hno _ no.self_mem_nodes).place hown.place
  | tuple span items =>
    exact (he _ mem_cons_self).place _ rfl

theorem lowerArguments_sound (args : List (Argument Expr))
    (hnodes : ∀ n ∈ Expr.argumentNodes args, Admits ctx u bad n) (hspans : ∀ arg ∈ args, At bad arg.span) :
    ∀ arg ∈ lowerArguments ctx args, SoundArgument ctx u bad arg := by
  cases args with
  | nil => simp [lowerArguments]
  | cons arg rest =>
    obtain ⟨x, value, span⟩ := arg
    rw [Expr.argumentNodes, forall_mem_append] at hnodes
    obtain ⟨hspan, hrest⟩ := forall_mem_cons.1 hspans
    refine forall_mem_cons.2 ⟨?_, lowerArguments_sound rest hnodes.2 hrest⟩
    exact ⟨hspan, (hnodes.1 _ value.self_mem_nodes).place, lower_yields value hnodes.1⟩

end

theorem expression_yields (arity : Option Nat)
    (he : ∀ n ∈ e.nodes, Admits ctx u bad n) : Lowers ctx u bad (expression ctx arity e) := by
  have hspan := (he _ e.self_mem_nodes).place
  refine (lower_yields e he).bind fun v hv => ?_
  split
  · split
    · exact hv
    · exact hspan _ rfl
  · exact hspan _ rfl
  · exact hspan _ rfl
  · exact hv

/-! ## Values without a look at faults -/

theorem expression_made {arity : Option Nat} {v : Lowered} (hnames : ∀ x ∈ e.references, u.name x)
    (hcalled : ∀ x ∈ e.called, u.function x) (hindicators : ∀ i ∈ Indicator.catalogue, u.indicator i.qualifiedName)
    (h : expression ctx arity e = .ok v) : v.Made ctx u := by
  refine Yields.value (?_ : Yields _ (fun _ => True) _) h
  exact expression_yields arity fun n hn =>
    ⟨fun x hx => hnames x (mem_flatMap.2 ⟨n, hn, hx⟩), fun x hx => hcalled x (mem_flatMap.2 ⟨n, hn, hx⟩),
      fun x i _ hi => ⟨hindicators i (mem_of_find?_eq_some hi),
        .of_value fun _ _ _ => .of_value fun _ _ => trivial⟩,
      fun _ _ _ _ => trivial⟩

theorem parameterArgument_made {v : Lowered} (hv : v.Made ctx u) {kind : ValueKind} {what : String}
    {y : Code × List Need} (h : v.parameterArgument kind span what = .ok y) : MadeWith ctx u v.needs y := by
  refine Yields.value (?_ : Yields _ (fun _ => True) _) h
  exact parameterArgument_yields hv kind what fun _ _ => trivial

end

end Lowering

end ChartScript
