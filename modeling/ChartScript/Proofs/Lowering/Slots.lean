import ChartScript.Lowering.Expr
import Mathlib.Data.List.Nodup
import Mathlib.Data.List.Perm.Basic
/-!
# Arguments in their slots

A call passes values by position and by name.
-/
namespace ChartScript

open List

variable {i : Indicator}

theorem Indicator.find?_qualifiedName (hi : i ∈ catalogue) : find? i.qualifiedName = some i := by
  have hnodup : (catalogue.map qualifiedName).Nodup := by decide
  obtain ⟨before, after, hsplit⟩ := append_of_mem hi
  rw [hsplit, map_append, map_cons, nodup_append] at hnodup
  have hnone : before.find? (·.qualifiedName == i.qualifiedName) = none := by
    rw [find?_eq_none]
    intro j hj hname
    exact hnodup.2.2 _ (mem_map_of_mem hj) _ mem_cons_self (eq_of_beq hname)
  rw [find?, hsplit, find?_append, find?_cons_of_pos (by simp), hnone, Option.none_or]

/-- The argument with another value. -/
def Argument.map {α β : Type} (g : α → β) (arg : Argument α) : Argument β :=
  ⟨arg.name, g arg.value, arg.span⟩

namespace Lowering

variable {α β : Type} {function : String} {index? : String → Option Nat} {once : Bool} {args : List (Argument α)}

/-! ## Positions -/

theorem length_fillPositional (count shift : Nat) (values : List α) :
    (fillPositional count shift values).length = count := by
  simp [fillPositional]

variable {count j : Nat} {arg : Argument α} {x : String} {slots : List (Option α)} {span : Span}

theorem getElem?_fillPositional {i : Nat} (hi : i < count) (shift : Nat) (values : List α) :
    (fillPositional count shift values)[i]? = some (if i < shift then none else values[i - shift]?) := by
  simp [fillPositional, hi]

theorem positional_map (g : α → β) (args : List (Argument α)) :
    positional (args.map (·.map g)) = (positional args).map g := by
  rw [positional, positional, filter_map, map_map, map_map]
  rfl

theorem fillPositional_map (g : α → β) (count shift : Nat) (values : List α) :
    fillPositional count shift (values.map g) = (fillPositional count shift values).map (Option.map g) := by
  rw [fillPositional, fillPositional, map_map]
  refine map_congr_left fun i _ => ?_
  simp only [Function.comp, getElem?_map]
  split <;> rfl

/-! ## Names -/

def namedAt (index? : String → Option Nat) (args : List (Argument α)) (i : Nat) : List α :=
  (args.filter fun arg => arg.name.bind index? == some i).map (·.value)

theorem namedAt_cons_of_none (h : arg.name = none) (i : Nat) :
    namedAt index? (arg :: args) i = namedAt index? args i := by
  rw [namedAt, filter_cons_of_neg (by simp [h])]
  rfl

theorem namedAt_cons_of_some (h : arg.name = some x) (hj : index? x = some j) (i : Nat) :
    namedAt index? (arg :: args) i =
      if j = i then arg.value :: namedAt index? args i else namedAt index? args i := by
  by_cases hij : j = i
  · rw [if_pos hij, namedAt, filter_cons_of_pos (by simp [h, hj, hij])]
    rfl
  · rw [if_neg hij, namedAt, filter_cons_of_neg (by simp [h, hj, hij])]
    rfl

/-- The slots after all values that are passed by name. -/
def overridden (index? : String → Option Nat) (args : List (Argument α)) (slots : List (Option α)) :
    List (Option α) :=
  slots.mapIdx fun i slot => (namedAt index? args i).getLast?.or slot

theorem overridden_nil (slots : List (Option α)) : overridden index? [] slots = slots := by
  refine ext_getElem? fun i => ?_
  simp [overridden, namedAt]

theorem overridden_cons_of_none (h : arg.name = none) (slots : List (Option α)) :
    overridden index? (arg :: args) slots = overridden index? args slots := by
  simp only [overridden, namedAt_cons_of_none h]

theorem overridden_set (h : arg.name = some x) (hj : index? x = some j) (slots : List (Option α)) :
    overridden index? args (slots.set j (some arg.value)) = overridden index? (arg :: args) slots := by
  refine ext_getElem? fun i => ?_
  rw [overridden, overridden, getElem?_mapIdx, getElem?_mapIdx, getElem?_set,
    namedAt_cons_of_some h hj]
  by_cases hij : j = i
  · subst hij
    rw [if_pos rfl, if_pos rfl, getLast?_cons]
    by_cases hlength : j < slots.length
    · rw [if_pos hlength, getElem?_eq_getElem hlength, Option.map_some, Option.map_some]
      cases (namedAt index? args j).getLast? <;> rfl
    · rw [if_neg hlength, getElem?_eq_none (by omega)]
      rfl
  · rw [if_neg hij, if_neg hij]

theorem namedAt_map (g : α → β) (args : List (Argument α)) (i : Nat) :
    namedAt index? (args.map (·.map g)) i = (namedAt index? args i).map g := by
  rw [namedAt, namedAt, filter_map, map_map, map_map]
  rfl

theorem overridden_map (g : α → β) (args : List (Argument α)) (slots : List (Option α)) :
    overridden index? (args.map (·.map g)) (slots.map (Option.map g)) =
    (overridden index? args slots).map (Option.map g) := by
  refine ext_getElem? fun i => ?_
  simp only [overridden, getElem?_mapIdx, getElem?_map, namedAt_map, getLast?_map, Option.map_map]
  refine congrArg (Option.map · _) (funext fun slot => ?_)
  simp only [Function.comp, Option.map_or]

/-- Every parameter gets at most one value. -/
def SuppliedOnce (index? : String → Option Nat) (args : List (Argument α))
    (slots : List (Option α)) : Prop :=
  ∀ i slot, slots[i]? = some slot → slot.toList.length + (namedAt index? args i).length ≤ 1

theorem suppliedOnce_nil (slots : List (Option α)) : SuppliedOnce index? [] slots := by
  rintro i (_ | _) - <;> simp [namedAt]

theorem suppliedOnce_cons_of_none (h : arg.name = none) (slots : List (Option α)) :
    SuppliedOnce index? (arg :: args) slots ↔ SuppliedOnce index? args slots := by
  simp only [SuppliedOnce, namedAt_cons_of_none h]

theorem suppliedOnce_set (h : arg.name = some x) (hj : index? x = some j) (slots : List (Option α)) :
    SuppliedOnce index? (arg :: args) slots ↔ (slots[j]?.join).isSome = false ∧ SuppliedOnce index? args (slots.set
    j (some arg.value)) := by
  have hcons : ∀ i, namedAt index? (arg :: args) i = _ := namedAt_cons_of_some h hj
  constructor
  · intro hone
    have hown : ∀ slot, slots[j]? = some slot → slot = none ∧ (namedAt index? args j).length = 0 := by
      intro slot hslot
      have hle := hone j slot hslot
      rw [hcons, if_pos rfl, length_cons] at hle
      cases slot with
      | none => exact ⟨rfl, by omega⟩
      | some v =>
        simp only [Option.toList_some, length_singleton] at hle
        omega
    constructor
    · cases hslot : slots[j]? with
      | none => rfl
      | some slot =>
        rw [(hown slot hslot).1]
        rfl
    · intro i slot hslot
      rw [getElem?_set] at hslot
      split at hslot
      · next hij =>
        subst hij
        split at hslot
        · next hlength =>
          cases hslot
          rw [(hown _ (getElem?_eq_getElem hlength)).2]
          exact Nat.le_refl 1
        · cases hslot
      · next hij =>
        have hle := hone i slot hslot
        rwa [hcons, if_neg hij] at hle
  · rintro ⟨hfree, hone⟩ i slot hslot
    rw [hcons]
    split
    · next hij =>
      subst hij
      have hlength := (List.getElem?_eq_some_iff.1 hslot).1
      have hle := hone j (some arg.value) (by rw [getElem?_set_self hlength])
      cases slot with
      | none =>
        simp only [Option.toList_some, length_singleton] at hle
        simp only [Option.toList_none, length_nil, length_cons]
        omega
      | some v =>
        rw [hslot] at hfree
        cases hfree
    · next hij => exact hone i slot (by rw [getElem?_set_ne hij, hslot])

theorem suppliedOnce_map (g : α → β) (args : List (Argument α)) (slots : List (Option α)) :
    SuppliedOnce index? (args.map (·.map g)) (slots.map (Option.map g)) ↔ SuppliedOnce index? args slots := by
  have hlength : ∀ slot : Option α, (slot.map g).toList.length = slot.toList.length := by rintro (_ | _) <;> rfl
  constructor
  · intro hone i slot hslot
    have hle := hone i (slot.map g) (by rw [getElem?_map, hslot]; rfl)
    rwa [namedAt_map, length_map, hlength] at hle
  · intro hone i slot hslot
    rw [getElem?_map] at hslot
    obtain ⟨slot, hown, rfl⟩ := Option.map_eq_some_iff.1 hslot
    rw [namedAt_map, length_map, hlength]
    exact hone i slot hown

theorem fillNamed_eq_ok_iff {slots' : List (Option α)} : fillNamed function index? once slots args = .ok slots' ↔
    (∀ arg ∈ args, ∀ x, arg.name = some x → (index? x).isSome) ∧ (once = true → SuppliedOnce index? args slots) ∧
    slots' = overridden index? args slots := by
  induction args generalizing slots with
  | nil =>
    rw [overridden_nil]
    constructor
    · rintro ⟨⟩
      exact ⟨by simp, fun _ => suppliedOnce_nil _, rfl⟩
    · rintro ⟨-, -, rfl⟩
      rfl
  | cons arg rest ih =>
    cases hname : arg.name with
    | none =>
      have hrun : fillNamed function index? once slots (arg :: rest) =
          fillNamed function index? once slots rest := by simp only [fillNamed, hname]
      rw [hrun, ih, overridden_cons_of_none hname, suppliedOnce_cons_of_none hname, forall_mem_cons]
      simp [hname]
    | some x =>
      cases hj : index? x with
      | none =>
        have hrun : fillNamed function index? once slots (arg :: rest) =
            fail arg.span (.noParameter function x) := by simp only [fillNamed, hname, hj]
        rw [hrun]
        constructor
        · rintro ⟨⟩
        · rintro ⟨hknown, -⟩
          have := hknown arg mem_cons_self x hname
          simp [hj] at this
      | some j =>
        rw [fillNamed]
        simp only [hname, hj, ← overridden_set hname hj, suppliedOnce_set hname hj, forall_mem_cons]
        split
        · next htwice =>
          constructor
          · rintro ⟨⟩
          · rintro ⟨-, hone, -⟩
            rw [(hone htwice.1).1] at htwice
            cases htwice.2
        · next hfirst =>
          have hfree : once = true → (slots[j]?.join).isSome = false := by
            intro honce
            simpa [honce] using hfirst
          rw [ih]
          constructor
          · rintro ⟨hknown, hone, hslots⟩
            refine ⟨⟨?_, hknown⟩, fun honce => ⟨hfree honce, hone honce⟩, hslots⟩
            rintro y ⟨⟩
            rw [hj]
            rfl
          · rintro ⟨⟨-, hknown⟩, hone, hslots⟩
            exact ⟨hknown, fun honce => (hone honce).2, hslots⟩

/-! ## Where a value is -/

theorem getElem?_overridden (i : Nat) (slots : List (Option α)) :
    (overridden index? args slots)[i]? = slots[i]?.map fun slot => (namedAt index? args i).getLast?.or slot := by
  rw [overridden, getElem?_mapIdx]

theorem slot_of_named (hone : SuppliedOnce index? args slots) (harg : arg ∈ args)
    (hname : arg.name = some x) {i : Nat} (hi : index? x = some i) (hlt : i < slots.length) :
    (overridden index? args slots)[i]? = some (some arg.value) := by
  have hmem : arg.value ∈ namedAt index? args i := mem_map_of_mem (mem_filter.2 ⟨harg, by simp [hname, hi]⟩)
  have hle := hone i _ (getElem?_eq_getElem hlt)
  obtain ⟨v, hv⟩ : ∃ v, namedAt index? args i = [v] :=
    length_eq_one_iff.1 (by have := length_pos_of_mem hmem; omega)
  rw [hv, mem_singleton] at hmem
  rw [getElem?_overridden, getElem?_eq_getElem hlt, hv, hmem]
  rfl

theorem slot_of_positional (hone : SuppliedOnce index? args slots) {i : Nat} {v : α}
    (hslot : slots[i]? = some (some v)) : (overridden index? args slots)[i]? = some (some v) := by
  have hle := hone i _ hslot
  have hnamed : namedAt index? args i = [] := by
    rw [Option.toList_some, length_singleton] at hle
    exact length_eq_zero_iff.1 (by omega)
  rw [getElem?_overridden, hslot, hnamed]
  rfl

theorem getElem?_positional (h : args[j]? = some arg) (hname : arg.name = none) :
    (positional args)[(positional (args.take j)).length]? = some arg.value := by
  obtain ⟨hj, rfl⟩ := List.getElem?_eq_some_iff.1 h
  have hsplit : positional args = positional (args.take j) ++ args[j].value :: positional (args.drop (j + 1)) := by
    conv_lhs => rw [← take_append_drop j args, ← getElem_cons_drop hj]
    rw [positional, filter_append, filter_cons_of_pos (by rw [hname]; rfl), map_append]
    rfl
  rw [hsplit, getElem?_append_right (Nat.le_refl _), Nat.sub_self]
  rfl

/-! ## What is passed altogether -/

def Known (index? : String → Option Nat) (count : Nat) (args : List (Argument α)) : Prop :=
  ∀ arg ∈ args, ∀ x, arg.name = some x → ∃ i, index? x = some i ∧ i < count

theorem filterMap_set (h : slots[j]? = some none) (v : α) :
    ((slots.set j (some v)).filterMap id).Perm (v :: slots.filterMap id) := by
  obtain ⟨hj, hnone⟩ := List.getElem?_eq_some_iff.1 h
  have hsplit : slots = slots.take j ++ none :: slots.drop (j + 1) := by
    rw [← hnone, getElem_cons_drop, take_append_drop]
  have hset : slots.set j (some v) = slots.take j ++ some v :: slots.drop (j + 1) :=
    set_eq_take_append_cons_drop ▸ if_pos hj
  have hmany : slots.filterMap id = (slots.take j).filterMap id ++ (slots.drop (j + 1)).filterMap id := by
    conv_lhs => rw [hsplit, filterMap_append]
    rfl
  rw [hset, hmany, filterMap_append]
  exact perm_middle

theorem overridden_perm (hknown : Known index? slots.length args) (hone : SuppliedOnce index? args slots) :
    ((overridden index? args slots).filterMap id).Perm (slots.filterMap id ++
    (args.filter (·.name.isSome)).map (·.value)) := by
  induction args generalizing slots with
  | nil => rw [overridden_nil, filter_nil, map_nil, append_nil]
  | cons arg rest ih =>
    obtain ⟨hown, hrest⟩ := forall_mem_cons.1 hknown
    cases hname : arg.name with
    | none =>
      rw [overridden_cons_of_none hname, filter_cons_of_neg (by simp [hname])]
      exact ih hrest ((suppliedOnce_cons_of_none hname slots).1 hone)
    | some x =>
      obtain ⟨j, hj, hlt⟩ := hown x hname
      obtain ⟨hfree, hone⟩ := (suppliedOnce_set hname hj slots).1 hone
      have hnone : slots[j]? = some none := by
        rw [getElem?_eq_getElem hlt] at hfree ⊢
        exact congrArg some (Option.isSome_eq_false_iff.1 hfree |> Option.isNone_iff_eq_none.1)
      rw [← overridden_set hname hj, filter_cons_of_pos (by simp [hname]), map_cons]
      refine (ih (by rwa [length_set]) hone).trans ?_
      exact ((filterMap_set hnone arg.value).append_right _).trans perm_middle.symm

theorem filterMap_fillPositional {shift : Nat} {values : List α} (h : values.length + shift ≤ count) :
    (fillPositional count shift values).filterMap id = values := by
  have hsplit : fillPositional count shift values =
      replicate shift none ++ (values.map some ++ replicate (count - (values.length + shift)) none) := by
    refine ext_getElem? fun i => ?_
    by_cases hi : i < count
    · rw [getElem?_fillPositional hi]
      by_cases hshift : i < shift
      · simp [hshift, getElem?_append]
      · by_cases hlt : i - shift < values.length
        · simp [hshift, hlt, getElem?_append]
        · simp [hshift, hlt, getElem?_append, getElem?_replicate]
          omega
    · rw [getElem?_eq_none (by rw [length_fillPositional]; omega), getElem?_eq_none (by simp; omega)]
  rw [hsplit, filterMap_append, filterMap_append, filterMap_map]
  simp

theorem slots_perm {shift : Nat} (hcount : (positional args).length + shift ≤ count)
    (hknown : Known index? count args)
    (hone : SuppliedOnce index? args (fillPositional count shift (positional args))) :
    ((overridden index? args (fillPositional count shift (positional args))).filterMap id).Perm
      (args.map (·.value)) := by
  refine (overridden_perm (by rwa [length_fillPositional]) hone).trans ?_
  rw [filterMap_fillPositional hcount, positional, ← map_append]
  have hparts := filter_append_perm (·.name.isNone) args
  simp only [Option.not_isNone] at hparts
  exact hparts.map _

theorem fillNamed_append_of_none {before after : List (Argument α)}
    (h : ∀ arg ∈ before, arg.name = none) (slots : List (Option α)) :
    fillNamed function index? once slots (before ++ after) = fillNamed function index? once slots after := by
  induction before with
  | nil => rfl
  | cons arg before ih =>
    obtain ⟨hname, hbefore⟩ := forall_mem_cons.1 h
    rw [cons_append, fillNamed]
    simp only [hname]
    exact ih hbefore

/-! ## What is lost -/

theorem filled_set (hj : j < slots.length) (v : α) : (slots.set j (some v)).countP (·.isSome) =
      slots.countP (·.isSome) + if (slots[j]?.join).isSome then 0 else 1 := by
  rw [countP_set hj, getElem?_eq_getElem hj]
  cases hslot : slots[j] with
  | none => simp
  | some w =>
    have hpos : 0 < slots.countP (·.isSome) := countP_pos_iff.2 ⟨some w, hslot ▸ getElem_mem hj, rfl⟩
    simp
    omega

theorem filled_overridden_le (hknown : Known index? slots.length args) :
    (overridden index? args slots).countP (·.isSome) ≤ slots.countP (·.isSome) + args.countP (·.name.isSome) := by
  induction args generalizing slots with
  | nil => rw [overridden_nil]; exact Nat.le_add_right _ _
  | cons arg rest ih =>
    obtain ⟨hown, hrest⟩ := forall_mem_cons.1 hknown
    cases hname : arg.name with
    | none =>
      rw [overridden_cons_of_none hname, countP_cons_of_neg (by simp [hname])]
      exact ih hrest
    | some x =>
      obtain ⟨j, hj, hlt⟩ := hown x hname
      rw [← overridden_set hname hj, countP_cons_of_pos (by simp [hname])]
      have hset := filled_set hlt arg.value
      rw [← length_set (i := j) (a := some arg.value)] at hrest
      have hle := ih hrest
      split at hset <;> omega

theorem suppliedOnce_of_filled (hknown : Known index? slots.length args)
    (h : slots.countP (·.isSome) + args.countP (·.name.isSome) ≤ (overridden index? args slots).countP (·.isSome)) :
    SuppliedOnce index? args slots := by
  induction args generalizing slots with
  | nil => exact suppliedOnce_nil slots
  | cons arg rest ih =>
    obtain ⟨hown, hrest⟩ := forall_mem_cons.1 hknown
    cases hname : arg.name with
    | none =>
      rw [overridden_cons_of_none hname, countP_cons_of_neg (by simp [hname])] at h
      exact (suppliedOnce_cons_of_none hname slots).2 (ih hrest h)
    | some x =>
      obtain ⟨j, hj, hlt⟩ := hown x hname
      rw [← overridden_set hname hj, countP_cons_of_pos (by simp [hname])] at h
      have hset := filled_set hlt arg.value
      rw [← length_set (i := j) (a := some arg.value)] at hrest
      have hle := filled_overridden_le hrest
      have hfree : (slots[j]?.join).isSome = false := by
        by_contra htaken
        rw [if_pos (Bool.not_eq_false _ ▸ htaken)] at hset
        omega
      rw [hfree] at hset
      refine (suppliedOnce_set hname hj slots).2 ⟨hfree, ih hrest ?_⟩
      rw [hset]
      exact Nat.le_trans (by simp only [Bool.false_eq_true, if_false]; omega) h

/-! ## Indicators -/

def omitted (i : Indicator) (args : List (Argument α)) : Nat :=
  if i.leadingSourceOptional ∧ !(args.any fun arg => i.params.head?.any fun p => arg.name == some p.name) ∧
      (positional args).length + 1 = i.params.length then 1 else 0

theorem bindIndicator_eq (h : (positional args).length + omitted i args ≤ i.params.length) :
    bindIndicator i args span = fillNamed i.qualifiedName i.parameterIndex? true (fillPositional i.params.length
    (omitted i args) (positional args)) args :=
  if_neg (Nat.not_lt.2 h)

theorem count_le_of_bindIndicator (h : bindIndicator i args span = .ok slots) :
    (positional args).length + omitted i args ≤ i.params.length := by
  by_contra hmore
  have hrefused : bindIndicator i args span = fail span
      (.tooManyArguments i.qualifiedName i.params.length (positional args).length) :=
    if_pos (Nat.not_le.1 hmore)
  rw [hrefused] at h
  cases h

def indicatorCall (i : Indicator) (lowered : List (Code × List Need)) : Lowered where
  code := .call (.path ["ta", i.name]) ((if i.needsBars then [Code.name "bars"] else []) ++ lowered.map (·.1))
  kind := if 1 < i.outputs then .tuple i.outputs else .series
  needs := lowered.flatMap (·.2) ++ [.indicator i.qualifiedName]

theorem indicator_of_bind {ctx : Context} {args : List (Argument Actual)} {slots : List (Option Actual)}
    (h : bindIndicator i args span = .ok slots) :
    indicator ctx i args span = (i.params.zip slots).mapM (fun x => indicatorArgument ctx i span x.1 x.2) >>= fun
    lowered => .ok (indicatorCall i lowered) := by
  rw [indicator, h]
  rfl

theorem lowerArguments_eq_map (ctx : Context) (args : List (Argument Expr)) :
    lowerArguments ctx args = args.map (·.map fun e => ⟨e.span, lower ctx e⟩) := by
  induction args with
  | nil => rfl
  | cons arg rest ih =>
    rw [lowerArguments, ih, map_cons]
    rfl

theorem lower_indicator (hi : i ∈ Indicator.catalogue) (ctx : Context) (args : List (Argument Expr))
    (span calleeSpan : Span) :
    lower ctx (.call span (.member "ta" i.name) calleeSpan args) =
      indicator ctx i (lowerArguments ctx args) span := by
  rw [lower, call]
  simp only [if_pos, show "ta." ++ i.name = i.qualifiedName from rfl, Indicator.find?_qualifiedName hi]

end Lowering

end ChartScript
