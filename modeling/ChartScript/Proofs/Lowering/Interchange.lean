import ChartScript.Proofs.Lowering.Slots
import ChartScript.Proofs.Outcome
/-!
# Arguments of indicators by position and by name

The arguments of an indicator can be passed by position or, from any of them on and in any order, by
name; the call means the same.
-/
namespace ChartScript

open List Indicator

namespace Indicator

variable {i : Indicator}

/-- The names of the parameters in order. -/
def parameterNames (i : Indicator) : List String :=
  i.params.map (·.name)

theorem nodup_parameterNames : ∀ i ∈ catalogue, i.parameterNames.Nodup := by
  decide

theorem two_le_of_leadingSourceOptional :
    ∀ i ∈ catalogue, i.leadingSourceOptional = true → 2 ≤ i.params.length := by
  decide

theorem parameterIndex?_getElem (hi : i.parameterNames.Nodup) (k : Nat)
    (hk : k < i.parameterNames.length) : i.parameterIndex? i.parameterNames[k] = some k := by
  rw [parameterIndex?, findIdx?_eq_some_iff_getElem]
  refine ⟨by simpa [parameterNames] using hk, by simp [parameterNames], fun j hj => ?_⟩
  have hne : i.parameterNames[j] ≠ i.parameterNames[k] := fun heq => absurd ((hi.getElem_inj_iff).1 heq) (by omega)
  simpa [parameterNames] using hne

end Indicator

namespace Lowering

variable {α β : Type}

/-- The arguments pass the values: the first `k` of them by position, and the others, in any order
and anywhere between these, by the names of their parameters. -/
structure Passes (names : List String) (values : List α) (k : Nat) (args : List (Argument α)) :
    Prop where
  positions : positional args = values.take k
  names : (args.filterMap fun arg => arg.name.map (·, arg.value)).Perm ((names.zip values).drop k)

namespace Passes

variable {names : List String} {values : List α} {k : Nat} {args : List (Argument α)}

theorem map (h : Passes names values k args) (f : α → β) : Passes names (values.map f) k (args.map (·.map f)) where
  positions := by rw [positional_map, h.positions, map_take]
  names := by
    have hmap := h.names.map (Prod.map id f)
    rw [map_drop, ← zip_map_right] at hmap
    refine List.Perm.trans (.of_eq ?_) hmap
    rw [filterMap_map, map_filterMap]
    refine filterMap_congr fun arg _ => ?_
    simp only [Function.comp, Option.map_map]
    rfl

theorem filterMap_index {index? : String → Option Nat} {pairs : List (String × α)} {start : Nat}
    (h : ∀ j (hj : j < pairs.length), index? pairs[j].1 = some (start + j)) (i : Nat) :
    pairs.filterMap (fun pair => if index? pair.1 = some i then some pair.2 else none) =
      if start ≤ i then ((pairs[i - start]?).map (·.2)).toList else [] := by
  induction pairs generalizing start with
  | nil => simp
  | cons pair rest ih =>
    have hfirst : index? pair.1 = some start := h 0 (by simp)
    have horder : ∀ j (hj : j < rest.length), index? rest[j].1 = some (start + 1 + j) := by
      intro j hj
      have := h (j + 1) (by simpa using hj)
      rwa [getElem_cons_succ, ← Nat.add_assoc, Nat.add_right_comm] at this
    have hrest := ih horder
    rw [filterMap_cons, hrest, hfirst]
    rcases Nat.lt_trichotomy i start with hlt | rfl | hlt
    · rw [if_neg (by simp; omega), if_neg (by omega), if_neg (by omega)]
    · rw [if_pos rfl, if_neg (by omega), if_pos (Nat.le_refl _), Nat.sub_self]
      rfl
    · obtain ⟨d, rfl⟩ := Nat.exists_eq_add_of_lt hlt
      rw [if_neg (by simp; omega), if_pos (by omega), if_pos (by omega),
        show start + d + 1 - start = d + 1 by omega, show start + d + 1 - (start + 1) = d by omega,
        getElem?_cons_succ]

theorem namedAt_eq (h : Passes names values k args) (hlength : values.length = names.length)
    {index? : String → Option Nat}
    (hindex : ∀ j (hj : j < names.length), index? names[j] = some j) (i : Nat) :
    namedAt index? args i = if k ≤ i then (values[i]?).toList else [] := by
  have hpairs : namedAt index? args i = (args.filterMap fun arg => arg.name.map (·, arg.value)).filterMap
      fun pair => if index? pair.1 = some i then some pair.2 else none := by
    rw [namedAt, filterMap_filterMap, ← filterMap_eq_map, ← filterMap_eq_filter, filterMap_filterMap]
    refine filterMap_congr fun arg _ => ?_
    cases hname : arg.name with
    | none => simp [Option.guard, hname]
    | some x => by_cases hx : index? x = some i <;> simp [Option.guard, hname, hx]
  have hperm := h.names.filterMap fun pair => if index? pair.1 = some i then some pair.2 else none
  have horder : ∀ j (hj : j < ((names.zip values).drop k).length),
      index? ((names.zip values).drop k)[j].1 = some (k + j) := by
    intro j hj
    rw [getElem_drop, getElem_zip]
    exact hindex (k + j) _
  rw [← hpairs, filterMap_index horder] at hperm
  by_cases hki : k ≤ i
  · have hvalue : (((names.zip values).drop k)[i - k]?).map (·.2) = values[i]? := by
      rw [getElem?_drop, Nat.add_sub_cancel' hki, ← getElem?_map, map_snd_zip]
      omega
    rw [if_pos hki, hvalue] at hperm
    rw [if_pos hki]
    cases hi : values[i]? with
    | none => simpa [hi] using hperm
    | some v => simpa [hi] using hperm
  · rw [if_neg hki] at hperm ⊢
    exact hperm.eq_nil

end Passes

section

variable {i : Indicator} {values : List α} {k : Nat} {args : List (Argument α)}

theorem bindIndicator_of_passes (hi : i ∈ catalogue) (hlength : values.length = i.params.length)
    (hk : k ≤ i.params.length) (h : Passes i.parameterNames values k args)
    (hshift : ¬(i.leadingSourceOptional = true ∧ k + 1 = i.params.length)) (span : Span) :
    bindIndicator i args span = .ok (values.map some) := by
  have hcount : (positional args).length = k := by
    rw [h.positions, length_take]
    omega
  have hnames : i.parameterNames.length = i.params.length := by simp [parameterNames]
  have hindex := parameterIndex?_getElem (nodup_parameterNames i hi)
  have hnamed := h.namedAt_eq (hlength.trans hnames.symm) hindex
  have homitted : omitted i args = 0 := by rw [omitted, hcount, if_neg fun hleft => hshift ⟨hleft.1, hleft.2.2⟩]
  rw [bindIndicator_eq (by omega), homitted, h.positions, fillNamed_eq_ok_iff]
  have hslot : ∀ j, j < i.params.length →
      (fillPositional i.params.length 0 (values.take k))[j]? = some ((values.take k)[j]?) :=
    fun j hj => getElem?_fillPositional hj 0 _
  refine ⟨?_, fun _ j slot hj => ?_, ?_⟩
  · intro arg harg x hx
    have hmem : (x, arg.value) ∈ args.filterMap fun arg => arg.name.map (·, arg.value) :=
      mem_filterMap.2 ⟨arg, harg, by simp [hx]⟩
    have hzip := mem_of_mem_drop (h.names.subset hmem)
    obtain ⟨j, hj, rfl⟩ := getElem_of_mem (of_mem_zip hzip).1
    rw [hindex]
    rfl
  · have hlt := (List.getElem?_eq_some_iff.1 hj).1
    rw [length_fillPositional] at hlt
    obtain rfl := Option.some.inj ((hslot j hlt).symm.trans hj)
    rw [hnamed, getElem?_take]
    by_cases hkj : k ≤ j
    · rw [if_neg (by omega), if_pos hkj]
      cases values[j]? <;> simp
    · rw [if_pos (by omega), if_neg hkj]
      cases values[j]? <;> simp
  · refine ext_getElem? fun j => ?_
    rw [overridden, getElem?_mapIdx, getElem?_map]
    by_cases hlt : j < i.params.length
    · rw [hslot j hlt, hnamed, getElem?_take, getElem?_eq_getElem (by omega)]
      by_cases hkj : k ≤ j
      · rw [if_pos hkj, if_neg (Nat.not_lt.2 hkj)]
        rfl
      · rw [if_neg hkj, if_pos (Nat.not_le.1 hkj)]
        rfl
    · rw [getElem?_eq_none (by omega), getElem?_eq_none]
      · rfl
      · rw [length_fillPositional]
        omega

theorem bindIndicator_of_last_named (hi : i ∈ catalogue) (hlength : values.length = i.params.length)
    (h : Passes i.parameterNames values k args) (hleading : i.leadingSourceOptional = true)
    (hk : k + 1 = i.params.length) :
    ∃ arg ∈ args, ∃ p, i.params[k]? = some p ∧ arg.name = some p.name ∧
    ∀ span, bindIndicator i args span = .error ⟨arg.span, .argumentTwice p.name⟩ := by
  have htwo := two_le_of_leadingSourceOptional i hi hleading
  have hnames : i.parameterNames.length = i.params.length := by simp [parameterNames]
  have hnodup := nodup_parameterNames i hi
  have hcount : (positional args).length = k := by
    rw [h.positions, length_take]
    omega
  -- the only argument with a name is for the last parameter
  have hlast : (i.parameterNames.zip values).drop k = [(i.parameterNames[k], values[k])] := by
    rw [drop_eq_getElem_cons (by simp; omega), drop_eq_nil_of_le (by simp; omega), getElem_zip]
  have hnamed := perm_singleton.1 (hlast ▸ h.names)
  obtain ⟨before, arg, after, rfl, hbefore, harg, hafter⟩ := filterMap_eq_cons_iff.1 hnamed
  obtain ⟨x, hx, hpair⟩ := Option.map_eq_some_iff.1 harg
  obtain ⟨rfl, hvalue⟩ := Prod.mk.inj hpair
  have hplain : ∀ a ∈ before, a.name = none := fun a ha => by simpa using hbefore a ha
  have hplain' : ∀ a ∈ after, a.name = none := fun a ha => by simpa using filterMap_eq_nil_iff.1 hafter a ha
  have homitted : omitted i (before ++ arg :: after) = 1 := by
    refine if_pos ⟨hleading, ?_, by omega⟩
    rw [Bool.not_eq_true', any_eq_false]
    intro a ha hfirst
    obtain ⟨p, hp, hname⟩ := (Option.any_eq_true _ _).1 hfirst
    rw [head?_eq_getElem?] at hp
    have hzero : i.parameterNames[0] = p.name := by simp [parameterNames, (List.getElem?_eq_some_iff.1 hp).2]
    have hown := eq_of_beq hname
    rcases mem_append.1 ha with ha | ha
    · rw [hplain a ha] at hown
      cases hown
    rcases mem_cons.1 ha with rfl | ha
    · rw [hx, ← hzero, Option.some.injEq, hnodup.getElem_inj_iff] at hown
      omega
    · rw [hplain' a ha] at hown
      cases hown
  refine ⟨arg, by simp, i.params[k], getElem?_eq_getElem (by omega), ?_, fun span => ?_⟩
  · rw [hx]
    simp [parameterNames]
  · have hslot : (fillPositional i.params.length 1 (values.take k))[k]? = some (values[k - 1]?) := by
      rw [getElem?_fillPositional (by omega), if_neg (by omega), getElem?_take_of_lt (by omega)]
    rw [bindIndicator_eq (by omega), homitted, h.positions, fillNamed_append_of_none hplain, fillNamed]
    simp only [hx, parameterIndex?_getElem hnodup, hslot,
      getElem?_eq_getElem (show k - 1 < values.length by omega)]
    simp [fail, parameterNames]

end

/-! ## Calls -/

/-- A call of an indicator that passes the first `k` arguments by position and the others by name is
the call that passes all of them by position. Only if a single one is passed by name to an indicator
whose first argument may be left out, the call is refused. -/
theorem lower_indicator_named {i : Indicator} (hi : i ∈ catalogue) (ctx : Context)
    {values : List Expr} (hvalues : values.length = i.params.length) {k : Nat}
    (hk : k ≤ i.params.length) {args all : List (Argument Expr)}
    (hargs : Passes i.parameterNames values k args)
    (hall : Passes i.parameterNames values i.params.length all)
    (span span' calleeSpan calleeSpan' : Span) :
    if i.leadingSourceOptional = true ∧ k + 1 = i.params.length then
      ∃ arg ∈ args, ∃ p, i.params[k]? = some p ∧ arg.name = some p.name ∧
        lower ctx (.call span (.member "ta" i.name) calleeSpan args) = .error ⟨arg.span, .argumentTwice p.name⟩
    else
      lower ctx (.call span (.member "ta" i.name) calleeSpan args) =
        lower ctx (.call span' (.member "ta" i.name) calleeSpan' all) := by
  have hlength : (values.map fun e => (⟨e.span, lower ctx e⟩ : Actual)).length = i.params.length := by
    rw [length_map, hvalues]
  have hargs' := hargs.map fun e => (⟨e.span, lower ctx e⟩ : Actual)
  have hall' := hall.map fun e => (⟨e.span, lower ctx e⟩ : Actual)
  rw [lower_indicator hi, lower_indicator hi, lowerArguments_eq_map, lowerArguments_eq_map]
  split
  · next hlast =>
    obtain ⟨arg, harg, p, hp, hname, hrefused⟩ := bindIndicator_of_last_named hi hlength hargs' hlast.1 hlast.2
    obtain ⟨arg, hmem, rfl⟩ := mem_map.1 harg
    refine ⟨arg, hmem, p, hp, hname, ?_⟩
    rw [indicator, hrefused]
    rfl
  · next hlast =>
    -- once every parameter has a value, neither the form of the call nor its place matters
    rw [indicator_of_bind (bindIndicator_of_passes hi hlength hk hargs' hlast span),
      indicator_of_bind (bindIndicator_of_passes hi hlength (Nat.le_refl _) hall' (by omega) span'),
      zip_map_right, mapM_map, mapM_map]
    rfl

def callOf (function : String) (args : List (Argument Expr)) : Expr :=
  .call .origin (.member "ta" function) .origin args

def bandValues : List Expr :=
  [.series .origin .close, .number .origin 20.0 true, .number .origin 2.0 false]

def bandArguments : List (Argument Expr) :=
  [⟨none, .series .origin .close, .origin⟩, ⟨some "mult", .number .origin 2.0 false, .origin⟩,
    ⟨some "length", .number .origin 20.0 true, .origin⟩]

theorem lower_indicator_named_bands : ∃ i ∈ catalogue, i.name = "bb" ∧
    i.params.length = 3 ∧ i.leadingSourceOptional = false ∧
    Passes i.parameterNames bandValues 1 bandArguments ∧
    lower ⟨{}, []⟩ (callOf i.name bandArguments) =
      lower ⟨{}, []⟩ (callOf i.name (bandValues.map fun e => ⟨none, e, .origin⟩)) := by
  have hany : (catalogue.any fun i => i.name == "bb" && !i.leadingSourceOptional &&
      i.parameterNames == ["series", "length", "mult"]) = true := by decide
  obtain ⟨i, hi, hfacts⟩ := any_eq_true.1 hany
  simp only [Bool.and_eq_true, beq_iff_eq, Bool.not_eq_true'] at hfacts
  obtain ⟨⟨hname, hleading⟩, hparams⟩ := hfacts
  have hlength : i.params.length = 3 := by simpa [parameterNames] using congrArg List.length hparams
  have hargs : Passes i.parameterNames bandValues 1 bandArguments := by
    rw [hparams]
    exact ⟨rfl, .swap _ _ []⟩
  have hall : Passes i.parameterNames bandValues i.params.length (bandValues.map fun e => ⟨none, e, .origin⟩) := by
    rw [hparams, hlength]
    exact ⟨rfl, .nil⟩
  refine ⟨i, hi, hname, hlength, hleading, hargs, ?_⟩
  have hvalues : bandValues.length = i.params.length := hlength.symm
  have hsame := lower_indicator_named hi ⟨{}, []⟩ hvalues (by omega) hargs hall .origin .origin .origin .origin
  rwa [if_neg (by simp [hleading])] at hsame

/-- `ta.highest(close, 10)` is understood, but `ta.highest(close, length=10)` is not. -/
theorem highest_last_named_refused : (∃ v, lower ⟨{}, []⟩ (callOf "highest"
      [⟨none, .series .origin .close, .origin⟩, ⟨none, .number .origin 10.0 true, .origin⟩]) = .ok v ∧
        v.kind = .series) ∧
    lower ⟨{}, []⟩ (callOf "highest"
      [⟨none, .series .origin .close, .origin⟩, ⟨some "length", .number .origin 10.0 true, .origin⟩]) =
        .error ⟨.origin, .argumentTwice "length"⟩ := by
  constructor
  · decide
  · rfl

end Lowering

end ChartScript
