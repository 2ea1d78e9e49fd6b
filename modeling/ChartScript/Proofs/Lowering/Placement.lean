import ChartScript.Proofs.Lowering.Arguments
/-!
# Placement of arguments

A call of a function of the script, or of one of the language that is no indicator, is emitted as a
frame around the code of its arguments.
-/
namespace ChartScript

open List

def Signature.parameterIndex? (sig : Signature) (x : String) : Option Nat :=
  sig.params.findIdx? (·.name == x)

namespace Lowering

open Frame

variable {js : List Nat} {f : Frame} {span : Span} {v : Lowered} {args : List (Argument Actual)}
  {function emitted : String} {sig : Signature}

/-! ## Slots with numbers -/

def numbered : (k : Nat) → List (Argument Actual) → List (Argument (Nat × Actual))
  | _, [] => []
  | k, arg :: rest => arg.map (k, ·) :: numbered (k + 1) rest

theorem map_numbered (k : Nat) (args : List (Argument Actual)) : (numbered k args).map (·.map Prod.snd) = args := by
  induction args generalizing k with
  | nil => rfl
  | cons arg rest ih => rw [numbered, map_cons, ih]; rfl

theorem recodeFrom_eq (p : Nat → Code) (k : Nat) (args : List (Argument Actual)) :
    recodeFrom p k args = (numbered k args).map (·.map fun x => x.2.recode (p x.1)) := by
  induction args generalizing k with
  | nil => rfl
  | cons arg rest ih => rw [numbered, map_cons, ← ih]; rfl

theorem numbers_numbered (k : Nat) (args : List (Argument Actual)) :
    (numbered k args).map (·.value.1) = List.range' k args.length := by
  induction args generalizing k with
  | nil => rfl
  | cons arg rest ih => rw [numbered, map_cons, ih]; rfl

variable {arg : Argument Actual} {u : Lowered} {what : String} {c : Code} {β : Type} {i : Nat}
  {run : List (Argument Actual) → Span → Except LoweringError Lowered}

theorem getElem?_numbered {j : Nat} (h : args[j]? = some arg) (k : Nat) :
    (numbered k args)[j]? = some (arg.map (k + j, ·)) := by
  induction args generalizing k j with
  | nil => cases h
  | cons first rest ih =>
    cases j with
    | zero =>
      cases h
      rfl
    | succ j => rw [numbered, getElem?_cons_succ, ih h, Nat.add_assoc, Nat.add_comm 1]

def numberOf (slot : Option (Nat × Actual)) : List Nat :=
  (slot.map (·.1)).toList

variable {needs : List Need} {slots : List (Option (Nat × Actual))} {fs : List Frame} {α : Type}

theorem seriesArgument_framed (h : u.seriesArgument span what = .ok (c, needs)) (hf : Takes js f) :
    ∃ g, Takes js g ∧ ∀ p, (u.recode (f p)).seriesArgument span what = .ok (g p, needs) := by
  cases hkind : u.kind with
  | series =>
    simp only [Lowered.seriesArgument, hkind] at h
    cases h
    exact ⟨_, hf.borrow, fun p => by simp only [Lowered.seriesArgument, Lowered.recode, hkind]⟩
  | number =>
    simp only [Lowered.seriesArgument, hkind] at h
    cases h
    exact ⟨_, hf.broadcast.borrow, fun p => by simp only [Lowered.seriesArgument, Lowered.recode, hkind]⟩
  | bool =>
    simp only [Lowered.seriesArgument, hkind] at h
    cases h
    exact ⟨_, hf.broadcast.borrow, fun p => by simp only [Lowered.seriesArgument, Lowered.recode, hkind]⟩
  | _ =>
    simp only [Lowered.seriesArgument, hkind] at h
    cases h

theorem parameterArgument_framed {kind : ValueKind}
    (h : u.parameterArgument kind span what = .ok (c, needs)) (hf : Takes js f) :
    ∃ g, Takes js g ∧ ∀ p, (u.recode (f p)).parameterArgument kind span what = .ok (g p, needs) := by
  unfold Lowered.parameterArgument at h
  split at h
  · next hkind =>
    obtain ⟨g, hg, hrun⟩ := seriesArgument_framed h hf
    exact ⟨g, hg, fun p => (if_pos hkind).trans (hrun p)⟩
  · next hkind =>
    split at h
    · next hsame =>
      cases h
      exact ⟨f, hf, fun p => (if_neg hkind).trans (if_pos hsame)⟩
    · cases h

theorem functionArgument_framed {q : FunctionParam} {slot : Option (Nat × Actual)}
    (h : functionArgument function span q (slot.map (·.2)) = .ok (c, needs)) :
    (∃ f, Takes (numberOf slot) f ∧ ∀ p, functionArgument function span q (slot.map fun x => x.2.recode (p x.1)) =
    .ok (f p, needs)) ∧ ∀ x ∈ slot, ∃ u, x.2.result = .ok u ∧ u.needs ⊆ needs := by
  cases slot with
  | none => exact ⟨⟨fun _ => c, .fixed c, fun p => h⟩, by simp⟩
  | some x =>
    obtain ⟨j, a⟩ := x
    obtain ⟨u, hu, h⟩ := bind_eq_ok.1 h
    obtain ⟨⟨code, more⟩, hargument, h⟩ := bind_eq_ok.1 h
    cases h
    obtain ⟨g, hg, hrun⟩ := parameterArgument_framed hargument (.piece j)
    refine ⟨⟨g, hg, fun p => ?_⟩, ?_⟩
    · exact bind_eq_ok.2 ⟨_, a.result_recode hu (p j), bind_eq_ok.2 ⟨_, hrun p, rfl⟩⟩
    · rintro _ ⟨⟩
      exact ⟨u, hu, by simp⟩

theorem mapM_framed {params : List FunctionParam} {lowered : List (Code × List Need)}
    (hlength : slots.length = params.length) (h : (params.zip (slots.map (Option.map (·.2)))).mapM
      (fun x => functionArgument function span x.1 x.2) = .ok lowered) :
    ∃ fs : List Frame, List.Forall₂ (fun slot f => Takes (numberOf slot) f) slots fs ∧
      (∀ p, ∃ lowered', (params.zip (slots.map (Option.map fun x => x.2.recode (p x.1)))).mapM
          (fun x => functionArgument function span x.1 x.2) = .ok lowered' ∧
        lowered'.map (·.1) = fs.map (· p) ∧ lowered'.flatMap (·.2) = lowered.flatMap (·.2)) ∧
      ∀ x, some x ∈ slots → ∃ u, x.2.result = .ok u ∧ u.needs ⊆ lowered.flatMap (·.2) := by
  induction params generalizing slots lowered with
  | nil =>
    obtain rfl := length_eq_zero_iff.1 hlength
    cases h
    exact ⟨[], .nil, fun p => ⟨[], rfl, rfl, rfl⟩, by simp⟩
  | cons q params ih =>
    obtain ⟨slot, slots, rfl⟩ := exists_cons_of_length_eq_add_one hlength
    rw [map_cons, zip_cons_cons, mapM_cons] at h
    obtain ⟨⟨c, needs⟩, hslot, h⟩ := bind_eq_ok.1 h
    obtain ⟨rest, hrest, h⟩ := bind_eq_ok.1 h
    cases h
    obtain ⟨⟨f, hf, hrun⟩, hkept⟩ := functionArgument_framed hslot
    obtain ⟨fs, hfs, hruns, hkepts⟩ := ih (by simpa using hlength) hrest
    refine ⟨f :: fs, .cons hf hfs, fun p => ?_, ?_⟩
    · obtain ⟨rest', hrest', hcodes, hneeds⟩ := hruns p
      refine ⟨(f p, needs) :: rest', ?_, congrArg (f p :: ·) hcodes, congrArg (needs ++ ·) hneeds⟩
      rw [map_cons, zip_cons_cons, mapM_cons]
      exact bind_eq_ok.2 ⟨_, hrun p, bind_eq_ok.2 ⟨_, hrest', rfl⟩⟩
    · intro x hx
      rcases mem_cons.1 hx with rfl | hx
      · obtain ⟨u, hu, hneeds⟩ := hkept x rfl
        exact ⟨u, hu, List.Subset.trans hneeds (subset_append_left _ _)⟩
      · obtain ⟨u, hu, hneeds⟩ := hkepts x hx
        exact ⟨u, hu, List.Subset.trans hneeds (subset_append_right _ _)⟩

theorem takesAll_of_forall₂ (h : List.Forall₂ (fun slot f => Takes (numberOf slot) f) slots fs) :
    TakesAll ((slots.filterMap id).map (·.1)) fs := by
  induction h with
  | nil => exact .nil
  | @cons slot f slots fs hslot _ ih =>
    have hnumbers : ((slot :: slots).filterMap id).map (·.1) = numberOf slot ++ (slots.filterMap id).map (·.1) := by
      cases slot <;> rfl
    rw [hnumbers]
    exact .cons hslot ih

/-! ## Functions of the script -/

/-- What the parameters of a function get. -/
def functionSlots {α : Type} (sig : Signature) (args : List (Argument α)) : List (Option α) :=
  overridden sig.parameterIndex? args (fillPositional sig.params.length 0 (positional args))

theorem length_functionSlots (sig : Signature) (args : List (Argument α)) :
    (functionSlots sig args).length = sig.params.length := by
  rw [functionSlots, overridden, length_mapIdx, length_fillPositional]

theorem functionSlots_map (g : α → β) (sig : Signature) (args : List (Argument α)) :
    functionSlots sig (args.map (·.map g)) = (functionSlots sig args).map (Option.map g) := by
  rw [functionSlots, positional_map, fillPositional_map, overridden_map]
  rfl

/-- The values fit the parameters in number, and their names are those of parameters. -/
structure Fits {α : Type} (sig : Signature) (args : List (Argument α)) : Prop where
  count : (positional args).length ≤ sig.params.length
  known : Known sig.parameterIndex? sig.params.length args

theorem fits_map (g : α → β) {args : List (Argument α)} :
    Fits sig (args.map (·.map g)) ↔ Fits sig args := by
  have hcount : (positional (args.map (·.map g))).length = (positional args).length := by
    rw [positional_map, length_map]
  have hknown : Known sig.parameterIndex? sig.params.length (args.map (·.map g)) ↔
      Known sig.parameterIndex? sig.params.length args := forall_mem_map
  exact ⟨fun h => ⟨hcount ▸ h.count, hknown.1 h.known⟩, fun h => ⟨hcount ▸ h.count, hknown.2 h.known⟩⟩

theorem parameterIndex?_eq_some {x : String} (h : sig.parameterIndex? x = some i) :
    ∃ q, sig.params[i]? = some q ∧ q.name = x := by
  obtain ⟨hi, hname, -⟩ := findIdx?_eq_some_iff_getElem.1 h
  exact ⟨_, getElem?_eq_getElem hi, eq_of_beq hname⟩

theorem functionCall_eq_ok_iff : functionCall function emitted sig args span = .ok v ↔
    Fits sig args ∧ ∃ lowered, (sig.params.zip (functionSlots sig args)).mapM
      (fun x => functionArgument function span x.1 x.2) = .ok lowered ∧
      v = { code := .call (.name emitted) (lowered.map (·.1)), kind := sig.returns,
            needs := lowered.flatMap (·.2) } := by
  constructor
  · intro h
    unfold functionCall at h
    dsimp only at h
    split at h
    · cases h
    next hcount =>
    obtain ⟨slots, hslots, h⟩ := bind_eq_ok.1 h
    obtain ⟨lowered, hlowered, h⟩ := bind_eq_ok.1 h
    cases h
    obtain ⟨hnames, -, rfl⟩ := fillNamed_eq_ok_iff.1 hslots
    refine ⟨⟨Nat.not_lt.1 hcount, fun arg harg x hx => ?_⟩, lowered, hlowered, rfl⟩
    obtain ⟨i, hi⟩ := Option.isSome_iff_exists.1 (hnames arg harg x hx)
    exact ⟨i, hi, (findIdx?_eq_some_iff_getElem.1 hi).1⟩
  · rintro ⟨⟨hcount, hknown⟩, lowered, hlowered, rfl⟩
    refine (if_neg (Nat.not_lt.2 hcount)).trans (bind_eq_ok.2 ⟨_, fillNamed_eq_ok_iff.2 ?_,
      bind_eq_ok.2 ⟨lowered, hlowered, rfl⟩⟩)
    refine ⟨fun arg harg x hx => ?_, nofun, rfl⟩
    obtain ⟨i, hi, -⟩ := hknown arg harg x hx
    exact Option.isSome_iff_exists.2 ⟨i, hi⟩

theorem functionCall_framed (h : functionCall function emitted sig args span = .ok v) :
    ∃ fs, List.Forall₂ (fun slot f => Takes (numberOf slot) f) (functionSlots sig (numbered 0 args)) fs ∧
    (∀ p, functionCall function emitted sig (recodeFrom p 0 args) span =
    .ok (v.recode (.call (.name emitted) (fs.map (· p))))) ∧ ∀ x, some x ∈ functionSlots sig (numbered 0 args) →
    ∃ u, x.2.result = .ok u ∧ u.needs ⊆ v.needs := by
  rw [← map_numbered 0 args] at h
  obtain ⟨hfits, lowered, hlowered, rfl⟩ := functionCall_eq_ok_iff.1 h
  rw [functionSlots_map] at hlowered
  obtain ⟨fs, hfs, hrun, hkept⟩ := mapM_framed (length_functionSlots sig _) hlowered
  refine ⟨fs, hfs, fun p => ?_, hkept⟩
  obtain ⟨lowered', hlowered', hcodes, hneeds⟩ := hrun p
  rw [recodeFrom_eq]
  refine functionCall_eq_ok_iff.2 ⟨(fits_map _).2 ((fits_map _).1 hfits), lowered', ?_, ?_⟩
  · rw [functionSlots_map]
    exact hlowered'
  · rw [hcodes, hneeds]
    rfl

/-- No parameter of the function gets two values. -/
def SuppliesOnce {α : Type} (sig : Signature) (args : List (Argument α)) : Prop :=
  SuppliedOnce sig.parameterIndex? args (fillPositional sig.params.length 0 (positional args))

theorem suppliesOnce_numbered (k : Nat) : SuppliesOnce sig (numbered k args) ↔ SuppliesOnce sig args := by
  have hmap : SuppliedOnce sig.parameterIndex? ((numbered k args).map (·.map Prod.snd)) _ ↔ _ :=
    suppliedOnce_map _ _ (fillPositional sig.params.length 0 (positional (numbered k args)))
  rw [← fillPositional_map, ← positional_map, map_numbered] at hmap
  exact hmap.symm

/-- Frames of the parameters of a function, where each argument is within that of its parameter. -/
structure AtParameters (sig : Signature) (args : List (Argument Actual)) (fs : List Frame) : Prop where
  count : fs.length = sig.params.length
  named : ∀ j arg x, args[j]? = some arg → arg.name = some x →
    ∃ (i : Nat) (q : FunctionParam) (g : Frame), sig.params[i]? = some q ∧ q.name = x ∧
      fs[i]? = some g ∧ Takes [j] g
  unnamed : ∀ j arg, args[j]? = some arg → arg.name = none →
    ∃ g, fs[(positional (args.take j)).length]? = some g ∧ Takes [j] g

theorem frame_of_slot (h : List.Forall₂ (fun slot f => Takes (numberOf slot) f) slots fs)
    {x : Nat × Actual} (hslot : slots[i]? = some (some x)) : ∃ g, fs[i]? = some g ∧ Takes [x.1] g := by
  induction h generalizing i with
  | nil => cases hslot
  | cons hf _ ih =>
    cases i with
    | zero =>
      cases hslot
      exact ⟨_, rfl, hf⟩
    | succ i => exact ih hslot

theorem atParameters (hfits : Fits sig args) (hone : SuppliesOnce sig args)
    (hfs : List.Forall₂ (fun slot f => Takes (numberOf slot) f) (functionSlots sig (numbered 0 args)) fs) :
    AtParameters sig args fs := by
  have hone' := (suppliesOnce_numbered 0).2 hone
  refine ⟨by rw [← hfs.length_eq, length_functionSlots], fun j arg x harg hname => ?_, fun j arg harg hname => ?_⟩
  · obtain ⟨i, hi, hlt⟩ := hfits.known arg (mem_of_getElem? harg) x hname
    obtain ⟨q, hq, hqname⟩ := parameterIndex?_eq_some hi
    have hmem := mem_of_getElem? (getElem?_numbered harg 0)
    have hslot := slot_of_named hone' hmem hname hi (by rwa [length_fillPositional])
    obtain ⟨g, hg, htakes⟩ := frame_of_slot hfs hslot
    rw [Argument.map, Nat.zero_add] at htakes
    exact ⟨i, q, g, hq, hqname, hg, htakes⟩
  · have hposition := getElem?_positional (getElem?_numbered harg 0) hname
    rw [Argument.map, Nat.zero_add] at hposition
    have hlength : (positional ((numbered 0 args).take j)).length = (positional (args.take j)).length := by
      conv_rhs => rw [← map_numbered 0 args, ← map_take, positional_map, length_map]
    rw [hlength] at hposition
    have hlt : (positional (args.take j)).length < sig.params.length := by
      have hcount := hfits.count
      rw [← map_numbered 0 args, positional_map, length_map] at hcount
      exact Nat.lt_of_lt_of_le (List.getElem?_eq_some_iff.1 hposition).1 hcount
    exact frame_of_slot hfs (slot_of_positional hone' (by
      rw [getElem?_fillPositional hlt, if_neg (Nat.not_lt_zero _), Nat.sub_zero, hposition]))

theorem fits_numbered (k : Nat) : Fits sig (numbered k args) ↔ Fits sig args := by
  rw [← fits_map Prod.snd, map_numbered]

theorem length_numbered (k : Nat) (args : List (Argument Actual)) : (numbered k args).length = args.length := by
  rw [← length_map (·.map Prod.snd), map_numbered]

theorem numbers_perm (hfits : Fits sig args) (hone : SuppliesOnce sig args) :
    (((functionSlots sig (numbered 0 args)).filterMap id).map (·.1)).Perm (List.range args.length) := by
  obtain ⟨hcount, hknown⟩ := (fits_numbered 0).2 hfits
  have hperm := (slots_perm hcount hknown ((suppliesOnce_numbered 0).2 hone)).map (·.1)
  rw [map_map] at hperm
  rw [range_eq_range', ← numbers_numbered 0 args]
  exact hperm

theorem mem_functionSlots (hfits : Fits sig args) (hone : SuppliesOnce sig args)
    (harg : arg ∈ args) : ∃ j, some (j, arg.value) ∈ functionSlots sig (numbered 0 args) := by
  obtain ⟨hcount, hknown⟩ := (fits_numbered 0).2 hfits
  obtain ⟨j, hj⟩ := mem_iff_getElem?.1 harg
  have hmem := mem_map_of_mem (f := (·.value)) (mem_of_getElem? (getElem?_numbered hj 0))
  have hslot := (slots_perm hcount hknown ((suppliesOnce_numbered 0).2 hone)).mem_iff.2 hmem
  obtain ⟨_, hslot, rfl⟩ := mem_filterMap.1 hslot
  exact ⟨_, hslot⟩

theorem length_positional_add (args : List (Argument α)) :
    (positional args).length + args.countP (·.name.isSome) = args.length := by
  rw [positional, length_map, ← countP_eq_length_filter, length_eq_countP_add_countP (·.name.isNone)]
  simp only [Bool.decide_eq_true, Bool.not_eq_true, Option.isNone_eq_false_iff]

theorem suppliesOnce_of_subset (hfits : Fits sig args)
    (h : List.range args.length ⊆ ((functionSlots sig (numbered 0 args)).filterMap id).map (·.1)) :
    SuppliesOnce sig args := by
  obtain ⟨hcount, hknown⟩ := (fits_numbered 0).2 hfits
  have hle := (subperm_of_subset nodup_range h).length_le
  rw [length_range, length_map, length_filterMap_eq_countP] at hle
  have hpositional : (fillPositional sig.params.length 0 (positional (numbered 0 args))).countP
      (·.isSome) = (positional (numbered 0 args)).length :=
    length_filterMap_eq_countP.symm.trans (congrArg List.length (filterMap_fillPositional hcount))
  have hall := length_positional_add (numbered 0 args)
  rw [length_numbered] at hall
  refine (suppliesOnce_numbered 0).1 (suppliedOnce_of_filled (by rwa [length_fillPositional]) ?_)
  rw [hpositional, hall]
  exact hle

/-! ## Calls -/

section Calls

variable {ctx : Context} {callee : Reference} {calleeSpan : Span}

def functionOf? (ctx : Context) : Reference → Option (String × Signature)
  | .plain x =>
    match ctx.scope.lookup? x with
    | some ⟨_, emitted, .function sig⟩ => some (emitted, sig)
    | _ => none
  | .member _ _ => none

theorem call_of_function (h : functionOf? ctx callee = some (emitted, sig)) :
    ∃ x, ∀ args, call ctx callee calleeSpan args span = functionCall x emitted sig args span := by
  cases callee with
  | member => cases h
  | plain x =>
    refine ⟨x, fun args => ?_⟩
    simp only [functionOf?] at h
    split at h
    · next hlookup =>
      cases h
      simp only [call, hlookup]
    · cases h

/-- Functions of the language that are no indicators. -/
inductive BuiltIn : Reference → (List (Argument Actual) → Span → Except LoweringError Lowered) → Prop
  | math (x : String) : BuiltIn (.member "math" x) (mathCall x)
  | nz : BuiltIn (.plain "nz") orElse
  | na : BuiltIn (.plain "na") isMissing
  | int : BuiltIn (.plain "int") toInteger
  | float : BuiltIn (.plain "float") toNumber

theorem call_of_none (h : functionOf? ctx callee = none) (hcallee : ∀ x, callee ≠ .member "ta" x)
    (hrun : call ctx callee calleeSpan args span = .ok v) :
    ∃ run, BuiltIn callee run ∧ ∀ args, call ctx callee calleeSpan args span = run args span := by
  cases callee with
  | member qualifier x =>
    have hta : qualifier ≠ "ta" := fun hq => hcallee x (by rw [hq])
    by_cases hmath : qualifier = "math"
    · subst hmath
      exact ⟨_, .math x, fun args => by rw [call, if_neg hta, if_pos rfl]⟩
    · rw [call, if_neg hta, if_neg hmath] at hrun
      cases hrun
  | plain x =>
    have hcall : ∀ args, call ctx (.plain x) calleeSpan args span = if x = "nz" then orElse args span
        else if x = "na" then isMissing args span
        else if x = "int" then toInteger args span
        else if x = "float" then toNumber args span
        else fail calleeSpan (.unknownFunction x) := by
      intro args
      simp only [functionOf?] at h
      split at h
      · cases h
      · simp only [call]
    simp only [hcall] at hrun ⊢
    split at hrun
    · next hx =>
      subst hx
      exact ⟨_, .nz, fun args => if_pos rfl⟩
    next hnz =>
    split at hrun
    · next hx =>
      subst hx
      exact ⟨_, .na, fun args => (if_neg hnz).trans (if_pos rfl)⟩
    next hna =>
    split at hrun
    · next hx =>
      subst hx
      exact ⟨_, .int, fun args => (if_neg hnz).trans ((if_neg hna).trans (if_pos rfl))⟩
    next hint =>
    split at hrun
    · next hx =>
      subst hx
      exact ⟨_, .float, fun args => (if_neg hnz).trans ((if_neg hna).trans ((if_neg hint).trans (if_pos rfl)))⟩
    · cases hrun

/-- The code of a call is a frame that takes every argument in one place. It is the same frame for
arguments with other code. -/
structure PlacesEach (ctx : Context) (callee : Reference) (calleeSpan : Span)
    (args : List (Argument Actual)) (span : Span) (v : Lowered) (js : List Nat) (f : Frame) : Prop where
  takes : Takes js f
  each : js.Perm (List.range args.length)
  framed : ∀ p, call ctx callee calleeSpan (recodeFrom p 0 args) span = .ok (v.recode (f p))
  code : ∀ p : Nat → Code, (∀ (j : Nat) (arg : Argument Actual) (u : Lowered), args[j]? = some arg →
    arg.value.result = .ok u → p j = u.code) → v.code = f p
  kept : Kept args v
  /-- Where the arguments are: with the parameters of a function of the script, and otherwise in the
  order of the call. -/
  placed : match functionOf? ctx callee with
    | some (emitted, sig) => ∃ fs : List Frame, AtParameters sig args fs ∧
        f = fun p => .call (.name emitted) (fs.map (· p))
    | none => js = List.range args.length ∧ ∀ arg ∈ args, arg.name = none

theorem code_of_framed (h : call ctx callee calleeSpan args span = .ok v)
    (hframed : ∀ p, call ctx callee calleeSpan (recodeFrom p 0 args) span = .ok (v.recode (f p)))
    (p : Nat → Code) (hp : ∀ (j : Nat) (arg : Argument Actual) (u : Lowered), args[j]? = some arg →
      arg.value.result = .ok u → p j = u.code) : v.code = f p := by
  have hrun := hframed p
  rw [recodeFrom_self (by simpa using hp), h] at hrun
  exact congrArg Lowered.code (Except.ok.inj hrun)

theorem PlacesEach.range_subset {ks : List Nat} (h : PlacesEach ctx callee calleeSpan args span v js f)
    (hframed : Framed ks (fun p => call ctx callee calleeSpan (recodeFrom p 0 args) span) v) :
    List.range args.length ⊆ ks := by
  obtain ⟨g, hg, hrun⟩ := hframed
  have hsame : ∀ p, f p = g p := fun p => congrArg Lowered.code (Except.ok.inj ((h.framed p).symm.trans (hrun p)))
  exact List.Subset.trans h.each.symm.subset (h.takes.subset hg hsame)

/-- No argument is dropped: a function of the script gets no parameter twice; to another one no
argument is named, and `na` and `nz` are not about a single value where they would drop one. -/
def SuppliesEach (ctx : Context) (callee : Reference) (args : List (Argument Actual)) (v : Lowered) :
    Prop :=
  match functionOf? ctx callee with
  | some (_, sig) => SuppliesOnce sig args
  | none => (∀ arg ∈ args, arg.name = none) ∧
      (callee = .plain "na" ∨ callee = .plain "nz" ∧ args.length = 2 → v.kind = .series)

theorem functionCall_placesEach (hfunction : functionOf? ctx callee = some (emitted, sig))
    (h : call ctx callee calleeSpan args span = .ok v) :
    (∃ js f, PlacesEach ctx callee calleeSpan args span v js f) ↔ SuppliesOnce sig args := by
  obtain ⟨x, hcall⟩ := call_of_function hfunction
  have hrun := (hcall args).symm.trans h
  have hfits := (functionCall_eq_ok_iff.1 hrun).1
  obtain ⟨fs, hfs, hframed, hkept⟩ := functionCall_framed hrun
  have hframed' : ∀ p, call ctx callee calleeSpan (recodeFrom p 0 args) span = _ := fun p =>
    (hcall _).trans (hframed p)
  have htakes := Takes.call (.name emitted) (takesAll_of_forall₂ hfs)
  constructor
  · rintro ⟨js, f, hplaces⟩
    exact suppliesOnce_of_subset hfits (hplaces.range_subset ⟨_, htakes, hframed'⟩)
  · intro hone
    have hparameters := atParameters hfits hone hfs
    refine ⟨_, _, htakes, numbers_perm hfits hone, hframed', code_of_framed h hframed', ?_, ?_⟩
    · intro arg harg
      obtain ⟨j, hslot⟩ := mem_functionSlots hfits hone harg
      exact hkept _ hslot
    · rw [hfunction]
      exact ⟨fs, hparameters, rfl⟩

theorem builtIn_inOrder (hbuiltIn : BuiltIn callee run) (h : run args span = .ok v)
    (hnames : ∀ arg ∈ args, arg.name = none)
    (hv : callee = .plain "na" ∨ callee = .plain "nz" ∧ args.length = 2 → v.kind = .series) :
    InOrder (run · span) args v := by
  cases hbuiltIn with
  | math x =>
    cases hone : oneNumber.lookup x with
    | some function => exact mathCall_one hone h
    | none =>
      cases htwo : twoNumbers.lookup x with
      | some function => exact mathCall_two hone htwo h
      | none => exact (mathCall_average hone htwo h).2 hnames
  | nz => exact orElse_inOrder h hnames fun hlength => hv (.inr ⟨rfl, hlength⟩)
  | na => exact isMissing_inOrder h (hv (.inl rfl))
  | int => exact toInteger_inOrder h
  | float => exact toNumber_inOrder h

theorem series_of_range_subset (hbuiltIn : BuiltIn callee run) (h : run args span = .ok v)
    (hall : ∀ ks, Framed ks (fun p => run (recodeFrom p 0 args) span) v → List.range args.length ⊆ ks)
    (hcallee : callee = .plain "na" ∨ callee = .plain "nz" ∧ args.length = 2) : v.kind = .series := by
  by_contra hv
  cases hbuiltIn with
  | na =>
    obtain ⟨hlength, hframed⟩ := isMissing_of_scalar h hv
    have hmem : 0 ∈ [] := hall _ hframed (by rw [hlength]; decide)
    cases hmem
  | nz =>
    have hlength : args.length = 2 := by simpa using hcallee
    have hmem : 1 ∈ [0] := hall _ (orElse_of_scalar h hlength hv) (by rw [hlength]; decide)
    simp at hmem
  | math | int | float => simp at hcallee

/-- A call loses or misplaces an argument only in these cases. -/
theorem call_placesEach_iff (hcallee : ∀ x, callee ≠ .member "ta" x)
    (h : call ctx callee calleeSpan args span = .ok v) :
    (∃ js f, PlacesEach ctx callee calleeSpan args span v js f) ↔ SuppliesEach ctx callee args v := by
  unfold SuppliesEach
  cases hfunction : functionOf? ctx callee with
  | some function => exact functionCall_placesEach hfunction h
  | none =>
    obtain ⟨run, hbuiltIn, hcall⟩ := call_of_none hfunction hcallee h
    have hrun := (hcall args).symm.trans h
    constructor
    · rintro ⟨js, f, hplaces⟩
      have hplaced := hplaces.placed
      rw [hfunction] at hplaced
      refine ⟨hplaced.2, series_of_range_subset hbuiltIn hrun fun ks hframed => ?_⟩
      simp only [← hcall] at hframed
      exact hplaces.range_subset hframed
    · rintro ⟨hnames, hv⟩
      obtain ⟨-, hkept, f, htakes, hframed⟩ := builtIn_inOrder hbuiltIn hrun hnames hv
      simp only [← hcall] at hframed
      refine ⟨_, f, htakes, .refl _, hframed, code_of_framed h hframed, hkept, ?_⟩
      rw [hfunction]
      exact ⟨rfl, hnames⟩

def channel : Signature :=
  ⟨[⟨"upper", "upper", .series, none⟩, ⟨"lower", "lower", .series, none⟩,
    ⟨"width", "width", .number, some (.number 2.0)⟩], .series⟩

def withChannel : Context :=
  ⟨{ bindings := [⟨"channel", "channel", .function channel⟩] }, []⟩

def channelArguments : List (Argument Actual) :=
  lowerArguments withChannel [⟨none, .series .origin .high, .origin⟩,
    ⟨some "width", .number .origin 3.0 true, .origin⟩, ⟨some "lower", .series .origin .low, .origin⟩]

theorem call_placesEach_channel : ∃ v js f,
    call withChannel (.plain "channel") .origin channelArguments .origin = .ok v ∧
    v.code = .call (.name "channel") [.borrow (.name "high"), .borrow (.name "low"), .number 3.0] ∧
    PlacesEach withChannel (.plain "channel") .origin channelArguments .origin v js f := by
  have hrun : call withChannel (.plain "channel") .origin channelArguments .origin = .ok {
      code := .call (.name "channel") [.borrow (.name "high"), .borrow (.name "low"), .number 3.0]
      kind := .series
      needs := [.field .high, .field .low] } := rfl
  have hfill : ∃ slots, fillNamed "channel" channel.parameterIndex? true
      (fillPositional 3 0 (positional channelArguments)) channelArguments = .ok slots ∧ True := by decide
  obtain ⟨_, hslots, -⟩ := hfill
  have hone : SuppliesOnce channel channelArguments := (fillNamed_eq_ok_iff.1 hslots).2.1 rfl
  obtain ⟨js, f, hplaces⟩ := (call_placesEach_iff (by simp) hrun).2 hone
  exact ⟨_, js, f, hrun, rfl, hplaces⟩

/-- `channel(high, low, upper=close)` passes `close` and not `high`, and `nz(1, x)` is `1` for a name `x`
that stands for nothing. -/
theorem arguments_lost :
    lower withChannel (.call .origin (.plain "channel") .origin [⟨none, .series .origin .high, .origin⟩,
      ⟨none, .series .origin .low, .origin⟩, ⟨some "upper", .series .origin .close, .origin⟩]) =
      .ok { code := .call (.name "channel") [.borrow (.name "close"), .borrow (.name "low"), .number 2.0]
            kind := .series
            needs := [.field .close, .field .low] } ∧
    lower withChannel (.call .origin (.plain "nz") .origin [⟨none, .number .origin 1.0 true, .origin⟩,
      ⟨none, .name .origin (.plain "x"), .origin⟩]) = .ok (.ofNumber 1.0 true) := by
  constructor
  · rfl
  · rfl

end Calls

end Lowering

end ChartScript
