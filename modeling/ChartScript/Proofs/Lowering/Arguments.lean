import ChartScript.Proofs.Lowering.Frames
/-!
# Arguments of calls

A call of a function of the script, or of one of the language that is no indicator, is emitted as a
frame around the code of its arguments: each of them stands in one place, and one that is passed by
name stands where the parameter of this name does.
-/
namespace ChartScript

open List

def Actual.recode (a : Actual) (c : Code) : Actual :=
  { a with result := a.result.map (·.recode c) }

variable {a : Actual} {u w : Lowered}
  {step : Lowered → Argument Actual → Except LoweringError Lowered}

theorem Actual.result_recode (h : a.result = .ok u) (c : Code) :
    (a.recode c).result = .ok (u.recode c) := by
  rw [recode, h]
  rfl

namespace Lowering

open Frame

variable {js : List Nat} {f : Frame} {span : Span} {v : Lowered} {args : List (Argument Actual)}

def recodeFrom (p : Nat → Code) : (k : Nat) → List (Argument Actual) → List (Argument Actual)
  | _, [] => []
  | k, arg :: rest => ⟨arg.name, arg.value.recode (p k), arg.span⟩ :: recodeFrom p (k + 1) rest

/-- The arguments have values, and the result relies on what these rely on. -/
def Kept (args : List (Argument Actual)) (v : Lowered) : Prop :=
  ∀ arg ∈ args, ∃ u, arg.value.result = .ok u ∧ u.needs ⊆ v.needs

/-- The result is a frame around the arguments in their order, and none of them has a name. -/
structure InOrder (run : List (Argument Actual) → Except LoweringError Lowered)
    (args : List (Argument Actual)) (v : Lowered) : Prop where
  unnamed : ∀ arg ∈ args, arg.name = none
  kept : Kept args v
  framed : Framed (List.range args.length) (fun p => run (recodeFrom p 0 args)) v

theorem unnamed_recodeFrom (h : ∀ arg ∈ args, arg.name = none) (p : Nat → Code) (k : Nat) :
    ∀ arg ∈ recodeFrom p k args, arg.name = none := by
  induction args generalizing k with
  | nil => simp [recodeFrom]
  | cons arg rest ih =>
    obtain ⟨hname, hrest⟩ := forall_mem_cons.1 h
    exact forall_mem_cons.2 ⟨hname, ih hrest (k + 1)⟩

theorem length_recodeFrom (p : Nat → Code) (k : Nat) (args : List (Argument Actual)) :
    (recodeFrom p k args).length = args.length := by
  induction args generalizing k with
  | nil => rfl
  | cons arg rest ih => rw [recodeFrom, length_cons, length_cons, ih]

theorem recodeFrom_self {p : Nat → Code} {k : Nat} (h : ∀ (j : Nat) (arg : Argument Actual) (u : Lowered),
    args[j]? = some arg → arg.value.result = .ok u → p (k + j) = u.code) :
    recodeFrom p k args = args := by
  induction args generalizing k with
  | nil => rfl
  | cons arg rest ih =>
    have hrest : recodeFrom p (k + 1) rest = rest := by
      refine ih fun j arg' u harg hu => ?_
      rw [Nat.add_assoc, Nat.add_comm 1]
      exact h (j + 1) arg' u harg hu
    obtain ⟨name, ⟨valueSpan, result⟩, argSpan⟩ := arg
    cases result with
    | error e => exact congrArg (List.cons _) hrest
    | ok u =>
      have hcode : p k = u.code := h 0 _ u rfl rfl
      rw [recodeFrom, hrest, hcode]
      rfl

theorem find?_isSome_eq_none : args.find? (·.name.isSome) = none ↔ ∀ arg ∈ args, arg.name = none := by
  simp [find?_eq_none]

/-! ## One argument -/

theorem eq_singleton_of_single {function : String} (h : single function args span = .ok a) :
    ∃ argSpan, args = [⟨none, a, argSpan⟩] := by
  unfold single at h
  split at h
  · cases h
  · next hnone =>
    split at h
    · next arg =>
      cases h
      obtain ⟨name, value, argSpan⟩ := arg
      have hname : name = none := find?_isSome_eq_none.1 hnone _ mem_cons_self
      exact ⟨argSpan, by rw [hname]⟩
    · cases h

theorem inOrder_of_single {function : String} {finish : Actual → Except LoweringError Lowered}
    (h : (single function args span >>= finish) = .ok v)
    (hfinish : ∀ a, finish a = .ok v → ∃ u, a.result = .ok u ∧ u.needs ⊆ v.needs ∧
      Framed [0] (fun p => finish (a.recode (p 0))) v) :
    InOrder (fun args => single function args span >>= finish) args v := by
  obtain ⟨a, ha, h⟩ := bind_eq_ok.1 h
  obtain ⟨argSpan, rfl⟩ := eq_singleton_of_single ha
  obtain ⟨u, hu, hneeds, hframed⟩ := hfinish a h
  exact ⟨by simp, by simpa [Kept] using ⟨u, hu, hneeds⟩, hframed⟩

theorem toInteger_inOrder (h : toInteger args span = .ok v) : InOrder (toInteger · span) args v := by
  refine inOrder_of_single h fun a ha => ?_
  obtain ⟨u, hu, ha⟩ := bind_eq_ok.1 ha
  obtain ⟨_, hcheck, ha⟩ := bind_eq_ok.1 ha
  refine ⟨u, hu, ?_⟩
  split at ha
  · next hnumber =>
    cases ha
    refine ⟨List.Subset.refl _, _, (Takes.piece 0).group.method_none "trunc", fun p => ?_⟩
    exact bind_eq_ok.2 ⟨_, a.result_recode hu _, bind_eq_ok.2 ⟨(), hcheck, if_pos hnumber⟩⟩
  · next hnumber =>
    cases ha
    refine ⟨by simp [Lowered.ofSeries], _,
      (u.takes_operand (.piece 0)).ops_one "apply" [.path ["f64", "trunc"]], fun p => ?_⟩
    exact bind_eq_ok.2 ⟨_, a.result_recode hu _, bind_eq_ok.2 ⟨(), hcheck, if_neg hnumber⟩⟩

theorem toNumber_inOrder (h : toNumber args span = .ok v) : InOrder (toNumber · span) args v := by
  refine inOrder_of_single h fun a ha => ?_
  obtain ⟨u, hu, ha⟩ := bind_eq_ok.1 ha
  obtain ⟨_, hcheck, ha⟩ := bind_eq_ok.1 ha
  cases ha
  refine ⟨v, hu, List.Subset.refl _, _, .piece 0, fun p => ?_⟩
  exact bind_eq_ok.2 ⟨_, a.result_recode hu _, bind_eq_ok.2 ⟨(), hcheck, rfl⟩⟩

theorem isMissing_inOrder (h : isMissing args span = .ok v) (hv : v.kind = .series) :
    InOrder (isMissing · span) args v := by
  refine inOrder_of_single h fun a ha => ?_
  obtain ⟨u, hu, ha⟩ := bind_eq_ok.1 ha
  obtain ⟨_, hcheck, ha⟩ := bind_eq_ok.1 ha
  refine ⟨u, hu, ?_⟩
  split at ha
  · next hseries =>
    cases ha
    refine ⟨by simp [Lowered.ofSeries], _, (u.takes_operand (.piece 0)).ops_one "is_na" [], fun p => ?_⟩
    exact bind_eq_ok.2 ⟨_, a.result_recode hu _, bind_eq_ok.2 ⟨(), hcheck, if_pos hseries⟩⟩
  · cases ha
    cases hv

theorem isMissing_of_scalar (h : isMissing args span = .ok v) (hv : v.kind ≠ .series) :
    args.length = 1 ∧ Framed [] (fun p => isMissing (recodeFrom p 0 args) span) v := by
  obtain ⟨a, ha, hrest⟩ := bind_eq_ok.1 h
  obtain ⟨argSpan, rfl⟩ := eq_singleton_of_single ha
  obtain ⟨u, hu, hrest⟩ := bind_eq_ok.1 hrest
  obtain ⟨_, hcheck, hrest⟩ := bind_eq_ok.1 hrest
  split at hrest
  · cases hrest
    exact absurd rfl hv
  · next hscalar =>
    cases hrest
    refine ⟨rfl, _, .fixed (.bool false), fun p => bind_eq_ok.2 ⟨_, rfl, ?_⟩⟩
    exact bind_eq_ok.2 ⟨_, a.result_recode hu (p 0), bind_eq_ok.2 ⟨(), hcheck, if_neg hscalar⟩⟩

/-! ## Some arguments one after the other -/

def TakesOn (step : Lowered → Argument Actual → Except LoweringError Lowered) : Prop :=
  ∀ {v w : Lowered} {arg : Argument Actual} {js : List Nat} {f : Frame} (j : Nat), step v arg = .ok w → Takes js f →
    Framed (js ++ [j]) (fun p => step (v.recode (f p)) ⟨arg.name, arg.value.recode (p j), arg.span⟩) w ∧
      v.needs ⊆ w.needs ∧ ∃ u, arg.value.result = .ok u ∧ u.needs ⊆ w.needs

theorem foldlM_framed (hstep : TakesOn step)
    (h : args.foldlM step v = .ok w) (hf : Takes js f) (k : Nat) :
    Framed (js ++ List.range' k args.length) (fun p => (recodeFrom p k args).foldlM step (v.recode (f p))) w ∧
    v.needs ⊆ w.needs ∧ Kept args w := by
  induction args generalizing v js f k with
  | nil =>
    cases h
    exact ⟨⟨f, by simpa using hf, fun p => rfl⟩, List.Subset.refl _, by simp [Kept]⟩
  | cons arg rest ih =>
    obtain ⟨x, hx, hrest⟩ := bind_eq_ok.1 h
    obtain ⟨⟨g, hg, hrun⟩, hneeds, u, hu, hkept⟩ := hstep k hx hf
    obtain ⟨⟨g', hg', hrun'⟩, hneeds', hkept'⟩ := ih hrest hg (k + 1)
    refine ⟨⟨g', ?_, fun p => ?_⟩, List.Subset.trans hneeds hneeds', ?_⟩
    · rwa [append_assoc] at hg'
    · exact bind_eq_ok.2 ⟨_, hrun p, hrun' p⟩
    · exact forall_mem_cons.2 ⟨⟨u, hu, List.Subset.trans hkept hneeds'⟩, hkept'⟩

theorem fold_framed (hstep : TakesOn step)
    {first : Argument Actual} {more : List (Argument Actual)} {start : Lowered}
    (hstart : first.value.result = .ok start) (h : more.foldlM step start = .ok w) :
    Framed (List.range (more.length + 1)) (fun p => (recodeFrom p 1 more).foldlM step (start.recode (p 0))) w ∧
    Kept (first :: more) w := by
  obtain ⟨hframed, hneeds, hkept⟩ := foldlM_framed hstep h (.piece 0) 1
  refine ⟨?_, forall_mem_cons.2 ⟨⟨start, hstart, hneeds⟩, hkept⟩⟩
  rw [range_eq_range', range'_succ]
  exact hframed

theorem add_takesOn : TakesOn (fun v arg => do binary .add v (← arg.value.result) arg.span) := by
  intro v w arg js f j h hf
  obtain ⟨u, hu, h⟩ := bind_eq_ok.1 h
  obtain ⟨⟨g, hg, hrun⟩, hv, hu'⟩ := binary_framed h hf (.piece j)
  refine ⟨⟨g, hg, fun p => ?_⟩, hv, u, hu, hu'⟩
  exact bind_eq_ok.2 ⟨_, arg.value.result_recode hu _, hrun p⟩

theorem numericResult_eq_ok {arg : Argument Actual} (h : numericResult arg = .ok u) :
    arg.value.result = .ok u ∧ ∀ c, numericResult ⟨arg.name, arg.value.recode c, arg.span⟩ = .ok (u.recode c) := by
  obtain ⟨u', hu, h⟩ := bind_eq_ok.1 h
  obtain ⟨_, hcheck, h⟩ := bind_eq_ok.1 h
  cases h
  refine ⟨hu, fun c => ?_⟩
  exact bind_eq_ok.2 ⟨_, arg.value.result_recode hu c, bind_eq_ok.2 ⟨(), hcheck, rfl⟩⟩

theorem applyTwo_takesOn (function : String) :
    TakesOn (fun v arg => return applyTwo function v (← numericResult arg)) := by
  intro v w arg js f j h hf
  obtain ⟨u, hu, h⟩ := bind_eq_ok.1 h
  cases h
  obtain ⟨⟨g, hg, hrun⟩, hv, hu'⟩ := applyTwo_framed function v u hf (.piece j)
  refine ⟨⟨g, hg, fun p => ?_⟩, hv, u, (numericResult_eq_ok hu).1, hu'⟩
  exact bind_eq_ok.2 ⟨_, (numericResult_eq_ok hu).2 _, congrArg Except.ok (hrun p)⟩

section Math

variable {x function : String}

theorem mathCall_one (hone : oneNumber.lookup x = some function) (h : mathCall x args span = .ok v) :
    InOrder (mathCall x · span) args v := by
  have hrun : ∀ args, mathCall x args span = single ("math." ++ x) args span >>= fun arg => do
      let v ← arg.result
      v.checkNumeric arg.span "math argument"
      return applyOne function v := fun args => by simp only [mathCall, hone]
  rw [hrun] at h
  simp only [hrun]
  refine inOrder_of_single h fun a ha => ?_
  obtain ⟨u, hu, ha⟩ := bind_eq_ok.1 ha
  obtain ⟨_, hcheck, ha⟩ := bind_eq_ok.1 ha
  cases ha
  obtain ⟨⟨g, hg, happly⟩, hneeds⟩ := applyOne_framed function u (.piece 0)
  refine ⟨u, hu, hneeds, g, hg, fun p => ?_⟩
  exact bind_eq_ok.2 ⟨_, a.result_recode hu _, bind_eq_ok.2 ⟨(), hcheck, congrArg Except.ok (happly p)⟩⟩

theorem mathCall_two (hone : oneNumber.lookup x = none) (htwo : twoNumbers.lookup x = some function)
    (h : mathCall x args span = .ok v) : InOrder (mathCall x · span) args v := by
  simp only [mathCall, hone, htwo] at h
  split at h
  · next first second more =>
    split at h
    · cases h
    next hpow =>
    split at h
    · cases h
    next hnone =>
    obtain ⟨start, hstart, hfold⟩ := bind_eq_ok.1 h
    have hnames := find?_isSome_eq_none.1 (Option.eq_none_iff_forall_ne_some.2 hnone)
    obtain ⟨⟨g, hg, hrun⟩, hkept⟩ := fold_framed (applyTwo_takesOn function) (numericResult_eq_ok hstart).1 hfold
    refine ⟨hnames, hkept, g, hg, fun p => ?_⟩
    have hempty : (recodeFrom p 2 more).isEmpty = more.isEmpty := by cases more <;> rfl
    rw [← hempty] at hpow
    have hnone' := find?_isSome_eq_none.2 (unnamed_recodeFrom hnames p 0)
    simp only [recodeFrom] at hnone' ⊢
    simp only [mathCall, hone, htwo, if_neg hpow, hnone']
    exact bind_eq_ok.2 ⟨_, (numericResult_eq_ok hstart).2 _, hrun p⟩
  · cases h

theorem mathCall_average (hone : oneNumber.lookup x = none) (htwo : twoNumbers.lookup x = none)
    (h : mathCall x args span = .ok v) :
    Kept args v ∧ ((∀ arg ∈ args, arg.name = none) → InOrder (mathCall x · span) args v) := by
  simp only [mathCall, hone, htwo] at h
  split at h
  · next hx =>
    split at h
    · cases h
    · next first more =>
      obtain ⟨start, hstart, h⟩ := bind_eq_ok.1 h
      obtain ⟨sum, hsum, h⟩ := bind_eq_ok.1 h
      obtain ⟨⟨g, hg, hrun⟩, hkept⟩ := fold_framed add_takesOn hstart hsum
      obtain ⟨⟨g', hg', hrun'⟩, hneeds, -⟩ := binary_framed h hg (.fixed _)
      rw [append_nil] at hg'
      have hall : Kept (first :: more) v := fun arg harg => by
        obtain ⟨u, hu, hsub⟩ := hkept arg harg
        exact ⟨u, hu, List.Subset.trans hsub hneeds⟩
      refine ⟨hall, fun hnames => ⟨hnames, hall, g', hg', fun p => ?_⟩⟩
      · simp only [mathCall, hone, htwo, if_pos hx, recodeFrom, length_cons, length_recodeFrom]
        refine bind_eq_ok.2 ⟨_, first.value.result_recode hstart _, bind_eq_ok.2 ⟨_, hrun p, ?_⟩⟩
        exact hrun' p
  · cases h

end Math

theorem orElse_inOrder (h : orElse args span = .ok v) (hnames : ∀ arg ∈ args, arg.name = none)
    (hv : args.length = 2 → v.kind = .series) : InOrder (orElse · span) args v := by
  unfold orElse at h
  split at h
  · next value =>
    obtain ⟨_, hpair, h⟩ := bind_eq_ok.1 h
    cases hpair
    obtain ⟨u, hu, h⟩ := bind_eq_ok.1 h
    obtain ⟨_, hcheck, h⟩ := bind_eq_ok.1 h
    have hresult := value.value.result_recode hu
    split at h
    · next hscalar =>
      cases h
      refine ⟨hnames, by simpa [Kept] using ⟨v, hu, List.Subset.refl _⟩, _, .piece 0, fun p => ?_⟩
      refine bind_eq_ok.2 ⟨_, rfl, ?_⟩
      exact bind_eq_ok.2 ⟨_, hresult (p 0), bind_eq_ok.2 ⟨(), hcheck, if_pos hscalar⟩⟩
    · next hseries =>
      cases h
      refine ⟨hnames, ?_, _, (u.takes_operand (.piece 0)).ops_one "nz" [.number 0.0], fun p => ?_⟩
      · simpa [Kept, Lowered.ofSeries] using ⟨u, hu, by simp⟩
      · refine bind_eq_ok.2 ⟨_, rfl, ?_⟩
        exact bind_eq_ok.2 ⟨_, hresult (p 0), bind_eq_ok.2 ⟨(), hcheck, if_neg hseries⟩⟩
  · next value replacement =>
    obtain ⟨_, hpair, h⟩ := bind_eq_ok.1 h
    cases hpair
    obtain ⟨u, hu, h⟩ := bind_eq_ok.1 h
    obtain ⟨_, hcheck, h⟩ := bind_eq_ok.1 h
    split at h
    · next hscalar =>
      cases h
      exact absurd (hv rfl) hscalar
    · next hseries =>
      obtain ⟨r, hr, h⟩ := bind_eq_ok.1 h
      obtain ⟨_, hcheck', h⟩ := bind_eq_ok.1 h
      cases h
      refine ⟨hnames, ?_, _, (u.takes_operand (.piece 0)).ops_two "nz" (r.takes_operand (.piece 1)) [], fun p => ?_⟩
      · simpa [Kept, Lowered.ofSeries] using ⟨⟨u, hu, by simp⟩, r, hr, by simp⟩
      · refine bind_eq_ok.2 ⟨_, rfl, ?_⟩
        refine bind_eq_ok.2 ⟨_, value.value.result_recode hu _, bind_eq_ok.2 ⟨(), hcheck, ?_⟩⟩
        refine (if_neg hseries).trans (bind_eq_ok.2 ⟨_, replacement.value.result_recode hr _, ?_⟩)
        exact bind_eq_ok.2 ⟨(), hcheck', rfl⟩
  · cases h

theorem orElse_of_scalar (h : orElse args span = .ok v) (hlength : args.length = 2)
    (hv : v.kind ≠ .series) : Framed [0] (fun p => orElse (recodeFrom p 0 args) span) v := by
  obtain ⟨value, replacement, rfl⟩ := length_eq_two.1 hlength
  obtain ⟨_, hpair, h⟩ := bind_eq_ok.1 h
  cases hpair
  obtain ⟨u, hu, h⟩ := bind_eq_ok.1 h
  obtain ⟨_, hcheck, h⟩ := bind_eq_ok.1 h
  split at h
  · next hscalar =>
    cases h
    refine ⟨_, .piece 0, fun p => bind_eq_ok.2 ⟨_, rfl, ?_⟩⟩
    exact bind_eq_ok.2 ⟨_, value.value.result_recode hu (p 0), bind_eq_ok.2 ⟨(), hcheck, if_pos hscalar⟩⟩
  · obtain ⟨r, -, h⟩ := bind_eq_ok.1 h
    obtain ⟨_, -, h⟩ := bind_eq_ok.1 h
    cases h
    exact absurd rfl hv

end Lowering

end ChartScript
