import ChartScript.Proofs.Lowering.Slots
import ChartScript.Proofs.Outcome
/-!
# Frames of code

A frame is code with places for other pieces of code.
-/
namespace ChartScript

open List Lowered

/-- Code around other code, which is given by number. -/
abbrev Frame := (Nat → Code) → Code

namespace Frame

mutual

/-- The frame takes the pieces with the given numbers, each in one place and in this order. -/
inductive Takes : List Nat → Frame → Prop
  | piece (j : Nat) : Takes [j] fun p => p j
  | fixed (c : Code) : Takes [] fun _ => c
  | borrow {js : List Nat} {f : Frame} : Takes js f → Takes js fun p => .borrow (f p)
  | group {js : List Nat} {f : Frame} : Takes js f → Takes js fun p => .group (f p)
  | binary {js ks : List Nat} {f g : Frame} (op : BinaryOp) : Takes js f → Takes ks g →
      Takes (js ++ ks) fun p => .binary op (f p) (g p)
  | call {js : List Nat} {fs : List Frame} (function : Code) : TakesAll js fs →
      Takes js fun p => .call function (fs.map (· p))
  | method {js ks : List Nat} {f : Frame} {fs : List Frame} (name : String) : Takes js f →
      TakesAll ks fs → Takes (js ++ ks) fun p => .method (f p) name (fs.map (· p))

inductive TakesAll : List Nat → List Frame → Prop
  | nil : TakesAll [] []
  | cons {js ks : List Nat} {f : Frame} {fs : List Frame} : Takes js f → TakesAll ks fs →
      TakesAll (js ++ ks) (f :: fs)

end

section

variable {p q : Nat → Code} {j : Nat}

mutual

theorem Takes.congr {js : List Nat} {f : Frame} : Takes js f → (∀ j ∈ js, p j = q j) → f p = f q
  | .piece j, hpq => hpq j mem_cons_self
  | .fixed _, _ => rfl
  | .borrow h, hpq => congrArg Code.borrow (h.congr hpq)
  | .group h, hpq => congrArg Code.group (h.congr hpq)
  | .binary op hf hg, hpq =>
    congrArg₂ (Code.binary op) (hf.congr fun j hj => hpq j (mem_append_left _ hj))
      (hg.congr fun j hj => hpq j (mem_append_right _ hj))
  | .call function h, hpq => congrArg (Code.call function) (h.congr hpq)
  | .method name hf hfs, hpq =>
    congrArg₂ (Code.method · name) (hf.congr fun j hj => hpq j (mem_append_left _ hj))
      (hfs.congr fun j hj => hpq j (mem_append_right _ hj))

theorem TakesAll.congr {js : List Nat} {fs : List Frame} :
    TakesAll js fs → (∀ j ∈ js, p j = q j) → fs.map (· p) = fs.map (· q)
  | .nil, _ => rfl
  | .cons hf hfs, hpq =>
    congrArg₂ List.cons (hf.congr fun j hj => hpq j (mem_append_left _ hj))
      (hfs.congr fun j hj => hpq j (mem_append_right _ hj))

end

mutual

theorem Takes.sizeOf_le {js : List Nat} {f : Frame} : Takes js f → j ∈ js → sizeOf (p j) ≤ sizeOf (f p)
  | .piece _, hj => by
    have heq := mem_singleton.1 hj
    exact Nat.le_of_eq (by rw [heq])
  | .borrow h, hj => by
    have := h.sizeOf_le hj
    simp only [Code.borrow.sizeOf_spec]
    omega
  | .group h, hj => by
    have := h.sizeOf_le hj
    simp only [Code.group.sizeOf_spec]
    omega
  | .binary op hf hg, hj => by
    simp only [Code.binary.sizeOf_spec]
    rcases mem_append.1 hj with hj | hj
    · have := hf.sizeOf_le hj
      omega
    · have := hg.sizeOf_le hj
      omega
  | .call function h, hj => by
    have := h.sizeOf_le hj
    simp only [Code.call.sizeOf_spec]
    omega
  | .method name hf hfs, hj => by
    simp only [Code.method.sizeOf_spec]
    rcases mem_append.1 hj with hj | hj
    · have := hf.sizeOf_le hj
      omega
    · have := hfs.sizeOf_le hj
      omega

theorem TakesAll.sizeOf_le {js : List Nat} {fs : List Frame} :
    TakesAll js fs → j ∈ js → sizeOf (p j) ≤ sizeOf (fs.map (· p))
  | .cons hf hfs, hj => by
    simp only [map_cons, List.cons.sizeOf_spec]
    rcases mem_append.1 hj with hj | hj
    · have := hf.sizeOf_le hj
      omega
    · have := hfs.sizeOf_le hj
      omega

end

end

variable {js ks : List Nat} {f g : Frame}

theorem Takes.subset (hf : Takes js f) (hg : Takes ks g) (heq : ∀ p, f p = g p) : js ⊆ ks := by
  intro j hj
  by_contra hnot
  -- In the place of the piece stands more code than the whole frame has without it.
  let p : Nat → Code := fun _ => .barCount
  let q : Nat → Code := fun i => if i = j then .group (g p) else p i
  have hsame : g q = g p := hg.congr fun i hi => if_neg fun hij : i = j => hnot (hij ▸ hi)
  have hle : sizeOf (q j) ≤ sizeOf (f q) := hf.sizeOf_le hj
  rw [heq, hsame, show q j = .group (g p) from if_pos rfl, Code.group.sizeOf_spec] at hle
  omega

theorem takesAll_fixed (cs : List Code) : TakesAll [] (cs.map fun c _ => c) := by
  induction cs with
  | nil => exact .nil
  | cons c cs ih => exact .cons (.fixed c) ih

theorem Takes.ops_one (function : String) (h : Takes js f) (more : List Code) :
    Takes js fun p => .ops function (f p :: more) := by
  have hcall := Takes.call (.path ["ops", function]) (.cons h (takesAll_fixed more))
  rw [append_nil] at hcall
  simpa [Code.ops, Function.comp_def] using hcall

theorem Takes.ops_two (function : String) (hf : Takes js f) (hg : Takes ks g) (more : List Code) :
    Takes (js ++ ks) fun p => .ops function (f p :: g p :: more) := by
  have hcall := Takes.call (.path ["ops", function]) (.cons hf (.cons hg (takesAll_fixed more)))
  rw [append_nil] at hcall
  simpa [Code.ops, Function.comp_def] using hcall

theorem Takes.method_one (name : String) (hf : Takes js f) (hg : Takes ks g) :
    Takes (js ++ ks) fun p => .method (f p) name [g p] := by
  have hall := TakesAll.cons hg .nil
  rw [append_nil] at hall
  exact .method name hf hall

theorem Takes.method_none (name : String) (h : Takes js f) : Takes js fun p => .method (f p) name [] := by
  have hmethod := Takes.method name h .nil
  rwa [append_nil] at hmethod

theorem Takes.broadcast (h : Takes js f) : Takes js fun p => (f p).broadcast :=
  h.ops_one "series" [.barCount]

end Frame

namespace Lowered

variable {js ks : List Nat} {f g : Frame}

/-- The same value in other code. -/
def recode (v : Lowered) (c : Code) : Lowered :=
  { v with code := c }

theorem takes_operand (v : Lowered) (h : Frame.Takes js f) : Frame.Takes js fun p => (v.recode (f p)).operand := by
  by_cases hplace : v.place ∧ v.kind = .series
  · simpa [operand, recode, hplace] using h.borrow
  · simpa [operand, recode, hplace] using h

theorem takes_truth (v : Lowered) (h : Frame.Takes js f) : Frame.Takes js fun p => (v.recode (f p)).truth := by
  by_cases hnumber : v.kind = .number
  · have hbinary := Frame.Takes.binary .ne h (.fixed (.number 0.0))
    rw [append_nil] at hbinary
    simpa [truth, recode, hnumber] using hbinary
  · simpa [truth, recode, hnumber] using h

end Lowered

namespace Lowering

open Frame

variable {js ks : List Nat} {f g : Frame}

def Framed (js : List Nat) (run : (Nat → Code) → Except LoweringError Lowered) (v : Lowered) : Prop :=
  ∃ f, Takes js f ∧ ∀ p, run p = .ok (v.recode (f p))

theorem binary_framed {op : BinaryOp} {l r v : Lowered} {span : Span} (h : binary op l r span = .ok v)
    (hf : Takes js f) (hg : Takes ks g) :
    Framed (js ++ ks) (fun p => binary op (l.recode (f p)) (r.recode (g p)) span) v ∧ l.needs ⊆ v.needs ∧
    r.needs ⊆ v.needs := by
  obtain ⟨_, hl, h⟩ := bind_eq_ok.1 h
  obtain ⟨_, hr, h⟩ := bind_eq_ok.1 h
  dsimp only at h
  split at h
  · next hseries =>
    cases h
    refine ⟨⟨_, (l.takes_operand hf).ops_two op.elementwise (r.takes_operand hg) [], fun p =>
      bind_eq_ok.2 ⟨(), hl, bind_eq_ok.2 ⟨(), hr, if_pos hseries⟩⟩⟩, ?_⟩
    simp [ofSeries]
  next hscalar =>
  split at h
  · next hlogical =>
    cases h
    refine ⟨⟨_, .binary op (l.takes_truth hf) (r.takes_truth hg), fun p =>
      bind_eq_ok.2 ⟨(), hl, bind_eq_ok.2 ⟨(), hr, (if_neg hscalar).trans (if_pos hlogical)⟩⟩⟩, ?_⟩
    simp
  next hlogical =>
  split at h
  · next hcompares =>
    split at h
    · next hkinds =>
      cases h
      refine ⟨⟨_, .binary op hf hg, fun p => bind_eq_ok.2 ⟨(), hl, bind_eq_ok.2 ⟨(), hr, ?_⟩⟩⟩, ?_⟩
      · exact (if_neg hscalar).trans ((if_neg hlogical).trans ((if_pos hcompares).trans (if_pos hkinds)))
      · simp
    · cases h
  next hcompares =>
  split at h
  · next hnumbers =>
    cases h
    refine ⟨⟨_, .binary op hf hg, fun p => bind_eq_ok.2 ⟨(), hl, bind_eq_ok.2 ⟨(), hr, ?_⟩⟩⟩, ?_⟩
    · exact (if_neg hscalar).trans ((if_neg hlogical).trans ((if_neg hcompares).trans (if_pos hnumbers)))
    · simp
  · cases h

theorem applyOne_framed (function : String) (v : Lowered) (hf : Takes js f) :
    (∃ g, Takes js g ∧ ∀ p, applyOne function (v.recode (f p)) = (applyOne function v).recode (g p)) ∧
    v.needs ⊆ (applyOne function v).needs := by
  by_cases hnumber : v.kind = .number
  · by_cases hsign : function = "sign"
    · refine ⟨⟨_, hf.ops_one "sign" [], fun p => ?_⟩, ?_⟩ <;> simp [applyOne, recode, hnumber, hsign]
    · refine ⟨⟨_, hf.group.method_none function, fun p => ?_⟩, ?_⟩ <;> simp [applyOne, recode, hnumber, hsign]
  · refine ⟨⟨_, (v.takes_operand hf).ops_one "apply"
      [if function = "sign" then .path ["ops", "sign"] else .path ["f64", function]], fun p => ?_⟩, ?_⟩
    · simp [applyOne, recode, hnumber, ofSeries]
    · simp [applyOne, hnumber, ofSeries]

theorem applyTwo_framed (function : String) (a b : Lowered) (hf : Takes js f) (hg : Takes ks g) :
    (∃ k, Takes (js ++ ks) k ∧ ∀ p, applyTwo function (a.recode (f p)) (b.recode (g p)) =
    (applyTwo function a b).recode (k p)) ∧ a.needs ⊆ (applyTwo function a b).needs ∧
    b.needs ⊆ (applyTwo function a b).needs := by
  by_cases hnumbers : a.kind = .number ∧ b.kind = .number
  · refine ⟨⟨_, hf.group.method_one function hg, fun p => ?_⟩, ?_⟩ <;> simp [applyTwo, recode, hnumbers]
  · refine ⟨⟨_, (a.takes_operand hf).ops_two "apply2" (b.takes_operand hg) [.path ["f64", function]],
      fun p => ?_⟩, ?_⟩
    · simp [applyTwo, recode, hnumbers, ofSeries]
    · simp [applyTwo, hnumbers, ofSeries]

end Lowering

end ChartScript
