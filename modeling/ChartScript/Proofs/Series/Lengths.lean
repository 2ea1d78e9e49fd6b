import ChartScript.Proofs.Series.Delayed
import ChartScript.Series.Checked
import Mathlib
/-!
# Window arithmetic in 64 bits

The bar numbers of a window always fit: its end is a bar, and its beginning is only computed once the
window is known to be full. The length of a weighted average is multiplied, and that of a rank
increased, before it is compared with the number of bars. So a length that is much too long gives no
series without values, as it does for other studies, but breaks off the study.
-/
namespace ChartScript

open List Length

namespace Length

variable {α : Type} {items : List α} {bar : Nat}

theorem windowAt?_eq (length : Nat) (hbar : bar < items.length) (hsize : items.length ≤ lengthLimit) :
    windowAt? length items bar = some (window? length (items.take (bar + 1)).reverse) := by
  have hfit : bar + 1 ≤ lengthLimit := Nat.le_trans hbar hsize
  have htaken : (items.take (bar + 1)).length = bar + 1 := by
    rw [length_take]
    omega
  simp only [windowAt?, fit?, if_pos hfit, Option.bind_eq_bind, Option.bind_some, window?, length_take,
    length_reverse, htaken]
  by_cases hshort : length = 0 ∨ bar + 1 < length
  · rw [if_pos hshort, if_pos (by omega)]
    rfl
  · have hfull : length ≤ bar + 1 := by omega
    rw [if_neg hshort, if_neg (by omega), take_reverse, reverse_reverse, htaken, drop_take, minus?,
      if_pos hfull, Nat.sub_sub_self hfull]
    rfl

theorem windows?_eq (length : Nat) (hsize : items.length ≤ lengthLimit) :
    windows? length items = some (scanHistory (window? length) items) := by
  have hall : ∀ bars : List Nat, (∀ bar ∈ bars, bar < items.length) →
      bars.mapM (windowAt? length items) =
        some (bars.map fun bar => window? length (items.take (bar + 1)).reverse) := by
    intro bars hbars
    induction bars with
    | nil => rfl
    | cons bar rest ih =>
      rw [mapM_cons, windowAt?_eq length (hbars bar mem_cons_self) hsize,
        ih fun b hb => hbars b (mem_cons_of_mem _ hb)]
      rfl
  rw [windows?, hall _ fun _ => mem_range.1]
  congr 1
  refine ext_getElem? fun bar => ?_
  rw [getElem?_scanHistory, getElem?_map]
  by_cases hbar : bar < items.length
  · rw [getElem?_range hbar, getElem?_eq_getElem hbar]
    rfl
  · rw [getElem?_eq_none (by simpa using hbar), getElem?_eq_none (Nat.le_of_not_lt hbar)]
    rfl

theorem map_scanHistory {β γ : Type} (g : β → γ) (f : List α → β) (items : List α) :
    (scanHistory f items).map g = scanHistory (fun history => g (f history)) items := by
  refine ext_getElem? fun i => ?_
  rw [getElem?_map, getElem?_scanHistory, getElem?_scanHistory, Option.map_map]
  rfl

end Length

namespace Series

variable {s t : Series}

theorem rolling?_eq (hs : s.size ≤ lengthLimit) (length : Nat) (f : List Float → Option Float) :
    s.rolling? length f = some (s.rolling length f) := by
  rw [rolling?, windows?_eq length hs]
  exact congrArg (some ∘ ofValues) (map_scanHistory _ _ _)

theorem rollingPair?_eq (hs : s.size ≤ lengthLimit) (length : Nat)
    (f : List (Float × Float) → Option Float) :
    s.rollingPair? t length f = some (s.rollingPair t length f) := by
  have hzip : (s.values.zip t.values).length ≤ lengthLimit := by
    rw [length_zip]
    exact Nat.le_trans (Nat.min_le_left _ _) hs
  rw [rollingPair?, windows?_eq length hzip]
  exact congrArg (some ∘ ofValues) (map_scanHistory _ _ _)

theorem doubledWeights_le_iff (length : Nat) : doubledWeights length ≤ lengthLimit ↔ length < 2 ^ 32 := by
  unfold doubledWeights lengthLimit
  constructor
  · intro h
    by_contra hlong
    have hle : 2 ^ 32 ≤ length := Nat.le_of_not_lt hlong
    have : 2 ^ 32 * (2 ^ 32 + 1) ≤ length * (length + 1) := Nat.mul_le_mul hle (Nat.add_le_add_right hle 1)
    omega
  · intro h
    have : length * (length + 1) ≤ (2 ^ 32 - 1) * 2 ^ 32 := Nat.mul_le_mul (Nat.le_sub_one_of_lt h) h
    omega

theorem wma?_eq (hs : s.size ≤ lengthLimit) (length : Nat) :
    s.wma? length = if length < 2 ^ 32 then some (s.wma length) else none := by
  have hiff := doubledWeights_le_iff length
  unfold doubledWeights at hiff
  by_cases hshort : length < 2 ^ 32
  · have hnext : length + 1 ≤ lengthLimit := by
      unfold lengthLimit
      omega
    simp only [wma?, fit?, if_pos hnext, Option.bind_eq_bind, Option.bind_some, if_pos (hiff.2 hshort), if_pos hshort]
    exact rolling?_eq hs _ _
  · have hdoubled : ¬length * (length + 1) ≤ lengthLimit := fun h => hshort (hiff.1 h)
    rw [if_neg hshort]
    by_cases hnext : length + 1 ≤ lengthLimit
    · simp only [wma?, fit?, if_pos hnext, Option.bind_eq_bind, Option.bind_some, if_neg hdoubled, Option.bind_none]
    · simp only [wma?, fit?, if_neg hnext, Option.bind_eq_bind, Option.bind_none]

theorem hma?_eq (hs : s.size ≤ lengthLimit) (length : Nat) :
    s.hma? length = if length < 2 ^ 32 ∧ rootLength length < 2 ^ 32 then some (s.hma length) else none := by
  unfold hma?
  by_cases hshort : length < 2 ^ 32
  · have hhalf : length / 2 < 2 ^ 32 := by omega
    have hraw : (Operand.sub (Operand.mul (s.wma (length / 2)) (2.0 : Float)) (s.wma length)).size ≤
        lengthLimit := by
      simpa [Operand.sub, Operand.mul, wma] using hs
    rw [wma?_eq hs, wma?_eq hs, if_pos hhalf, if_pos hshort]
    refine (wma?_eq hraw _).trans ?_
    simp only [hshort, true_and]
    rfl
  · rw [wma?_eq hs length, if_neg hshort, if_neg fun h => hshort h.1]
    cases s.wma? (length / 2) <;> rfl

theorem percentRank?_eq (hs : s.size ≤ lengthLimit) (length : Nat) :
    s.percentRank? length = if length < lengthLimit then some (s.percentRank length) else none := by
  unfold percentRank? fit?
  by_cases hshort : length < lengthLimit
  · rw [if_pos hshort, if_pos (show length + 1 ≤ lengthLimit from hshort)]
    exact rolling?_eq hs _ _
  · rw [if_neg hshort, if_neg (show ¬length + 1 ≤ lengthLimit from hshort)]
    rfl

end Series

open Series

/-- The arithmetic of a window never breaks off, nor does that of a study for which no length is
calculated with. The others break off exactly for the lengths that are given. This is about the
numbers alone: the room that a window takes, which can break off from `2 ^ 60` values on, is not counted. -/
theorem window_arithmetic_fits {s : Series} (hs : s.size ≤ lengthLimit) (t : Series) (length : Nat) (b : Bars) :
    (∀ f, s.rolling? length f = some (s.rolling length f)) ∧
    (∀ f, s.rollingPair? t length f = some (s.rollingPair t length f)) ∧
    (Study.wma s length).run? b = (if length < 2 ^ 32 then some ((Study.wma s length).run b) else none) ∧
    (Study.hma s length).run? b = (if length < 2 ^ 32 ∧ rootLength length < 2 ^ 32 then
      some ((Study.hma s length).run b) else none) ∧
    (Study.percentRank s length).run? b =
      if length < lengthLimit then some ((Study.percentRank s length).run b) else none := by
  refine ⟨rolling?_eq hs length, rollingPair?_eq hs length, ?_, ?_, ?_⟩
  · rw [Study.run?, wma?_eq hs]
    split <;> rfl
  · rw [Study.run?, hma?_eq hs]
    split <;> rfl
  · rw [Study.run?, percentRank?_eq hs]
    split <;> rfl

def threeBars : Series :=
  .ofNumbers [1.0, 2.0, 3.0]

theorem window_arithmetic_fits_short : threeBars.size ≤ lengthLimit ∧
    (∀ f, threeBars.rolling? 2 f = some (threeBars.rolling 2 f)) ∧
    (∀ f, threeBars.rollingPair? threeBars 2 f = some (threeBars.rollingPair threeBars 2 f)) ∧
    (Study.wma threeBars 2).run? ⟨[]⟩ = some [threeBars.wma 2] ∧
    (Study.percentRank threeBars 2).run? ⟨[]⟩ = some [threeBars.percentRank 2] := by
  have hsize : threeBars.size ≤ lengthLimit := by decide
  obtain ⟨hrolling, hpair, hwma, -, hrank⟩ := window_arithmetic_fits hsize threeBars 2 ⟨[]⟩
  exact ⟨hsize, hrolling, hpair, hwma.trans (if_pos (by decide)), hrank.trans (if_pos (by decide))⟩

/-- A weighted average over 2 ^ 32 bars and a rank over the longest window break off. -/
theorem long_window_overflows : (Study.wma threeBars (lengthOfInt 4294967296)).run? ⟨[]⟩ = none ∧
    (Study.percentRank threeBars lengthLimit).run? ⟨[]⟩ = none := by
  constructor
  · rfl
  · rfl

end ChartScript
