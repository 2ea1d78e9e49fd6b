import ChartScript.Text.Blank
import ChartScript.Text.Letter
import Mathlib.Data.List.Basic
/-!
# Classes of characters

A digit goes on with a name and never begins one; white space is a short list of code points.
-/
namespace ChartScript.Text

variable {c : Char}

theorem isDigit_iff : c.isDigit = true ↔ 48 ≤ c.toNat ∧ c.toNat ≤ 57 := by
  simp [Char.isDigit, UInt32.le_iff_toNat_le, ← Char.toNat_val]

theorem isAlpha_iff : c.isAlpha = true ↔ (65 ≤ c.toNat ∧ c.toNat ≤ 90) ∨ (97 ≤ c.toNat ∧ c.toNat ≤ 122) := by
  have hcases : c.isAlpha =
      (decide (65 ≤ c.val ∧ c.val ≤ 90) || (decide (97 ≤ c.val) && decide (c.val ≤ 122))) := rfl
  simp [hcases, UInt32.le_iff_toNat_le, ← Char.toNat_val]

theorem isAlpha_eq (c : Char) : c.isAlpha = (c.isUpper || c.isLower) := rfl

theorem isLower_iff : c.isLower = true ↔ 97 ≤ c.toNat ∧ c.toNat ≤ 122 := by
  have hcases : c.isLower = (decide (97 ≤ c.val) && decide (c.val ≤ 122)) := rfl
  simp [hcases, UInt32.le_iff_toNat_le, ← Char.toNat_val]

theorem isUpper_iff : c.isUpper = true ↔ 65 ≤ c.toNat ∧ c.toNat ≤ 90 := by
  have hcases : c.isUpper = decide (65 ≤ c.val ∧ c.val ≤ 90) := rfl
  simp [hcases, UInt32.le_iff_toNat_le, ← Char.toNat_val]

theorem isLower_toLower (h : c.isUpper = true) : c.toLower.isLower = true := by
  have hval : c.toLower.val = c.val + 32 := by
    delta Char.toLower
    rw [dif_pos (of_decide_eq_true h)]
    rfl
  have hupper := isUpper_iff.1 h
  have hnat : c.toLower.toNat = (c.toNat + 32) % 2 ^ 32 := by
    rw [← Char.toNat_val, hval, UInt32.toNat_add, Char.toNat_val]
    rfl
  rw [isLower_iff, hnat]
  omega

theorem isUpper_toUpper (h : c.isLower = true) : c.toUpper.isUpper = true := by
  have hval : c.toUpper.val = c.val + 4294967264 := by
    obtain ⟨hfirst, hlast⟩ := Bool.and_eq_true_iff.1 h
    delta Char.toUpper
    rw [dif_pos ⟨of_decide_eq_true hfirst, of_decide_eq_true hlast⟩]
    rfl
  have hlower := isLower_iff.1 h
  have hnat : c.toUpper.toNat = (c.toNat + 4294967264) % 2 ^ 32 := by
    rw [← Char.toNat_val, hval, UInt32.toNat_add, Char.toNat_val]
    rfl
  rw [isUpper_iff, hnat]
  omega

theorem toUpper_of_not_isLower (h : c.isLower = false) : c.toUpper = c := by
  delta Char.toUpper
  rw [dif_neg]
  rintro ⟨hfirst, hlast⟩
  have : c.isLower = true := Bool.and_eq_true_iff.2 ⟨decide_eq_true hfirst, decide_eq_true hlast⟩
  rw [h] at this
  cases this

theorem isLower_toUpper (c : Char) : c.toUpper.isLower = false := by
  cases h : c.isLower with
  | false => rwa [toUpper_of_not_isLower h]
  | true =>
    have hupper := isUpper_iff.1 (isUpper_toUpper h)
    rw [Bool.eq_false_iff, Ne, isLower_iff]
    omega

theorem continuesWord_of_startsWord (h : startsWord c = true) : continuesWord c = true := by
  simp only [startsWord, Bool.or_eq_true] at h
  simp only [continuesWord, isLetterOrNumeral, Bool.or_eq_true]
  rcases h with h | h
  · exact .inl (.inl h)
  · exact .inr h

theorem not_startsWord (h : continuesWord c = false) : startsWord c = false := by
  cases hs : startsWord c with
  | false => rfl
  | true => rw [continuesWord_of_startsWord hs] at h; cases h

theorem not_startsWord_of_isDigit (h : c.isDigit = true) : startsWord c = false := by
  have hd := isDigit_iff.1 h
  have hu : c ≠ '_' := by rintro rfl; simp at hd
  have ha : c.isAlpha = false := by
    cases hc : c.isAlpha with
    | false => rfl
    | true => have := isAlpha_iff.1 hc; omega
  simp [startsWord, isLetter, hu, ha, show c.toNat < 128 by omega]

/-- The code points of white space, one by one. -/
def blankCodes : List Nat :=
  [9, 10, 11, 12, 13, 32, 133, 160, 5760, 8192, 8193, 8194, 8195, 8196, 8197, 8198, 8199, 8200,
   8201, 8202, 8232, 8233, 8239, 8287, 12288]

theorem mem_blankCodes (h : isBlank c = true) : c.toNat ∈ blankCodes := by
  simp [isBlank, inRanges, blankRanges] at h
  simp [blankCodes]
  omega

end ChartScript.Text
