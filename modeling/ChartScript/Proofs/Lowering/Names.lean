import ChartScript.Lowering.Names
import ChartScript.Proofs.Text.Letter
import Mathlib.Data.List.Nodup
import Mathlib.Data.List.Perm.Subperm
/-!
# Emitted names are free

A name that is made different from the taken ones is not taken: there are more candidates than taken
names, and no two candidates are the same.
-/
namespace ChartScript.EmittedName

open List

theorem firstFree_not_mem {taken : List String} {candidate : Nat → String}
    (hinj : Function.Injective candidate) : firstFree taken candidate ∉ taken := by
  let candidates := (List.range (taken.length + 1)).map candidate
  have hnodup : candidates.Nodup := nodup_range.map hinj
  have hfree : ∃ c ∈ candidates, (!taken.contains c) = true := by
    by_contra hno
    have hsub : candidates ⊆ taken := fun c hc => by
      by_contra hc'
      exact hno ⟨c, hc, by simpa using hc'⟩
    have := (List.Nodup.subperm hnodup hsub).length_le
    rw [length_map, length_range] at this
    omega
  have hfound := find?_isSome.2 hfree
  obtain ⟨c, hc⟩ := Option.isSome_iff_exists.1 hfound
  have hnot := find?_some hc
  rw [firstFree, hc, Option.getD_some]
  simpa using hnot

theorem eq_of_append_repr {base : String} {m n : Nat}
    (h : base ++ "_" ++ m.repr = base ++ "_" ++ n.repr) : m = n := by
  have hdigits := congrArg String.toList h
  simp only [String.toList_append, append_cancel_left_eq, Nat.toList_repr] at hdigits
  have := congrArg (Nat.ofDigitChars 10 · 0) hdigits
  simpa only [Nat.ofDigitChars_ten_toDigits] using this

theorem numbered_not_mem (taken : List String) (base : String) : numbered taken base ∉ taken :=
  firstFree_not_mem fun _ _ h => eq_of_append_repr h

theorem unique_not_mem (taken : List String) (base : String) : unique taken base ∉ taken := by
  -- A number makes a name longer, so the name itself is none of the numbered ones.
  have hne : ∀ n : Nat, base ≠ base ++ "_" ++ n.repr := by
    intro n h
    have := congrArg (·.toList.length) h
    simp at this
  refine firstFree_not_mem fun m n h => ?_
  split_ifs at h with hm hn hn
  · omega
  · exact absurd h (hne _)
  · exact absurd h.symm (hne _)
  · have := eq_of_append_repr h
    omega

/-! ## What emitted names look like -/

def isSmallChar (c : Char) : Bool :=
  c.isLower || c.isDigit || c == '_'

/-- A name as emitted code binds it. -/
structure Plain (e : String) : Prop where
  nonempty : e.toList ≠ []
  small : e.toList.all isSmallChar = true
  free : e ∉ reservedNames

theorem words_small (previous : Option Char) (cs : List Char) : (words previous cs).all isSmallChar = true := by
  induction cs generalizing previous with
  | nil => rfl
  | cons c rest ih =>
    unfold words
    by_cases hc : c.isUpper = true
    · have hsmall : isSmallChar c.toLower = true := by
        rw [isSmallChar, Text.isLower_toLower hc]
        rfl
      rw [if_pos hc, all_append, ih]
      split <;> simp [hsmall, show isSmallChar '_' = true from rfl]
    · rw [if_neg hc, all_cons, ih, Bool.and_true]
      split
      · next hname =>
        simp only [isNameChar, Text.isAlpha_eq, hc, Bool.false_or, Bool.or_eq_true] at hname
        simpa [isSmallChar] using hname
      · rfl

theorem snakeCase_small (name : String) :
    (snakeCase name).toList ≠ [] ∧ (snakeCase name).toList.all isSmallChar = true := by
  have hsmall := words_small none name.toList
  unfold snakeCase
  split
  · exact ⟨by decide, by decide⟩
  · next c rest hwords =>
    rw [hwords] at hsmall
    rw [String.toList_ofList]
    split
    · exact ⟨by simp, by rw [all_cons, hsmall]; rfl⟩
    · exact ⟨by simp, hsmall⟩

theorem ofName_plain (name : String) : Plain (ofName name) := by
  obtain ⟨hne, hsmall⟩ := snakeCase_small name
  unfold ofName
  dsimp only
  split
  · next hreserved =>
    -- no reserved name has an underscore behind another one
    have hfree : reservedNames.all (fun r => !reservedNames.contains (r ++ "_")) = true := by decide +kernel
    refine ⟨by simp, ?_, ?_⟩
    · rw [String.toList_append, all_append, hsmall]
      rfl
    · simpa using all_eq_true.1 hfree _ (contains_iff_mem.1 hreserved)
  · next hfree => exact ⟨hne, hsmall, by simpa using hfree⟩

def isNumbered (cs : List Char) : Bool :=
  cs.reverse.head?.any Char.isDigit && (cs.reverse.dropWhile Char.isDigit).head? == some '_'

theorem isNumbered_append (base : List Char) {digits : List Char} (hne : digits ≠ [])
    (h : ∀ c ∈ digits, c.isDigit = true) : isNumbered (base ++ '_' :: digits) = true := by
  have hrev : ∀ c ∈ digits.reverse, c.isDigit = true := fun c hc => h c (mem_reverse.1 hc)
  have hlast : digits.reverse.head?.any Char.isDigit = true := by
    cases hd : digits.reverse with
    | nil => exact absurd (reverse_eq_nil_iff.1 hd) hne
    | cons d rest => exact hrev d (by rw [hd]; exact mem_cons_self)
  have hcs : (base ++ '_' :: digits).reverse = digits.reverse ++ '_' :: base.reverse := by simp
  rw [isNumbered, hcs, dropWhile_append_of_pos hrev, head?_append_of_ne_nil _ (by simpa using hne), hlast]
  rfl

theorem numbered_reserved : reservedNames.all (fun r => !isNumbered r.toList) = true := by
  decide

theorem Plain.number {base : String} (h : base.toList.all isSmallChar = true) (n : Nat) :
    Plain (base ++ "_" ++ n.repr) := by
  have hdigits : ∀ c ∈ Nat.toDigits 10 n, c.isDigit = true := fun c hc =>
    Nat.isDigit_of_mem_toDigits (by omega) (by omega) hc
  have hlist : (base ++ "_" ++ n.repr).toList = base.toList ++ '_' :: Nat.toDigits 10 n := by simp [Nat.toList_repr]
  have hnumbered : isNumbered (base ++ "_" ++ n.repr).toList = true := by
    rw [hlist]
    exact isNumbered_append _ Nat.toDigits_ne_nil hdigits
  refine ⟨by simp, ?_, fun hmem => ?_⟩
  · rw [hlist, all_append, h, all_cons]
    have hsmall : (Nat.toDigits 10 n).all isSmallChar = true :=
      all_eq_true.2 fun c hc => by simp [isSmallChar, hdigits c hc]
    rw [hsmall]
    rfl
  · have := all_eq_true.1 numbered_reserved _ hmem
    rw [hnumbered] at this
    cases this

theorem firstFree_eq (taken : List String) (candidate : Nat → String) :
    ∃ n, firstFree taken candidate = candidate n := by
  unfold firstFree
  cases h : ((List.range (taken.length + 1)).map candidate).find? (!taken.contains ·) with
  | none => exact ⟨0, rfl⟩
  | some e =>
    obtain ⟨n, _, rfl⟩ := mem_map.1 (mem_of_find?_eq_some h)
    exact ⟨n, rfl⟩

theorem unique_plain (taken : List String) {base : String} (h : Plain base) : Plain (unique taken base) := by
  obtain ⟨n, hn⟩ := firstFree_eq taken fun n => if n = 0 then base else s!"{base}_{n + 1}"
  rw [unique, hn]
  split
  · exact h
  · exact Plain.number h.small _

theorem numbered_plain (taken : List String) {base : String}
    (h : base.toList.all isSmallChar = true) : Plain (numbered taken base) := by
  obtain ⟨n, hn⟩ := firstFree_eq taken fun n => s!"{base}_{n}"
  rw [numbered, hn]
  exact Plain.number h n

end ChartScript.EmittedName
