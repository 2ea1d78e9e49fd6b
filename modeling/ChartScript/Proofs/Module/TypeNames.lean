import ChartScript.Emitted.Token
import ChartScript.Module.Basic
import ChartScript.Proofs.Text.Letter
/-!
# The name of a module's type

The name is made from the letters and digits of the title.
-/
namespace ChartScript.Module

open List Text

theorem isAlphanum_toUpper {c : Char} (h : c.isAlphanum = true) : c.toUpper.isAlphanum = true := by
  cases hlower : c.isLower with
  | false => rwa [toUpper_of_not_isLower hlower]
  | true => rw [Char.isAlphanum, isAlpha_eq, isUpper_toUpper hlower]; rfl

theorem joinWords_alphanum (inWord : Bool) (cs : List Char) : (joinWords inWord cs).all Char.isAlphanum = true := by
  induction cs generalizing inWord with
  | nil => rfl
  | cons c rest ih =>
    unfold joinWords
    split
    · next hc =>
      rw [all_cons, ih, Bool.and_true]
      split
      · exact hc
      · exact isAlphanum_toUpper hc
    · exact ih false

theorem joinWords_head {cs : List Char} {c : Char} (h : (joinWords false cs).head? = some c) :
    c.isLower = false := by
  induction cs with
  | nil => cases h
  | cons d rest ih =>
    unfold joinWords at h
    split at h
    · cases h
      exact isLower_toUpper d
    · exact ih h

/-- A capital, and letters and digits behind it. -/
def isCapitalised (name : String) : Bool :=
  name.toList.head?.any Char.isUpper && name.toList.all Char.isAlphanum

/-- The words of a title as one name, with a word in front if they do not begin with a letter. -/
def joined (title : String) : String :=
  let words := joinWords false title.toList
  if words.head?.all Char.isDigit then "Script" ++ String.ofList words else String.ofList words

theorem typeNameOf_eq (title : String) : typeNameOf title =
    if joined title ∈ libraryTypes then joined title ++ "Script" else joined title := by
  simp only [← contains_iff_mem]
  rfl

theorem joined_capitalised (title : String) : isCapitalised (joined title) = true := by
  have hwords := joinWords_alphanum false title.toList
  unfold joined
  extract_lets words
  cases hcases : words with
  | nil => rfl
  | cons c rest =>
    rw [show joinWords false title.toList = c :: rest from hcases] at hwords
    split
    · simp [isCapitalised, hwords]
    · next hdigit =>
      have hlower := joinWords_head (congrArg head? hcases)
      have hc : c.isAlphanum = true := all_eq_true.1 hwords c mem_cons_self
      have hnot : c.isDigit = false := by simpa using hdigit
      have hupper : c.isUpper = true := by simpa [Char.isAlphanum, isAlpha_eq, hlower, hnot] using hc
      simp [isCapitalised, hwords, hupper]

theorem typeNameOf_capitalised (title : String) : isCapitalised (typeNameOf title) = true := by
  have hlibrary : libraryTypes.all (fun t => isCapitalised (t ++ "Script")) = true := by decide
  rw [typeNameOf_eq]
  split
  · next h => exact all_eq_true.1 hlibrary _ h
  · exact joined_capitalised title

theorem typeNameOf_not_mem {names : List String}
    (hnames : names.all (fun w => libraryTypes.contains w || !isCapitalised w) = true)
    (hends : libraryTypes.all (fun t => !names.contains (t ++ "Script")) = true) (title : String) :
    typeNameOf title ∉ names := by
  intro hmem
  rw [typeNameOf_eq] at hmem
  split at hmem
  · next h => simpa [hmem] using all_eq_true.1 hends _ h
  · next h => simpa [h, joined_capitalised] using all_eq_true.1 hnames _ hmem

theorem params_not_mem {names : List String}
    (h : names.all (fun w => !"Params".toList.isSuffixOf w.toList) = true) (name : String) :
    name ++ "Params" ∉ names := by
  intro hmem
  have hsuffix : "Params".toList.isSuffixOf (name ++ "Params").toList = true := by
    rw [String.toList_append, isSuffixOf_iff_suffix]
    exact suffix_append _ _
  have := all_eq_true.1 h _ hmem
  rw [hsuffix] at this
  cases this

/-- Names that a module refers to as well, though they are no types of the library. -/
def otherTypes : List String :=
  ["Default", "String", "Some"]

/-- The type of a module has a name of letters and digits with a capital at the front, which is no
keyword; the name of its parameters clashes with nothing that the module refers to. The name itself
clashes exactly if the words of the title make up one of three names. -/
theorem typeNameOf_clashes_iff (title : String) :
    isCapitalised (typeNameOf title) = true ∧ typeNameOf title ∉ Emitted.keywords ∧
    typeNameOf title ++ "Params" ∉ libraryTypes ++ otherTypes ∧
    (typeNameOf title ∈ libraryTypes ++ otherTypes ↔ joined title ∈ otherTypes) := by
  refine ⟨typeNameOf_capitalised title, typeNameOf_not_mem (by decide) (by decide) title,
    params_not_mem (by decide) _, ?_⟩
  have hlibrary : typeNameOf title ∉ libraryTypes := typeNameOf_not_mem (by decide) (by decide) title
  have hends : ∀ t ∈ libraryTypes, t ++ "Script" ∉ otherTypes ∧ t ∉ otherTypes := by decide
  rw [mem_append, or_iff_right hlibrary, typeNameOf_eq]
  split
  · next h => exact iff_of_false (hends _ h).1 (hends _ h).2
  · exact Iff.rfl

/-- The title of a module that takes its type for another. -/
theorem default_clashes : typeNameOf "default" ∈ libraryTypes ++ otherTypes := by decide

end ChartScript.Module
