import ChartScript.Command.FileTree
import ChartScript.Proofs.Outcome
/-!
# Files in a tree

Writing a file changes the node at its place and no other.
-/
namespace ChartScript

open List

/-! ## Paths -/

namespace Path

theorem split_of_plain {cs : List Char} (h : '/' ∉ cs) : split cs = [cs] := by
  induction cs with
  | nil => rfl
  | cons c cs ih =>
    have hc : c ≠ '/' := by
      rintro rfl
      exact h mem_cons_self
    rw [split, if_neg hc, ih fun hcs => h (mem_cons_of_mem c hcs)]

theorem split_ne_nil (cs : List Char) : split cs ≠ [] := by
  cases cs with
  | nil => exact cons_ne_nil _ _
  | cons c cs =>
    rw [split]
    split
    · exact cons_ne_nil _ _
    · split <;> exact cons_ne_nil _ _

theorem split_slash (as bs : List Char) : split (as ++ '/' :: bs) = split as ++ split bs := by
  induction as with
  | nil => simp [split]
  | cons c as ih =>
    rw [cons_append, split, split]
    split
    · rw [ih, cons_append]
    · rw [ih]
      obtain ⟨part, more, hparts⟩ := exists_cons_of_ne_nil (split_ne_nil as)
      rw [hparts]
      rfl

theorem parts_join (directory : String) : ∃ front, ∀ name : String, '/' ∉ name.toList →
    parts (join directory name) = front ++ [name] := by
  rcases eq_nil_or_concat directory.toList with hempty | ⟨init, last, hdirectory⟩
  · refine ⟨[], ?_⟩
    intro name hname
    simp [parts, join, hempty, split_of_plain hname]
  · by_cases hlast : last = '/'
    · refine ⟨(split init).map String.ofList, ?_⟩
      intro name hname
      rw [parts, join, hdirectory]
      simp [hlast, hdirectory, split_slash, split_of_plain hname]
    · refine ⟨parts directory, ?_⟩
      intro name hname
      rw [parts, join, hdirectory]
      simp [hlast, parts, split_slash, split_of_plain hname]

/-- A text that can be the name of a file in a directory. -/
structure IsName (name : String) : Prop where
  plain : '/' ∉ name.toList
  stays : isStay name = false
  up : name ≠ ".."

theorem isName_iff {name : String} : IsName name ↔ '/' ∉ name.toList ∧ isStay name = false ∧ name ≠ ".." :=
  ⟨fun h => ⟨h.plain, h.stays, h.up⟩, fun ⟨hplain, hstays, hup⟩ => ⟨hplain, hstays, hup⟩⟩

instance (name : String) : Decidable (IsName name) :=
  decidable_of_iff _ isName_iff.symm

end Path

/-! ## Nodes -/

namespace FileTree

variable {t t' : FileTree} {place front : List String}

theorem lookup_filter_ne (nodes : List (List String × FileNode)) (place q : List String) :
    (nodes.filter (·.1 != place)).lookup q = if q = place then none else nodes.lookup q := by
  induction nodes with
  | nil => simp
  | cons n nodes ih =>
    obtain ⟨p, node⟩ := n
    by_cases hp : p = place
    · subst hp
      rw [filter_cons_of_neg (by simp), ih]
      split
      · rfl
      · next hq => rw [lookup_cons, beq_eq_false_iff_ne.2 hq]
    · rw [filter_cons_of_pos (by simpa using hp), lookup_cons, lookup_cons, ih]
      by_cases hq : q = p
      · subst hq
        simp [hp]
      · rw [beq_eq_false_iff_ne.2 hq]

theorem node?_set (t : FileTree) {place : List String} (hplace : place ≠ []) (node : FileNode)
    (q : List String) : (t.set place node).node? q = if q = place then some node else t.node? q := by
  rw [node?, node?]
  by_cases hq : q = []
  · subst hq
    rw [if_pos rfl, if_neg (Ne.symm hplace), if_pos rfl]
  · rw [if_neg hq, if_neg hq, set, lookup_append, lookup_filter_ne]
    by_cases hsame : q = place
    · subst hsame
      simp
    · rw [if_neg hsame, if_neg hsame, lookup_cons, beq_eq_false_iff_ne.2 hsame]
      simp

/-- The parts lead from the root to a directory. -/
structure Reaches (t : FileTree) (front place : List String) : Prop where
  walk : t.walk [] front = .ok place
  directory : t.node? place = some .directory

theorem walk_through (hkeep : ∀ q, t.node? q = some .directory → t'.node? q = some .directory) {parts : List String}
    {q : List String} (h : t.walk place parts = .ok q) (hq : t.node? q = some .directory) (more : List String) :
    t'.walk place (parts ++ more) = t'.walk q more := by
  induction parts generalizing place with
  | nil =>
    cases h
    rfl
  | cons part rest ih =>
    rw [walk] at h
    rw [cons_append, walk]
    by_cases hstay : Path.isStay part = true
    · rw [if_pos hstay] at h ⊢
      exact ih h
    · rw [if_neg hstay] at h ⊢
      by_cases hup : part = ".."
      · rw [if_pos hup] at h ⊢
        by_cases hroot : place = []
        · rw [if_pos hroot] at h
          cases h
        · rw [if_neg hroot] at h ⊢
          exact ih h
      · rw [if_neg hup] at h ⊢
        cases hnode : t.node? (place ++ [part]) with
        | none =>
          rw [hnode] at h
          cases h
        | some node =>
          rw [hnode] at h
          cases node with
          | directory =>
            rw [hkeep _ hnode]
            exact ih h
          | file content =>
            -- a file may end the way, but it is no directory
            dsimp only at h
            split at h
            · cases h
              rw [hnode] at hq
              cases hq
            · cases h

namespace Reaches

variable {path name : String}

theorem set (h : t.Reaches front place) (hname : t.node? (place ++ [name]) ≠ some .directory)
    (content : Option String) : (t.set (place ++ [name]) (.file content)).Reaches front place := by
  have hkeep : ∀ q, t.node? q = some .directory →
      (t.set (place ++ [name]) (.file content)).node? q = some .directory := by
    intro q hq
    rw [node?_set t (by simp), if_neg, hq]
    rintro rfl
    exact hname hq
  have hwalk := walk_through hkeep h.walk h.directory []
  rw [append_nil] at hwalk
  exact ⟨hwalk, hkeep place h.directory⟩

theorem readText (h : t.Reaches front place) (hparts : Path.parts path = front ++ [name])
    (habsolute : Path.isAbsolute path = false) (hname : Path.IsName name) :
    t.readText path = match t.node? (place ++ [name]) with
      | some (.file (some content)) => .ok content
      | some (.file none) => .error .notText
      | some .directory => .error .isADirectory
      | none => .error .notFound := by
  have hfind : t.find path = t.walk place [name] := by
    rw [find, habsolute, hparts]
    exact walk_through (fun _ hq => hq) h.walk h.directory [name]
  rw [FileTree.walk, hname.stays, if_neg (by simp), if_neg hname.up] at hfind
  cases hnode : t.node? (place ++ [name]) with
  | none =>
    rw [hnode] at hfind
    rw [FileTree.readText, hfind]
    rfl
  | some node =>
    have hfound : t.find path = .ok (place ++ [name]) := by
      rw [hfind, hnode]
      cases node <;> rfl
    rw [FileTree.readText, hfound]
    simp only [bind, Except.bind, hnode]
    cases node with
    | directory => rfl
    | file content => cases content <;> rfl

end Reaches

theorem writeText_eq_ok {path name content : String} (hparts : Path.parts path = front ++ [name]) :
    t.writeText path content = .ok t' ↔ Path.isAbsolute path = false ∧ ∃ place, t.Reaches front place ∧ t.node?
    (place ++ [name]) ≠ some .directory ∧ t' = t.set (place ++ [name]) (.file (some content)) := by
  rw [writeText]
  cases habsolute : Path.isAbsolute path with
  | true => simp
  | false =>
    rw [if_neg (by simp), hparts]
    dsimp only
    rw [dropLast_concat, getLast?_concat, Option.toList_some]
    constructor
    · intro h
      obtain ⟨place, hwalk, h⟩ := bind_eq_ok.1 h
      split at h
      · cases h
      · next hplace hname =>
        exact ⟨rfl, place, ⟨hwalk, hplace⟩, hname, (pure_eq_ok.1 h).symm⟩
      · cases h
    · rintro ⟨-, place, hreach, hname, rfl⟩
      refine bind_eq_ok.2 ⟨place, hreach.walk, ?_⟩
      rw [hreach.directory]
      cases hnode : t.node? (place ++ [name]) with
      | none => rfl
      | some node =>
        cases node with
        | directory => exact absurd hnode hname
        | file _ => rfl

end FileTree

end ChartScript
