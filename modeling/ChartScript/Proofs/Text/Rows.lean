import ChartScript.Text.Lines
import Mathlib.Data.List.Induction
import Mathlib.Data.List.TakeWhile
/-!
# Places in a text

A number of bytes that ends between two characters divides a text. What stands before such a point
on its line is what the text before it has behind its last line feed.
-/
namespace ChartScript.Text

open List

/-! ## Bytes -/

theorem dropBytes_append (pre rest : List Char) : dropBytes (byteSize pre) (pre ++ rest) = some rest := by
  induction pre with
  | nil => simp [byteSize, dropBytes]
  | cons c pre ih =>
    obtain ⟨n, hn⟩ : ∃ n, c.utf8Size + byteSize pre = n + 1 :=
      ⟨c.utf8Size + byteSize pre - 1, by have := c.utf8Size_pos; omega⟩
    rw [byteSize, hn, cons_append, dropBytes, if_pos (by omega), ← hn, Nat.add_sub_cancel_left, ih]

theorem takeBytes_append (piece rest : List Char) : takeBytes (byteSize piece) (piece ++ rest) = some piece := by
  induction piece with
  | nil => simp [byteSize, takeBytes]
  | cons c piece ih =>
    obtain ⟨n, hn⟩ : ∃ n, c.utf8Size + byteSize piece = n + 1 :=
      ⟨c.utf8Size + byteSize piece - 1, by have := c.utf8Size_pos; omega⟩
    rw [byteSize, hn, cons_append, takeBytes, if_pos (by omega), ← hn, Nat.add_sub_cancel_left, ih]
    rfl

theorem slice_append (pre piece rest : List Char) :
    slice (pre ++ (piece ++ rest)) (byteSize pre) (byteSize pre + byteSize piece) = some piece := by
  rw [slice, if_pos (Nat.le_add_right _ _), dropBytes_append, Option.bind_some,
    Nat.add_sub_cancel_left, takeBytes_append]

/-! ## Rows -/

/-- The text between line feeds; unlike `lines`, it keeps carriage returns. -/
def rows : List Char → List (List Char)
  | [] => [[]]
  | c :: rest =>
    if c = '\n' then [] :: rows rest
    else match rows rest with
      | [] => [[c]]
      | row :: more => (c :: row) :: more

/-- The text of the given rows, each with a line feed behind it. -/
def ofRows (rows : List String) : List Char :=
  rows.flatMap fun row => row.toList ++ ['\n']

theorem ofRows_append (a b : List String) : ofRows (a ++ b) = ofRows a ++ ofRows b :=
  flatMap_append

/-- What a text has behind its last line feed. -/
def leading (pre : List Char) : List Char :=
  (pre.reverse.takeWhile (· ≠ '\n')).reverse

@[simp] theorem leading_nil : leading [] = [] := rfl

@[simp] theorem leading_newline (pre : List Char) : leading (pre ++ ['\n']) = [] := by
  simp [leading]

theorem leading_append {cs : List Char} (pre : List Char) (h : '\n' ∉ cs) :
    leading (pre ++ cs) = leading pre ++ cs := by
  have hall : cs.reverse.takeWhile (· ≠ '\n') = cs.reverse := takeWhile_eq_self_iff.2 fun c hc => by
      simpa using fun heq : c = '\n' => h (heq ▸ mem_reverse.1 hc)
  rw [leading, reverse_append, takeWhile_append, hall, if_pos rfl, reverse_append, reverse_reverse, leading]

theorem mem_leading_concat {c : Char} (pre : List Char) (h : c ≠ '\n') : c ∈ leading (pre ++ [c]) := by
  rw [leading_append pre (by simpa using h.symm)]
  simp

theorem leading_split (pre : List Char) :
    '\n' ∉ leading pre ∧ (leading pre = pre ∨ ∃ before, pre = before ++ '\n' :: leading pre) := by
  induction pre using List.reverseRecOn with
  | nil => exact ⟨by simp, .inl rfl⟩
  | append_singleton pre c ih =>
    by_cases hc : c = '\n'
    · subst hc
      rw [leading_newline]
      exact ⟨by simp, .inr ⟨pre, rfl⟩⟩
    · rw [leading_append pre (by simpa using Ne.symm hc)]
      refine ⟨by simpa [ih.1] using Ne.symm hc, ?_⟩
      rcases ih.2 with heq | ⟨before, heq⟩
      · exact .inl (by rw [heq])
      · exact .inr ⟨before, by rw [← cons_append, ← append_assoc, ← heq]⟩

theorem rows_eq_cons (cs : List Char) : ∃ more, rows cs = cs.takeWhile (· ≠ '\n') :: more := by
  induction cs with
  | nil => exact ⟨[], rfl⟩
  | cons c rest ih =>
    obtain ⟨more, hmore⟩ := ih
    rw [rows]
    by_cases hc : c = '\n'
    · exact ⟨rows rest, by simp [hc]⟩
    · exact ⟨more, by simp [hc, hmore]⟩

theorem rows_append (pre rest : List Char) : rows (pre ++ '\n' :: rest) = rows pre ++ rows rest := by
  induction pre with
  | nil => simp [rows]
  | cons c pre ih =>
    obtain ⟨more, hmore⟩ := rows_eq_cons pre
    rw [cons_append, rows, rows, ih, hmore]
    split <;> rfl

def onRow (cs : List Char) : List Char :=
  cs.takeWhile (· ≠ '\n')

def row (pre cs : List Char) : List Char :=
  leading pre ++ onRow cs

theorem onRow_cons {c : Char} (rest : List Char) (h : c ≠ '\n') : onRow (c :: rest) = c :: onRow rest := by
  simp [onRow, h]

theorem onRow_append {pre : List Char} (cs : List Char) (h : '\n' ∉ pre) : onRow (pre ++ cs) = pre ++ onRow cs :=
  takeWhile_append_of_pos fun c hc => by simpa using fun heq : c = '\n' => h (heq ▸ hc)

theorem row_concat {c : Char} (pre rest : List Char) (h : c ≠ '\n') :
    row (pre ++ [c]) rest = row pre (c :: rest) := by
  rw [row, leading_append pre (by simpa using h.symm), row, onRow_cons rest h, append_assoc]
  rfl

theorem row_mem (pre cs : List Char) : row pre cs ∈ rows (pre ++ cs) := by
  obtain ⟨hfree, heq | ⟨before, heq⟩⟩ := leading_split pre
  · obtain ⟨more, hmore⟩ := rows_eq_cons (pre ++ cs)
    rw [hmore, ← onRow, onRow_append cs (heq ▸ hfree), row, heq]
    exact .head _
  · obtain ⟨more, hmore⟩ := rows_eq_cons (leading pre ++ cs)
    have hrows : rows (pre ++ cs) = rows before ++ rows (leading pre ++ cs) := by
      conv => lhs; rw [heq]
      rw [append_assoc, cons_append, rows_append]
    rw [hrows, hmore, ← onRow, onRow_append cs hfree]
    exact mem_append_right _ (.head _)

/-- The row at a byte of a source. -/
def rowAt (source : List Char) (start : Nat) : List Char :=
  row ((takeBytes start source).getD []) ((dropBytes start source).getD [])

def leadAt (source : List Char) (start : Nat) : List Char :=
  leading ((takeBytes start source).getD [])

theorem rowAt_append (pre cs : List Char) : rowAt (pre ++ cs) (byteSize pre) = row pre cs := by
  rw [rowAt, takeBytes_append, dropBytes_append]
  rfl

theorem leadAt_append (pre cs : List Char) : leadAt (pre ++ cs) (byteSize pre) = leading pre := by
  rw [leadAt, takeBytes_append]
  rfl

end ChartScript.Text
