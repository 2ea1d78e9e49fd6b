import ChartScript.Text.Lines
import ChartScript.Text.Quoted
import Mathlib.Data.List.Basic
/-!
# The words of emitted code

Emitted code is read from left to right into words, literals and signs; gaps and comments are left
out.
-/
namespace ChartScript.Emitted

open List

/-- What emitted code consists of, blanks and line comments left out. -/
inductive Piece where
  /-- A word in its own right. -/
  | word (name : String)
  /-- A word right behind a dot or two colons. -/
  | member (name : String)
  | literal
  | sign (c : Char)
deriving DecidableEq, Repr

/-- What stands right in front of the place that is read. Two dots make a range. -/
inductive Behind where
  | other | dot | colon | colons
deriving DecidableEq, Repr

/-- Where a text is being read. -/
inductive Mode where
  /-- In code, with the beginning of a word that is not read to its end. -/
  | code (behind : Behind) (word : List Char)
  | slash
  | literal
  /-- In a literal, right behind a backslash. -/
  | escape
  | comment
deriving DecidableEq, Repr

def isWordChar (c : Char) : Bool :=
  c.isAlphanum || c == '_' || 127 < c.toNat

def isGapChar (c : Char) : Bool :=
  c == ' ' || c == '\n' || c == '\r' || c == '\t'

def wordPiece (behind : Behind) (word : List Char) : List Piece :=
  match word, behind with
  | [], _ => []
  | w, .dot | w, .colons => [.member (String.ofList w)]
  | w, _ => [.word (String.ofList w)]

namespace Mode

/-- Between two pieces of code. -/
def start : Mode := code .other []

def sign (behind : Behind) (c : Char) : List Piece × Mode :=
  if c = '"' then ([], literal)
  else if c = '/' then ([], slash)
  else if c = '.' then ([.sign c], code (if behind = .dot then .other else .dot) [])
  else if c = ':' then ([.sign c], code (if behind = .colon then .colons else .colon) [])
  else if isGapChar c then ([], start)
  else ([.sign c], start)

def next : Mode → Char → List Piece × Mode
  | code behind word, c =>
    if isWordChar c then ([], code behind (word ++ [c]))
    else
      let r := sign (if word = [] then behind else .other) c
      (wordPiece behind word ++ r.1, r.2)
  | slash, c =>
    if c = '/' then ([], comment)
    else if isWordChar c then ([.sign '/'], code .other [c])
    else let r := sign .other c; (.sign '/' :: r.1, r.2)
  | literal, c => if c = '"' then ([.literal], start) else if c = '\\' then ([], escape) else ([], literal)
  | escape, _ => ([], literal)
  | comment, c => if c = '\n' then ([], start) else ([], comment)

/-- The piece that is open at the end of a text. -/
def ending : Mode → List Piece
  | code behind word => wordPiece behind word
  | slash => [.sign '/']
  | _ => []

end Mode

def scan : Mode → List Char → List Piece × Mode
  | mode, [] => ([], mode)
  | mode, c :: cs =>
    let r := mode.next c
    let rest := scan r.2 cs
    (r.1 ++ rest.1, rest.2)

/-- The pieces of a text of emitted code. -/
def pieces (text : List Char) : List Piece :=
  let r := scan .start text
  r.1 ++ r.2.ending

theorem scan_append (mode : Mode) (a b : List Char) :
    scan mode (a ++ b) = ((scan mode a).1 ++ (scan (scan mode a).2 b).1, (scan (scan mode a).2 b).2) := by
  induction a generalizing mode with
  | nil => rfl
  | cons c a ih => simp [scan, ih, append_assoc]

variable {behind : Behind}

theorem scan_word {word a : List Char} (ha : a.all isWordChar = true) :
    scan (.code behind word) a = ([], .code behind (word ++ a)) := by
  induction a generalizing word with
  | nil => simp [scan]
  | cons c a ih =>
    obtain ⟨hc, ha⟩ := Bool.and_eq_true_iff.1 ha
    simp [scan, Mode.next, hc, ih ha]

variable {c : Char} {rest watched : List String} {n : Nat}

theorem next_of_not_word {word : List Char} (hc : isWordChar c = false)
    (hopen : word = [] → behind = .other) :
    (Mode.code behind word).next c = (wordPiece behind word ++ (Mode.start.next c).1, (Mode.start.next c).2) := by
  by_cases hword : word = []
  · simp [Mode.next, Mode.start, hc, hword, hopen hword, wordPiece]
  · simp [Mode.next, Mode.start, hc, hword, wordPiece]

/-! ## Parts and wholes -/

section

variable {Q : String → Prop}

def Reads (Q : String → Prop) (mode : Mode) (a : List Char) (mode' : Mode) : Prop :=
  (∀ w, .word w ∈ (scan mode a).1 → Q w) ∧ (scan mode a).2 = mode'

theorem reads_of_scan {m m' : Mode} {a : List Char} {ps : List Piece} (h : scan m a = (ps, m'))
    (hps : ∀ w, .word w ∈ ps → Q w) : Reads Q m a m' := by
  rw [Reads, h]
  exact ⟨hps, rfl⟩

theorem Reads.append {m m' m'' : Mode} {a b : List Char} (ha : Reads Q m a m')
    (hb : Reads Q m' b m'') : Reads Q m (a ++ b) m'' := by
  obtain ⟨ha, rfl⟩ := ha
  obtain ⟨hb, rfl⟩ := hb
  rw [Reads, scan_append]
  exact ⟨fun w hw => (mem_append.1 hw).elim (ha w) (hb w), rfl⟩

def Whole (Q : String → Prop) (a : String) : Prop :=
  Reads Q .start a.toList .start

def Part (Q : String → Prop) (a : String) : Prop :=
  ∃ behind word, Reads Q .start a.toList (.code behind word) ∧ (word = [] → behind = .other) ∧
    ∀ w, .word w ∈ wordPiece behind word → Q w

def beginsApart (a : String) : Bool :=
  a.toList.head?.any (!isWordChar ·)

variable {a b m : String}

theorem Whole.part (ha : Whole Q a) : Part Q a :=
  ⟨.other, [], ha, fun _ => rfl, by simp [wordPiece]⟩

theorem Whole.append {a b : String} (ha : Whole Q a) (hb : Whole Q b) : Whole Q (a ++ b) := by
  rw [Whole, String.toList_append]
  exact Reads.append ha hb

theorem Whole.append_part (ha : Whole Q a) (hb : Part Q b) : Part Q (a ++ b) := by
  obtain ⟨behind, word, hb, hopen, hword⟩ := hb
  refine ⟨behind, word, ?_, hopen, hword⟩
  rw [String.toList_append]
  exact Reads.append ha hb

theorem Part.reads (ha : Part Q a) (hb : beginsApart b = true) {mode : Mode}
    (h : Reads Q .start b.toList mode) : Reads Q .start (a ++ b).toList mode := by
  obtain ⟨behind, word, ha, hopen, hword⟩ := ha
  rw [String.toList_append]
  refine ha.append ?_
  rw [beginsApart] at hb
  cases hb' : b.toList with
  | nil => simp [hb'] at hb
  | cons c cs =>
    rw [hb'] at h hb
    have hc : isWordChar c = false := by simpa using hb
    obtain ⟨hwords, rfl⟩ := h
    refine ⟨fun w hw => ?_, ?_⟩
    · simp only [scan, next_of_not_word hc hopen, append_assoc, mem_append] at hw
      rcases hw with hw | hw
      · exact hword w hw
      · exact hwords w (by simpa [scan] using hw)
    · simp [scan, next_of_not_word hc hopen]

theorem Part.append (ha : Part Q a) (hb : Part Q b) (happart : beginsApart b = true) : Part Q (a ++ b) := by
  obtain ⟨behind, word, hb, hopen, hword⟩ := hb
  exact ⟨behind, word, ha.reads happart hb, hopen, hword⟩

theorem Part.append_whole (ha : Part Q a) (hb : Whole Q b) (happart : beginsApart b = true) : Whole Q (a ++ b) :=
  ha.reads happart hb

/-! ## Words -/

def isWord (x : String) : Bool :=
  !x.toList.isEmpty && x.toList.all isWordChar

theorem isWord_append (ha : isWord a = true) (hb : b.toList.all isWordChar = true) : isWord (a ++ b) = true := by
  obtain ⟨hne, hall⟩ := Bool.and_eq_true_iff.1 ha
  have hne : a.toList ≠ [] := by simpa using hne
  rw [isWord, String.toList_append, all_append, hall, hb]
  simp [hne]

theorem word_part {x : String} (hx : isWord x = true) (hQ : Q x) : Part Q x := by
  obtain ⟨hne, hall⟩ := Bool.and_eq_true_iff.1 hx
  have hne : x.toList ≠ [] := by simpa using hne
  refine ⟨.other, x.toList, ?_, fun h => absurd h hne, fun w hw => ?_⟩
  · exact reads_of_scan (scan_word hall) (by simp)
  · cases hchars : x.toList with
    | nil => exact absurd hchars hne
    | cons c cs =>
      rw [hchars] at hw
      obtain rfl : w = String.ofList (c :: cs) := by simpa [wordPiece] using hw
      rwa [← hchars, String.ofList_toList]

theorem Part.member_of_mode {sign : String} (ha : Part Q a) (happart : beginsApart sign = true)
    (hsign : Reads Q .start sign.toList (.code behind [])) (hbehind : behind = .dot ∨ behind = .colons)
    (hm : isWord m = true) : Part Q (a ++ sign ++ m) := by
  obtain ⟨hne, hall⟩ := Bool.and_eq_true_iff.1 hm
  have hne : m.toList ≠ [] := by simpa using hne
  refine ⟨behind, m.toList, ?_, fun h => absurd h hne, fun w hw => ?_⟩
  · rw [String.toList_append]
    exact Reads.append (ha.reads happart hsign) (reads_of_scan (scan_word hall) (by simp))
  · cases hchars : m.toList with
    | nil => exact absurd hchars hne
    | cons c cs =>
      rcases hbehind with rfl | rfl <;> simp [wordPiece] at hw

theorem Part.member (ha : Part Q a) (hm : isWord m = true) : Part Q (a ++ "." ++ m) := by
  have hscan : scan .start ".".toList = ([.sign '.'], .code .dot []) := rfl
  exact ha.member_of_mode rfl (reads_of_scan hscan (by simp)) (.inl rfl) hm

theorem Part.segment (ha : Part Q a) (hm : isWord m = true) : Part Q (a ++ "::" ++ m) := by
  have hscan : scan .start "::".toList = ([.sign ':', .sign ':'], .code .colons []) := rfl
  exact ha.member_of_mode rfl (reads_of_scan hscan (by simp)) (.inr rfl) hm

theorem Part.segments (ha : Part Q a) (hm : isWord m = true)
    (hrest : ∀ x ∈ rest, isWord x = true) : Part Q (a ++ "::" ++ "::".intercalate (m :: rest)) := by
  induction rest generalizing a m with
  | nil => simpa using ha.segment hm
  | cons x rest ih =>
    have := ih (ha.segment hm) (hrest x mem_cons_self) fun y hy => hrest y (mem_cons_of_mem _ hy)
    simpa [String.append_assoc] using this

theorem path_part {head : String} (hhead : isWord head = true)
    (hQ : Q head) (hrest : ∀ x ∈ rest, isWord x = true) :
    Part Q ("::".intercalate (head :: rest)) := by
  cases rest with
  | nil => simpa using word_part hhead hQ
  | cons m rest =>
    rw [String.intercalate_cons_cons]
    exact (word_part hhead hQ).segments (hrest m mem_cons_self) fun x hx => hrest x (mem_cons_of_mem _ hx)

/-! ## Texts that are always the same -/

def isGlue (watched : List String) (g : String) : Bool :=
  let r := scan .start g.toList
  decide (r.2 = .start) && r.1.all fun
    | .word w => !watched.contains w
    | _ => true

theorem whole_of_isGlue (hQ : ∀ w, w ∉ watched → Q w) {g : String}
    (h : isGlue watched g = true) : Whole Q g := by
  obtain ⟨hmode, hwords⟩ := Bool.and_eq_true_iff.1 h
  refine ⟨fun w hw => hQ w ?_, of_decide_eq_true hmode⟩
  simpa using all_eq_true.1 hwords _ hw

theorem Whole.glue (ha : Whole Q a) (hQ : ∀ w, w ∉ watched → Q w) (hb : Part Q b)
    (g : String) (hg : isGlue watched g = true) (happart : beginsApart g = true) : Whole Q (a ++ b ++ g) :=
  (ha.append_part hb).append_whole (whole_of_isGlue hQ hg) happart

theorem intercalate_part {sep : String} (hsep : Whole Q sep) (happart : beginsApart sep = true)
    {xs : List String} (hxs : ∀ x ∈ xs, Part Q x) : Part Q (sep.intercalate xs) := by
  induction xs with
  | nil => exact Whole.part ⟨by simp [scan], rfl⟩
  | cons x rest ih =>
    have hx := hxs x mem_cons_self
    cases rest with
    | nil => simpa using hx
    | cons y rest =>
      rw [String.intercalate_cons_cons]
      exact (hx.append_whole hsep happart).append_part (ih fun z hz => hxs z (mem_cons_of_mem _ hz))

theorem comment_whole (ha : '\n' ∉ a.toList) : Whole Q ("//" ++ a ++ "\n") := by
  have hcomment : ∀ cs : List Char, '\n' ∉ cs → scan .comment (cs ++ ['\n']) = ([], .start) := by
    intro cs hcs
    induction cs with
    | nil => rfl
    | cons c cs ih =>
      have hc : c ≠ '\n' := fun h => hcs (by simp [h])
      simp [scan, Mode.next, hc, ih fun h => hcs (mem_cons_of_mem _ h)]
  have hscan : scan .start ("//" ++ a ++ "\n").toList = ([], .start) := by
    have hopen : scan .start "//".toList = ([], .comment) := rfl
    rw [String.toList_append, String.toList_append, append_assoc, scan_append, hopen,
      show "\n".toList = ['\n'] from rfl, hcomment a.toList ha]
    rfl
  exact reads_of_scan hscan (by simp)

/-! ## Literals -/

theorem digitChar_ne (hn : n < 16) (hc : c ∈ ['"', '\\', '\n']) : n.digitChar ≠ c := by
  have hall : (List.range 16).all (fun n => ['"', '\\', '\n'].all (n.digitChar != ·)) = true := by decide
  exact bne_iff_ne.1 (all_eq_true.1 (all_eq_true.1 hall n (mem_range.2 hn)) c hc)

theorem mem_toDigits_ne {d : Char} (hd : d ∈ Nat.toDigits 16 n)
    (hc : c ∈ ['"', '\\', '\n']) : d ≠ c := by
  induction n using Nat.strongRecOn with
  | _ n ih =>
    rw [Nat.toDigits_eq_if (by omega)] at hd
    split at hd
    · next hn =>
      rw [mem_singleton.1 hd]
      exact digitChar_ne hn hc
    · next hn =>
      rcases mem_append.1 hd with hd | hd
      · exact ih (n / 16) (by omega) hd
      · rw [mem_singleton.1 hd]
        exact digitChar_ne (Nat.mod_lt _ (by omega)) hc

theorem scan_literal {cs : List Char} (hcs : ∀ c ∈ cs, c ≠ '"' ∧ c ≠ '\\') : scan .literal cs = ([], .literal) := by
  induction cs with
  | nil => rfl
  | cons c cs ih =>
    obtain ⟨hquote, hslash⟩ := hcs c mem_cons_self
    simp [scan, Mode.next, hquote, hslash, ih fun d hd => hcs d (mem_cons_of_mem _ hd)]

theorem scan_escapeChar (c : Char) : scan .literal (Text.escapeChar c) = ([], .literal) := by
  unfold Text.escapeChar
  split_ifs with hquote hslash
  · rfl
  · rfl
  · rfl
  · rfl
  · rfl
  · rfl
  · have hdigits : ∀ d ∈ '\x7b' :: (Nat.toDigits 16 c.toNat ++ ['\x7d']), d ≠ '"' ∧ d ≠ '\\' := by
      simp only [mem_cons, mem_append, not_mem_nil, or_false]
      rintro d (rfl | hd | rfl)
      · decide
      · exact ⟨mem_toDigits_ne hd (by simp), mem_toDigits_ne hd (by simp)⟩
      · decide
    have hopen : scan .literal ['\\', 'u'] = ([], .literal) := rfl
    rw [Text.escapeCode, show ['\\', 'u', '\x7b'] ++ Nat.toDigits 16 c.toNat ++ ['\x7d'] = ['\\',
      'u'] ++ ('\x7b' :: (Nat.toDigits 16 c.toNat ++ ['\x7d'])) by simp, scan_append, hopen, scan_literal hdigits]
    rfl
  · exact scan_literal (by simp [hquote, hslash])

theorem quote_whole (s : String) : Whole Q (Text.quote s) := by
  have hinside : ∀ cs : List Char, scan .literal (cs.flatMap Text.escapeChar) = ([], .literal) := by
    intro cs
    induction cs with
    | nil => rfl
    | cons c cs ih => rw [flatMap_cons, scan_append, scan_escapeChar, ih]; rfl
  have hscan : scan .start (Text.quote s).toList = ([.literal], .start) := by
    have hopen : scan .start ['"'] = ([], .literal) := rfl
    have hclose : scan .literal ['"'] = ([.literal], .start) := rfl
    rw [Text.quote, String.toList_ofList, ← singleton_append, append_assoc, scan_append,
      hopen, scan_append, hinside, hclose]
    rfl
  exact reads_of_scan hscan (by simp)

theorem newline_not_mem_quote (s : String) : '\n' ∉ (Text.quote s).toList := by
  have hescape : ∀ c, '\n' ∉ Text.escapeChar c := by
    intro c
    unfold Text.escapeChar
    split_ifs with _ _ hnewline
    · decide
    · decide
    · decide
    · decide
    · decide
    · decide
    · intro h
      simp only [Text.escapeCode, mem_append, mem_cons, not_mem_nil, or_false] at h
      rcases h with (h | h) | h
      · revert h
        decide
      · exact mem_toDigits_ne h (by simp) rfl
      · revert h
        decide
    · simpa using Ne.symm hnewline
  simp only [Text.quote, String.toList_ofList, mem_append, mem_cons, mem_flatMap, not_mem_nil, or_false]
  rintro ((h | ⟨c, _, h⟩) | h)
  · revert h
    decide
  · exact hescape c h
  · revert h
    decide

end

end ChartScript.Emitted
