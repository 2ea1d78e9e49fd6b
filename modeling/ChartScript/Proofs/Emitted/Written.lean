import ChartScript.Module.Render
import ChartScript.Proofs.Lowering.Mentions
/-!
# The words of written code

The text of code has its references as words, and besides them only words that need no import and no
`let`.
-/
namespace ChartScript

open List Emitted Code Text

/-- Words that emitted code has to import or bind before it can use them. -/
def watchedNames : List String :=
  Module.Import.all.map Module.Import.name ++ "params" :: seriesNames

def Mention.Fits (Q : String → Prop) : Mention → Prop
  | name x => isWord x = true ∧ Q x
  | path segments => ∃ head rest, segments = head :: rest ∧ isWord head = true ∧ Q head ∧
      ∀ x ∈ rest, isWord x = true
  | member m => isWord m = true
  | setting f => isWord f = true ∧ Q "params"

variable {Q : String → Prop}

variable {Q' : String → Prop} {kind : ValueKind} {params : List (String × ValueKind)} {mode : Mode}

theorem Mention.Fits.imp (hQ : ∀ w, Q w → Q' w) {m : Mention} (h : m.Fits Q) : m.Fits Q' := by
  cases m with
  | name x => exact ⟨h.1, hQ _ h.2⟩
  | path segments =>
    obtain ⟨head, rest, heq, hhead, hfirst, hrest⟩ := h
    exact ⟨head, rest, heq, hhead, hQ _ hfirst, hrest⟩
  | member m => exact h
  | setting f => exact ⟨h.1, hQ _ h.2⟩

namespace Emitted

section

variable {Q : String → Prop} (hQ : ∀ w, w ∉ watchedNames → Q w)
include hQ

/-! ## Numbers -/

theorem number_part {x : String} (hfirst : x.toList.head?.any Char.isDigit = true)
    (hall : x.toList.all isWordChar = true) : Part Q x := by
  have hwatched : watchedNames.all (fun w => !w.toList.head?.any Char.isDigit) = true := by
    decide
  have hword : isWord x = true := by
    cases hx : x.toList with
    | nil => simp [hx] at hfirst
    | cons c cs => simpa [isWord, hx] using hall
  refine word_part hword (hQ x fun hmem => ?_)
  have := all_eq_true.1 hwatched x hmem
  rw [hfirst] at this
  cases this

end

theorem all_isWordChar {cs : List Char} (h : ∀ c ∈ cs, c.isDigit = true) : cs.all isWordChar = true :=
  all_eq_true.2 fun c hc => by simp [isWordChar, Char.isAlphanum, h c hc]

theorem isDigit_of_mem_toDigits {n : Nat} : ∀ c ∈ Nat.toDigits 10 n, c.isDigit = true :=
  fun _ hc => Nat.isDigit_of_mem_toDigits (by omega) (by omega) hc

section

variable {Q : String → Prop} (hQ : ∀ w, w ∉ watchedNames → Q w)
include hQ

theorem digits_part {cs : List Char} (hne : cs ≠ []) (h : ∀ c ∈ cs, c.isDigit = true) :
    Part Q (String.ofList cs) := by
  refine number_part hQ ?_ (by simpa using all_isWordChar h)
  cases cs with
  | nil => exact absurd rfl hne
  | cons c cs => simpa using h c mem_cons_self

theorem nat_part (n : Nat) : Part Q n.repr := by
  have := digits_part hQ Nat.toDigits_ne_nil (isDigit_of_mem_toDigits (n := n))
  rwa [← Nat.toList_repr, String.ofList_toList] at this

variable {a : String}

theorem int_part (ha : ∀ ds : List Char, (∀ c ∈ ds, c.isDigit = true) → Part Q (a ++ String.ofList ds)) (n : Int) :
    Part Q (a ++ toString n) := by
  cases n with
  | ofNat n =>
    have := ha _ (isDigit_of_mem_toDigits (n := n))
    rwa [← Nat.toList_repr, String.ofList_toList] at this
  | negSucc n =>
    have hminus : Whole Q "-" := whole_of_isGlue hQ rfl
    have := Part.append (by simpa using ha [] (by simp)) (hminus.append_part (nat_part hQ (n + 1)))
      (by simp [beginsApart]; decide)
    exact this

open Decimal

theorem pointed_part (digits : Nat) {places : Nat} (h : 0 < places) : Part Q (pointed digits places) := by
  unfold pointed
  extract_lets text padded cut
  have hdigits : ∀ c ∈ padded, c.isDigit = true := by
    intro c hc
    rcases mem_append.1 hc with hc | hc
    · rw [(mem_replicate.1 hc).2]
      rfl
    · exact isDigit_of_mem_toDigits c hc
  have hlength : places < padded.length := by
    simp only [padded, length_append, length_replicate]
    omega
  -- there are digits on both sides of the point
  have hfront : padded.take cut ≠ [] := ne_nil_of_length_pos (by
    rw [length_take]
    omega)
  have hback : padded.drop cut ≠ [] := ne_nil_of_length_pos (by
    rw [length_drop]
    omega)
  have hword : isWord (String.ofList (padded.drop cut)) = true := by
    have hall : (padded.drop cut).all isWordChar = true :=
      all_isWordChar fun c hc => hdigits c (mem_of_mem_drop hc)
    rw [isWord, String.toList_ofList, hall]
    simpa using hback
  exact (digits_part hQ hfront fun c hc => hdigits c (mem_of_mem_take hc)).member hword

theorem positional_part (d : Numeral) : Part Q (positional d) := by
  unfold positional
  split
  · generalize d.digits * Nat.pow 10 d.exponent.toNat = n
    have hpoint := (nat_part hQ n).member (m := "0") rfl
    rwa [String.append_assoc] at hpoint
  · exact pointed_part hQ _ (by omega)

theorem scientific_part (d : Numeral) (lead : Int) : Part Q (scientific d lead) := by
  have hdigits : ∀ c ∈ Nat.toDigits 10 d.digits, c.isDigit = true := isDigit_of_mem_toDigits
  unfold scientific
  split
  · next first heq =>
    have hfirst : first.isDigit = true := hdigits first (by simp [heq])
    refine int_part hQ (a := String.singleton first ++ "e") (fun ds hds => ?_) lead
    refine number_part hQ (by simpa using hfirst) ?_
    simp [isWordChar, Char.isAlphanum, hfirst, all_isWordChar hds]
  · next first more _ heq =>
    have hfirst : first.isDigit = true := hdigits first (by simp [heq])
    have hmore : more.all isWordChar = true :=
      all_isWordChar fun c hc => hdigits c (by simp [heq, hc])
    have hhead : Part Q (String.singleton first) :=
      number_part hQ (by simpa using hfirst) (by simp [isWordChar, Char.isAlphanum, hfirst])
    refine int_part hQ (a := String.singleton first ++ "." ++ String.ofList more ++ "e")
      (fun ds hds => ?_) lead
    have hword : isWord (String.ofList more ++ "e" ++ String.ofList ds) = true := by
      simp [isWord, hmore, all_isWordChar hds, isWordChar]
    simpa [String.append_assoc] using hhead.member hword
  · exact Whole.part ⟨by simp [scan], rfl⟩

theorem write_part (x : Float) : Part Q (write x) := by
  have hsign : ∀ b : Bool, Whole Q (if b then "-" else "") := by
    intro b
    cases b <;> exact whole_of_isGlue hQ rfl
  unfold write Layout.write
  split
  · next b _ =>
    refine (hsign b.negative).append_part ?_
    unfold Layout.magnitude
    dsimp only
    split
    · exact positional_part hQ _
    · exact scientific_part hQ _ _
  · split
    · exact word_part rfl (hQ _ (by decide))
    · exact (hsign _).append_part (word_part rfl (hQ _ (by decide)))

/-! ## Code -/

theorem typeName_part (h : kind = .series → Q "Series") :
    Part Q kind.typeName := by
  cases kind with
  | series => exact word_part rfl (h rfl)
  | bool => exact word_part rfl (hQ _ (by decide))
  | number | text | direction | tuple _ =>
    exact word_part (x := "f64") rfl (hQ _ (by decide))

theorem parameterType_part (h : kind = .series → Q "Series") :
    Part Q kind.parameterType := by
  cases kind with
  | series =>
    have hborrow : Whole Q "&" := whole_of_isGlue hQ rfl
    exact hborrow.append_part (word_part (x := "Series") rfl (h rfl))
  | bool | number | text | direction | tuple _ => exact typeName_part hQ h

theorem parameterList_part (hnames : ∀ p ∈ params, (Mention.name p.1).Fits Q)
    (hseries : ∀ p ∈ params, p.2 = .series → Q "Series") : Part Q (parameterList params) := by
  refine intercalate_part (whole_of_isGlue hQ rfl) rfl fun x hx => ?_
  obtain ⟨p, hp, rfl⟩ := mem_map.1 hx
  have hname := word_part (hnames p hp).1 (hnames p hp).2
  have hcolon := hname.append_whole (b := ": ") (whole_of_isGlue hQ rfl) rfl
  exact hcolon.append_part (parameterType_part hQ (hseries p hp))

theorem binarySymbol_whole (op : BinaryOp) : Whole Q (" " ++ op.symbol ++ " ") := by
  cases op <;> exact whole_of_isGlue hQ rfl

theorem unarySymbol_whole (op : UnaryOp) : Whole Q (unarySymbol op) := by
  cases op <;> exact whole_of_isGlue hQ rfl

theorem arguments_part (ha : Part Q a) {args : List String} (hargs : ∀ x ∈ args, Part Q x) :
    Part Q (a ++ "(" ++ ", ".intercalate args ++ ")") := by
  have hopen := ha.append_whole (b := "(") (whole_of_isGlue hQ rfl) rfl
  have hsep : Whole Q ", " := whole_of_isGlue hQ rfl
  have hinner := intercalate_part hsep rfl hargs
  exact (hopen.glue hQ hinner _ rfl rfl).part

theorem integer_part (n : Int) : Part Q (toString n) := by
  have := int_part hQ (a := "") (fun ds hds => ?_) n
  · rwa [String.empty_append] at this
  · cases ds with
    | nil => exact Whole.part ⟨by simp [scan], rfl⟩
    | cons d ds => exact digits_part hQ (by simp) hds

theorem between_part {b g : String} (ha : isGlue watchedNames a = true) (hb : Part Q b)
    (hg : isGlue watchedNames g = true) (happart : beginsApart g = true) : Part Q (a ++ b ++ g) :=
  (((whole_of_isGlue hQ ha).append_part hb).append_whole (whole_of_isGlue hQ hg) happart).part

theorem closureHead_part {result : ValueKind}
    (hnames : ∀ p ∈ params, (Mention.name p.1).Fits Q)
    (hseries : result = .series ∨ params.any (·.2 == .series) = true → Q "Series") :
    Part Q ("|" ++ parameterList params ++ "| -> " ++ result.typeName) := by
  have hbar : Whole Q "|" := whole_of_isGlue hQ rfl
  have hparams := parameterList_part hQ hnames fun p hp hkind =>
    hseries (.inr (any_eq_true.2 ⟨p, hp, by simp [hkind]⟩))
  have harrow := hbar.glue hQ hparams "| -> " rfl rfl
  exact harrow.append_part (typeName_part hQ fun h => hseries (.inl h))

end

mutual

theorem render_part {Q : String → Prop} (hQ : ∀ w, w ∉ watchedNames → Q w) :
    ∀ c : Code, (∀ m ∈ c.mentions, m.Fits Q) → Part Q c.render
  | .name x, h => by
    have hx := h (.name x) (by simp)
    exact word_part hx.1 hx.2
  | .path segments, h => by
    obtain ⟨head, rest, rfl, hhead, hfirst, hrest⟩ := h (.path segments) (by simp)
    exact path_part hhead hfirst hrest
  | .setting f, h => by
    have hf := h (.setting f) (by simp)
    exact (word_part (x := "params") rfl hf.2).member hf.1
  | .number x, _ => write_part hQ x
  | .integer n, _ => integer_part hQ n
  | .bool true, _ | .bool false, _ => word_part rfl (hQ _ (by decide))
  | .text s, _ => (quote_whole s).part
  | .widen c, h =>
    between_part hQ rfl (render_part hQ c h) rfl rfl
  | .borrow c, h => (whole_of_isGlue hQ rfl).append_part (render_part hQ c h)
  | .group c, h =>
    between_part hQ rfl (render_part hQ c h) rfl rfl
  | .unary op c, h => by
    have hopen : Whole Q "(" := whole_of_isGlue hQ rfl
    have hc := (hopen.append (unarySymbol_whole hQ op)).append_part (render_part hQ c h)
    exact (hc.append_whole (whole_of_isGlue hQ rfl) rfl).part
  | .binary op l r, h => by
    have hl := render_part hQ l fun m hm => h m (by simp [hm])
    have hr := render_part hQ r fun m hm => h m (by simp [hm])
    have hopen : Whole Q "(" := whole_of_isGlue hQ rfl
    have hfront := (hopen.append_part hl).append_whole (binarySymbol_whole hQ op) (by cases op <;> rfl)
    have hall := hfront.glue hQ hr ")" rfl rfl
    simpa [render, String.append_assoc] using hall.part
  | .choice c a b, h => by
    have hc := render_part hQ c fun m hm => h m (by simp [hm])
    have ha := render_part hQ a fun m hm => h m (by simp [hm])
    have hb := render_part hQ b fun m hm => h m (by simp [hm])
    have hif : Whole Q "(if " := whole_of_isGlue hQ rfl
    have hthen := hif.glue hQ hc " \x7b " rfl rfl
    have helse := hthen.glue hQ ha " \x7d else \x7b " rfl rfl
    exact (helse.glue hQ hb _ rfl rfl).part
  | .call f args, h =>
    arguments_part hQ (render_part hQ f fun m hm => h m (by rw [mentions]; simp [hm]))
      (renderAll_part hQ args fun m hm => h m (by rw [mentions]; exact mem_append_right _ hm))
  | .method c m args, h => by
    have hc := render_part hQ c fun m hm => h m (by simp [hm])
    have hm := h (.member m) (by simp)
    refine arguments_part hQ (hc.member hm) (renderAll_part hQ args fun m hm => h m ?_)
    exact mem_append_right _ (mem_cons_of_mem _ hm)
  | .closure params result lets value, h => by
    rw [mentions, forall_mem_append, forall_mem_append, forall_mem_append] at h
    obtain ⟨⟨⟨htype, hparams⟩, hlets⟩, hvalue⟩ := h
    have hhead : Part Q ("|" ++ parameterList params ++ "| -> " ++ result.typeName) := by
      refine closureHead_part hQ (fun p hp => hparams _ (mem_map_of_mem hp)) fun hseries => ?_
      obtain ⟨head, rest, heq, _, hQhead, _⟩ := htype (.path ["Series"])
        (by rw [if_pos hseries]; exact mem_singleton_self _)
      cases heq
      exact hQhead
    have hbody := render_part hQ value hvalue
    cases lets with
    | nil =>
      have hopen := hhead.append_whole (b := " \x7b ") (whole_of_isGlue hQ rfl) rfl
      exact (hopen.glue hQ hbody _ rfl rfl).part
    | cons l lets =>
      have hopen := hhead.append_whole (b := " \x7b\n") (whole_of_isGlue hQ rfl) rfl
      have hinner := (hopen.append (renderLets_whole hQ (l :: lets) hlets)).append (b := "    ")
        (whole_of_isGlue hQ rfl)
      exact (hinner.glue hQ hbody _ rfl rfl).part

theorem renderAll_part {Q : String → Prop} (hQ : ∀ w, w ∉ watchedNames → Q w) :
    ∀ args : List Code, (∀ m ∈ mentionsAll args, m.Fits Q) → ∀ x ∈ renderAll args, Part Q x
  | [], _ => by simp [renderAll]
  | c :: rest, h => by
    rw [mentionsAll, forall_mem_append] at h
    rw [renderAll, forall_mem_cons]
    exact ⟨render_part hQ c h.1, renderAll_part hQ rest h.2⟩

theorem renderLets_whole {Q : String → Prop} (hQ : ∀ w, w ∉ watchedNames → Q w) :
    ∀ lets : List (String × Code), (∀ m ∈ mentionsLets lets, m.Fits Q) → Whole Q (renderLets lets)
  | [], _ => ⟨by simp [renderLets, scan], rfl⟩
  | (x, c) :: rest, h => by
    rw [mentionsLets, cons_append, forall_mem_cons, forall_mem_append] at h
    obtain ⟨hx, hc, hrest⟩ := h
    have hlet : Whole Q "    let " := whole_of_isGlue hQ rfl
    have hname := hlet.glue hQ (word_part hx.1 hx.2) " = " rfl rfl
    have hvalue := hname.glue hQ (render_part hQ c hc) ";\n" rfl rfl
    exact hvalue.append (renderLets_whole hQ rest hrest)

end

/-! ## Rows -/

/-- The rows leave nothing open, and their words have the property. -/
def WholeRows (Q : String → Prop) (rows : List String) : Prop :=
  Reads Q .start (ofRows rows) .start

section

variable {Q : String → Prop}

theorem WholeRows.nil : WholeRows Q [] :=
  ⟨by simp [ofRows, scan], rfl⟩

variable {rows : List String}

theorem WholeRows.imp (h : WholeRows Q rows) (hQ : ∀ w, Q w → Q' w) : WholeRows Q' rows :=
  ⟨fun w hw => hQ w (h.1 w hw), h.2⟩

theorem WholeRows.append {a b : List String} (ha : WholeRows Q a) (hb : WholeRows Q b) : WholeRows Q (a ++ b) := by
  rw [WholeRows, ofRows_append]
  exact Reads.append ha hb

theorem WholeRows.cons {row : String} (hrow : Whole Q (row ++ "\n")) (hrows : WholeRows Q rows) :
    WholeRows Q (row :: rows) := by
  rw [Whole, String.toList_append] at hrow
  exact Reads.append hrow hrows

theorem wholeRows_of_forall (h : ∀ row ∈ rows, Whole Q (row ++ "\n")) : WholeRows Q rows := by
  induction rows with
  | nil => exact .nil
  | cons row rows ih =>
    exact .cons (h row mem_cons_self) (ih fun r hr => h r (mem_cons_of_mem _ hr))

theorem WholeRows.flatMap {α : Type} {f : α → List String} {xs : List α}
    (h : ∀ x ∈ xs, WholeRows Q (f x)) : WholeRows Q (xs.flatMap f) := by
  induction xs with
  | nil => exact .nil
  | cons x xs ih =>
    exact (h x mem_cons_self).append (ih fun y hy => h y (mem_cons_of_mem _ hy))

theorem WholeRows.mem_pieces (h : WholeRows Q rows) {w : String}
    (hw : .word w ∈ pieces (ofRows rows)) : Q w := by
  rw [pieces, h.2] at hw
  exact h.1 w (by simpa [Mode.ending, Mode.start, wordPiece] using hw)

end

theorem scan_blanks (hmode : mode = .start ∨ mode = .literal) (n : Nat)
    (cs : List Char) : scan mode (List.replicate n ' ' ++ cs) = scan mode cs := by
  have hblank : mode.next ' ' = ([], mode) := by
    rcases hmode with rfl | rfl <;> rfl
  induction n with
  | zero => rfl
  | succ n ih => simp [replicate_succ, scan, hblank, ih]

theorem next_newline (mode : Mode) : (mode.next '\n').2 = .start ∨ (mode.next '\n').2 = .literal := by
  cases mode with
  | code behind word => exact .inl rfl
  | slash | comment => exact .inl rfl
  | literal | escape => exact .inr rfl

theorem scan_return (mode : Mode) (cs : List Char) : scan mode ('\r' :: '\n' :: cs) = scan mode ('\n' :: cs) := by
  cases mode with
  | code behind word =>
    have hgap : ∀ c, c = '\r' ∨ c = '\n' → (Mode.code behind word).next c = (wordPiece behind word, .start) := by
      rintro c (rfl | rfl) <;> exact Prod.ext (append_nil _) rfl
    have hstart : Mode.start.next '\n' = ([], .start) := rfl
    simp only [scan, hgap _ (.inl rfl), hgap _ (.inr rfl), hstart, nil_append]
  | slash | comment | literal | escape => rfl

def reindented (n : Nat) : List (List Char) → List Char
  | [] => ['\n']
  | line :: more => line ++ '\n' :: more.flatMap fun l => List.replicate n ' ' ++ l ++ ['\n']

theorem scan_indented (hmode : mode = .start ∨ mode = .literal) (n : Nat) (ls : List (List Char)) :
    scan mode (ls.flatMap fun l => List.replicate n ' ' ++ l ++ ['\n']) = scan mode (reindented n ls) := by
  cases ls with
  | nil => rcases hmode with rfl | rfl <;> rfl
  | cons l ls => simp [reindented, scan_blanks hmode]

theorem scan_lines (n : Nat) (mode : Mode) (cs : List Char) :
    scan mode (reindented n (lines cs)) = scan mode (cs ++ ['\n']) := by
  -- an empty line in front of more lines
  have hbreak : ∀ (mode : Mode) (rest : List Char),
      (∀ mode, scan mode (reindented n (lines rest)) = scan mode (rest ++ ['\n'])) →
      scan mode (reindented n ([] :: lines rest)) = scan mode ('\n' :: (rest ++ ['\n'])) := by
    intro mode rest ih
    rw [reindented, nil_append, scan, scan, scan_indented (next_newline mode), ih]
  fun_induction lines cs generalizing mode with
  | case1 => rfl
  | case2 rest ih =>
    rw [cons_append, cons_append, scan_return]
    exact hbreak mode rest ih
  | case3 rest _ ih => exact hbreak mode rest ih
  | case4 c rest _ _ hempty ih =>
    rw [hempty] at ih
    simp only [scan, cons_append, ← ih]
    rfl
  | case5 c rest _ _ line more hlines ih =>
    rw [hlines] at ih
    simp only [scan, cons_append, ← ih]
    rfl

theorem scan_block (depth : Nat) (text : String) :
    scan .start (ofRows (Module.block depth text)) = scan .start (text ++ "\n").toList := by
  have hrows : ofRows (Module.block depth text) =
      (lines text.toList).flatMap fun l => List.replicate (4 * depth) ' ' ++ l ++ ['\n'] := by
    simp [ofRows, Module.block, Module.line, flatMap_map]
  rw [hrows, scan_indented (.inl rfl), scan_lines, String.toList_append]
  rfl

theorem WholeRows.block (depth : Nat) {text : String} (h : Whole Q (text ++ "\n")) :
    WholeRows Q (Module.block depth text) := by
  rw [WholeRows, Reads, scan_block]
  exact h

theorem line_whole (depth : Nat) {text : String} (h : Whole Q (text ++ "\n")) :
    Whole Q (Module.line depth text ++ "\n") := by
  rw [Whole, Reads, Module.line, String.append_assoc, String.toList_append, String.toList_ofList,
    scan_blanks (.inl rfl)]
  exact h

end Emitted

end ChartScript
