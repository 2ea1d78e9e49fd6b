import ChartScript.Module.Render
import ChartScript.Proofs.Module.Run
/-!
# Rows that are carried out

The actions of a module are emitted as nested `if`, `else if` and `else` blocks. Carried out row by row,
as such blocks are, the rows make the orders that the actions make.
-/
namespace ChartScript.Module

open List

/-- What a row does: it opens a block under a test, goes on with a block or closes it, or it is carried
out as it stands. -/
inductive Row where
  | opens (test : String)
  | turns (test : Option String)
  | closes
  | does (text : String)

/-- The row that starts with the given text, once its indentation is left out. -/
def Row.ofChars (cs : List Char) : Row :=
  if cs = ['}'] then .closes
  else if cs = "\x7d else \x7b".toList then .turns none
  else if "\x7d else if ".toList.isPrefixOf cs then .turns (some (String.ofList (cs.drop 10).dropLast.dropLast))
  else if "if ".toList.isPrefixOf cs then .opens (String.ofList (cs.drop 3).dropLast.dropLast)
  else .does (String.ofList cs)

/-- What a row does, its indentation left out. -/
def Row.read (row : String) : Row :=
  .ofChars (row.toList.dropWhile (· == ' '))

/-- An open block: whether its rows are carried out, and whether no later branch of it will be. -/
structure OpenBlock where
  runs : Bool
  settled : Bool

def running (blocks : List OpenBlock) : Bool :=
  blocks.head?.all (·.runs)

/-- The rows that are carried out, where tests hold as `truth` says of their text. -/
def carryOut (truth : String → Bool) : List OpenBlock → List Row → List String
  | _, [] => []
  | blocks, .does text :: rest => (if running blocks then [text] else []) ++ carryOut truth blocks rest
  | blocks, .opens test :: rest =>
    carryOut truth (⟨running blocks && truth test, !running blocks || truth test⟩ :: blocks) rest
  | b :: blocks, .turns test :: rest =>
    carryOut truth (⟨!b.settled && test.all truth, b.settled || test.all truth⟩ :: blocks) rest
  | _ :: blocks, .closes :: rest => carryOut truth blocks rest
  | [], .turns _ :: rest => carryOut truth [] rest
  | [], .closes :: rest => carryOut truth [] rest

/-! ## Reading rows -/

theorem read_line (depth : Nat) {text : String} (h : text.toList.head?.any (· == ' ') = false) :
    Row.read (line depth text) = .ofChars text.toList := by
  have hblanks : ∀ n, (List.replicate n ' ' ++ text.toList).dropWhile (· == ' ') = text.toList := by
    intro n
    induction n with
    | zero =>
      cases hcs : text.toList with
      | nil => rfl
      | cons c cs =>
        rw [hcs] at h
        exact dropWhile_cons_of_neg (by simpa using h)
    | succ n ih => rw [replicate_succ, cons_append, dropWhile_cons_of_pos (by simp), ih]
  rw [Row.read, line, String.toList_append, String.toList_ofList, hblanks]

theorem read_opens (depth : Nat) (test : String) :
    Row.read (line depth ("if " ++ test ++ " \x7b")) = .opens test := by
  rw [read_line depth (by simp)]
  simp [Row.ofChars]

theorem read_turns (depth : Nat) (test : String) :
    Row.read (line depth ("\x7d else " ++ "if " ++ test ++ " \x7b")) = .turns (some test) := by
  rw [read_line depth (by simp)]
  simp [Row.ofChars]

theorem read_otherwise (depth : Nat) : Row.read (line depth ("\x7d else " ++ "\x7b")) = .turns none := by
  rw [read_line depth (by simp)]
  simp [Row.ofChars]

theorem read_closes (depth : Nat) : Row.read (line depth "\x7d") = .closes := by
  rw [read_line depth (by simp)]
  simp [Row.ofChars]

/-- The row that makes an order. -/
def orderRow (o : EmittedOrder) : String :=
  "out.order(" ++ renderOrder o ++ ");"

theorem read_order (depth : Nat) (o : EmittedOrder) :
    Row.read (line depth (orderRow o)) = .does (orderRow o) := by
  have htext : (orderRow o).toList = 'o' :: ("ut.order(".toList ++ (renderOrder o ++ ");").toList) := by
    simp [orderRow]
  rw [read_line depth (by simp [htext]), Row.ofChars, if_neg (by simp [htext]), if_neg (by simp [htext]),
    if_neg (by simp [htext]), if_neg (by simp [htext]), String.ofList_toList]

/-! ## Carrying out rows -/

/-- Where these rows stand, they make the given orders if they are carried out at all. -/
def Makes (rows : Nat → List String) (orders : (Test → Bool) → List (Nat × EmittedOrder)) : Prop :=
  ∀ truth depth blocks rest, carryOut truth blocks ((rows depth).map Row.read ++ rest) =
    (if running blocks then (orders fun t => truth (renderTest t)).map (orderRow ·.2) else []) ++
      carryOut truth blocks rest

/-- Behind the first branch, the rows of the chain make its orders unless the chain is settled. -/
def Goes (chain : Chain) : Prop :=
  ∀ truth depth b blocks rest,
    carryOut truth (b :: blocks) ((chainLines depth "\x7d else " chain).map Row.read ++ rest) =
      (if b.settled then [] else (chain.run fun t => truth (renderTest t)).map (orderRow ·.2)) ++
        carryOut truth blocks rest

theorem order_makes (i : Nat) (test : Option Test) (o : EmittedOrder) :
    Makes (actionLines · (.order i test o)) (Action.run · (.order i test o)) := by
  intro truth depth blocks rest
  cases test with
  | none =>
    have hread := read_order depth o
    rw [orderRow] at hread
    simp only [actionLines, map_cons, map_nil, cons_append, nil_append, hread, carryOut]
    simp [Action.run, orderRow]
  | some t =>
    have hread := read_order (depth + 1) o
    rw [orderRow] at hread
    simp only [actionLines, map_cons, map_nil, cons_append, nil_append, hread, read_opens, read_closes, carryOut]
    cases hruns : running blocks <;> cases ht : truth (renderTest t) <;> simp [Action.run, orderRow, running, ht]

theorem actions_make {as : List Action} (h : ∀ a ∈ as, Makes (actionLines · a) (Action.run · a)) :
    Makes (actionsLines · as) (runAll · as) := by
  intro truth depth blocks rest
  induction as with
  | nil => simp [actionsLines, runAll]
  | cons a as ih =>
    simp only [actionsLines, runAll, map_append, append_assoc]
    rw [h a mem_cons_self, ih fun a' ha => h a' (mem_cons_of_mem a ha)]
    split <;> simp

theorem arm_goes {test : Test} {body : List Action} {chain : Chain}
    (hbody : Makes (actionsLines · body) (runAll · body)) (hrest : Goes chain) : Goes (.arm test body chain) := by
  intro truth depth b blocks rest
  simp only [chainLines, map_cons, map_append, cons_append, append_assoc, read_turns, carryOut]
  rw [hbody, hrest]
  cases b.settled <;> cases htest : truth (renderTest test) <;> simp [running, Chain.run, htest]

theorem choose_makes {test : Test} {body : List Action} {chain : Chain}
    (hbody : Makes (actionsLines · body) (runAll · body)) (hrest : Goes chain) :
    Makes (actionLines · (.choose (.arm test body chain))) (Action.run · (.choose (.arm test body chain))) := by
  intro truth depth blocks rest
  have hopening : "" ++ "if " ++ renderTest test ++ " \x7b" = "if " ++ renderTest test ++ " \x7b" := by simp
  simp only [actionLines, chainLines, map_cons, map_append, cons_append, append_assoc, hopening, read_opens, carryOut]
  rw [hbody, hrest]
  cases running blocks <;> cases htest : truth (renderTest test) <;> simp [running, Action.run, Chain.run, htest]

variable {s : Script} {l : LoweredScript}

theorem arms_go {body : Option BodyRef → Except GenerationFault (List Action)} {last : Nat}
    (hbody : ∀ scope as, body scope = .ok as → Makes (actionsLines · as) (runAll · as)) {ks : List Nat}
    {chain : Chain} (h : arms s l body last ks = .ok chain) : Goes chain := by
  induction ks generalizing chain with
  | nil =>
    unfold arms at h
    split at h
    · obtain ⟨as, has, rfl⟩ := bind_pure_eq_ok.1 h
      intro truth depth b blocks rest
      simp only [chainLines, map_cons, map_append, map_nil, cons_append, append_assoc, read_otherwise, carryOut]
      rw [hbody _ as has]
      simp only [nil_append, read_closes, carryOut]
      cases b.settled <;> simp [running, Chain.run]
    · cases h
      intro truth depth b blocks rest
      simp [chainLines, read_closes, carryOut, Chain.run]
  | cons k ks ih =>
    obtain ⟨t, -, h⟩ := bind_eq_ok.1 h
    obtain ⟨as, has, h⟩ := bind_eq_ok.1 h
    obtain ⟨rest, hrest, rfl⟩ := bind_pure_eq_ok.1 h
    exact arm_goes (hbody _ as has) (ih hrest)

theorem actionsOf_makes (depth : Nat) (scope : Option BodyRef) (as : List Action)
    (h : actionsOf s l depth scope = .ok as) : Makes (actionsLines · as) (runAll · as) := by
  induction depth generalizing scope as with
  | zero =>
    cases h
    exact actions_make (by simp)
  | succ depth ih =>
    refine actions_make fun a ha => ?_
    obtain ⟨e, -, he⟩ := exists_of_mem_mapM h ha
    cases e with
    | order i o =>
      obtain ⟨request, -, rfl⟩ := bind_pure_eq_ok.1 he
      exact order_makes i _ _
    | condition i c =>
      obtain ⟨chain, hchain, rfl⟩ := bind_pure_eq_ok.1 he
      obtain ⟨t, -, hchain⟩ := bind_eq_ok.1 hchain
      obtain ⟨body, hbody, hchain⟩ := bind_eq_ok.1 hchain
      obtain ⟨rest, hrest, rfl⟩ := bind_pure_eq_ok.1 hchain
      exact choose_makes (ih _ body hbody) (arms_go ih hrest)

end ChartScript.Module
