import ChartScript.Command.Run
import ChartScript.Proofs.Command.FileTree
import ChartScript.Proofs.Conversion.Accepted
/-!
# Scripts converted together

Scripts are converted one by one, and the module of each is written to a file of its own. A script
that is rejected changes no file, but one whose module fails the syntax check breaks off the rest.
-/
namespace ChartScript

open List Desk

namespace Command

/-- The file that the module of a script is written to. -/
def moduleName (settings : Settings) (s : NamedScript) : String :=
  s.name ++ "." ++ settings.extension

/-- The path of that file. -/
def modulePath (settings : Settings) (directory : String) (s : NamedScript) : String :=
  Path.join directory (moduleName settings s)

variable {settings : Settings} {s : NamedScript} {rest : List NamedScript} {d : Desk} {t : Tally}
  {directory : String} {check : SyntaxCheck}

/-! ## One script -/

theorem run_malformed (settings : Settings) (output : Option String) (many : Bool) {e : GenerationError}
    (h : ChartScript.convert settings.conversion s.source check = .error e) :
    (convertScripts host check settings output many t (s :: rest)).run d = (.error (.generation e), d) := by
  rw [convertScripts, h]
  rfl

theorem run_rejected (output : Option String) (many : Bool) {r : Rejection}
    (h : ChartScript.convert settings.conversion s.source check = .ok (.error r)) :
    (convertScripts host check settings output many t (s :: rest)).run d =
      (convertScripts host check settings output many { t with rejected := t.rejected + 1 } rest).run
        { d with errors := d.errors ++ rejectionReport s r } := by
  rw [convertScripts, h]
  rfl

theorem run_bind {α β : Type} {x : ExceptT CommandError (StateM Desk) α}
    {f : α → ExceptT CommandError (StateM Desk) β} {a : α} {d' : Desk}
    (h : x.run d = (.ok a, d')) : (x >>= f).run d = (f a).run d' := by
  simp only [ExceptT.run, bind, ExceptT.bind, ExceptT.mk, StateT.bind] at h ⊢
  rw [h]
  rfl

theorem run_change (wrap : FileFault → CommandError) {f : FileTree → Except FileFault FileTree}
    {tree : FileTree} (h : f d.tree = .ok tree) :
    (orFail wrap (change f)).run d = (.ok (), { d with tree := tree }) := by
  have hchange : change f d = (.ok (), { d with tree := tree }) := by simp only [change, h]
  have hlift : (liftM (change f) : ExceptT CommandError (StateM Desk) (Except FileFault Unit)).run d =
        (.ok (.ok ()), { d with tree := tree }) := by
    simp only [ExceptT.run, liftM, monadLift, MonadLift.monadLift, ExceptT.lift, ExceptT.mk,
      Functor.map, StateT.map, hchange]
    rfl
  rw [orFail, run_bind hlift]
  rfl

theorem run_deliver (many : Bool) {text : String} {tree : FileTree}
    (h : d.tree.writeText (modulePath settings directory s) text = .ok tree) :
    (deliver host settings.extension (some directory) many s text t).run d =
      (.ok { t with converted := t.converted + 1 },
       { d with
         tree := tree
         errors := d.errors ++ s!"{s.name} -> {modulePath settings directory s}\n" }) := by
  have hwrite := run_change .file (f := (·.writeText (modulePath settings directory s) text)) h
  exact run_bind hwrite

theorem run_converted (many : Bool) (t : Tally) (rest : List NamedScript) {c : Conversion}
    (h : ChartScript.convert settings.conversion s.source check = .ok (.ok c)) {tree : FileTree}
    (hwrite : d.tree.writeText (modulePath settings directory s) c.module.text = .ok tree) :
    ∃ errors, (convertScripts host check settings (some directory) many t (s :: rest)).run d =
      (convertScripts host check settings (some directory) many
        { t with converted := t.converted + 1 } rest).run { d with tree := tree, errors := errors } := by
  refine ⟨d.errors ++ String.join (c.warnings.map (warningReport s)) ++
    s!"{s.name} -> {modulePath settings directory s}\n", ?_⟩
  rw [convertScripts, h]
  refine (run_bind rfl).trans ?_
  exact run_bind (run_deliver many (d := { d with
    errors := d.errors ++ String.join (c.warnings.map (warningReport s)) }) hwrite)

/-! ## All scripts -/

/-- The script is converted or rejected: its module, if there is one, passes the check. -/
def goesThrough (check : SyntaxCheck) (settings : Settings) (s : NamedScript) : Bool :=
  (ChartScript.convert settings.conversion s.source check).toBool

/-- The files behind one script. -/
def keep (check : SyntaxCheck) (settings : Settings) (place : List String) (tree : FileTree)
    (s : NamedScript) : FileTree :=
  match ChartScript.convert settings.conversion s.source check with
  | .ok (.ok c) => tree.set (place ++ [moduleName settings s]) (.file (some c.module.text))
  | _ => tree

/-- A directory into which the modules of some scripts can be written. -/
structure Ready (settings : Settings) (directory : String) (front place : List String)
    (scripts : List NamedScript) (tree : FileTree) : Prop where
  reaches : tree.Reaches front place
  parts : ∀ s ∈ scripts, Path.parts (modulePath settings directory s) = front ++ [moduleName settings s]
  relative : ∀ s ∈ scripts, Path.isAbsolute (modulePath settings directory s) = false
  free : ∀ s ∈ scripts, tree.node? (place ++ [moduleName settings s]) ≠ some .directory

variable {front place : List String} {scripts : List NamedScript} {tree : FileTree}

theorem Ready.tail (h : Ready settings directory front place (s :: scripts) tree) :
    Ready settings directory front place scripts tree where
  reaches := h.reaches
  parts r hr := h.parts r (mem_cons_of_mem s hr)
  relative r hr := h.relative r (mem_cons_of_mem s hr)
  free r hr := h.free r (mem_cons_of_mem s hr)

theorem Ready.writeText (h : Ready settings directory front place (s :: scripts) tree) (text : String) :
    tree.writeText (modulePath settings directory s) text =
    .ok (tree.set (place ++ [moduleName settings s]) (.file (some text))) :=
  (FileTree.writeText_eq_ok (h.parts s mem_cons_self)).2
    ⟨h.relative s mem_cons_self, place, h.reaches, h.free s mem_cons_self, rfl⟩

theorem Ready.keep (h : Ready settings directory front place (s :: scripts) tree) :
    Ready settings directory front place scripts (keep check settings place tree s) := by
  unfold Command.keep
  split
  · next c _ =>
    refine { h.tail with reaches := h.reaches.set (h.free s mem_cons_self) _, free := ?_ }
    intro r hr
    rw [FileTree.node?_set tree (by simp)]
    split
    · simp
    · exact h.tail.free r hr
  · exact h.tail

theorem tree_convertScripts (many : Bool) (h : Ready settings directory front place scripts d.tree) :
    ((convertScripts host check settings (some directory) many t scripts).run d).2.tree =
    (scripts.takeWhile (goesThrough check settings)).foldl (keep check settings place) d.tree := by
  induction scripts generalizing t d with
  | nil => rfl
  | cons s rest ih =>
    have hkeep : Ready settings directory front place rest (Command.keep check settings place d.tree s) := h.keep
    cases hconvert : ChartScript.convert settings.conversion s.source check with
    | error e =>
      rw [run_malformed settings (some directory) many hconvert, takeWhile_cons, goesThrough, hconvert]
      rfl
    | ok outcome =>
      have hthrough : goesThrough check settings s = true := by
        rw [goesThrough, hconvert]
        rfl
      rw [takeWhile_cons_of_pos hthrough, foldl_cons]
      rw [Command.keep, hconvert] at hkeep ⊢
      cases outcome with
      | error r =>
        rw [run_rejected (some directory) many hconvert]
        exact ih (d := { d with errors := _ }) hkeep
      | ok c =>
        obtain ⟨errors, hrun⟩ := run_converted many t rest hconvert (h.writeText c.module.text)
        rw [hrun]
        exact ih (d := { d with tree := _, errors := errors }) hkeep

theorem Ready.foldl {before rest : List NamedScript}
    (h : Ready settings directory front place (before ++ rest) tree) :
    Ready settings directory front place rest (before.foldl (Command.keep check settings place) tree) := by
  induction before generalizing tree with
  | nil => exact h
  | cons s before ih => exact ih h.keep

theorem node?_foldl_keep {name : String} (h : ∀ s ∈ scripts, moduleName settings s ≠ name) :
    (scripts.foldl (keep check settings place) tree).node? (place ++ [name]) = tree.node? (place ++ [name]) := by
  induction scripts generalizing tree with
  | nil => rfl
  | cons s rest ih =>
    have hs : place ++ [name] ≠ place ++ [moduleName settings s] := by
      intro hsame
      exact h s mem_cons_self (by simpa using hsame.symm)
    rw [foldl_cons, ih fun r hr => h r (mem_cons_of_mem s hr), keep]
    split
    · rw [FileTree.node?_set tree (by simp), if_neg hs]
    · rfl

theorem moduleName_inj {r s : NamedScript} (h : moduleName settings r = moduleName settings s) :
    r.name = s.name := by
  simpa [moduleName] using h

theorem takeWhile_goesThrough {before rest : List NamedScript} :
    (before ++ rest).takeWhile (goesThrough check settings) =
      if before.all (goesThrough check settings) then before ++ rest.takeWhile (goesThrough check settings)
      else before.takeWhile (goesThrough check settings) := by
  split
  · next hall => exact takeWhile_append_of_pos (all_eq_true.1 hall)
  · next hall =>
    rw [takeWhile_append, if_neg]
    intro hlength
    have hself := (List.takeWhile_prefix (goesThrough check settings)).eq_of_length hlength
    exact hall (all_eq_true.2 (takeWhile_eq_self_iff.1 hself))

theorem exists_ready (hs : s ∈ scripts) (hnames : ∀ r ∈ scripts, Path.IsName (moduleName settings r))
    (hwritable : ∀ r ∈ scripts, ∀ text, ∃ written,
      tree.writeText (modulePath settings directory r) text = .ok written) :
    ∃ front place, Ready settings directory front place scripts tree := by
  obtain ⟨front, hfront⟩ := Path.parts_join directory
  have hparts : ∀ r ∈ scripts, Path.parts (modulePath settings directory r) =
      front ++ [moduleName settings r] := fun r hr => hfront _ (hnames r hr).plain
  have hplaces : ∀ r ∈ scripts, Path.isAbsolute (modulePath settings directory r) = false ∧
      ∃ place, tree.Reaches front place ∧ tree.node? (place ++ [moduleName settings r]) ≠ some .directory := by
    intro r hr
    obtain ⟨written, hwritten⟩ := hwritable r hr ""
    obtain ⟨hrelative, place, hreaches, hfree, -⟩ := (FileTree.writeText_eq_ok (hparts r hr)).1 hwritten
    exact ⟨hrelative, place, hreaches, hfree⟩
  obtain ⟨-, place, hreaches, -⟩ := hplaces s hs
  refine ⟨front, place, hreaches, hparts, fun r hr => (hplaces r hr).1, ?_⟩
  intro r hr
  obtain ⟨-, place', hreaches', hfree⟩ := hplaces r hr
  -- the same parts lead to one place only
  cases hreaches.walk.symm.trans hreaches'.walk
  exact hfree

theorem run_convertInto {made : FileTree} (scripts : List NamedScript)
    (h : d.tree.createDirectories directory = .ok made) :
    (convertInto host check settings (some directory) scripts).run d =
      (convertScripts host check settings (some directory) (1 < scripts.length) {} scripts).run
        { d with tree := made } := by
  have hcreate := run_change .file (f := (·.createDirectories directory)) h
  exact run_bind hcreate

/-- Of scripts with different names that are converted into a directory where files can be written,
the file of one that can be converted holds its module, whatever the other scripts and the syntax check
are, as long as all that stand before it go through. If one of these does not, its module is not
written: the file is what it was. -/
theorem module_kept_unless_broken_off (check : SyntaxCheck) (settings : Settings) (directory : String) (d : Desk)
    (before : List NamedScript) (s : NamedScript) (after : List NamedScript) {made : FileTree}
    {c : Conversion} (hdistinct : ((before ++ s :: after).map (·.name)).Nodup)
    (hnames : ∀ r ∈ before ++ s :: after, Path.IsName (moduleName settings r))
    (hmade : d.tree.createDirectories directory = .ok made)
    (hwritable : ∀ r ∈ before ++ s :: after, ∀ text, ∃ written,
      made.writeText (modulePath settings directory r) text = .ok written)
    (hconvert : ChartScript.convert settings.conversion s.source check = .ok (.ok c)) :
    ((convertInto host check settings (some directory) (before ++ s :: after)).run d).2.tree.readText
        (modulePath settings directory s) =
      if before.all (goesThrough check settings) then .ok c.module.text
      else made.readText (modulePath settings directory s) := by
  have hmem : s ∈ before ++ s :: after := by simp
  obtain ⟨front, place, hready⟩ := exists_ready hmem hnames hwritable
  have hothers : ∀ r, r ∈ before ∨ r ∈ after → moduleName settings r ≠ moduleName settings s := by
    intro r hr hsame
    have hname := moduleName_inj hsame
    simp only [map_append, map_cons, nodup_append, nodup_cons] at hdistinct
    obtain ⟨-, ⟨hafter, -⟩, hbefore⟩ := hdistinct
    cases hr with
    | inl hr => exact hbefore r.name (mem_map_of_mem hr) s.name mem_cons_self hname
    | inr hr => exact hafter (hname ▸ mem_map_of_mem hr)
  have hreaches : (((before ++ s :: after).takeWhile (goesThrough check settings)).foldl
      (keep check settings place) made).Reaches front place := by
    have hsplit := hready
    rw [← takeWhile_append_dropWhile (p := goesThrough check settings) (l := before ++ s :: after)] at hsplit
    exact hsplit.foldl.reaches
  rw [run_convertInto (before ++ s :: after) hmade, tree_convertScripts (d := { d with tree := made }) _ hready,
    hreaches.readText (hready.parts s hmem) (hready.relative s hmem) (hnames s hmem),
    takeWhile_goesThrough]
  by_cases hall : before.all (goesThrough check settings) = true
  · have hthrough : goesThrough check settings s = true := by
      rw [goesThrough, hconvert]
      rfl
    have hbehind : ∀ r ∈ after.takeWhile (goesThrough check settings),
        moduleName settings r ≠ moduleName settings s := fun r hr => hothers r (.inr (takeWhile_subset _ hr))
    rw [if_pos hall, if_pos hall, takeWhile_cons_of_pos hthrough, foldl_append,
      foldl_cons, node?_foldl_keep hbehind, keep, hconvert, FileTree.node?_set _ (by simp),
      if_pos rfl]
  · have hbefore : ∀ r ∈ before.takeWhile (goesThrough check settings),
        moduleName settings r ≠ moduleName settings s := fun r hr => hothers r (.inl (takeWhile_subset _ hr))
    rw [if_neg hall, if_neg hall, node?_foldl_keep hbefore,
      hready.reaches.readText (hready.parts s hmem) (hready.relative s hmem) (hnames s hmem)]

/-! ## A script that is lost behind another -/

/-- A title has a second row with a word on it, and those before it have one row. In the struct of the
parameters the word stands where only fields and comments can. -/
def HasStrayWord (m : Module) : Prop :=
  ∃ (before : List InputField) (f : InputField) (after : List InputField) (first word : List Char),
    m.inputs = before ++ f :: after ∧ (∀ g ∈ before, ∀ t ∈ g.title, '\n' ∉ t.toList) ∧
      f.title = some (String.ofList (first ++ '\n' :: word)) ∧ '\n' ∉ first ∧ word ≠ [] ∧
      word.all Char.isAlpha = true

/-- The check refuses text in a struct that is neither a field nor a comment. -/
def RefusesStrayWords (check : SyntaxCheck) : Prop :=
  ∀ m, HasStrayWord m → check m = false

/-- An input whose title has a second row. -/
def brokenScript : NamedScript where
  name := "a"
  source := ("//@version=5\n" ++ "indicator(\"A\")\n" ++ "n = input.int(5, \"Length\\nbare\")\n" ++
    "plot(close)\n").toList

def soundScript : NamedScript where
  name := "b"
  source := ("//@version=5\n" ++ "indicator(\"B\")\n" ++ "plot(close)\n").toList

def unreadableScript : NamedScript where
  name := "c"
  source := ("indicator(").toList

theorem soundScript_converted : ∃ c, ChartScript.convert {} soundScript.source = .ok (.ok c) := by
  obtain ⟨s, l, m, -, hconvert, -⟩ := exists_accepted {} soundScript.source (fun _ _ => True) (by decide +kernel)
  exact ⟨_, hconvert⟩

theorem module_kept_behind_rejection : ∃ c, ChartScript.convert {} soundScript.source = .ok (.ok c) ∧
      ((convertInto host Module.isWellFormed {} (some "out") [unreadableScript, soundScript, brokenScript]).run
        {}).2.tree.readText "out/b.rs" = .ok c.module.text := by
  have hrejected : goesThrough Module.isWellFormed {} unreadableScript = true := by decide
  obtain ⟨c, hconvert⟩ := soundScript_converted
  refine ⟨c, hconvert, ?_⟩
  have hwritable : ∀ r ∈ [unreadableScript, soundScript, brokenScript], ∀ text, ∃ written,
      ({ nodes := [(["out"], .directory)] } : FileTree).writeText (modulePath {} "out" r) text = .ok written := by
    intro r hr text
    simp only [mem_cons, not_mem_nil, or_false] at hr
    rcases hr with rfl | rfl | rfl <;> exact ⟨_, rfl⟩
  have hkept := module_kept_unless_broken_off _ {} "out" {} [unreadableScript] soundScript
    [brokenScript] (by decide) (by decide) rfl hwritable hconvert
  have hpath : modulePath {} "out" soundScript = "out/b.rs" := by decide
  rw [if_pos (by rw [all_cons, hrejected]; rfl), hpath, cons_append, nil_append] at hkept
  exact hkept

/-- Behind a module that the check refuses nothing is written. So it is for every check that refuses
stray words, and for the one of the command line, by which the second script alone is converted. -/
theorem module_lost_behind_broken :
    (∀ check, RefusesStrayWords check →
      ((convertInto host check {} (some "out") [brokenScript, soundScript]).run
        {}).2.tree.readText "out/b.rs" = .error .notFound) ∧
    (∃ c, ChartScript.convert {} soundScript.source = .ok (.ok c)) ∧
      ((convertInto host Module.isWellFormed {} (some "out") [brokenScript, soundScript]).run
        {}).2.tree.readText "out/b.rs" = .error .notFound := by
  obtain ⟨s, l, m, hprepared, htitles, htakes⟩ := exists_prepared {} brokenScript.source
    (fun _ l => l.inputs.map (·.title) = [some "Length\nbare"] ∧ Module.takesInputs {} l.inputs = false) <| by
      unfold brokenScript
      repeat rw [String.toList_append]
      repeat rw [String.toList_ofList]
      decide +kernel
  have hlost : ∀ check : SyntaxCheck, check m = false →
      ((convertInto host check {} (some "out") [brokenScript, soundScript]).run
        {}).2.tree.readText "out/b.rs" = .error .notFound := by
    intro check hcheck
    rw [run_convertInto [brokenScript, soundScript] rfl,
      run_malformed {} (some "out") _ (hprepared.broken hcheck).2]
    rfl
  refine ⟨fun check hcheck => hlost check (hcheck m ?_), soundScript_converted, hlost _ ?_⟩
  · obtain ⟨f, hf, htitle⟩ := map_eq_singleton_iff.1 htitles
    refine ⟨[], f, [], "Length".toList, "bare".toList, ?_, by simp, htitle, by decide, by decide, by decide⟩
    rw [(Module.build_cases hprepared.built).1]
    exact hf
  · rw [Module.isWellFormed_of_build hprepared.built]
    exact htakes

end Command

end ChartScript
