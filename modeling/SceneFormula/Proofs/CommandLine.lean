import SceneFormula.CommandLine.Outcome
import SceneFormula.Proofs.NormalForm
import SceneFormula.Proofs.Storage.Loading

/-!
# Commands on printed formulas

What a command prints has its keys in order and ends its line.  A file with it stores the printed
formula again, so that a second command may go on where the first one ended.
-/

namespace SceneFormula.CommandLine

/-- The text that a value is printed as, without the end of its line. -/
def rendered (pretty : Bool) (j : Json Int) : String :=
  if pretty then j.sorted.pretty else j.sorted.compact

/-- The words ask for a command, whatever their order and spelling. -/
def Asks (words : List String) (command : Command) (pretty : Bool) : Prop :=
  Request.ofWords? words {} = some (.run command pretty)

variable {files : Files} {path : String} {f : Formula}

/-! ### Printed formulas -/

theorem newline_not_mem_rendered (j : Json Int) : '\n' ∉ (rendered false j).toList := by
  change '\n' ∉ (String.ofList (j.sorted.write .compact [])).toList
  rw [String.toList_ofList]
  exact Json.newline_not_mem_write j.sorted List.not_mem_nil

theorem exists_rendered_eq (pretty : Bool) (j : Json Int) :
    ∃ layout : Layout, rendered pretty j = String.ofList (j.sorted.write layout []) := by
  cases pretty with
  | false => exact ⟨.compact, rfl⟩
  | true => exact ⟨.lines 0, rfl⟩

/-- A file may end the line of what was printed, or leave its end out. -/
theorem ofStored_rendered (h : f.height ≤ 127) (pretty : Bool) :
    ∀ blanks ∈ ["", "\n"], Formula.ofStored (rendered pretty f.toJson ++ blanks) = .ok f := by
  intro blanks hblanks
  have hblank : ∀ c ∈ blanks.toList, Reading.isBlank c = true := by
    rcases List.mem_pair.mp hblanks with rfl | rfl
    · exact List.all_eq_true.mp rfl
    · exact List.all_eq_true.mp rfl
  obtain ⟨layout, hlayout⟩ := exists_rendered_eq pretty f.toJson
  have htext : rendered pretty f.toJson ++ blanks =
      String.ofList (f.toJson.sorted.write layout [] ++ blanks.toList) := by
    rw [hlayout, String.ofList_append, String.ofList_toList]
  rw [htext]
  exact Formula.ofStored_write_sorted h layout hblank

/-! ### Words -/

/-- The word that gives an option its value. -/
def setting (name value : String) : String := "--" ++ name ++ "=" ++ value

/-- A word that stands or is left out. -/
def given (on : Bool) (word : String) : List String := if on then [word] else []

theorem ofString_setting {name : String} (hname : '=' ∉ name.toList) (value : String) :
    Word.ofString (setting name value) = .long name (some value) := by
  have htext : (setting name value).toList =
      '-' :: '-' :: (name.toList ++ '=' :: value.toList) := by
    simp [setting]
  have hkept : ∀ c ∈ name.toList, decide (c ≠ '=') = true := by
    rintro c hc
    exact decide_eq_true fun h => hname (h ▸ hc)
  rw [Word.ofString, htext]
  split
  next h => simp at h
  next cs _ h =>
    obtain rfl : name.toList ++ '=' :: value.toList = cs := by simpa using h
    rw [List.takeWhile_append_of_pos hkept, List.dropWhile_append_of_pos hkept]
    simp
  next h => simp at h
  next letters hlong _ h => exact absurd (List.cons.inj h).2.symm (hlong _)
  next _ hletters => exact absurd rfl (hletters _)

theorem addWords_setting (form : Form) {flags operands : List String}
    {options : List (String × String)} {name : String} (hname : '=' ∉ name.toList)
    (hform : name ∈ form.options) (hnew : name ∉ options.map Prod.fst) (value : String)
    (words : List String) :
    Arguments.addWords form (setting name value :: words) ⟨flags, options, operands⟩ =
      Arguments.addWords form words ⟨flags, (name, value) :: options, operands⟩ := by
  rw [Arguments.addWords, ofString_setting hname]
  simp only [if_pos hform, Arguments.addOption, if_neg hnew, Option.bind_some]

theorem addWords_given (form : Form) {flags operands : List String}
    {options : List (String × String)} {word name : String}
    (hword : Word.ofString word = .long name none) (hform : name ∈ form.flags)
    (hnew : name ∉ flags) (on : Bool) (words : List String) :
    Arguments.addWords form (given on word ++ words) ⟨flags, options, operands⟩ =
      Arguments.addWords form words ⟨given on name ++ flags, options, operands⟩ := by
  cases on with
  | false => rfl
  | true =>
    rw [given, if_pos rfl, List.singleton_append, Arguments.addWords, hword]
    simp only [if_pos hform, Arguments.addFlag, if_neg hnew, Option.bind_some]
    rfl

/-- What the words after the name of a command ask for. -/
theorem asks_of_ofWords? {name : String} {words : List String} {form : Form} {args : Arguments}
    {read : Arguments → Option Command} {command : Command}
    (hname : Word.ofString name = .plain name) (hform : Command.ofName? name = some (form, read))
    (hargs : Arguments.ofWords? form words = some args) (hread : read args = some command) :
    Asks (name :: words) command (args.flags.contains "pretty") := by
  rw [Asks, Request.ofWords?, hname]
  simp only [Request.ofCommand?, hform, Option.bind_eq_bind, Option.bind_some, hargs, hread]
  rfl

theorem onInput_file {args : Arguments} (hin : args.value? "in" = some path)
    (hexpr : args.value? "expr" = none) (hpath : path ≠ "") (hoperands : args.operands = [])
    (make : Input → Command) : Command.onInput args make = some (make (.file path)) := by
  have hempty : path.isEmpty = false := by simpa using hpath
  rw [Command.onInput, hoperands, Command.readInput, hin, hexpr]
  simp [hempty]

theorem asks_simplify (hpath : path ≠ "") (pretty : Bool) :
    Asks ("optimise" :: setting "in" path :: given pretty "--pretty") (.simplify (.file path))
      pretty := by
  let form : Form := ⟨Command.globalFlags, Command.inputOptions⟩
  have hargs : Arguments.ofWords? form (setting "in" path :: given pretty "--pretty") =
      some ⟨given pretty "pretty" ++ [], [("in", path)], []⟩ := by
    rw [Arguments.ofWords?, ← List.append_nil (given pretty "--pretty"),
      addWords_setting form (by decide) (by decide) List.not_mem_nil,
      addWords_given form rfl (by decide) List.not_mem_nil]
    rfl
  have hform : Command.ofName? "optimise" =
      some (form, fun args => Command.onInput args .simplify) := rfl
  have hasks := asks_of_ofWords? rfl hform hargs (onInput_file rfl rfl hpath rfl .simplify)
  cases pretty <;> exact hasks

theorem asks_compile (hpath : path ≠ "") (stem : String) (simplifying grouping pretty : Bool) :
    Asks ("precompile" :: setting "in" path :: setting "local-prefix" stem ::
        (given grouping "--sort-fetches" ++
          (given (!simplifying) "--no-optimise" ++ given pretty "--pretty")))
      (.compile (.file path) stem simplifying grouping) pretty := by
  let form : Form := ⟨"sort-fetches" :: "no-optimise" :: Command.globalFlags,
    "local-prefix" :: Command.inputOptions⟩
  have hargs : Arguments.ofWords? form (setting "in" path :: setting "local-prefix" stem ::
      (given grouping "--sort-fetches" ++
        (given (!simplifying) "--no-optimise" ++ given pretty "--pretty"))) =
        some ⟨given pretty "pretty" ++ (given (!simplifying) "no-optimise" ++
          (given grouping "sort-fetches" ++ [])), [("local-prefix", stem), ("in", path)], []⟩ := by
    rw [Arguments.ofWords?, ← List.append_nil (given pretty "--pretty"),
      addWords_setting form (by decide) (by decide) List.not_mem_nil,
      addWords_setting form (by decide) (by decide) (by simp),
      addWords_given form rfl (by decide) List.not_mem_nil,
      addWords_given form rfl (by decide) (by cases grouping <;> decide),
      addWords_given form rfl (by decide) (by cases grouping <;> cases simplifying <;> decide)]
    rfl
  have hform : Command.ofName? "precompile" = some (form, fun args =>
      Command.onInput args fun input => .compile input
        ((args.value? "local-prefix").getD Formula.defaultStem)
        (!args.flags.contains "no-optimise") (args.flags.contains "sort-fetches")) := rfl
  have hasks := asks_of_ofWords? rfl hform hargs (onInput_file rfl rfl hpath rfl _)
  cases simplifying <;> cases grouping <;> cases pretty <;> exact hasks

/-! ### What the commands print -/

theorem outcome_of_asks {words : List String} {command : Command} {pretty : Bool}
    (hwords : Asks words command pretty) {j : Json Int} (hj : command.result files = .ok j) :
    outcome files words = .printed (rendered pretty j ++ "\n") := by
  rw [outcome, hwords]
  simp only [Request.outcome, hj]
  rfl

theorem formula_file {stored : String} (hfile : files path = some stored)
    (hf : Formula.ofStored stored = .ok f) : (Input.file path).formula files = .ok f := by
  simp only [Input.formula, hfile, hf]

theorem result_simplify (hf : (Input.file path).formula files = .ok f) :
    (Command.simplify (.file path)).result files = .ok f.simplify.toJson := by
  rw [Command.result, hf]
  rfl

theorem result_compile (hf : (Input.file path).formula files = .ok f) (stem : String)
    (simplifying grouping : Bool) :
    (Command.compile (.file path) stem simplifying grouping).result files =
      .ok (let p := (if simplifying then f.simplify else f).compile stem
        (if grouping then p.grouped else p).toJson) := by
  rw [Command.result, hf]
  rfl

/-- A command that simplifies the formula of a file prints a text that stores the simplified
formula.  Given this text in a file, the command prints it again, and compiling without to simplify
prints what compiling with it prints for the first file. -/
theorem outcome_on_simplified {stored : String} (hfile : files path = some stored)
    (hf : Formula.ofStored stored = .ok f) (hheight : f.simplify.height ≤ 127) (pretty : Bool) :
    ∃ s : String, (pretty = false → '\n' ∉ s.toList) ∧
      (∀ words, Asks words (.simplify (.file path)) pretty →
        outcome files words = .printed (s ++ "\n") ∧ (outcome files words).exitCode = 0) ∧
      ∀ (files' : Files) (path' : String), files' path' ∈ [some s, some (s ++ "\n")] →
        (∀ words, Asks words (.simplify (.file path')) pretty →
          outcome files' words = .printed (s ++ "\n")) ∧
        ∀ stem grouping pretty' words words',
          Asks words (.compile (.file path) stem true grouping) pretty' →
          Asks words' (.compile (.file path') stem false grouping) pretty' →
          ∃ t, outcome files words = .printed t ∧ outcome files' words' = .printed t := by
  have hfirst := formula_file hfile hf
  refine ⟨rendered pretty f.simplify.toJson, ?_, fun words hwords => ?_, fun files' path' hs => ?_⟩
  · rintro rfl
    exact newline_not_mem_rendered f.simplify.toJson
  · have hprinted := outcome_of_asks hwords (result_simplify hfirst)
    exact ⟨hprinted, hprinted ▸ rfl⟩
  · have hstored := ofStored_rendered hheight pretty
    have hsecond : (Input.file path').formula files' = .ok f.simplify := by
      rcases List.mem_pair.mp hs with hs | hs
      · exact formula_file hs (by simpa using hstored "" (by simp))
      · exact formula_file hs (hstored "\n" (by simp))
    refine ⟨fun words hwords => ?_, fun stem grouping _ words words' hwords hwords' => ?_⟩
    · have hprinted := outcome_of_asks hwords (result_simplify hsecond)
      rwa [Formula.simplify_of_isNormal f.isNormal_simplify] at hprinted
    · exact ⟨_, outcome_of_asks hwords (result_compile hfirst stem true grouping),
        outcome_of_asks hwords' (result_compile hsecond stem false grouping)⟩

/-- A sum whose operands stand before its kind, through the commands and back. -/
theorem outcome_on_simplified_sum :
    let j : Json Int := .object [("valueB", .object [("type", .string "true")]),
      ("valueA", .object [("value", .number 2), ("type", .string "number")]),
      ("type", .string "add")]
    let f : Formula := .binary .add (some (.number 2)) (some (.truth true))
    let files : Files := fun path => if path = "door.json" then some j.pretty else none
    (files "door.json" = some j.pretty ∧ Formula.ofStored j.pretty = .ok f ∧
        f.simplify.height ≤ 127) ∧
      ∃ s t, outcome files ["optimise", setting "in" "door.json"] = .printed (s ++ "\n") ∧
        outcome (fun _ => some s) ["optimise", setting "in" "short.json"] =
          .printed (s ++ "\n") ∧
        outcome files ["precompile", setting "in" "door.json", setting "local-prefix" "door",
          "--sort-fetches"] = .printed t ∧
        outcome (fun _ => some s) ["precompile", setting "in" "short.json",
          setting "local-prefix" "door", "--sort-fetches", "--no-optimise"] = .printed t := by
  intro j f files
  have hfile : files "door.json" = some j.pretty := rfl
  have hf : Formula.ofStored j.pretty = .ok f := by
    have hfits : j.Fits := by
      refine ⟨⟨trivial, trivial⟩, ⟨?_, trivial, trivial⟩, trivial, trivial⟩
      exact ⟨by decide, by decide⟩
    have htext := Json.ofText?_write (.lines 0) j hfits Formula.maxOpen
    rw [if_pos (by decide)] at htext
    exact Formula.ofStored_of_ofText? htext rfl
  have hheight : f.simplify.height ≤ 127 := by decide
  have hdoor : "door.json" ≠ "" := by decide
  have hshort : "short.json" ≠ "" := by decide
  obtain ⟨s, -, hfirst, hlater⟩ := outcome_on_simplified hfile hf hheight false
  obtain ⟨hagain, hcompile⟩ := hlater (fun _ => some s) "short.json" List.mem_cons_self
  obtain ⟨t, ht, ht'⟩ := hcompile "door" true false _ _
    (asks_compile hdoor "door" true true false) (asks_compile hshort "door" false true false)
  exact ⟨⟨hfile, hf, hheight⟩, s, t, (hfirst _ (asks_simplify hdoor false)).1,
    hagain _ (asks_simplify hshort false), ht, ht'⟩

end SceneFormula.CommandLine
