import SceneFormula.Proofs.CommandLine
import SceneFormula.Proofs.Literals

/-!
# Commands on expression texts

A text that stands as a word of its own is an operand or a value unless it begins like a flag.
After a double hyphen, or behind the name of its option and an equals sign, it may be any text.
Whatever text a command gets, it prints a formula.
-/

namespace SceneFormula.CommandLine

variable {files : Files} {word source : String} {words : List String}

/-! ### Words that begin with a hyphen -/

/-- The word begins with a hyphen, and is not the hyphen alone. -/
def BeginsLikeFlag (word : String) : Prop := word.toList.head? = some '-' ∧ word ≠ "-"

theorem BeginsLikeFlag.of_toList {c : Char} {cs : List Char} (h : word.toList = '-' :: c :: cs) :
    BeginsLikeFlag word := by
  refine ⟨by rw [h]; rfl, ?_⟩
  rintro rfl
  cases h

theorem not_beginsLikeFlag (h : ∀ c cs, word.toList ≠ '-' :: c :: cs) : ¬ BeginsLikeFlag word := by
  rintro ⟨hhead, hne⟩
  obtain ⟨cs, hcs⟩ := List.head?_eq_some_iff.mp hhead
  cases cs with
  | nil => exact hne (String.toList_inj.mp hcs)
  | cons c cs => exact h c cs hcs

/-- A word is taken as it stands unless it begins like a flag. -/
theorem ofString_eq_plain_iff {text : String} :
    Word.ofString word = .plain text ↔ word = text ∧ ¬ BeginsLikeFlag word := by
  rw [Word.ofString]
  split
  next h =>
    refine iff_of_false ?_ fun hplain => hplain.2 (.of_toList h)
    rintro ⟨⟩
  next h =>
    refine iff_of_false ?_ fun hplain => hplain.2 (.of_toList h)
    split <;> rintro ⟨⟩
  next h =>
    have hflag : ¬ BeginsLikeFlag word := fun hflag => hflag.2 (String.toList_inj.mp h)
    simp [hflag]
  next letters _ _ hne h =>
    obtain ⟨c, cs, rfl⟩ := List.exists_cons_of_ne_nil hne
    refine iff_of_false ?_ fun hplain => hplain.2 (.of_toList h)
    rintro ⟨⟩
  next h =>
    have hflag : ¬ BeginsLikeFlag word := not_beginsLikeFlag fun c cs => h (c :: cs)
    simp [hflag]

/-! ### Words that are no operands -/

theorem operands_addFlag {name : String} {args args' : Arguments}
    (h : args.addFlag name = some args') : args'.operands = args.operands := by
  rw [Arguments.addFlag] at h
  split at h
  · cases h
  · cases h
    rfl

theorem operands_addOption {name value : String} {args args' : Arguments}
    (h : args.addOption name value = some args') : args'.operands = args.operands := by
  rw [Arguments.addOption] at h
  split at h
  · cases h
  · cases h
    rfl

theorem operands_addLetters {letters : List Char} {args args' : Arguments}
    (h : Arguments.addLetters letters args = some args') : args'.operands = args.operands := by
  induction letters generalizing args with
  | nil =>
    cases h
    rfl
  | cons c letters ih =>
    rw [Arguments.addLetters] at h
    split at h
    · obtain ⟨middle, hmiddle, hrest⟩ := Option.bind_eq_some_iff.mp h
      exact (ih hrest).trans (operands_addFlag hmiddle)
    · cases h

theorem operands_addWords (form : Form) (hword : BeginsLikeFlag word) {args args' : Arguments}
    (h : Arguments.addWords form [word] args = some args') : args'.operands = args.operands := by
  rw [Arguments.addWords] at h
  cases hkind : Word.ofString word with
  | escape =>
    simp only [hkind] at h
    cases h
    exact List.append_nil _
  | plain text => exact absurd hword (ofString_eq_plain_iff.mp hkind).2
  | short letters =>
    simp only [hkind] at h
    obtain ⟨middle, hmiddle, hrest⟩ := Option.bind_eq_some_iff.mp h
    cases hrest
    exact operands_addLetters hmiddle
  | long name value =>
    cases value with
    | none =>
      simp only [hkind] at h
      split at h
      · obtain ⟨middle, hmiddle, hrest⟩ := Option.bind_eq_some_iff.mp h
        cases hrest
        exact operands_addFlag hmiddle
      · split at h <;> cases h
    | some value =>
      simp only [hkind] at h
      split at h
      · obtain ⟨middle, hmiddle, hrest⟩ := Option.bind_eq_some_iff.mp h
        cases hrest
        exact operands_addOption hmiddle
      · cases h

/-! ### Texts as words -/

def parseForm : Form := ⟨"strict" :: Command.globalFlags, []⟩

def simplifyForm : Form := ⟨Command.globalFlags, Command.inputOptions⟩

theorem ofWords?_operand (form : Form) (h : ¬ BeginsLikeFlag source) :
    Arguments.ofWords? form [source] = some ⟨[], [], [source]⟩ := by
  have hword := ofString_eq_plain_iff.mpr ⟨rfl, h⟩
  rw [Arguments.ofWords?, Arguments.addWords, hword]
  rfl

theorem ofWords?_escaped (form : Form) (source : String) :
    Arguments.ofWords? form ["--", source] = some ⟨[], [], [source]⟩ := by
  have hword : Word.ofString "--" = .escape := rfl
  rw [Arguments.ofWords?, Arguments.addWords, hword]
  rfl

theorem ofWords?_value (source : String) :
    Arguments.ofWords? simplifyForm ["--expr", source] =
      match Word.ofString source with
      | .plain text => some ⟨[], [("expr", text)], []⟩
      | _ => none := by
  have hword : Word.ofString "--expr" = .long "expr" none := rfl
  have hflag : "expr" ∉ simplifyForm.flags := by decide
  have hoption : "expr" ∈ simplifyForm.options := by decide
  rw [Arguments.ofWords?, Arguments.addWords, hword]
  simp only [if_neg hflag, if_pos hoption]
  cases Word.ofString source <;> rfl

theorem ofWords?_setting (source : String) :
    Arguments.ofWords? simplifyForm [setting "expr" source] =
      some ⟨[], [("expr", source)], []⟩ := by
  rw [Arguments.ofWords?, addWords_setting simplifyForm (by decide) (by decide) List.not_mem_nil]
  rfl

theorem onInput_text {args : Arguments} (hin : args.value? "in" = none)
    (hexpr : args.value? "expr" = some source) (hoperands : args.operands = [])
    (make : Input → Command) : Command.onInput args make = some (make (.text source)) := by
  rw [Command.onInput, hoperands, Command.readInput, hin, hexpr]
  rfl

theorem asks_parse (h : Arguments.ofWords? parseForm words = some ⟨[], [], [source]⟩) :
    Asks ("parse" :: words) (.parse source false) false :=
  asks_of_ofWords? rfl rfl h rfl

theorem asks_simplify_text
    (h : Arguments.ofWords? simplifyForm words = some ⟨[], [("expr", source)], []⟩) :
    Asks ("optimise" :: words) (.simplify (.text source)) false :=
  asks_of_ofWords? rfl rfl h (onInput_text rfl rfl rfl .simplify)

/-- Words from which a command cannot be read ask for nothing. -/
theorem ofWords?_eq_none {name : String} {form : Form} {read : Arguments → Option Command}
    (hname : Word.ofString name = .plain name) (hform : Command.ofName? name = some (form, read))
    (h : ∀ args, Arguments.ofWords? form words = some args → read args = none) :
    Request.ofWords? (name :: words) {} = none := by
  rw [Request.ofWords?, hname]
  simp only [Request.ofCommand?, hform, Option.bind_eq_bind, Option.bind_some]
  cases hargs : Arguments.ofWords? form words with
  | none => rfl
  | some args => rw [Option.bind_some, h args hargs, Option.bind_none]

theorem ofWords?_parse_flag (h : BeginsLikeFlag source) :
    Request.ofWords? ["parse", source] {} = none := by
  -- The text is no operand, and without an operand there is nothing to parse.
  refine ofWords?_eq_none rfl rfl fun args hargs => ?_
  have hoperands : args.operands = [] := operands_addWords parseForm h hargs
  simp only [hoperands]

theorem ofWords?_simplify_flag (h : BeginsLikeFlag source) :
    Request.ofWords? ["optimise", "--expr", source] {} = none := by
  refine ofWords?_eq_none rfl rfl fun args hargs => ?_
  have hnone : Arguments.ofWords? simplifyForm ["--expr", source] = none := by
    rw [ofWords?_value]
    cases hsource : Word.ofString source with
    | plain text => exact absurd h (ofString_eq_plain_iff.mp hsource).2
    | _ => rfl
  cases hnone.symm.trans hargs

/-! ### What is printed for a text -/

/-- The words end well, and what they print is the value on a line of its own. -/
def Prints (files : Files) (words : List String) (j : Json Int) : Prop :=
  outcome files words = .printed (rendered false j ++ "\n") ∧ (outcome files words).exitCode = 0

theorem prints_of_asks {command : Command} (hwords : Asks words command false) {j : Json Int}
    (hj : command.result files = .ok j) : Prints files words j := by
  have hprinted := outcome_of_asks hwords hj
  exact ⟨hprinted, by rw [hprinted]; rfl⟩

theorem outcome_eq_wrongUsage (h : Request.ofWords? words {} = none) :
    outcome files words = .wrongUsage := by
  rw [outcome, h]

theorem not_prints (h : Request.ofWords? words {} = none) (j : Json Int) :
    ¬ Prints files words j := by
  rintro ⟨hprinted, -⟩
  rw [outcome_eq_wrongUsage h] at hprinted
  cases hprinted

theorem result_parse (files : Files) (source : String) :
    (Command.parse source false).result files = .ok (Expr.ofText source).toFormula.toJson := by
  rw [Command.result]
  rintro e - ⟨⟩

theorem result_simplify_text (files : Files) (source : String) :
    (Command.simplify (.text source)).result files = .ok (Formula.text source).simplify.toJson :=
  rfl

/-- As a word of its own, a text is read or simplified and the result is printed, unless the text
begins like a flag.  After a double hyphen, and behind the name of its option and an equals sign,
this is so for every text. -/
theorem prints_text_iff (files : Files) (source : String) :
    (Prints files ["parse", source] (Expr.ofText source).toFormula.toJson ↔
        ¬ BeginsLikeFlag source) ∧
      (Prints files ["optimise", "--expr", source] (Formula.text source).simplify.toJson ↔
        ¬ BeginsLikeFlag source) ∧
      Prints files ["parse", "--", source] (Expr.ofText source).toFormula.toJson ∧
      Prints files ["optimise", setting "expr" source]
        (Formula.text source).simplify.toJson := by
  have hparse := result_parse files source
  have hsimplify := result_simplify_text files source
  refine ⟨⟨fun h hflag => ?_, fun hflag => ?_⟩, ⟨fun h hflag => ?_, fun hflag => ?_⟩, ?_, ?_⟩
  · exact not_prints (ofWords?_parse_flag hflag) _ h
  · exact prints_of_asks (asks_parse (ofWords?_operand parseForm hflag)) hparse
  · exact not_prints (ofWords?_simplify_flag hflag) _ h
  · have hword := ofString_eq_plain_iff.mpr ⟨rfl, hflag⟩
    have hvalue := ofWords?_value source
    rw [hword] at hvalue
    exact prints_of_asks (asks_simplify_text hvalue) hsimplify
  · exact prints_of_asks (asks_parse (ofWords?_escaped parseForm source)) hparse
  · exact prints_of_asks (asks_simplify_text (ofWords?_setting source)) hsimplify

/-- A negative number is an expression, and neither command takes it as a word of its own. -/
theorem prints_text_negative :
    let files : Files := fun _ => none
    Expr.ofText? "-5" = .ok (.binary .sub (.number 0) (.number 5)) ∧
      outcome files ["parse", "-5"] = .wrongUsage ∧
      outcome files ["optimise", "--expr", "-5"] = .wrongUsage ∧
      ¬ ∀ source, source ≠ "" →
        Prints files ["parse", source] (Expr.ofText source).toFormula.toJson ∧
          Prints files ["optimise", "--expr", source] (Formula.text source).simplify.toJson := by
  intro files
  have hread : Expr.ofText? "-5" = .ok (.binary .sub (.number 0) (.number 5)) :=
    Expr.ofText?_neg_toString (m := 5) (by decide)
  have hflag : BeginsLikeFlag "-5" := ⟨rfl, by decide⟩
  refine ⟨hread, outcome_eq_wrongUsage (ofWords?_parse_flag hflag),
    outcome_eq_wrongUsage (ofWords?_simplify_flag hflag), fun h => ?_⟩
  exact not_prints (ofWords?_parse_flag hflag) _ (h "-5" (by decide)).1

end SceneFormula.CommandLine
