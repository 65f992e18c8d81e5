import Foundry.Artifact.Factory
import Foundry.Artifact.Loader
import Mathlib.Data.List.Basic

/-!
# Where things stand in generated text

Generated text is a row of lines, each with a line feed behind it. In a loader two blocks of lines
depend on the modules, one directive for each generated header and one registration for each
factory; all other lines are those of the loader of no modules, and none of them is of either kind.
In a factory header one line declares a class, and parameters are added in the body of the
constructor only.

* `textOfLines_eq_join`: the text of lines.
* `Loader.exists_layout`: the two blocks and the lines around them.
* `Factory.exists_class`: the line of a factory header that declares its class.
* `Factory.exists_constructor`: the constructor of a factory header and the lines around it.
-/

namespace Foundry.Artifact

variable {line head rest : String} {start : List Char}

/-- The text of lines is the lines one after another, each with a line feed behind it. -/
theorem textOfLines_eq_join (lines : List String) :
    textOfLines lines = String.join (lines.map (· ++ "\n")) := by
  induction lines with
  | nil => rfl
  | cons line lines ih =>
    rw [List.map_cons, String.join_cons, ← ih]
    rfl

/-! ### How lines start -/

/-- Neither text starts the other one. -/
def apart (a b : List Char) : Bool :=
  !a.isPrefixOf b && !b.isPrefixOf a

theorem prefix_append (head rest : String) : head.toList <+: (head ++ rest).toList := by
  rw [String.toList_append]
  exact List.prefix_append _ _

/-- A line whose start differs does not start so, whatever comes behind. -/
theorem not_prefix_append (h : apart start head.toList = true) :
    ¬ start <+: (head ++ rest).toList := by
  intro hstart
  rw [apart, Bool.and_eq_true, Bool.not_eq_true', Bool.not_eq_true'] at h
  -- Two starts of one text: one of them starts the other.
  rcases List.prefix_or_prefix_of_prefix hstart (prefix_append head rest) with hfirst | hfirst
  · rw [List.isPrefixOf_iff_prefix.2 hfirst] at h
    exact absurd h.1 (by decide)
  · rw [List.isPrefixOf_iff_prefix.2 hfirst] at h
    exact absurd h.2 (by decide)

theorem indented_append (levels : Nat) (head rest : String) :
    indented levels (head ++ rest) = indented levels head ++ rest := by
  rw [indented, indented, String.append_assoc]

theorem not_prefix_indented (levels : Nat)
    (h : apart start (List.replicate (4 * levels) ' ') = true) :
    ¬ start <+: (indented levels rest).toList := by
  refine not_prefix_append ?_
  rwa [String.toList_ofList]

theorem not_prefix_of_isPrefixOf (h : start.isPrefixOf line.toList = false) :
    ¬ start <+: line.toList := by
  rw [← List.isPrefixOf_iff_prefix, h]
  decide

/-! ### Lines that do not depend on modules -/

/-- The directive for a generated header. -/
def headerDirective (header : String) : String :=
  "#include \"" ++ header ++ "\""

/-- The line that registers a class with a manager. -/
def registrationLine (manager factory : String) : String :=
  "    config." ++ manager ++ "().register_factory(std::make_shared<autogen::" ++ factory ++
    ">(config));"

/-- The line is neither the directive for a generated header nor a registration. -/
def Fixed (line : String) : Prop :=
  (∀ header, line ≠ headerDirective header) ∧
    ∀ manager factory, line ≠ registrationLine manager factory

theorem indented_registration (r : Registration) :
    indented 1 r.text = registrationLine r.manager r.factory := by
  have hstart : indented 1 "config." = "    config." := by decide +kernel
  rw [Registration.text, registrationLine]
  simp only [indented_append, hstart]

/-- How the lines of the two kinds start. -/
def starts : List (List Char) := ["#include \"".toList, "    config.".toList]

/-- A line that starts like neither kind is of neither kind. -/
theorem fixed_of_not_prefix (h : ∀ start ∈ starts, ¬ start <+: line.toList) : Fixed line := by
  simp only [starts, List.forall_mem_cons] at h
  constructor
  · rintro header rfl
    refine h.1 ?_
    rw [headerDirective, String.append_assoc]
    exact prefix_append _ _
  · rintro manager factory rfl
    refine h.2.1 ?_
    simp only [registrationLine, String.append_assoc]
    exact prefix_append _ _

theorem fixed_of_isPrefixOf
    (h : (starts.all fun start => !start.isPrefixOf line.toList) = true) : Fixed line := by
  refine fixed_of_not_prefix fun start hstart => not_prefix_of_isPrefixOf ?_
  simpa using List.all_eq_true.1 h start hstart

/-- A line that starts differently is fixed, whatever comes behind its start. -/
theorem fixed_append (h : (starts.all fun start => apart start head.toList) = true) :
    Fixed (head ++ rest) :=
  fixed_of_not_prefix fun start hstart => not_prefix_append (List.all_eq_true.1 h start hstart)

/-- An indented line is fixed if its start differs, indentation and all. -/
theorem fixed_indented_append {levels : Nat}
    (h : (starts.all fun start => apart start (indented levels head).toList) = true) :
    Fixed (indented levels (head ++ rest)) := by
  rw [indented_append]
  exact fixed_append h

theorem fixed_indented_two (line : String) : Fixed (indented 2 line) :=
  fixed_append (by decide +kernel)

/-- A registration ends with a closing parenthesis. -/
theorem fixed_unloading (space : String) : Fixed (indented 1 (space ++ "::loaded = false;")) := by
  constructor
  · intro header h
    have hhead := congrArg (fun line : String => line.toList.head?) h
    simp [indented, headerDirective] at hhead
  · intro manager factory h
    have hlast := congrArg (fun line : String => line.toList.reverse.take 2) h
    simp [indented, registrationLine] at hlast

namespace Loader

/-- The lines of a loader of no modules. -/
def frame (packaging : Packaging) : List String :=
  (Loader.mk [] [] packaging).lines

/-- **The frame of a loader.** None of its lines is of either kind, whatever the names of the loader
are. -/
theorem fixed_frame (packaging : Packaging) : ∀ line ∈ frame packaging, Fixed line := by
  cases packaging with
  | linked stem =>
    simp (disch := decide +kernel) only [frame, lines, linkedLines, frameworkHeaders,
      registrationLines, banner, systemIncludeLine, List.map_nil, List.map_cons, List.append_nil,
      List.nil_append, List.cons_append, List.forall_mem_cons, List.not_mem_nil, false_implies,
      implies_true, and_true, String.append_assoc, fixed_append, fixed_of_isPrefixOf]
  | loadable stem name version =>
    simp (disch := decide +kernel) only [frame, lines, loadableLines, frameworkHeaders,
      registrationLines, banner, systemIncludeLine, List.map_nil, List.map_cons, List.append_nil,
      List.nil_append, List.cons_append, List.forall_mem_cons, List.not_mem_nil, false_implies,
      implies_true, and_true, true_and, String.append_assoc, fixed_append, fixed_indented_append,
      fixed_indented_two, fixed_of_isPrefixOf]
    -- The line of the unloading starts with a name that is free text, so its end has to tell.
    rw [← String.append_assoc]
    exact fixed_unloading (stem ++ "_autogen")

/-- **The layout of a loader.** One directive for each header and one registration for each factory,
in their order, and nothing else of either kind. -/
theorem exists_layout (packaging : Packaging) :
    ∃ opening middle closing : List String,
      (∀ headers registrations, (Loader.mk headers registrations packaging).lines =
        opening ++ headers.map headerDirective ++ middle ++
          (registrations.map fun r => registrationLine r.manager r.factory) ++ closing) ∧
      ∀ line ∈ opening ++ middle ++ closing, Fixed line := by
  have hregistrations : ∀ registrations : List Registration,
      (registrations.map fun r => registrationLine r.manager r.factory) =
        registrations.map fun r => indented 1 r.text :=
    fun _ => List.map_congr_left fun r _ => (indented_registration r).symm
  simp only [hregistrations]
  -- The frame is cut where the headers stand, and again where the registrations do.
  -- Both packagings have the same blocks, at other places.
  obtain ⟨m, n, hlines⟩ : ∃ m n, ∀ headers registrations,
      (Loader.mk headers registrations packaging).lines =
        (frame packaging).take m ++ headers.map headerDirective ++
          ((frame packaging).drop m).take n ++
          (registrations.map fun r => indented 1 r.text) ++
          ((frame packaging).drop m).drop n := by
    have hdirective : headerDirective = includeLine := rfl
    rw [hdirective]
    cases packaging with
    | linked stem =>
      refine ⟨6, 3, fun headers registrations => ?_⟩
      simp [frame, lines, linkedLines, frameworkHeaders, registrationLines]
    | loadable stem name version =>
      refine ⟨7, 7, fun headers registrations => ?_⟩
      simp [frame, lines, loadableLines, frameworkHeaders, registrationLines]
  refine ⟨_, _, _, hlines, ?_⟩
  have hframe := hlines [] []
  rw [List.map_nil, List.map_nil, List.append_nil, List.append_nil] at hframe
  rw [← hframe]
  exact fixed_frame packaging

/-- Every registration is written on a line of its own. -/
theorem registrationLine_mem_lines {l : Loader} {r : Registration} (h : r ∈ l.registrations) :
    registrationLine r.manager r.factory ∈ l.lines := by
  obtain ⟨headers, registrations, packaging⟩ := l
  obtain ⟨opening, middle, closing, hlines, _⟩ := exists_layout packaging
  have hline := List.mem_map_of_mem (f := fun r => registrationLine r.manager r.factory) h
  rw [hlines]
  exact List.mem_append_left _ (List.mem_append_right _ hline)

theorem text_eq_join (l : Loader) : l.text = String.join (l.lines.map (· ++ "\n")) :=
  textOfLines_eq_join l.lines

end Loader

namespace Factory

theorem text_eq_join (f : Factory) : f.text = String.join (f.lines.map (· ++ "\n")) :=
  textOfLines_eq_join f.lines

/-- The line that declares a factory class. -/
def declaration (name base className : String) : String :=
  "class " ++ name ++ " : public " ++ (base ++ "<" ++ className ++ ">") ++ " \x7b"

theorem declaration_mem_lines (f : Factory) : declaration f.name f.base f.className ∈ f.lines := by
  simp [lines, declaration, baseClass]

/-- The lines in front of the declaration. -/
def opening (f : Factory) : List String :=
  [banner, "", systemIncludeLine f.frameworkHeader] ++ f.classHeaders.map includeLine ++
    ["", "namespace autogen \x7b", ""]

/-- The lines that start the constructor: its name, and what is handed to the base class. -/
def constructorHead (f : Factory) : List String :=
  [indented 1 (f.name ++ "(ConfigManager &config)"),
   indented 2 (": " ++ f.baseClass ++ "(" ++ ", ".intercalate ("config" :: f.arguments) ++ ")")]

/-- The lines behind the constructor. -/
def closing (f : Factory) : List String :=
  ["", indented 1 ("virtual ~" ++ f.name ++ "() \x7b\x7d")] ++ f.discover.elim [] discoverLines ++
    ["\x7d;", "", "\x7d /* namespace autogen */"]

/-- The lines of a factory header: up to its class, up to the body of the constructor, the body, and
what follows it. -/
theorem lines_eq (f : Factory) : f.lines =
    f.opening ++ declaration f.name f.base f.className :: "public:" :: (f.constructorHead ++
      indented 1 "\x7b" :: (f.constructorBody ++ indented 1 "\x7d" :: f.closing)) := by
  simp [lines, opening, closing, declaration, baseClass, constructorLines, constructorHead]

/-- Lines that stand in front of the declaration or behind the constructor of every header, or of
every header with a `discover` method. -/
def fixedLines : List String :=
  [banner, "", "namespace autogen \x7b", "\x7d;", "\x7d /* namespace autogen */",
    indented 1 "\x7d"] ++ (discoverLines "").take 6

/-- How the other lines start that stand there. -/
def heads : List String :=
  ["#include <", "#include \"", "    virtual ~"]

/-- The method `discover` has one line that depends on the module. -/
theorem eq_discoverLines (statement : String) : discoverLines statement =
    (discoverLines "").take 6 ++ [indented 2 (statement ++ ";"), indented 1 "\x7d"] :=
  rfl

/-- **Lines around the constructor.** What holds of the fixed lines and of the lines with the given
starts holds of all of them, if it does of the statement of `discover`, which is free text. -/
theorem forall_mem_around {f : Factory} {P : String → Prop} (hfixed : ∀ line ∈ fixedLines, P line)
    (hheads : ∀ head ∈ heads, ∀ rest, P (head ++ rest))
    (hdiscover : ∀ statement, f.discover = some statement → P (indented 2 (statement ++ ";"))) :
    ∀ line ∈ f.opening ++ f.closing, P line := by
  simp only [fixedLines, heads, List.forall_mem_append, List.forall_mem_cons] at hfixed hheads
  obtain ⟨⟨hbanner, hempty, hspace, hclass, hend, hbrace, -⟩, hmethod⟩ := hfixed
  obtain ⟨hsystem, hheader, hdestructor, -⟩ := hheads
  have hsystem : P (systemIncludeLine f.frameworkHeader) := by
    rw [systemIncludeLine, String.append_assoc]
    exact hsystem _
  have hheader : ∀ header ∈ f.classHeaders, P (includeLine header) := by
    intro header _
    rw [includeLine, String.append_assoc]
    exact hheader _
  have hdestructor : P (indented 1 ("virtual ~" ++ f.name ++ "() \x7b\x7d")) := by
    have hstart : indented 1 "virtual ~" = "    virtual ~" := by decide +kernel
    rw [indented_append, indented_append, hstart, String.append_assoc]
    exact hdestructor _
  have hmethod : ∀ line ∈ f.discover.elim [] discoverLines, P line := by
    cases hsome : f.discover with
    | none => exact List.forall_mem_nil _
    | some statement =>
      rw [Option.elim_some, eq_discoverLines, List.forall_mem_append, List.forall_mem_cons]
      exact ⟨hmethod, hdiscover statement hsome, List.forall_mem_singleton.2 hbrace⟩
  rw [List.forall_mem_append]
  constructor
  · simp only [opening, List.forall_mem_append, List.forall_mem_cons, List.forall_mem_map]
    exact ⟨⟨⟨hbanner, hempty, hsystem, List.forall_mem_nil _⟩, hheader⟩, hempty, hspace, hempty,
      List.forall_mem_nil _⟩
  · simp only [closing, List.forall_mem_append, List.forall_mem_cons]
    exact ⟨⟨⟨hempty, hdestructor, List.forall_mem_nil _⟩, hmethod⟩, hclass, hempty, hend,
      List.forall_mem_nil _⟩

/-- What no line around the constructor starts with, but for the statement of `discover`. -/
theorem eq_discover_of_prefix {f : Factory}
    (hfixed : (fixedLines.all fun line => !start.isPrefixOf line.toList) = true)
    (hheads : (heads.all fun head => apart start head.toList) = true) :
    ∀ line ∈ f.opening ++ f.closing, start <+: line.toList →
      ∃ statement, f.discover = some statement ∧ line = indented 2 (statement ++ ";") := by
  refine forall_mem_around (fun line hline hstart => ?_) (fun head hhead rest hstart => ?_)
    fun statement hsome _ => ⟨statement, hsome, rfl⟩
  · have hnone := List.all_eq_true.1 hfixed line hline
    rw [Bool.not_eq_true'] at hnone
    exact absurd hstart (not_prefix_of_isPrefixOf hnone)
  · exact absurd hstart (not_prefix_append (List.all_eq_true.1 hheads head hhead))

/-- How a declaration of a class starts. -/
def classStart : List Char := "class ".toList

/-- How a statement that adds a parameter starts. -/
def statementStart : List Char := "        add_param(".toList

/-- **One class.** No other line of a header starts like the declaration of its class. -/
theorem exists_class (f : Factory) : ∃ before after,
    f.lines = before ++ declaration f.name f.base f.className :: after ∧
      ∀ line ∈ before ++ after, ¬ classStart <+: line.toList := by
  have hone : ∀ rest, ¬ classStart <+: (indented 1 rest).toList :=
    fun _ => not_prefix_indented 1 (by decide)
  have htwo : ∀ rest, ¬ classStart <+: (indented 2 rest).toList :=
    fun _ => not_prefix_indented 2 (by decide)
  have haround : ∀ line ∈ f.opening ++ f.closing, ¬ classStart <+: line.toList := by
    intro line hline hstart
    obtain ⟨statement, _, rfl⟩ :=
      eq_discover_of_prefix (by decide +kernel) (by decide) line hline hstart
    exact htwo _ hstart
  rw [List.forall_mem_append] at haround
  have hbody : ∀ line ∈ f.constructorBody, ¬ classStart <+: line.toList := by
    rw [constructorBody, List.forall_mem_map]
    exact fun p _ => htwo p.text
  refine ⟨_, _, f.lines_eq, ?_⟩
  simp only [List.forall_mem_append, List.forall_mem_cons, constructorHead]
  exact ⟨haround.1, by decide, ⟨hone _, htwo _, List.forall_mem_nil _⟩, hone _, hbody, hone _,
    haround.2⟩

/-- **The constructor.** No line around it starts like a statement of its body, but for the
statement of `discover`, which is free text. -/
theorem exists_constructor (f : Factory) : ∃ before after,
    f.lines = before ++ f.constructorHead ++
      indented 1 "\x7b" :: (f.constructorBody ++ indented 1 "\x7d" :: after) ∧
      ∀ line ∈ before ++ after, statementStart <+: line.toList →
        ∃ statement, f.discover = some statement ∧ line = indented 2 (statement ++ ";") := by
  refine ⟨f.opening ++ [declaration f.name f.base f.className, "public:"], f.closing, ?_, ?_⟩
  · rw [lines_eq]
    simp
  · have haround : ∀ line ∈ f.opening ++ f.closing, statementStart <+: line.toList →
        ∃ statement, f.discover = some statement ∧ line = indented 2 (statement ++ ";") :=
      eq_discover_of_prefix (by decide +kernel) (by decide)
    rw [List.forall_mem_append] at haround
    have hclass : ¬ statementStart <+: (declaration f.name f.base f.className).toList := by
      simp only [declaration, String.append_assoc]
      exact not_prefix_append (by decide)
    simp only [List.forall_mem_append, List.forall_mem_cons]
    exact ⟨⟨haround.1, fun h => absurd h hclass, fun h => absurd h (by decide),
      List.forall_mem_nil _⟩, haround.2⟩

end Factory

end Foundry.Artifact
