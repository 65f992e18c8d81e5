import Foundry.Proofs.Artifact.Description
import Foundry.Proofs.Artifact.Layout
import Foundry.Proofs.Parameter.Printable

/-!
# Lines of a constructor

The constructor of a factory adds the parameters of its module one by one, each in a statement that
is meant to be a line. Names and string defaults are copied into it as they are, and may have line
feeds; descriptions have theirs escaped, and nothing else has any. So a statement is one line
exactly if the name has no line feed, nor a string of the default where the type is that of strings.

* `textLines_textOfLines_iff`: when lines are read back from their text.
* `mem_statement_iff`: what a statement is written with.
* `constructor_lines`: the lines of the constructor of every module that is read.
-/

namespace Foundry

open Artifact Parameter Yaml

variable {tree : FileTree} {registry : Registry} {path : Path} {document : Node} {m : Module}
  {p : Declaration} {c : Char}

/-! ### Lines of texts -/

/-- The lines of a text, each with a line feed behind it. -/
def Artifact.textLines (text : String) : List (List Char) :=
  (text.toList.splitOn '\n').dropLast

theorem not_mem_of_mem_splitOn {cs line : List Char} (h : line ∈ cs.splitOn c) : c ∉ line := by
  induction cs generalizing line with
  | nil =>
    obtain rfl : line = [] := List.mem_singleton.1 h
    exact List.not_mem_nil
  | cons d cs ih =>
    rw [List.splitOn_eq_splitOnP, List.splitOnP_cons_eq_if_modifyHead,
      ← List.splitOn_eq_splitOnP] at h
    split_ifs at h with hd
    · rcases List.mem_cons.1 h with rfl | h
      · exact List.not_mem_nil
      · exact ih h
    · -- The character goes to the first line of the rest.
      have hne : c ≠ d := fun heq => hd (by rw [heq]; exact beq_self_eq_true d)
      obtain ⟨first, rest, hlines⟩ := List.exists_cons_of_ne_nil (List.splitOn_ne_nil c cs)
      rw [hlines, List.modifyHead_cons, List.mem_cons] at h
      rw [hlines] at ih
      rcases h with rfl | h
      · rw [List.mem_cons, not_or]
        exact ⟨hne, ih List.mem_cons_self⟩
      · exact ih (List.mem_cons_of_mem first h)

/-- The text of lines has a line feed between them and one at the end. -/
theorem toList_textOfLines (lines : List String) :
    (textOfLines lines).toList = ['\n'].intercalate (lines.map String.toList ++ [[]]) := by
  induction lines with
  | nil => rfl
  | cons line lines ih =>
    have htext : textOfLines (line :: lines) = line ++ "\n" ++ textOfLines lines := rfl
    rw [htext, String.toList_append, String.toList_append, ih]
    cases lines with
    | nil => simp
    | cons next lines => simp

/-- **Lines of a text.** They are those that it was written with exactly if these have no line
feeds. -/
theorem textLines_textOfLines_iff (lines : List String) :
    textLines (textOfLines lines) = lines.map String.toList ↔
      ∀ line ∈ lines, '\n' ∉ line.toList := by
  constructor
  · intro h line hline
    have hmem : line.toList ∈ textLines (textOfLines lines) := by
      rw [h]
      exact List.mem_map_of_mem hline
    exact not_mem_of_mem_splitOn (List.dropLast_subset _ hmem)
  · intro h
    have hlines : ∀ cs ∈ lines.map String.toList ++ [[]], '\n' ∉ cs := by
      rw [List.forall_mem_append, List.forall_mem_map, List.forall_mem_singleton]
      exact ⟨h, List.not_mem_nil⟩
    rw [textLines, toList_textOfLines, List.splitOn_intercalate '\n' hlines (by simp),
      List.dropLast_concat]

/-! ### Statements -/

/-- The statement that adds a parameter. -/
def Declaration.statement (p : Declaration) : String :=
  (ParameterStatement.ofDeclaration p).text

/-- Type names of strings, and of vectors around them. -/
def OfStrings (typeName : String) : Prop :=
  ∃ T : DeclaredType, Derives T typeName.toList ∧ T.base = .string

/-- Four texts and printable characters make up a statement. -/
theorem mem_statement_iff (hc : ¬ Printable c) :
    c ∈ p.statement.toList ↔ c ∈ p.name.toList ∨ c ∈ p.ccType.toList ∨
      c ∈ p.description.toList ∨ c ∈ p.default.toList := by
  have hplain : ∀ s : String, s.toList.all (fun c => decide (Printable c)) = true →
      c ∉ s.toList := fun s hs h => hc (printable_of_mem hs h)
  have htail : c ∉ (if p.advanced then "true" else "false").toList := by
    split_ifs
    · exact hplain _ (by decide)
    · exact hplain _ (by decide)
  unfold Declaration.statement ParameterStatement.text ParameterStatement.ofDeclaration
  simp only [String.toList_append, List.mem_append, htail, hplain "add_param(\"" (by decide),
    hplain "\", Parameter<" (by decide), hplain ">(\"" (by decide), hplain "\", " (by decide),
    hplain ", " (by decide), hplain "));" (by decide), or_false, false_or, or_assoc]

theorem mem_indented_iff (hc : ¬ Printable c) (levels : Nat) (line : String) :
    c ∈ (indented levels line).toList ↔ c ∈ line.toList := by
  have hblank : c ∉ List.replicate (4 * levels) ' ' := by
    intro h
    rw [List.eq_of_mem_replicate h] at hc
    exact hc (by decide)
  rw [indented, String.toList_append, String.toList_ofList, List.mem_append, or_iff_right hblank]

/-- No line feed is left in an escaped text. -/
theorem lineFeed_not_mem_escapeBreaks (s : String) : '\n' ∉ (escapeBreaks s).toList := by
  rw [Literal.toList_escapeBreaks, Literal.lineEscaped, List.mem_flatMap]
  rintro ⟨c, _, h⟩
  split_ifs at h with hc
  · exact absurd h (by decide)
  · exact hc (List.mem_singleton.1 h).symm

/-! ### Modules -/

/-- A parameter of a module was read from an entry of the document. -/
theorem exists_ofEntry_of_mem (h : Module.ofDocument registry path document = .ok m)
    (hp : p ∈ m.parameters) :
    ∃ name entry, Declaration.ofEntry registry path name entry = .ok p := by
  obtain ⟨fields, _, _, hparameters, _⟩ := ofDocument_eq_ok h
  rcases Attributes.declarations_cases hparameters with ⟨_, hnil⟩ | ⟨es, hes, _⟩
  · rw [hnil] at hp
    exact absurd hp List.not_mem_nil
  · rw [Attributes.declarations_of_map hes, mapM_eq_ok_iff] at hparameters
    obtain ⟨e, _, hread⟩ := exists_of_forall₂ hparameters.flip hp
    change Attributes.declaration _ registry e = .ok p at hread
    unfold Attributes.declaration at hread
    split at hread
    · exact ⟨_, _, hread⟩
    · cases hread

/-- What a parameter that was read brings into its statement. -/
structure Brings (registry : Registry) (p : Declaration) : Prop where
  statement (c : Char) (hc : ¬ Printable c) : c ∈ p.statement.toList ↔ c ∈ p.name.toList ∨
    c ∈ p.ccType.toList ∨ c ∈ p.description.toList ∨ c ∈ p.default.toList
  description : '\n' ∉ p.description.toList
  ccType (hregistry : registry = .builtin) (c : Char) (hc : c ∈ p.ccType.toList) : Printable c
  default (hregistry : registry = .builtin) (c : Char) (hc : ¬ Printable c) :
    c ∈ p.default.toList ↔ OfStrings p.typeName ∧ p.rawDefault.Contains c

theorem brings_of_ofEntry {name : String} {entry : Node}
    (h : Declaration.ofEntry registry path name entry = .ok p) : Brings registry p := by
  obtain ⟨fields, typeName, description, converter, default, advanced, _, _, _, hlookup, hconvert,
    rfl⟩ := Declaration.ofEntry_eq_ok h
  refine ⟨fun c hc => mem_statement_iff hc, lineFeed_not_mem_escapeBreaks description, ?_, ?_⟩
  · rintro rfl c hc
    obtain ⟨T, _, rfl⟩ := lookup_eq_ok_iff.1 hlookup
    dsimp only at hc
    rw [T.ccType_converter] at hc
    exact printable_ccType hc
  · rintro rfl c hc
    constructor
    · intro hmem
      obtain ⟨T, hT, rfl⟩ := lookup_eq_ok_iff.1 hlookup
      obtain ⟨hbase, hcontains⟩ := (mem_literal_iff hc hconvert).1 hmem
      exact ⟨⟨T, hT, hbase⟩, hcontains⟩
    · rintro ⟨⟨T, hT, hbase⟩, hcontains⟩
      -- The name is that of one type only.
      have hsame := lookup_eq_ok_iff.2 ⟨T, hT, rfl⟩
      rw [hlookup, Except.ok.injEq] at hsame
      rw [hsame] at hconvert
      exact (mem_literal_iff hc hconvert).2 ⟨hbase, hcontains⟩

/-- The registry of scalars writes the line feeds of strings, and no others. -/
theorem Brings.lineFeed_iff (h : Brings .builtin p) : '\n' ∈ p.statement.toList ↔
    '\n' ∈ p.name.toList ∨ OfStrings p.typeName ∧ p.rawDefault.Contains '\n' := by
  have hbreak : ¬ Printable '\n' := by decide
  have htype : '\n' ∉ p.ccType.toList := fun hmem => hbreak (h.ccType rfl _ hmem)
  rw [h.statement _ hbreak, or_iff_right htype, or_iff_right h.description, h.default rfl _ hbreak]

/-- **The constructor of a module.** In the header that is written for the module, its body has one
statement for each parameter, in their order, and no line around the constructor starts like such a
statement but that of `discover`, which is copied. The statements are the lines of its text exactly
if none has a line feed. A line feed of a statement is one of the parameter's name, of its type in
C++ or of its default, never of its description; with the registry of scalars, it is one of the
name, or one of a string in the default and the type is that of strings. -/
theorem constructor_lines (h : Module.load tree registry path = .ok m) :
    (∃ opening closing, (Factory.ofModule m).lines =
        opening ++ (Factory.ofModule m).constructorHead ++ indented 1 "\x7b" ::
          ((m.parameters.map fun p => indented 2 p.statement) ++ indented 1 "\x7d" :: closing) ∧
      (Factory.ofModule m).text = String.join ((Factory.ofModule m).lines.map (· ++ "\n")) ∧
      ∀ line ∈ opening ++ closing, Factory.statementStart <+: line.toList →
        ∃ statement, m.discover = some statement ∧ line = indented 2 (statement ++ ";")) ∧
    (textLines (textOfLines (m.parameters.map fun p => indented 2 p.statement)) =
        (m.parameters.map fun p => (indented 2 p.statement).toList) ↔
      ∀ p ∈ m.parameters, '\n' ∉ p.statement.toList) ∧
    (∀ p ∈ m.parameters, Brings registry p) ∧
    (registry = .builtin → ∀ p ∈ m.parameters, ('\n' ∈ p.statement.toList ↔
      '\n' ∈ p.name.toList ∨ OfStrings p.typeName ∧ p.rawDefault.Contains '\n')) := by
  obtain ⟨document, _, hread⟩ := bind_eq_ok_iff.1 h
  have hbrings : ∀ p ∈ m.parameters, Brings registry p := by
    intro p hp
    obtain ⟨_, _, hentry⟩ := exists_ofEntry_of_mem hread hp
    exact brings_of_ofEntry hentry
  refine ⟨?_, ?_, hbrings, ?_⟩
  · have hbody : (Factory.ofModule m).constructorBody =
        m.parameters.map fun p => indented 2 p.statement := by
      rw [Factory.constructorBody, Factory.ofModule, List.map_map]
      rfl
    rw [← hbody]
    obtain ⟨opening, closing, hlines, hstatement⟩ := (Factory.ofModule m).exists_constructor
    exact ⟨opening, closing, hlines, Factory.text_eq_join _, hstatement⟩
  · have hlines := textLines_textOfLines_iff (m.parameters.map fun p => indented 2 p.statement)
    rw [List.map_map, List.forall_mem_map] at hlines
    simp only [mem_indented_iff (by decide : ¬ Printable '\n')] at hlines
    exact hlines
  · rintro rfl p hp
    exact (hbrings p hp).lineFeed_iff

/-- A plugin with a parameter whose name is on two lines, and so is the string of its default. -/
def twoLines : FileTree :=
  ⟨[(["w"], .directory),
    (["w", "a.yml"],
      .file ("plugin: \x7btype: p, description: d, class: C, include: c, parameters: " ++
        "\x7b\"y\\nz\": \x7btype: string, default: \"a\\nb\", description: X\x7d\x7d\x7d").toUTF8)],
    ["w"]⟩

/-- The plugin is read, with the parameter behind the generic ones. -/
theorem exists_load_twoLines : ∃ m, Module.load twoLines .builtin ⟨"a.yml"⟩ = .ok m ∧
    ∃ p ∈ m.parameters, p.name = "y\nz" ∧ p.default = "\"a\nb\"" ∧
      p.statement = "add_param(\"y\nz\", Parameter<std::string>(\"X\", \"a\nb\", false));" := by
  have hload : (Module.load twoLines .builtin ⟨"a.yml"⟩).map (fun m =>
      (m.parameters.drop 5).map fun p => (p.name, p.ccType, p.description, p.default, p.advanced)) =
        .ok [("y\nz", "std::string", "X", "\"a\nb\"", false)] := by
    decide +kernel
  obtain ⟨m, hm, hparameters⟩ := map_eq_ok_iff.1 hload
  obtain ⟨p, hp, hfields⟩ : ∃ p ∈ m.parameters.drop 5,
      (p.name, p.ccType, p.description, p.default, p.advanced) =
        ("y\nz", "std::string", "X", "\"a\nb\"", false) := by
    rw [← List.mem_map, hparameters]
    exact List.mem_cons_self
  simp only [Prod.mk.injEq] at hfields
  obtain ⟨hname, htype, hdescription, hdefault, hadvanced⟩ := hfields
  refine ⟨m, hm, p, List.mem_of_mem_drop hp, hname, hdefault, ?_⟩
  unfold Declaration.statement ParameterStatement.text ParameterStatement.ofDeclaration
  rw [hname, htype, hdescription, hdefault, hadvanced]
  decide

/-- Both texts are copied into the statement, which is on three lines, so the lines of the
constructor are no statements. -/
theorem exists_broken_statement : ∃ m, Module.load twoLines .builtin ⟨"a.yml"⟩ = .ok m ∧
    (∃ p ∈ m.parameters,
      p.statement = "add_param(\"y\nz\", Parameter<std::string>(\"X\", \"a\nb\", false));" ∧
        '\n' ∈ p.statement.toList) ∧
    textLines (textOfLines (m.parameters.map fun p => indented 2 p.statement)) ≠
      m.parameters.map fun p => (indented 2 p.statement).toList := by
  obtain ⟨m, hm, p, hp, _, _, hstatement⟩ := exists_load_twoLines
  have hbreak : '\n' ∈ p.statement.toList := by
    rw [hstatement]
    decide
  refine ⟨m, hm, ⟨p, hp, hstatement, hbreak⟩, fun hlines => ?_⟩
  have hread := textLines_textOfLines_iff (m.parameters.map fun p => indented 2 p.statement)
  rw [List.map_map] at hread
  have hnone := hread.1 hlines _ (List.mem_map_of_mem hp)
  exact hnone ((mem_indented_iff (by decide) 2 _).2 hbreak)

/-- The line feed of the default is told from the type and the value alone. -/
theorem constructor_lines_twoLines : ∃ m, Module.load twoLines .builtin ⟨"a.yml"⟩ = .ok m ∧
    textLines (textOfLines (m.parameters.map fun p => indented 2 p.statement)) ≠
      (m.parameters.map fun p => (indented 2 p.statement).toList) ∧
    ∃ p ∈ m.parameters, p.name = "y\nz" ∧ OfStrings p.typeName ∧ p.rawDefault.Contains '\n' := by
  obtain ⟨m, hm, p, hp, hname, hdefault, _⟩ := exists_load_twoLines
  obtain ⟨_, hlines, hbrings, hbuiltin⟩ := constructor_lines hm
  have hbreak : '\n' ∈ p.statement.toList := by
    rw [hbuiltin rfl p hp, hname]
    exact Or.inl (by decide)
  have hvalue : '\n' ∈ p.default.toList := by
    rw [hdefault]
    decide
  exact ⟨m, hm, fun h => hlines.1 h p hp hbreak, p, hp, hname,
    ((hbrings p hp).default rfl _ (by decide)).1 hvalue⟩

end Foundry
