import Foundry.Proofs.Artifact.StringLiteral
import Foundry.Proofs.Module.Schema

/-!
# Descriptions as literals

A description is put between quotes once its line feeds are written as `\n`. Read as C++, the
literal denotes the description exactly if the description has no quote, no backslash and no
carriage return. With a quote the literal ends too early, and with a carriage return it is broken
off. A backslash takes the next character with it, so that fewer bytes are left to denote than the
description has: `readBody_escape_lineEscaped` is the step, `length_le_of_readBody` the bound on
all that follows.

* `Foundry.description_of_ofDocument`, `Foundry.description_of_ofEntry`: which text becomes the
  literal.
* `readBody_lineEscaped_iff`: when the literal denotes the description.
* `exists_same_literal_iff`: which literals two descriptions share.
* `descriptions_denoted_iff`: all of it together.
-/

namespace Foundry

open Artifact Parameter Yaml

/-! ### Descriptions in descriptors -/

/-- The description of a module is an attribute of its kind's mapping, with the line feeds
escaped. -/
theorem description_of_ofDocument {registry : Registry} {path : Path} {document : Node} {m : Module}
    (h : Module.ofDocument registry path document = .ok m) :
    ∃ fields d, classify path document = .ok (m.role.kind, fields) ∧
      (fields.field? "description").bind Node.text? = some d ∧ m.description = escapeBreaks d := by
  obtain ⟨fields, d, hclassify, _, hd, hdescription⟩ := ofDocument_eq_ok h
  exact ⟨fields, d, hclassify, Attributes.text_eq_ok_iff.1 hd, hdescription⟩

/-- The description of a parameter is an attribute of its mapping, with the line feeds escaped. -/
theorem description_of_ofEntry {registry : Registry} {path : Path} {name : String} {entry : Node}
    {p : Declaration} (h : Declaration.ofEntry registry path name entry = .ok p) :
    ∃ fields d, entry.entries? = some fields ∧
      (fields.field? "description").bind Node.text? = some d ∧ p.description = escapeBreaks d := by
  obtain ⟨fields, _, d, _, _, _, hfields, _, hd, _, _, rfl⟩ := Declaration.ofEntry_eq_ok h
  exact ⟨fields, d, hfields, Attributes.text_eq_ok_iff.1 hd, rfl⟩

namespace Artifact.Literal

variable {c : Char} {cs ds used rest r : List Char} {out : List UInt8}

/-! ### Escaped line feeds -/

/-- A text with its line feeds escaped. -/
def lineEscaped (cs : List Char) : List Char :=
  cs.flatMap fun c => if c = '\n' then ['\\', 'n'] else [c]

theorem toList_escapeBreaks (s : String) : (escapeBreaks s).toList = lineEscaped s.toList := by
  rw [escapeBreaks, String.toList_ofList, lineEscaped]

theorem lineEscaped_lineFeed (cs : List Char) :
    lineEscaped ('\n' :: cs) = '\\' :: 'n' :: lineEscaped cs := rfl

theorem lineEscaped_cons (h : c ≠ '\n') (cs : List Char) :
    lineEscaped (c :: cs) = c :: lineEscaped cs := by
  rw [lineEscaped, List.flatMap_cons, if_neg h]
  rfl

theorem lineEscaped_append (cs ds : List Char) :
    lineEscaped (cs ++ ds) = lineEscaped cs ++ lineEscaped ds :=
  List.flatMap_append

/-- Characters that are neither quotes nor backslashes come from the description itself. -/
theorem exists_of_append_eq_lineEscaped (hplain : ∀ c ∈ used, ¬ Special c)
    (h : used ++ r = lineEscaped ds ++ '"' :: rest) :
    ∃ ds', ds = used ++ ds' ∧ r = lineEscaped ds' ++ '"' :: rest := by
  induction used generalizing ds with
  | nil => exact ⟨ds, rfl, h⟩
  | cons u used ih =>
    obtain ⟨hu, hplain⟩ := List.forall_mem_cons.1 hplain
    cases ds with
    | nil =>
      obtain ⟨rfl, _⟩ := List.cons.inj h
      exact absurd (Or.inr rfl) hu
    | cons d ds =>
      by_cases hd : d = '\n'
      · rw [hd, lineEscaped_lineFeed] at h
        obtain ⟨rfl, _⟩ := List.cons.inj h
        exact absurd (Or.inl rfl) hu
      · rw [lineEscaped_cons hd, List.cons_append, List.cons_append] at h
        obtain ⟨rfl, htail⟩ := List.cons.inj h
        obtain ⟨ds', rfl, hr⟩ := ih hplain htail
        exact ⟨ds', rfl, hr⟩

/-! ### Reading them -/

theorem readBody_lineFeed (cs : List Char) :
    readBody ('\\' :: 'n' :: cs) =
      (readBody cs).map fun r => (String.utf8EncodeChar '\n' ++ r.1, r.2) :=
  readBody_escape rfl

/-- What a backslash in a description does to its literal, if the literal still ends where it
should: it takes the escape of a line feed apart, or it takes some characters of the description
away, and denotes no more bytes than it takes. -/
theorem readBody_escape_lineEscaped
    (h : readBody ('\\' :: (lineEscaped ds ++ '"' :: rest)) = some (out, rest)) :
    ∃ first more ds', out = first ++ more ∧
      readBody (lineEscaped ds' ++ '"' :: rest) = some (more, rest) ∧
      ((∃ ds'', ds = '\n' :: ds'' ∧ ds' = 'n' :: ds'' ∧ first = bytes ['\\']) ∨
        ∃ used, ds = used ++ ds' ∧ used ≠ [] ∧ first.length ≤ used.length) := by
  obtain ⟨first, behind, ⟨more, rest'⟩, hread, hmore, hout⟩ := readBody_escape_eq_some h
  obtain ⟨rfl, rfl⟩ := Prod.mk.inj hout
  obtain ⟨used, htaken⟩ := taken_of_readEscape hread
  rcases htaken.plain with ⟨u, rfl⟩ | hplain
  · cases ds with
    | nil =>
      -- The closing quote is taken away, and the literal cannot end where it should.
      obtain ⟨rfl, rfl⟩ := List.cons.inj htaken.append
      exact absurd (length_lt_of_readBody hmore) (Nat.lt_irrefl _)
    | cons d ds =>
      by_cases hd : d = '\n'
      · subst hd
        obtain ⟨rfl, rfl⟩ := List.cons.inj htaken.append
        obtain ⟨rfl, _⟩ := Prod.mk.inj (Option.some.inj hread)
        exact ⟨_, more, 'n' :: ds, rfl, hmore, Or.inl ⟨ds, rfl, rfl, rfl⟩⟩
      · have happend := htaken.append
        rw [lineEscaped_cons hd] at happend
        obtain ⟨rfl, rfl⟩ := List.cons.inj happend
        exact ⟨first, more, ds, rfl, hmore,
          Or.inr ⟨[d], rfl, htaken.ne_nil, htaken.length_le⟩⟩
  · obtain ⟨ds', rfl, rfl⟩ := exists_of_append_eq_lineEscaped hplain htaken.append.symm
    exact ⟨first, more, ds', rfl, hmore, Or.inr ⟨used, rfl, htaken.ne_nil, htaken.length_le⟩⟩

/-- A quote in a description ends its literal before it should end. -/
theorem readBody_quote_ne (cs rest : List Char) :
    readBody ('"' :: (cs ++ '"' :: rest)) ≠ some (out, rest) := by
  intro h
  rw [readBody_quote] at h
  obtain ⟨_, hrest⟩ := Prod.mk.inj (Option.some.inj h)
  have hlength := congrArg List.length hrest
  rw [List.length_append, List.length_cons] at hlength
  omega

/-- A character that a literal does not show as it is: a quote, a backslash or a carriage return. -/
def Unsafe (c : Char) : Prop :=
  Special c ∨ c = '\r'

/-- A description whose literal ends where it should starts with a character that its literal shows,
or with a backslash. -/
theorem readBody_lineEscaped_cons
    (h : readBody (lineEscaped (c :: ds) ++ '"' :: rest) = some (out, rest)) :
    (¬ Unsafe c ∧ ∃ more, readBody (lineEscaped ds ++ '"' :: rest) = some (more, rest) ∧
      out = String.utf8EncodeChar c ++ more) ∨
    (c = '\\' ∧ readBody ('\\' :: (lineEscaped ds ++ '"' :: rest)) = some (out, rest)) := by
  by_cases hfeed : c = '\n'
  · subst hfeed
    rw [lineEscaped_lineFeed, List.cons_append, List.cons_append, readBody_lineFeed] at h
    obtain ⟨⟨more, _⟩, hmore, hout⟩ := Option.map_eq_some_iff.1 h
    obtain ⟨rfl, rfl⟩ := Prod.mk.inj hout
    -- A line feed is shown: it is written as an escape sequence that denotes it.
    refine Or.inl ⟨?_, more, hmore, rfl⟩
    rintro ((h | h) | h) <;> exact absurd h (by decide)
  rw [lineEscaped_cons hfeed, List.cons_append] at h
  by_cases hescape : c = '\\'
  · subst hescape
    exact Or.inr ⟨rfl, h⟩
  by_cases hquote : c = '"'
  · subst hquote
    exact absurd h (readBody_quote_ne _ rest)
  by_cases hline : c = '\n' ∨ c = '\r'
  · rw [readBody_lineEnd hline] at h
    cases h
  · have hspecial : ¬ Special c := by rintro (h | h) <;> contradiction
    rw [readBody_plain hspecial hline] at h
    obtain ⟨⟨more, _⟩, hmore, hout⟩ := Option.map_eq_some_iff.1 h
    obtain ⟨rfl, rfl⟩ := Prod.mk.inj hout
    refine Or.inl ⟨?_, more, hmore, rfl⟩
    rintro (h | h)
    · exact hspecial h
    · exact hline (Or.inr h)

/-- A literal that ends where it should denotes no more bytes than its description has. -/
theorem length_le_of_readBody (h : readBody (lineEscaped ds ++ '"' :: rest) = some (out, rest)) :
    out.length ≤ (bytes ds).length := by
  induction hn : ds.length using Nat.strongRecOn generalizing ds out with
  | ind n ih =>
    subst hn
    cases ds with
    | nil =>
      have hquote := readBody_quote rest
      obtain ⟨rfl, _⟩ := Prod.mk.inj (Option.some.inj (h.symm.trans hquote))
      exact Nat.le_refl 0
    | cons d ds =>
      have hlt : ds.length < (d :: ds).length := Nat.lt_succ_self _
      rcases readBody_lineEscaped_cons h with ⟨_, more, hmore, rfl⟩ | ⟨rfl, hescape⟩
      · have hle := ih _ hlt hmore rfl
        rw [bytes_cons, List.length_append, List.length_append]
        exact Nat.add_le_add_left hle _
      · rw [bytes_cons, List.length_append]
        obtain ⟨first, more, ds', rfl, hmore, hds | hds⟩ := readBody_escape_lineEscaped hescape
        · obtain ⟨ds'', rfl, rfl, rfl⟩ := hds
          have hle := ih _ hlt hmore rfl
          simp only [bytes_cons, List.length_append] at hle ⊢
          exact Nat.add_le_add_left hle _
        · obtain ⟨used, rfl, hne, hfirst⟩ := hds
          have hused := length_le_length_bytes used
          have hpos := List.length_pos_iff.2 hne
          have hshorter : ds'.length < ('\\' :: (used ++ ds')).length := by
            rw [List.length_cons, List.length_append]
            omega
          have hle := ih _ hshorter hmore rfl
          rw [bytes_append]
          simp only [List.length_append]
          omega

/-- A backslash in a description is not denoted: it goes with what it takes. -/
theorem readBody_escape_ne_bytes (ds rest : List Char) :
    readBody ('\\' :: (lineEscaped ds ++ '"' :: rest)) ≠ some (bytes ('\\' :: ds), rest) := by
  intro h
  obtain ⟨first, more, ds', hbytes, hmore, hds | hds⟩ := readBody_escape_lineEscaped h
  · -- The backslash denotes itself, and what was a line feed has become the letter `n`.
    obtain ⟨ds'', rfl, rfl, rfl⟩ := hds
    rw [lineEscaped_cons (by decide), List.cons_append,
      readBody_plain (by decide) (by decide)] at hmore
    obtain ⟨⟨_, _⟩, _, hout⟩ := Option.map_eq_some_iff.1 hmore
    obtain ⟨rfl, _⟩ := Prod.mk.inj hout
    have hletter := (List.cons.inj (List.cons.inj hbytes).2).1
    exact absurd hletter (by decide)
  · -- What is denoted is too short by the byte of the backslash.
    obtain ⟨used, rfl, hne, hfirst⟩ := hds
    have hused := length_le_length_bytes used
    have hle := length_le_of_readBody hmore
    have hlength := congrArg List.length hbytes
    have hbackslash : (String.utf8EncodeChar '\\').length = 1 := rfl
    rw [bytes_cons, bytes_append] at hlength
    simp only [List.length_append, hbackslash] at hlength
    omega

/-- Without quotes, backslashes and carriage returns, a description is read back. -/
theorem readBody_of_safe (h : ∀ c ∈ ds, ¬ Unsafe c) (rest : List Char) :
    readBody (lineEscaped ds ++ '"' :: rest) = some (bytes ds, rest) := by
  induction ds with
  | nil => exact readBody_quote rest
  | cons d ds ih =>
    obtain ⟨hd, hds⟩ := List.forall_mem_cons.1 h
    by_cases hfeed : d = '\n'
    · rw [hfeed, lineEscaped_lineFeed, List.cons_append, List.cons_append, readBody_lineFeed,
        ih hds, bytes_cons]
      rfl
    · have hline : ¬ (d = '\n' ∨ d = '\r') := by
        rintro (hline | hline)
        · exact hfeed hline
        · exact hd (Or.inr hline)
      rw [lineEscaped_cons hfeed, List.cons_append,
        readBody_plain (fun hspecial => hd (Or.inl hspecial)) hline, ih hds, bytes_cons]
      rfl

/-- A description that is read back has none of these. -/
theorem safe_of_readBody (h : readBody (lineEscaped ds ++ '"' :: rest) = some (bytes ds, rest)) :
    ∀ c ∈ ds, ¬ Unsafe c := by
  induction ds with
  | nil => exact List.forall_mem_nil _
  | cons d ds ih =>
    rcases readBody_lineEscaped_cons h with ⟨hd, more, hmore, hbytes⟩ | ⟨rfl, hescape⟩
    · obtain rfl := List.append_cancel_left hbytes
      exact List.forall_mem_cons.2 ⟨hd, ih hmore⟩
    · exact absurd hescape (readBody_escape_ne_bytes ds rest)

/-- **What a literal denotes.** -/
theorem readBody_lineEscaped_iff (ds rest : List Char) :
    readBody (lineEscaped ds ++ '"' :: rest) = some (bytes ds, rest) ↔ ∀ c ∈ ds, ¬ Unsafe c :=
  ⟨safe_of_readBody, fun h => readBody_of_safe h rest⟩

/-! ### Shared literals -/

/-- The two characters that a line feed is written as. -/
def escapedLineFeed : List Char := ['\\', 'n']

theorem lineEscaped_of_not_mem (h : '\n' ∉ cs) : lineEscaped cs = cs := by
  induction cs with
  | nil => rfl
  | cons c cs ih =>
    rw [List.mem_cons, not_or] at h
    rw [lineEscaped_cons (Ne.symm h.1), ih h.2]

/-- A line feed is written as an escaped one. -/
theorem escapedLineFeed_infix_of_mem (h : '\n' ∈ cs) : escapedLineFeed <:+: lineEscaped cs := by
  obtain ⟨before, after, rfl⟩ := List.append_of_mem h
  refine ⟨lineEscaped before, lineEscaped after, ?_⟩
  rw [lineEscaped_append, lineEscaped_lineFeed, List.append_assoc]
  rfl

/-- A line feed and the two characters that it is written as give the same literal. -/
theorem lineEscaped_lineFeed_eq (before after : List Char) :
    lineEscaped (before ++ '\n' :: after) = lineEscaped (before ++ (escapedLineFeed ++ after)) := by
  rw [lineEscaped_append, lineEscaped_append, lineEscaped_lineFeed, lineEscaped_append]
  rfl

/-- **Which literals are shared.** Another text gives the same literal exactly if there is a line
feed in the text, or the two characters that one is written as. -/
theorem exists_same_literal_iff (cs : List Char) :
    (∃ ds, ds ≠ cs ∧ lineEscaped ds = lineEscaped cs) ↔
      '\n' ∈ cs ∨ escapedLineFeed <:+: cs := by
  constructor
  · rintro ⟨ds, hne, hsame⟩
    by_cases hcs : '\n' ∈ cs
    · exact Or.inl hcs
    · rw [lineEscaped_of_not_mem hcs] at hsame
      by_cases hds : '\n' ∈ ds
      · exact Or.inr (hsame ▸ escapedLineFeed_infix_of_mem hds)
      · rw [lineEscaped_of_not_mem hds] at hsame
        exact absurd hsame hne
  · have hlength (before after : List Char) :
        before ++ '\n' :: after ≠ before ++ (escapedLineFeed ++ after) := by
      intro h
      have hlength := congrArg List.length h
      simp [escapedLineFeed] at hlength
    rintro (hmem | ⟨before, after, rfl⟩)
    · obtain ⟨before, after, rfl⟩ := List.append_of_mem hmem
      exact ⟨_, (hlength before after).symm, (lineEscaped_lineFeed_eq before after).symm⟩
    · rw [List.append_assoc]
      exact ⟨_, hlength before after, lineEscaped_lineFeed_eq before after⟩

end Artifact.Literal

open Artifact.Literal

/-! ### Literals of descriptions -/

theorem toList_quoted (s : String) (rest : List Char) :
    (quoted s).toList ++ rest = '"' :: (s.toList ++ '"' :: rest) := by
  simp [quoted]

theorem quoted_injective {s t : String} (h : quoted s = quoted t) : s = t := by
  rw [← String.toList_inj] at h ⊢
  simpa [quoted] using h

/-- A literal denotes its description exactly if this has no unsafe character. -/
theorem readLiteral_description_iff (d : String) (rest : List Char) :
    readLiteral ((quoted (escapeBreaks d)).toList ++ rest) = some (bytes d.toList, rest) ↔
      ∀ c ∈ d.toList, ¬ Unsafe c := by
  rw [toList_quoted, readLiteral, toList_escapeBreaks, readBody_lineEscaped_iff]

/-- A literal is shared exactly if the description has a line feed, or what is written for one. -/
theorem exists_same_description_iff (d : String) :
    (∃ other, other ≠ d ∧ quoted (escapeBreaks other) = quoted (escapeBreaks d)) ↔
      '\n' ∈ d.toList ∨ escapedLineFeed <:+: d.toList := by
  rw [← exists_same_literal_iff]
  constructor
  · rintro ⟨other, hne, hsame⟩
    have htext := congrArg String.toList (quoted_injective hsame)
    rw [toList_escapeBreaks, toList_escapeBreaks] at htext
    exact ⟨other.toList, fun h => hne (String.toList_inj.1 h), htext⟩
  · rintro ⟨ds, hne, hsame⟩
    refine ⟨String.ofList ds, fun h => hne ?_, congrArg quoted ?_⟩
    · rw [← h, String.toList_ofList]
    · rw [← String.toList_inj, toList_escapeBreaks, toList_escapeBreaks, String.toList_ofList,
        hsame]

/-- The statement that adds a parameter has its description as a literal. -/
theorem exists_text_eq (s : ParameterStatement) :
    ∃ before after, s.text = before ++ quoted s.description ++ after := by
  refine ⟨"add_param(\"" ++ s.name ++ "\", Parameter<" ++ s.ccType ++ ">(",
    ", " ++ s.default ++ ", " ++ (if s.advanced then "true" else "false") ++ "));", ?_⟩
  have hopens : ">(\"" = ">(" ++ "\"" := rfl
  have hcloses : "\", " = "\"" ++ ", " := rfl
  unfold ParameterStatement.text quoted
  rw [hopens, hcloses]
  simp only [String.append_assoc]

/-- **Descriptions in C++.** The description of a module is an argument of its factory, and that of
a parameter is in the statement that adds it, each as a literal. Whatever follows, the literal of a
description is read as one on one line that ends at its last quote and denotes the description,
exactly if there is no quote, no backslash and no carriage return in it. And another description has
the same literal exactly if there is a line feed in it, or a backslash in front of an `n`. -/
theorem descriptions_denoted_iff (registry : Registry) (path : Path) (d : String) :
    (∀ document m, Module.ofDocument registry path document = .ok m →
      ∃ fields text, classify path document = .ok (m.role.kind, fields) ∧
        (fields.field? "description").bind Node.text? = some text ∧
        quoted (escapeBreaks text) ∈ (Factory.ofModule m).arguments) ∧
    (∀ name entry p, Declaration.ofEntry registry path name entry = .ok p →
      ∃ fields text, entry.entries? = some fields ∧
        (fields.field? "description").bind Node.text? = some text ∧
        ∃ before after, (ParameterStatement.ofDeclaration p).text =
          before ++ quoted (escapeBreaks text) ++ after) ∧
    (∀ rest : List Char,
      readLiteral ((quoted (escapeBreaks d)).toList ++ rest) = some (bytes d.toList, rest) ↔
        ∀ c ∈ d.toList, ¬ Unsafe c) ∧
    ((∃ other, other ≠ d ∧ quoted (escapeBreaks other) = quoted (escapeBreaks d)) ↔
      '\n' ∈ d.toList ∨ escapedLineFeed <:+: d.toList) := by
  refine ⟨fun document m hm => ?_, fun name entry p hp => ?_, readLiteral_description_iff d,
    exists_same_description_iff d⟩
  · obtain ⟨fields, text, hclassify, htext, hdescription⟩ := description_of_ofDocument hm
    refine ⟨fields, text, hclassify, htext, ?_⟩
    rw [← hdescription]
    exact List.mem_append_left _ (List.mem_cons_of_mem _ List.mem_cons_self)
  · obtain ⟨fields, text, hfields, htext, hdescription⟩ := description_of_ofEntry hp
    refine ⟨fields, text, hfields, htext, ?_⟩
    rw [← hdescription]
    exact exists_text_eq (.ofDeclaration p)

/-- A description with a word in quotes. -/
def quotation : String := "say \"hi\""

/-- A plugin with this description. -/
def quotedPlugin : Entries :=
  [(.str "name", .str "p"), (.str "description", .str quotation), (.str "class", .str "C"),
    (.str "include", .str "c.h")]

/-- The plugin is read, and the literal in its factory does not denote the description; and a
description on two lines has the same literal as one with a backslash and an `n` in place of the
line feed. -/
theorem descriptions_denoted_quotation :
    (∃ m, Module.ofDocument .builtin ⟨"a.yml"⟩ (.map [(.str "plugin", .map quotedPlugin)]) = .ok m ∧
      quoted (escapeBreaks quotation) ∈ (Factory.ofModule m).arguments) ∧
    readLiteral (quoted (escapeBreaks quotation)).toList ≠ some (bytes quotation.toList, []) ∧
    ∃ other, other ≠ "a\nb" ∧ quoted (escapeBreaks other) = quoted (escapeBreaks "a\nb") := by
  obtain ⟨hmodules, _, hdenotes, _⟩ := descriptions_denoted_iff .builtin ⟨"a.yml"⟩ quotation
  obtain ⟨_, _, _, hshared⟩ := descriptions_denoted_iff .builtin ⟨"a.yml"⟩ "a\nb"
  refine ⟨?_, fun h => ?_, hshared.2 (Or.inl (by decide))⟩
  · have hread : (Module.ofDocument .builtin ⟨"a.yml"⟩
        (.map [(.str "plugin", .map quotedPlugin)])).toOption.isSome = true := by
      decide +kernel
    obtain ⟨m, hm⟩ := Option.isSome_iff_exists.1 hread
    rw [toOption_eq_some_iff] at hm
    obtain ⟨fields, text, hclassify, htext, hargument⟩ := hmodules _ m hm
    have hplugin : classify ⟨"a.yml"⟩ (.map [(.str "plugin", .map quotedPlugin)]) =
        .ok (.plugin, quotedPlugin) := rfl
    obtain ⟨_, rfl⟩ := Prod.mk.inj (Except.ok.inj (hclassify.symm.trans hplugin))
    have hquotation : (quotedPlugin.field? "description").bind Node.text? = some quotation := by
      decide +kernel
    obtain rfl := Option.some.inj (htext.symm.trans hquotation)
    exact ⟨m, hm, hargument⟩
  · have hsafe := (hdenotes []).1 (by rw [List.append_nil, h])
    exact hsafe '"' (by decide) (Or.inl (Or.inr rfl))

end Foundry
