import Foundry.Proofs.Decimal.Spelling
import Foundry.Proofs.Module.Generics
import Foundry.Proofs.Yaml.Lookup

/-!
# Names of parameters

The names of the parameters of a module are the texts of keys. Keys of a mapping are different
values, and two different values may have one text only if one of them is a string: the string
`"1"` and the number `1`.

* `same_of_text?_eq`: numbers and truth values with one text are the same.
* `names_nodup_iff`: the exact condition under which no name is repeated.
-/

namespace Foundry

open Decimal FileTree Parameter Yaml

variable {registry : Registry} {path : Path} {document : Node} {es : Entries} {m : Module}

/-! ### Texts of keys -/

/-- The text of a truth value. -/
def boolText (b : Bool) : String :=
  if b then "true" else "false"

theorem ofText?_boolText (b : Bool) : Numeral.ofText? (boolText b).toList = none := by
  cases b <;> decide

theorem boolText_ne_int (b : Bool) (i : Int) : boolText b ≠ toString i := by
  intro h
  have hnone := ofText?_boolText b
  rw [h, ofText?_int] at hnone
  cases hnone

/-- No truth value is spelled like a floating-point number. -/
theorem boolText_ne_spell (b : Bool) (x : Binary64) : boolText b ≠ Spelling.yaml.spell x := by
  intro h
  have hnone := ofText?_boolText b
  cases x with
  | nan => cases b <;> exact absurd h (by decide)
  | infinity negative => cases b <;> cases negative <;> exact absurd h (by decide)
  | finite =>
    rw [h, Spelling.ofText?_spell_finite] at hnone
    cases hnone

/-- A floating-point number has a point or an exponent, so no integer is spelled like one. -/
theorem int_ne_spell (i : Int) (x : Binary64) : toString i ≠ Spelling.yaml.spell x := by
  intro h
  have hint := ofText?_int i
  rw [h] at hint
  obtain ⟨negative, m, e, _, _, hn⟩ := Spelling.exists_finite_of_ofText? hint
  have hwhole := whole_intNumeral i
  rw [hn] at hwhole
  exact Spelling.not_whole_magnitudeNumeral _ m e hwhole

theorem boolText_injective {b c : Bool} (h : boolText b = boolText c) : b = c := by
  cases b <;> cases c <;> first | rfl | exact absurd h (by decide)

/-- **Numbers and truth values with one text are the same.** -/
theorem same_of_text?_eq {k l : Node} {s : String} (hk : k.text? = some s) (hl : l.text? = some s)
    (hkstr : k ≠ .str s) (hlstr : l ≠ .str s) : k.same l = true := by
  have htext := hk.trans hl.symm
  cases k with
  | null | seq | map | tagged => cases hk
  | str t => exact absurd (congrArg Node.str (Option.some.inj hk)) hkstr
  | bool b =>
    cases l with
    | null | seq | map | tagged => cases hl
    | str t => exact absurd (congrArg Node.str (Option.some.inj hl)) hlstr
    | bool c =>
      rw [boolText_injective (Option.some.inj htext)]
      exact Node.same_refl _
    | int j => exact absurd (Option.some.inj htext) (boolText_ne_int b j)
    | float y => exact absurd (Option.some.inj htext) (boolText_ne_spell b y)
  | int i =>
    cases l with
    | null | seq | map | tagged => cases hl
    | str t => exact absurd (congrArg Node.str (Option.some.inj hl)) hlstr
    | bool c => exact absurd (Option.some.inj htext).symm (boolText_ne_int c i)
    | int j =>
      rw [int_injective (Option.some.inj htext)]
      exact Node.same_refl _
    | float y => exact absurd (Option.some.inj htext) (int_ne_spell i y)
  | float x =>
    cases l with
    | null | seq | map | tagged => cases hl
    | str t => exact absurd (congrArg Node.str (Option.some.inj hl)) hlstr
    | bool c => exact absurd (Option.some.inj htext).symm (boolText_ne_spell c x)
    | int j => exact absurd (Option.some.inj htext).symm (int_ne_spell j x)
    | float y =>
      exact Node.same_float_iff.2 ⟨y, rfl, Spelling.same_of_spell_eq (Option.some.inj htext)⟩

/-! ### Repeated names -/

theorem wellKeyed_of_parametersOf? {kind : Kind} {n : Node} (hwell : document.WellKeyed)
    (h : parametersOf? kind document = some n) : n.WellKeyed := by
  rw [parametersOf?, Option.bind_eq_some_iff] at h
  obtain ⟨fields, hfields, hn⟩ := h
  obtain ⟨v, hv, hfields⟩ := Option.bind_eq_some_iff.1 hfields
  obtain ⟨top, htop, hv⟩ := Option.bind_eq_some_iff.1 hv
  have htop := hwell.of_entries? htop
  have hfields := (Entries.wellKeyed_of_find? htop hv).of_entries? hfields
  exact Entries.wellKeyed_of_find? hfields hn

/-- Some key that is a string is spelled like a number or truth value that is a key too. -/
def SpelledAlike (keys : List Node) : Prop :=
  ∃ s, .str s ∈ keys ∧ ∃ key ∈ keys, key ≠ .str s ∧ key.text? = some s

/-- Of two different keys with one text, one is that text. -/
theorem eq_str_or_eq_str_of_same {k l : Node} {s : String} (hk : k.text? = some s)
    (hl : l.text? = some s) (hdistinct : k.same l = false) : k = .str s ∨ l = .str s := by
  by_contra hne
  rw [not_or] at hne
  rw [same_of_text?_eq hk hl hne.1 hne.2] at hdistinct
  cases hdistinct

/-- Names are repeated exactly if a string is spelled like a key that is none. -/
theorem nodup_namesOf_iff (hwell : (Node.map es).WellKeyed) :
    (namesOf es).Nodup ↔ ¬ SpelledAlike (Entries.keys es) := by
  have hdistinct : (Entries.keys es).Pairwise fun k l => k.same l = false := by
    rw [Entries.keys, List.pairwise_map]
    exact Entries.keysDistinct_iff.1 (Node.wellKeyed_map_iff.1 hwell).1
  rw [namesOf_eq_filterMap_keys, List.Nodup, List.pairwise_filterMap]
  constructor
  · rintro hnames ⟨s, hs, key, hkey, hne, htext⟩
    have hsymm : Std.Symm fun k l : Node =>
        ∀ t, k.text? = some t → ∀ u, l.text? = some u → t ≠ u :=
      ⟨fun k l h t ht u hu => (h u hu t ht).symm⟩
    exact hnames.forall hs hkey hne.symm s rfl s htext rfl
  · intro halike
    -- Two keys with one text: they differ, so one is the text and the other is spelled like it.
    refine hdistinct.imp_of_mem fun {k l} hk hl hsame s hs t ht hst => ?_
    subst hst
    have hne : k ≠ l := by
      rintro rfl
      rw [Node.same_refl] at hsame
      cases hsame
    rcases eq_str_or_eq_str_of_same hs ht hsame with rfl | rfl
    · exact halike ⟨s, hk, l, hl, hne.symm, ht⟩
    · exact halike ⟨s, hl, k, hk, hne, hs⟩

/-- The parameters of a kind have different names exactly if no string among their keys is spelled
like a key that is none. -/
theorem nodup_declaredNames_iff {kind : Kind} (hwell : document.WellKeyed) :
    (declaredNames kind document).Nodup ↔
      ∀ es, parametersOf? kind document = some (.map es) → ¬ SpelledAlike (Entries.keys es) := by
  unfold declaredNames
  split
  · rename_i es hes
    rw [nodup_namesOf_iff (wellKeyed_of_parametersOf? hwell hes), hes]
    simp
  · rename_i hnone
    refine iff_of_true List.nodup_nil fun es hes => absurd hes (hnone es)

/-- Under different names, every parameter is found by its own. -/
theorem parameter?_of_nodup (h : (m.parameters.map (·.name)).Nodup) :
    ∀ d ∈ m.parameters, m.parameter? d.name = some d := by
  intro d hd
  obtain ⟨before, after, hsplit⟩ := List.append_of_mem hd
  rw [Module.parameter?, List.find?_eq_some_iff_append]
  refine ⟨beq_self_eq_true _, before, after, hsplit, fun e he => ?_⟩
  rw [hsplit, List.map_append, List.nodup_append] at h
  have hne : e.name ≠ d.name :=
    h.2.2 e.name (List.mem_map_of_mem he) d.name (by simp)
  simpa using hne

/-- **When parameters have different names.** No number or truth value is declared beside a string
that is spelled like it; then each parameter is found by its name. -/
theorem names_nodup_iff (hwell : document.WellKeyed)
    (h : Module.ofDocument registry path document = .ok m) :
    ((m.parameters.map (·.name)).Nodup ↔
      ∀ es, parametersOf? m.role.kind document = some (.map es) →
        ¬ SpelledAlike (Entries.keys es)) ∧
    ((m.parameters.map (·.name)).Nodup → ∀ d ∈ m.parameters, m.parameter? d.name = some d) := by
  rw [names_of_ofDocument h]
  refine ⟨nodup_declaredNames_iff hwell, fun hnodup => parameter?_of_nodup ?_⟩
  rwa [names_of_ofDocument h]

/-- The parameters `1` and `"1"`. -/
def numberedParameters : Entries :=
  let entry : Node := .map [(.str "type", .str "integer"), (.str "default", .int 5),
    (.str "description", .str "x")]
  [(.int 1, entry), (.str "1", entry)]

/-- A plugin with these parameters. -/
def numberedPlugin : Node :=
  .map [(.str "plugin", .map [(.str "type", .str "p"), (.str "description", .str "d"),
    (.str "class", .str "C"), (.str "include", .str "c.h"),
    (.str "parameters", .map numberedParameters)])]

/-- The plugin is read, and both parameters get the name `1`. -/
theorem names_repeated_of_numberedPlugin :
    numberedPlugin.WellKeyed ∧ ∃ m,
      Module.ofDocument Registry.builtin ⟨"a.yml"⟩ numberedPlugin = .ok m ∧
        ¬ (m.parameters.map (·.name)).Nodup := by
  have hwell : numberedPlugin.WellKeyed := by
    simp [numberedPlugin, numberedParameters, Entries.keysDistinct, Node.same]
  have hkind : ((Module.ofDocument Registry.builtin ⟨"a.yml"⟩ numberedPlugin).toOption.any
      fun m => m.role.kind = .plugin) = true := by
    decide +kernel
  cases hm : Module.ofDocument Registry.builtin ⟨"a.yml"⟩ numberedPlugin with
  | error e =>
    rw [hm] at hkind
    cases hkind
  | ok m =>
    rw [hm] at hkind
    have hparameters : parametersOf? m.role.kind numberedPlugin =
        some (.map numberedParameters) := by
      rw [of_decide_eq_true hkind]
      rfl
    refine ⟨hwell, m, rfl, ?_⟩
    rw [(names_nodup_iff hwell hm).1]
    intro hdistinct
    refine hdistinct numberedParameters hparameters ⟨"1", ?_, .int 1, ?_, Node.noConfusion, rfl⟩
    · simp [numberedParameters, Entries.keys]
    · simp [numberedParameters, Entries.keys]

end Foundry
