import Foundry.Proofs.Path.Normalization
import Foundry.Proofs.Path.Prefix

/-!
# Where folded paths lead

Read from a directory, a path leads where its components do, one after the other: each `..` takes
back what stands in front of it. A path is `Reduced` to the number of `..` that find no name of the
path in front of them, its climbs, and the names that are left.

`normalize` keeps the first climb as a `..`, but takes that `..` itself back at the next one. So of
all climbs only one is left if they are odd in number, and none otherwise: `../..` is folded to
nothing at all.

* `components_normalize`: the components of a folded path.
* `normalize_normalize`: folding twice is folding once.
* `landing_join`: where a relative path leads from a directory.
* `normalize_leads`: a folded path leads where the path does if the path climbs once at most.
-/

namespace Foundry.Path

variable {keepRoot : Bool} {p B : Path} {c : Component} {cs here : List Component}
  {names : List (List Char)}

/-! ### Reducing -/

/-- What is left of components when each `..` takes back the name in front of it: the number of
those that find none, and the names. -/
structure Reduced where
  climbs : Nat
  names : List (List Char)

namespace Reduced

variable {r : Reduced}

/-- One component more. -/
def step (r : Reduced) : Component → Reduced
  | .parent => if r.names = [] then ⟨r.climbs + 1, []⟩ else ⟨r.climbs, r.names.dropLast⟩
  | .normal s => ⟨r.climbs, r.names ++ [s]⟩
  | _ => r

theorem climbs_step_le (r : Reduced) (c : Component) :
    (r.step c).climbs ≤ r.climbs + [c].count .parent := by
  cases c with
  | root => exact Nat.le_add_right _ _
  | current => exact Nat.le_add_right _ _
  | parent =>
    unfold step
    split_ifs
    · exact Nat.le_refl _
    · exact Nat.le_add_right _ _
  | normal s => exact Nat.le_add_right _ _

/-- There are no more climbs than `..` among the components. -/
theorem climbs_foldl_le (r : Reduced) (cs : List Component) :
    (cs.foldl step r).climbs ≤ r.climbs + cs.count .parent := by
  induction cs generalizing r with
  | nil => exact Nat.le_refl _
  | cons c cs ih =>
    have hstep := climbs_step_le r c
    have hrest := ih (r.step c)
    have hcount : (c :: cs).count Component.parent = [c].count .parent + cs.count .parent := by
      rw [← List.count_append, List.singleton_append]
    rw [List.foldl_cons, hcount]
    omega

/-- Names of the components only are left. -/
theorem mem_names_foldl {s : List Char} (h : s ∈ (cs.foldl step r).names) :
    s ∈ r.names ∨ .normal s ∈ cs := by
  induction cs generalizing r with
  | nil => exact Or.inl h
  | cons c cs ih =>
    rw [List.foldl_cons] at h
    rcases ih h with hstep | hmem
    · cases c with
      | root => exact Or.inl hstep
      | current => exact Or.inl hstep
      | parent =>
        unfold step at hstep
        split_ifs at hstep
        · exact absurd hstep List.not_mem_nil
        · exact Or.inl (List.dropLast_subset _ hstep)
      | normal t =>
        rcases List.mem_append.1 hstep with hold | hnew
        · exact Or.inl hold
        · rw [List.mem_singleton] at hnew
          rw [hnew]
          exact Or.inr List.mem_cons_self
    · exact Or.inr (List.mem_cons_of_mem c hmem)

/-- In front of all names, every `..` is a climb. -/
theorem foldl_step_parent (r : Reduced) (hr : r.names = []) (k : Nat) :
    (List.replicate k Component.parent).foldl step r = ⟨r.climbs + k, []⟩ := by
  induction k generalizing r with
  | zero =>
    rw [← hr]
    rfl
  | succ k ih =>
    have hstep : r.step .parent = ⟨r.climbs + 1, []⟩ := if_pos hr
    rw [List.replicate_succ, List.foldl_cons, hstep, ih _ rfl, Nat.add_assoc, Nat.add_comm 1]

theorem foldl_step_normal (r : Reduced) (names : List (List Char)) :
    (names.map Component.normal).foldl step r = ⟨r.climbs, r.names ++ names⟩ := by
  induction names generalizing r with
  | nil => rw [List.append_nil]; rfl
  | cons s names ih =>
    rw [List.map_cons, List.foldl_cons, ih]
    simp [step]

/-- The segments that `normalize` writes: of two climbs the second takes the first back. -/
def segments (r : Reduced) : List (List Char) :=
  List.replicate (r.climbs % 2) ['.', '.'] ++ r.names

/-- **One step of `normalize`** is one of reducing. -/
theorem foldName_segments (r : Reduced) (c : Component) :
    foldName r.segments c = (r.step c).segments := by
  obtain ⟨climbs, names⟩ := r
  cases c with
  | root => rfl
  | current => rfl
  | parent =>
    unfold foldName step segments
    dsimp only
    by_cases hnames : names = []
    · rw [if_pos hnames, hnames, List.append_nil]
      -- With no name left, a second `..` takes back the first one that was kept.
      rcases Nat.mod_two_eq_zero_or_one climbs with hparity | hparity
      · have hnext : (climbs + 1) % 2 = 1 := by omega
        rw [hparity, hnext]
        rfl
      · have hnext : (climbs + 1) % 2 = 0 := by omega
        rw [hparity, hnext]
        rfl
    · rw [if_neg hnames, if_neg (List.append_ne_nil_of_right_ne_nil _ hnames),
        List.dropLast_append_of_ne_nil hnames]
  | normal s =>
    show List.replicate (climbs % 2) ['.', '.'] ++ names ++ [s] = _
    rw [List.append_assoc]
    rfl

/-- **All steps of `normalize`.** Folding writes the segments of what components are reduced to. -/
theorem foldl_foldName_segments (r : Reduced) (cs : List Component) :
    cs.foldl foldName r.segments = (cs.foldl step r).segments := by
  induction cs generalizing r with
  | nil => rfl
  | cons c cs ih => rw [List.foldl_cons, List.foldl_cons, foldName_segments, ih]

end Reduced

/-- What the components of a path come to. -/
def reduced (p : Path) : Reduced :=
  p.components.foldl Reduced.step ⟨0, []⟩

/-- The number of `..` in a path with no name of the path in front of them. -/
def climbs (p : Path) : Nat :=
  p.reduced.climbs

/-- A path climbs no more often than it says `..`. -/
theorem climbs_le_count (p : Path) : p.climbs ≤ p.components.count .parent := by
  have h := Reduced.climbs_foldl_le ⟨0, []⟩ p.components
  rwa [Nat.zero_add] at h

/-- The components of a path behind its start. -/
def trail (p : Path) : List Component :=
  (segments p.text.toList).filterMap ofSegment?

theorem root_not_mem_trail (p : Path) : .root ∉ p.trail := by
  intro h
  obtain ⟨s, _, hs⟩ := List.mem_filterMap.1 h
  rcases eq_of_ofSegment? hs with hc | hc
  · cases hc
  · cases hc

theorem up_not_mem_trail (p : Path) : .normal ['.', '.'] ∉ p.trail := by
  intro h
  obtain ⟨s, _, hs⟩ := List.mem_filterMap.1 h
  unfold ofSegment? at hs
  split_ifs at hs with _ hup
  · cases hs
  · exact hup (Component.normal.inj (Option.some.inj hs))

theorem foldl_step_rootSteps (p : Path) :
    p.rootSteps.foldl Reduced.step ⟨0, []⟩ = ⟨0, []⟩ := by
  unfold rootSteps
  split_ifs
  · rfl
  · rfl

/-- The start of a path does not count for what it is reduced to. -/
theorem reduced_eq (p : Path) : p.reduced = p.trail.foldl Reduced.step ⟨0, []⟩ := by
  have hsteps : p.reduced = p.steps.foldl Reduced.step ⟨0, []⟩ := by
    rcases components_cases p with ⟨_, hp⟩ | hp
    · rw [reduced, hp]
    · rw [reduced, hp]
      rfl
  rw [hsteps, steps_eq, List.foldl_append, foldl_step_rootSteps, trail]

theorem ne_up_of_mem_reduced (p : Path) : ∀ s ∈ p.reduced.names, s ≠ ['.', '.'] := by
  rintro s hs rfl
  rw [reduced_eq] at hs
  rcases Reduced.mem_names_foldl hs with hnone | hmem
  · exact List.not_mem_nil hnone
  · exact up_not_mem_trail p hmem

/-! ### Folded paths -/

/-- A folded path spells the segments of what the path is reduced to. -/
theorem spells_normalize_segments (p : Path) :
    Spells p.isAbsolute p.reduced.segments p.normalize := by
  have h := spells_normalize p
  have hsegments := Reduced.foldl_foldName_segments ⟨0, []⟩ p.components
  rw [show Reduced.segments ⟨0, []⟩ = [] from rfl] at hsegments
  rwa [hsegments] at h

/-- **The components of a folded path.** -/
theorem components_normalize (p : Path) :
    p.normalize.components = p.rootSteps ++ (List.replicate (p.climbs % 2) .parent ++
      p.reduced.names.map .normal) := by
  have hnames : p.reduced.names.map ofName = p.reduced.names.map .normal :=
    List.map_congr_left fun s hs => if_neg (ne_up_of_mem_reduced p s hs)
  rw [(spells_normalize_segments p).components, Reduced.segments, List.map_append,
    List.map_replicate, hnames]
  rfl

theorem current_not_mem_normalize (p : Path) : .current ∉ p.normalize.components := by
  have hroot : .current ∉ p.rootSteps := by
    unfold rootSteps
    split_ifs <;> decide
  rw [components_normalize, List.mem_append, List.mem_append, List.mem_replicate, List.mem_map]
  rintro (h | ⟨_, h⟩ | ⟨s, _, h⟩)
  · exact hroot h
  · cases h
  · cases h

/-- Every `..` of a folded path stands in front of its names. -/
theorem normal_not_mem_before_parent {before after : List Component} {s : List Char}
    (h : p.normalize.components = before ++ .parent :: after) : .normal s ∉ before := by
  have hroot : .normal s ∉ p.rootSteps := by
    unfold rootSteps
    split_ifs <;> simp
  have hup : .normal s ∉ p.rootSteps ++ List.replicate (p.climbs % 2) .parent := by
    rw [List.mem_append, List.mem_replicate, not_or]
    exact ⟨hroot, nofun⟩
  have hnames : Component.parent ∉ p.reduced.names.map Component.normal := by
    rw [List.mem_map]
    rintro ⟨_, _, h⟩
    cases h
  rw [components_normalize, ← List.append_assoc, List.append_eq_append_iff] at h
  rcases h with ⟨more, _, htail⟩ | ⟨more, hfront, _⟩
  · -- The `..` would be among the names.
    rw [htail] at hnames
    exact absurd (by simp) hnames
  · intro hmem
    rw [hfront] at hup
    exact hup (List.mem_append_left more hmem)

/-- A path that spells names is absolute exactly if it starts at the root, since no name has a
slash. -/
theorem Spells.isAbsolute_eq {root : Bool} (h : Spells root names p) : p.isAbsolute = root := by
  rw [isAbsolute, h.text]
  cases root with
  | true => rfl
  | false =>
    rw [beq_eq_false_iff_ne]
    have hsplit := split_joinSegments h.counts
    cases htext : joinSegments names with
    | nil =>
      intro hhead
      cases hhead
    | cons c r =>
      intro hhead
      obtain rfl : c = '/' := Option.some.inj hhead
      rw [htext] at hsplit
      cases hsplit

/-- Folding keeps a path absolute, or relative. -/
theorem isAbsolute_normalize (p : Path) : p.normalize.isAbsolute = p.isAbsolute :=
  (spells_normalize_segments p).isAbsolute_eq

/-- A folded path is reduced to the same names; of its climbs one is left, or none. -/
theorem reduced_normalize (p : Path) : p.normalize.reduced = ⟨p.climbs % 2, p.reduced.names⟩ := by
  rw [reduced, components_normalize, List.foldl_append, List.foldl_append, foldl_step_rootSteps,
    Reduced.foldl_step_parent _ rfl, Reduced.foldl_step_normal, Nat.zero_add, List.nil_append]

/-- **Folding twice is folding once.** -/
theorem normalize_normalize (p : Path) : p.normalize.normalize = p.normalize := by
  have htwice := spells_normalize_segments p.normalize
  have hsegments : p.normalize.reduced.segments = p.reduced.segments := by
    rw [reduced_normalize, Reduced.segments, Nat.mod_mod]
    rfl
  rw [isAbsolute_normalize, hsegments] at htwice
  exact htwice.eq (spells_normalize_segments p)

/-! ### Following components -/

/-- Where one component more leads: `..` takes back what stands in front of it, the root too unless
it is to stay. -/
def follow (keepRoot : Bool) (here : List Component) : Component → List Component
  | .current => here
  | .parent => if keepRoot = true ∧ here = [.root] then here else here.dropLast
  | c => here ++ [c]

/-- Where a path leads. -/
def landing (keepRoot : Bool) (p : Path) : List Component :=
  p.components.foldl (follow keepRoot) []

/-- A `.` leads nowhere else. -/
theorem landing_eq (keepRoot : Bool) (p : Path) :
    landing keepRoot p = p.steps.foldl (follow keepRoot) [] := by
  rcases components_cases p with ⟨_, hp⟩ | hp
  · rw [landing, hp]
  · rw [landing, hp]
    rfl

/-- Components without a `..` are followed one by one. -/
theorem foldl_follow_of_down (hcurrent : .current ∉ cs) (hparent : .parent ∉ cs)
    (here : List Component) : cs.foldl (follow keepRoot) here = here ++ cs := by
  induction cs generalizing here with
  | nil => rw [List.append_nil]; rfl
  | cons c cs ih =>
    rw [List.mem_cons, not_or] at hcurrent hparent
    have hstep : follow keepRoot here c = here ++ [c] := by
      cases c with
      | root => rfl
      | current => exact absurd rfl hcurrent.1
      | parent => exact absurd rfl hparent.1
      | normal s => rfl
    rw [List.foldl_cons, hstep, ih hcurrent.2 hparent.2, List.append_assoc]
    rfl

/-- How many components of a place are left by climbs. -/
def kept (keepRoot : Bool) (height climbs : Nat) : Nat :=
  max (if keepRoot then 1 else 0) (height - climbs)

theorem kept_true (height climbs : Nat) : kept true height climbs = max 1 (height - climbs) := rfl

theorem kept_false (height climbs : Nat) : kept false height climbs = height - climbs :=
  Nat.zero_max _

theorem kept_le {height : Nat} (h : 1 ≤ height) (climbs : Nat) :
    kept keepRoot height climbs ≤ height := by
  cases keepRoot with
  | false => rw [kept_false]; omega
  | true => rw [kept_true]; omega

/-- Where a reduced path leads from a place: up by its climbs, then down its names. -/
def Reduced.place (keepRoot : Bool) (here : List Component) (r : Reduced) : List Component :=
  here.take (kept keepRoot here.length r.climbs) ++ r.names.map .normal

/-- A climb from what is left of a place. -/
theorem follow_parent_take (hhere : here.head? = some .root) (climbs : Nat) :
    follow keepRoot (here.take (kept keepRoot here.length climbs)) .parent =
      here.take (kept keepRoot here.length (climbs + 1)) := by
  have hhead := List.eq_cons_of_mem_head? hhere
  have hpos : 1 ≤ here.length := by
    rw [hhead, List.length_cons]
    omega
  have hlength : (here.take (kept keepRoot here.length climbs)).length =
      kept keepRoot here.length climbs := by
    rw [List.length_take, Nat.min_eq_left (kept_le hpos climbs)]
  unfold follow
  split_ifs with hroot
  · -- Only the root is left, and it stays.
    obtain ⟨rfl, hroot⟩ := hroot
    rw [hroot, List.length_singleton, kept_true] at hlength
    have hnext : kept true here.length (climbs + 1) = kept true here.length climbs := by
      rw [kept_true, kept_true]
      omega
    rw [hnext]
  · have hnext : min (kept keepRoot here.length climbs - 1) (kept keepRoot here.length climbs) =
        kept keepRoot here.length (climbs + 1) := by
      cases keepRoot with
      | false =>
        rw [kept_false, kept_false]
        omega
      | true =>
        -- More than the root is left.
        have hmore : kept true here.length climbs ≠ 1 := by
          intro hone
          rw [hone, hhead, List.take_succ_cons, List.take_zero] at hroot
          exact hroot ⟨rfl, rfl⟩
        rw [kept_true] at hmore
        rw [kept_true, kept_true]
        omega
    rw [List.dropLast_eq_take, hlength, List.take_take, hnext]

/-- **One step.** Following a component and reducing by it come to the same. -/
theorem follow_place (hhere : here.head? = some .root) (hc : c ≠ .root) (r : Reduced) :
    follow keepRoot (r.place keepRoot here) c = (r.step c).place keepRoot here := by
  obtain ⟨climbs, names⟩ := r
  cases c with
  | root => exact absurd rfl hc
  | current => rfl
  | normal s =>
    show _ ++ names.map _ ++ [_] = _ ++ (names ++ [s]).map _
    rw [List.map_append, List.append_assoc]
    rfl
  | parent =>
    unfold Reduced.place Reduced.step
    dsimp only
    rcases List.eq_nil_or_concat names with rfl | ⟨before, last, rfl⟩
    · rw [if_pos rfl]
      simp only [List.map_nil, List.append_nil]
      exact follow_parent_take hhere climbs
    · -- The last name is not the root, so it is dropped.
      rw [List.concat_eq_append, if_neg (by simp), List.dropLast_concat, List.map_append,
        ← List.append_assoc, List.map_singleton, follow, if_neg, List.dropLast_concat]
      rintro ⟨_, hroot⟩
      have hlast := congrArg List.getLast? hroot
      rw [List.getLast?_concat] at hlast
      cases hlast

/-- **Following components** leads where what they are reduced to does. -/
theorem foldl_follow (hhere : here.head? = some .root) (hcs : .root ∉ cs) (r : Reduced) :
    cs.foldl (follow keepRoot) (r.place keepRoot here) =
      (cs.foldl Reduced.step r).place keepRoot here := by
  induction cs generalizing r with
  | nil => rfl
  | cons c cs ih =>
    rw [List.mem_cons, not_or] at hcs
    rw [List.foldl_cons, List.foldl_cons, follow_place hhere (Ne.symm hcs.1), ih hcs.2]

theorem place_start (keepRoot : Bool) (here : List Component) :
    Reduced.place keepRoot here ⟨0, []⟩ = here := by
  have hall : here.length ≤ kept keepRoot here.length 0 := Nat.le_max_right _ _
  rw [Reduced.place, List.take_of_length_le hall]
  exact List.append_nil _

/-- **Following a path** from a place leads up by its climbs and down its names. -/
theorem foldl_follow_trail (hhere : here.head? = some .root) (p : Path) :
    p.trail.foldl (follow keepRoot) here = p.reduced.place keepRoot here := by
  have h : p.trail.foldl (follow keepRoot) (Reduced.place keepRoot here ⟨0, []⟩) = _ :=
    foldl_follow hhere (root_not_mem_trail p) ⟨0, []⟩
  rwa [place_start, ← reduced_eq] at h

/-! ### Where folded paths lead -/

theorem head?_components (h : B.isAbsolute = true) : B.components.head? = some .root := by
  rw [isAbsolute, beq_iff_eq] at h
  obtain ⟨r, hr⟩ : ∃ r, B.text.toList = '/' :: r := ⟨_, List.eq_cons_of_mem_head? h⟩
  rw [components, hr]
  rfl

/-- Where a relative path leads from a directory. -/
theorem landing_join (hp : p.isAbsolute = false) (hB : B.isAbsolute = true)
    (hcurrent : .current ∉ B.components) (hparent : .parent ∉ B.components) :
    landing keepRoot (B.join p) = p.reduced.place keepRoot B.components := by
  have hbase : B.steps = B.components := filter_eq_self_of_not_mem hcurrent
  have hsteps : p.steps = p.trail := by
    rw [steps_eq, rootSteps_of_relative hp]
    rfl
  rw [landing_eq, steps_join B hp, List.foldl_append, hbase, hsteps,
    foldl_follow_of_down hcurrent hparent, List.nil_append]
  exact foldl_follow_trail (head?_components hB) p

/-- Where an absolute path leads. -/
theorem landing_of_absolute (hp : p.isAbsolute = true) :
    landing keepRoot p = p.reduced.place keepRoot [.root] := by
  have hroot : p.rootSteps = [.root] := if_pos hp
  rw [landing_eq, steps_eq, hroot, List.foldl_append]
  exact foldl_follow_trail rfl p

/-- Two climbs lead to the same place if they leave the same of it. -/
theorem place_eq_place_iff {n m : Nat} (hhere : here ≠ []) :
    Reduced.place keepRoot here ⟨n, names⟩ = Reduced.place keepRoot here ⟨m, names⟩ ↔
      kept keepRoot here.length n = kept keepRoot here.length m := by
  have hle : ∀ k, kept keepRoot here.length k ≤ here.length :=
    kept_le (List.length_pos_of_ne_nil hhere)
  rw [Reduced.place, Reduced.place, List.append_cancel_right_eq, List.take_eq_take_iff,
    Nat.min_eq_left (hle n), Nat.min_eq_left (hle m)]

/-- **Where a folded path leads.** It has no `.`, no `..` behind a name, and is folded to itself.
From a directory that the path does not climb out of it leads where the path does exactly if the
path climbs once at most; an absolute path keeps leading to the same place if the root stays, and if
`..` takes the root back exactly if its climbs are odd in number or none. -/
theorem normalize_leads (p : Path) :
    .current ∉ p.normalize.components ∧
    (∀ before after s, p.normalize.components = before ++ .parent :: after →
      .normal s ∉ before) ∧
    p.normalize.normalize = p.normalize ∧
    (p.isAbsolute = false → ∀ B : Path, B.isAbsolute = true → .current ∉ B.components →
      .parent ∉ B.components → p.components.count .parent ≤ B.components.length →
      ∀ keepRoot, landing keepRoot (B.join p) = landing keepRoot (B.join p.normalize) ↔
        p.climbs ≤ 1) ∧
    (p.isAbsolute = true → ∀ B : Path,
      landing true (B.join p) = landing true (B.join p.normalize) ∧
      (landing false (B.join p) = landing false (B.join p.normalize) ↔
        p.climbs = 0 ∨ p.climbs % 2 = 1)) := by
  refine ⟨current_not_mem_normalize p, fun _ _ _ => normal_not_mem_before_parent,
    normalize_normalize p, ?_, ?_⟩
  · intro hp B hB hcurrent hparent hcount keepRoot
    have hnormal : p.normalize.isAbsolute = false := (isAbsolute_normalize p).trans hp
    have hne : B.components ≠ [] := by
      intro hnil
      have hhead := head?_components hB
      rw [hnil] at hhead
      cases hhead
    have hclimbs := climbs_le_count p
    have hpos := List.length_pos_of_ne_nil hne
    rw [landing_join hp hB hcurrent hparent, landing_join hnormal hB hcurrent hparent,
      reduced_normalize]
    refine (place_eq_place_iff hne).trans ?_
    -- The place is high enough for all climbs, so it tells their number apart.
    show kept keepRoot B.components.length p.climbs = _ ↔ _
    cases keepRoot with
    | false => rw [kept_false, kept_false]; omega
    | true => rw [kept_true, kept_true]; omega
  · intro hp B
    have hnormal : p.normalize.isAbsolute = true := (isAbsolute_normalize p).trans hp
    rw [join_absolute hp, join_absolute hnormal, landing_of_absolute hp, landing_of_absolute hp,
      landing_of_absolute hnormal, landing_of_absolute hnormal, reduced_normalize]
    constructor
    · refine (place_eq_place_iff (List.cons_ne_nil _ _)).2 ?_
      rw [kept_true, kept_true, List.length_singleton]
      omega
    · refine (place_eq_place_iff (List.cons_ne_nil _ _)).trans ?_
      -- There is nothing but the root to take back.
      show kept false 1 p.climbs = kept false 1 (p.climbs % 2) ↔ _
      rw [kept_false, kept_false]
      omega

theorem normalize_leads_twice_up :
    (⟨"../.."⟩ : Path).normalize = ⟨""⟩ ∧
      landing false (Path.join ⟨"/a/b"⟩ ⟨"../.."⟩) = [.root] ∧
      landing false (Path.join ⟨"/a/b"⟩ ⟨""⟩) = [.root, .normal ['a'], .normal ['b']] ∧
      landing true (Path.join ⟨"/a/b"⟩ ⟨"../.."⟩) ≠
        landing true (Path.join ⟨"/a/b"⟩ (⟨"../.."⟩ : Path).normalize) := by
  refine ⟨by decide, by decide, by decide, ?_⟩
  obtain ⟨-, -, -, hrelative, -⟩ := normalize_leads ⟨"../.."⟩
  rw [ne_eq, hrelative (by decide) ⟨"/a/b"⟩ (by decide) (by decide) (by decide) (by decide) true]
  decide

end Foundry.Path
