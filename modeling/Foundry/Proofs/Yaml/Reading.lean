import Foundry.Proofs.Yaml.WellKeyed

/-!
# What a reader of values returns

A value is read from the inside out, so what holds of every scalar and is kept by sequences,
mappings and tags holds of it: a `ReaderInvariant`. Every mapping is checked for repeated keys when
it is complete, and an integer of more than 64 bits is none.

* `ReaderInvariant.of_ofText?`: a value that was read from a text has the property.
* `wellKeyed_of_ofText?`, `inWords_of_ofText?`: it does not repeat a key in any mapping, and its
  integers have 64 bits.

The reader counts the aliases it follows, so it is a computation with a state that may stop.
`Ensures` says of such a computation what holds of its result, whatever the count was.
-/

namespace Foundry.Yaml

/-! ### Results of a computation -/

section Ensures

variable {σ α β : Type}

/-- Every result of the computation has the property, from whatever state it starts. -/
def Ensures (x : StateT σ Option α) (P : α → Prop) : Prop :=
  ∀ s a s', x.run s = some (a, s') → P a

variable {P : α → Prop} {Q : β → Prop}

theorem ensures_pure {a : α} (h : P a) : Ensures (pure a : StateT σ Option α) P := by
  intro s b s' hrun
  rw [StateT.run_pure, Option.pure_def, Option.some.injEq, Prod.mk.injEq] at hrun
  rw [← hrun.1]
  exact h

theorem ensures_failure : Ensures (failure : StateT σ Option α) P := by
  intro s a s' hrun
  cases hrun

theorem ensures_liftM {x : Option α} (h : ∀ a, x = some a → P a) :
    Ensures (liftM x : StateT σ Option α) P := by
  intro s a s' hrun
  cases x with
  | none => cases hrun
  | some b =>
    obtain ⟨rfl, rfl⟩ : b = a ∧ s = s' := by simpa using hrun
    exact h b rfl

/-- What the first step ensures may be used of its result in the second one. -/
theorem ensures_bind {x : StateT σ Option α} {f : α → StateT σ Option β} (hx : Ensures x P)
    (hf : ∀ a, P a → Ensures (f a) Q) : Ensures (x >>= f) Q := by
  intro s b s' hrun
  rw [StateT.run_bind, Option.bind_eq_bind, Option.bind_eq_some_iff] at hrun
  obtain ⟨⟨a, t⟩, hx', hf'⟩ := hrun
  exact hf a (hx s a t hx') t b s' hf'

theorem ensures_true (x : StateT σ Option α) : Ensures x fun _ => True :=
  fun _ _ _ _ => trivial

/-- What every step ensures, a traversal ensures of all its results. -/
theorem ensures_mapM {f : α → StateT σ Option β} {xs : List α} (h : ∀ a ∈ xs, Ensures (f a) Q) :
    Ensures (xs.mapM f) fun bs => ∀ b ∈ bs, Q b := by
  induction xs with
  | nil =>
    rw [List.mapM_nil]
    exact ensures_pure fun b hb => absurd hb List.not_mem_nil
  | cons x xs ih =>
    rw [List.forall_mem_cons] at h
    rw [List.mapM_cons]
    refine ensures_bind h.1 fun b hb => ensures_bind (ih h.2) fun bs hbs => ?_
    exact ensures_pure (List.forall_mem_cons.2 ⟨hb, hbs⟩)

end Ensures

/-! ### Invariants -/

/-- Whether an integer has 64 bits, with a sign or without one. -/
def InWord (i : Int) : Prop :=
  -9223372036854775808 ≤ i ∧ i < 18446744073709551616

namespace Node

/-- Every integer in the value has 64 bits. -/
inductive InWords : Node → Prop
  | null : InWords .null
  | bool (b : Bool) : InWords (.bool b)
  | int {i : Int} (h : InWord i) : InWords (.int i)
  | float (x : Decimal.Binary64) : InWords (.float x)
  | str (s : String) : InWords (.str s)
  | seq {items : List Node} (each : ∀ n ∈ items, InWords n) : InWords (.seq items)
  | map {es : Entries} (keys : ∀ e ∈ es, InWords e.1) (values : ∀ e ∈ es, InWords e.2) :
    InWords (.map es)
  | tagged (tag : String) {n : Node} (node : InWords n) : InWords (.tagged tag n)

/-- A property that the values of scalars have and that values made of others take over from
them. -/
structure ReaderInvariant (P : Node → Prop) : Prop where
  null : P null
  bool (b : Bool) : P (bool b)
  int {i : Int} (h : InWord i) : P (int i)
  float (x : Decimal.Binary64) : P (float x)
  str (s : String) : P (str s)
  seq {items : List Node} (each : ∀ n ∈ items, P n) : P (seq items)
  map {es : Entries} (distinct : es.keysDistinct = true) (entries : ∀ e ∈ es, P e.1 ∧ P e.2) :
    P (map es)
  tagged (tag : String) {n : Node} (node : P n) : P (tagged tag n)

/-- That no key is repeated is checked for each mapping, so it is an invariant. -/
theorem readerInvariant_wellKeyed : ReaderInvariant WellKeyed where
  null := .null
  bool := .bool
  int _ := .int _
  float := .float
  str := .str
  seq := .seq
  map distinct entries := wellKeyed_map_iff.2 ⟨distinct, entries⟩
  tagged := .tagged

/-- No scalar is read as a longer integer, so that integers have 64 bits is an invariant. -/
theorem readerInvariant_inWords : ReaderInvariant InWords where
  null := .null
  bool := .bool
  int := .int
  float := .float
  str := .str
  seq := .seq
  map _ entries := .map (fun e he => (entries e he).1) fun e he => (entries e he).2
  tagged := .tagged

/-! ### Scalars -/

/-- An integer is read only if it has 64 bits, with a sign or without one. -/
theorem inWord_of_readInteger {cs : List Char} {i : Int} (h : readInteger cs = .integer i) :
    InWord i := by
  unfold readInteger at h
  dsimp only at h
  rw [InWord]
  split at h
  · cases h
  · split at h
    · cases h
    · split at h
      -- The bounds are in the guards.
      · split_ifs at h
        obtain rfl := IntegerReading.integer.inj h
        omega
      · split_ifs at h
        obtain rfl := IntegerReading.integer.inj h
        omega

namespace ReaderInvariant

variable {P : Node → Prop} {cs text : List Char} {tag : Option (List Char)} {n m : Node}

theorem of_plainNode? (hP : ReaderInvariant P) (h : plainNode? cs = some n) : P n := by
  unfold plainNode? at h
  split at h
  · rw [← Option.some.inj h]
    exact hP.null
  · split at h
    · rw [← Option.some.inj h]
      exact hP.bool _
    · split at h
      · rename_i hi
        rw [← Option.some.inj h]
        exact hP.int (inWord_of_readInteger hi)
      · cases h
      · split at h
        · rw [← Option.some.inj h]
          exact hP.float _
        · rw [← Option.some.inj h]
          exact hP.str _

theorem of_coreScalar? (hP : ReaderInvariant P) {tag : String}
    (h : coreScalar? tag text = some n) : P n := by
  unfold coreScalar? at h
  split at h
  · obtain ⟨b, _, rfl⟩ := Option.map_eq_some_iff.1 h
    exact hP.bool b
  · split at h
    · split at h
      · rename_i hi
        rw [← Option.some.inj h]
        exact hP.int (inWord_of_readInteger hi)
      · cases h
    · split at h
      · obtain ⟨x, _, rfl⟩ := Option.map_eq_some_iff.1 h
        exact hP.float x
      · split at h
        · split at h
          · rw [← Option.some.inj h]
            exact hP.null
          · cases h
        · rw [← Option.some.inj h]
          exact hP.str _

theorem of_withTag? (hP : ReaderInvariant P) (hn : P n) (h : withTag? tag n = some m) : P m := by
  unfold withTag? at h
  split at h
  · cases h
  · rw [← Option.some.inj h]
    exact hP.tagged _ hn
  · rw [← Option.some.inj h]
    exact hn

/-- However a scalar is tagged and quoted, its value is a scalar or a tagged one. -/
theorem of_ofScalar? (hP : ReaderInvariant P) {plain : Bool}
    (h : ofScalar? tag text plain = some n) : P n := by
  have huntagged : ∀ m, (if plain then plainNode? text else some (Node.str (String.ofList text))) =
      some m → P m := by
    intro m hm
    cases plain with
    | true => exact hP.of_plainNode? hm
    | false =>
      rw [← Option.some.inj hm]
      exact hP.str _
  unfold ofScalar? at h
  dsimp only at h
  split at h
  · exact huntagged n h
  · split at h
    · obtain ⟨m, hm, htag⟩ := Option.bind_eq_some_iff.1 h
      exact hP.of_withTag? (huntagged m hm) htag
    · exact hP.of_coreScalar? h

/-! ### Trees -/

/-- A tree is read from the inside out, down to any depth. -/
theorem ensures_ofTree (hP : ReaderInvariant P) (d : Document) (depth : Nat) (t : Tree Nat) :
    Ensures (ofTree d depth t) P := by
  -- The reader goes as deep as its limit, so the induction is on what is left of it.
  induction depth generalizing t with
  | zero =>
    rw [ofTree]
    refine ensures_bind (ensures_true _) fun u _ => ?_
    split
    · exact ensures_liftM fun n hn => hP.of_ofScalar? hn
    · exact ensures_failure
  | succ depth ih =>
    rw [ofTree]
    refine ensures_bind (ensures_true _) fun u _ => ?_
    split
    · exact ensures_failure
    · exact ensures_liftM fun n hn => hP.of_ofScalar? hn
    · refine ensures_bind (ensures_mapM fun t _ => ih t) fun items hitems => ?_
      exact ensures_liftM fun n hn => hP.of_withTag? (hP.seq hitems) hn
    · refine ensures_bind (ensures_mapM (Q := fun e => P e.1 ∧ P e.2) ?_) fun entries hentries => ?_
      · intro e _
        refine ensures_bind (ih e.1) fun k hk => ensures_bind (ih e.2) fun v hv => ?_
        exact ensures_pure ⟨hk, hv⟩
      · -- This is where the reader refuses a mapping that repeats a key.
        split
        · rename_i hdistinct
          exact ensures_liftM fun n hn => hP.of_withTag? (hP.map hdistinct hentries) hn
        · exact ensures_failure

/-- **From the inside out.** A value that was read from a text has every invariant of reading. -/
theorem of_ofText? (hP : ReaderInvariant P) {text : String} (h : ofText? text = some n) : P n := by
  unfold ofText? at h
  rw [Option.bind_eq_bind, Option.bind_eq_some_iff] at h
  obtain ⟨d?, _, h⟩ := h
  cases d? with
  | none =>
    rw [← Option.some.inj h]
    exact hP.null
  | some d =>
    obtain ⟨⟨m, s⟩, hrun, rfl⟩ := Option.map_eq_some_iff.1 h
    exact hP.ensures_ofTree d depthLimit d.root 0 m s hrun

end ReaderInvariant

/-- **No key twice.** A value that was read from a text repeats a key nowhere. -/
theorem wellKeyed_of_ofText? {text : String} {n : Node} (h : ofText? text = some n) :
    n.WellKeyed :=
  readerInvariant_wellKeyed.of_ofText? h

/-- **No integer beyond 64 bits.** A longer literal is a float or nothing at all, so what is said
of values with `InWords` holds of every value a file can hold. -/
theorem inWords_of_ofText? {text : String} {n : Node} (h : ofText? text = some n) : n.InWords :=
  readerInvariant_inWords.of_ofText? h

end Node

end Foundry.Yaml
