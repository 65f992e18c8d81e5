import Foundry.Decimal.Spelling

/-!
# YAML values

A `Node` is one YAML value: a scalar, a sequence, a mapping with its keys in order, or a value with
a tag. Keys are values themselves.

Some questions look through tags (`entries?`, `string?`, `isNull`), others take a value as it stands
(`text?`, and every match on a constructor). A tag hides a value from the second kind only.

Two values are the `same` when YAML would not let one mapping hold both as keys: numbers of one kind
by value, with `nan` equal to itself, mappings in any order.

* `bare_bare`: looking through tags twice is looking through them once.
* `same_str_iff`: a string is the same as that string only.
-/

namespace Foundry.Yaml

open Foundry.Decimal

/-- A YAML value. -/
inductive Node where
  | null
  | bool (b : Bool)
  | int (i : Int)
  | float (x : Binary64)
  | str (s : String)
  | seq (items : List Node)
  | map (entries : List (Node × Node))
  | tagged (tag : String) (node : Node)
  deriving Inhabited

/-- The keys and values of a mapping, in order. -/
abbrev Entries := List (Node × Node)

namespace Node

/-! ### Sameness -/

mutual

/-- Whether two values are one key. -/
def same : Node → Node → Bool
  | null, null => true
  | bool a, bool b => a == b
  | int i, int j => i == j
  | float x, float y => x.same y
  | str s, str t => s == t
  | seq xs, seq ys => sameItems xs ys
  | map es, map fs => es.length == fs.length && sameEntries es fs
  | tagged s x, tagged t y => s == t && same x y
  | _, _ => false

/-- Sequences are the same item by item. -/
def sameItems : List Node → List Node → Bool
  | [], [] => true
  | x :: xs, y :: ys => same x y && sameItems xs ys
  | _, _ => false

/-- Every entry of the first mapping stands in the second. -/
def sameEntries : List (Node × Node) → List (Node × Node) → Bool
  | [], _ => true
  | (k, v) :: es, fs => fs.any (fun f => same k f.1 && same v f.2) && sameEntries es fs

end

/-! ### Views -/

/-- The value without the tags around it. -/
def bare : Node → Node
  | tagged _ n => n.bare
  | n => n

/-- The entries of a mapping, tagged or not. -/
def entries? (n : Node) : Option Entries :=
  match n.bare with
  | map es => some es
  | _ => none

/-- The text of a string, tagged or not. -/
def string? (n : Node) : Option String :=
  match n.bare with
  | str s => some s
  | _ => none

/-- Whether the value is null, tagged or not. -/
def isNull (n : Node) : Bool :=
  match n.bare with
  | null => true
  | _ => false

/-- The text of a scalar that is neither null nor tagged. -/
def text? : Node → Option String
  | str s => some s
  | bool b => some (if b then "true" else "false")
  | int i => some (toString i)
  | float x => some (Spelling.yaml.spell x)
  | _ => none

/-- A short text for messages, whatever the value is. -/
def describe (n : Node) : String :=
  match n.bare with
  | seq _ => "<sequence>"
  | map _ => "<mapping>"
  | scalar => scalar.text?.getD "null"

end Node

namespace Entries

/-- The value at a key. -/
def find? (key : Node) (es : Entries) : Option Node :=
  (List.find? (fun e => key.same e.1) es).map (·.2)

/-- The value at a key that is a string without a tag. -/
def field? (name : String) (es : Entries) : Option Node :=
  es.find? (.str name)

/-- Whether a string without a tag is a key. -/
def hasField (name : String) (es : Entries) : Bool :=
  (es.field? name).isSome

end Entries

namespace Node

/-! ### Small laws -/

@[simp]
theorem bare_bare (n : Node) : n.bare.bare = n.bare := by
  induction n using bare.induct with
  | case1 _ n ih => simpa [bare] using ih
  | case2 n h => cases n <;> first | rfl | exact absurd rfl (h _ _)

theorem bare_ne_tagged (n : Node) (tag : String) (m : Node) : n.bare ≠ tagged tag m := by
  induction n using bare.induct with
  | case1 _ n ih => simpa [bare] using ih
  | case2 n h => cases n <;> first | exact absurd rfl (h _ _) | simp [bare]

@[simp]
theorem same_str_iff {s : String} {n : Node} : (str s).same n = true ↔ n = str s := by
  cases n with
  | str t => simp only [same, beq_iff_eq, str.injEq]; exact eq_comm
  | _ => simp [same]

end Node

end Foundry.Yaml
