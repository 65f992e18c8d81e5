import Foundry.Module.Reader
import Foundry.Proofs.Result

/-!
# Reading a document in another place

A module is read from a document alone. The path of the file that the document came from is kept as
the source of the module and named by every error, and nothing else depends on it: a document that
is read in another place gives the same module or the same error, but for that path.

* `DescriptorError.retold`, `Module.retold`: what is told of another file instead.
* `ofDocument_retold`: reading in another place is reading and telling it of that place. The lemmas
  before it say so of each step of reading.
-/

namespace Foundry

open Parameter Yaml

/-- The error as it is told of another file; a cycle is told of the files on it. -/
def DescriptorError.retold (path : Path) : DescriptorError → DescriptorError
  | unreadable _ fault => unreadable path fault
  | malformed _ => malformed path
  | invalidDirective _ fault => invalidDirective path fault
  | includeCycle chain => includeCycle chain
  | invalidKind _ fault => invalidKind path fault
  | missingAttributes _ place names => missingAttributes path place names
  | invalidAttribute _ place name fault => invalidAttribute path place name fault
  | invalidParameter _ name cause => invalidParameter path name cause

/-- The module, or the error in its place, as it is told of another file. -/
def Module.retold (path : Path) (r : Except DescriptorError Module) :
    Except DescriptorError Module :=
  (r.mapError (·.retold path)).map fun m => { m with source := path }

variable {p : Path} (q : Path)

/-! ### Attributes -/

namespace Attributes

variable (fields : Entries) (place : Place) (name : String)

theorem require_retold (absent : List String) :
    require ⟨fields, q, place⟩ absent =
      (require ⟨fields, p, place⟩ absent).mapError (·.retold q) := by
  unfold require
  split <;> rfl

/-- A text of a field is read the same in every file. -/
theorem text_retold :
    text ⟨fields, q, place⟩ name = (text ⟨fields, p, place⟩ name).mapError (·.retold q) := by
  unfold text
  dsimp only
  split <;> rfl

theorem optionalText_retold :
    optionalText ⟨fields, q, place⟩ name =
      (optionalText ⟨fields, p, place⟩ name).mapError (·.retold q) := by
  unfold optionalText
  dsimp only
  split
  · rfl
  · rfl
  · split <;> rfl

theorem texts_retold :
    texts ⟨fields, q, place⟩ name = (texts ⟨fields, p, place⟩ name).mapError (·.retold q) := by
  unfold texts
  dsimp only
  split
  · rfl
  · rw [mapError_mapM]
    congr 1
    funext item
    split <;> rfl
  · split <;> rfl

theorem integer_retold :
    integer ⟨fields, q, place⟩ name = (integer ⟨fields, p, place⟩ name).mapError (·.retold q) := by
  unfold integer
  dsimp only
  split
  · rfl
  · rfl
  · split <;> rfl
  · split <;> rfl
  · rfl

end Attributes

/-! ### Parameters -/

/-- A refused value names the file of its declaration, and nothing else depends on it. -/
theorem mapError_invalidParameter {α : Type} (name : String) (r : Except ConversionError α) :
    r.mapError (.invalidParameter q name) =
      (r.mapError (DescriptorError.invalidParameter p name)).mapError (·.retold q) := by
  cases r <;> rfl

variable (registry : Registry)

/-- A declaration is read the same in every file. -/
theorem Declaration.ofEntry_retold (name : String) (entry : Node) :
    Declaration.ofEntry registry q name entry =
      (Declaration.ofEntry registry p name entry).mapError (·.retold q) := by
  unfold Declaration.ofEntry
  dsimp only
  split
  · rfl
  · simp only [mapError_bind, Attributes.require_retold (p := p) q,
      Attributes.text_retold (p := p) q, mapError_invalidParameter (p := p) q]
    -- A truth value that is absent or null is not converted.
    split
    · rfl
    · rfl
    · simp only [mapError_bind]
      rfl

theorem Attributes.declarations_retold (fields : Entries) (place : Place) :
    declarations ⟨fields, q, place⟩ registry =
      (declarations ⟨fields, p, place⟩ registry).mapError (·.retold q) := by
  unfold declarations
  dsimp only
  split
  · rfl
  · rfl
  · rw [mapError_mapM]
    congr 1
    funext ⟨key, entry⟩
    dsimp only
    split
    · exact Declaration.ofEntry_retold q registry _ _
    · rfl
  · rfl

/-! ### Modules -/

/-- A document has the same kind in every file. -/
theorem classify_retold (document : Node) :
    classify q document = (classify p document).mapError (·.retold q) := by
  unfold classify
  dsimp only
  split
  · rfl
  · split
    · rfl
    · split <;> rfl
    · rfl

/-- Reading is told of another file step by step. -/
theorem Module.retold_bind {α : Type} (x : Except DescriptorError α)
    (f : α → Except DescriptorError Module) :
    Module.retold q (x >>= f) = x.mapError (·.retold q) >>= fun a => Module.retold q (f a) := by
  cases x <;> rfl

/-- **Where the document came from.** The module or the error differs by the path alone. -/
theorem Module.ofDocument_retold (document : Node) :
    Module.ofDocument registry q document =
      Module.retold q (Module.ofDocument registry p document) := by
  unfold Module.ofDocument
  rw [Module.retold_bind, classify_retold (p := p)]
  congr 1
  funext ⟨kind, fields⟩
  dsimp only
  -- The kinds differ in what is read before the parameters.
  cases kind <;>
    simp only [reduceCtorEq, if_true, if_false, Module.retold_bind,
      Attributes.require_retold (p := p) q, Attributes.text_retold (p := p) q,
      Attributes.optionalText_retold (p := p) q, Attributes.texts_retold (p := p) q,
      Attributes.integer_retold (p := p) q, Attributes.declarations_retold (p := p) q] <;>
    rfl

end Foundry
