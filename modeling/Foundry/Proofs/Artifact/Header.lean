import Foundry.Artifact.Loader
import Foundry.Proofs.Path.Prefix

/-!
# Headers under the build root

A descriptor under the source root has its header at the same place under the build root. Whether
it is under the source root is told by components, and a `.` that a path starts with is one of them,
so a root `.` has nothing under it that is not written with a `.` as well.

* `Roots.Aligned`: the root and a descriptor are written in the same way.
* `header_steps`: where the header of a descriptor is, by the steps of the three paths.
-/

namespace Foundry

open Foundry.Path

/-- The source root and a descriptor are both written with a `.` in front, or neither is; a root
without components goes with either. -/
def Roots.Aligned (roots : Roots) (descriptor : Path) : Prop :=
  roots.source.components = [] ∨
    (.current ∈ roots.source.components ↔ .current ∈ descriptor.components)

instance (roots : Roots) (descriptor : Path) : Decidable (roots.Aligned descriptor) :=
  inferInstanceAs (Decidable (_ ∨ _))

namespace Roots

variable {roots : Roots} {descriptor : Path} {rest : List Component} {c : Component}

/-- **Under the source root.** The header is found under the build root, at the rest of the way. -/
theorem header_of_under (hroot : roots.source.isAbsolute = descriptor.isAbsolute)
    (hup : .parent ∉ descriptor.components) (haligned : roots.Aligned descriptor)
    (h : descriptor.steps = roots.source.steps ++ (rest ++ [c])) :
    ∃ name, c = .normal name ∧ (⟨roots.header descriptor⟩ : Path).steps =
      roots.build.steps ++ rest ++ [.normal (name ++ ".h".toList)] := by
  obtain ⟨rel, last, hstrip, hends, hlast⟩ := exists_stripStart? hroot haligned h
  refine ⟨last, ?_, ?_⟩
  · have hc : c ∈ descriptor.components := by
      refine (List.filter_sublist (p := (· ≠ .current))).subset ?_
      show c ∈ descriptor.steps
      rw [h]
      simp
    refine (eq_of_ofSegment? hlast).resolve_left fun hparent => hup ?_
    rw [← hparent]
    exact hc
  · rw [header, hstrip]
    exact steps_append hends (by decide) (by decide)

/-- A descriptor outside the source root keeps its path. -/
theorem header_of_not_under
    (h : ¬ roots.source.steps <+: descriptor.steps ∨ ¬ roots.Aligned descriptor) :
    roots.header descriptor = descriptor.text ++ ".h" := by
  rw [header, stripStart?_eq_none]
  refine h.imp_right fun h => ?_
  rwa [Aligned, not_or] at h

/-- **Where a header is.** For a root and a descriptor that are both absolute or both relative, and
a descriptor that never goes up: under the build root, at the rest of the descriptor's way and with
`.h` behind the last name, if the descriptor is under the source root and written as the root is;
at the descriptor itself with `.h` behind it, if it is not under the source root or written in the
other way. -/
theorem header_steps (roots : Roots) (descriptor : Path)
    (hroot : roots.source.isAbsolute = descriptor.isAbsolute)
    (hup : .parent ∉ descriptor.components) :
    (∀ rest c, descriptor.steps = roots.source.steps ++ (rest ++ [c]) →
      roots.Aligned descriptor →
        ∃ name, c = .normal name ∧ (⟨roots.header descriptor⟩ : Path).steps =
          roots.build.steps ++ rest ++ [.normal (name ++ ".h".toList)]) ∧
      (¬ roots.Aligned descriptor → roots.header descriptor = descriptor.text ++ ".h") ∧
      (¬ roots.source.steps <+: descriptor.steps →
        roots.header descriptor = descriptor.text ++ ".h") :=
  ⟨fun _ _ h haligned => header_of_under hroot hup haligned h,
    fun h => header_of_not_under (Or.inr h), fun h => header_of_not_under (Or.inl h)⟩

/-- From the working directory, written `.`, the header of a descriptor is under the build root if
the descriptor is written with the same dot, and beside the descriptor if it is not. -/
theorem header_steps_fromHere :
    let roots : Roots := ⟨⟨"."⟩, ⟨"build"⟩⟩
    let way : List Component := [.normal "components".toList, .normal "uart".toList]
    let file : List Char := "uart.yml".toList
    ((⟨"components/uart/uart.yml"⟩ : Path).steps = roots.source.steps ++ (way ++ [.normal file]) ∧
      roots.header ⟨"components/uart/uart.yml"⟩ = "components/uart/uart.yml.h" ∧
      (⟨"components/uart/uart.yml.h"⟩ : Path).steps ≠
        roots.build.steps ++ way ++ [.normal (file ++ ".h".toList)]) ∧
    (⟨roots.header ⟨"./components/uart/uart.yml"⟩⟩ : Path).steps =
      roots.build.steps ++ way ++ [.normal (file ++ ".h".toList)] := by
  intro roots way file
  refine ⟨⟨by decide, ?_, by decide⟩, ?_⟩
  · have hplain := header_steps roots ⟨"components/uart/uart.yml"⟩ (by decide) (by decide)
    exact hplain.2.1 (by decide)
  · have hdotted := header_steps roots ⟨"./components/uart/uart.yml"⟩ (by decide) (by decide)
    obtain ⟨name, hname, h⟩ := hdotted.1 way (.normal file) (by decide) (by decide)
    rw [h, ← Component.normal.inj hname]

end Roots

end Foundry
