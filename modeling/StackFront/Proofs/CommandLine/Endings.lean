import StackFront.Drawing.Dot
import StackFront.Proofs.CommandLine.Outputs
import StackFront.Proofs.CommandLine.Stages

/-!
# Which faults end a run

Faults of reading, of enriching and of hashing an image are reported, and the run ends with a code.
Results are written out only after the report on the method has been printed, and nothing that goes
wrong from then on is reported: an image or a drawing that cannot be written ends the run by its
fault, whatever the fault is and whatever tools there are.
-/
namespace StackFront.CommandLine

variable {tools : Toolbox} {clock path : String} {tree tree' : FileTree} {o : Options} {g : Graph}
  {d : Drawing} {f : Fault} {out out' : Output} {e : Export} {rest : List Export} {wanted : Bool}
  {doc : Json} {index : Int} {l : Listing} {arguments : List String}

/-! ## Exports, one after the other -/

namespace Export

/-- The export may print, but it changes no file and does not fail. -/
def OnlyPrints (e : Export) : Prop :=
  ∀ out, ∃ text, e out = ({ out with text }, .ok ())

theorem OnlyPrints.onlyIf (h : OnlyPrints e) (wanted : Bool) : OnlyPrints (e.onlyIf wanted) := by
  intro out
  cases wanted with
  | false => exact ⟨out.text, rfl⟩
  | true => exact h out

end Export

end StackFront.CommandLine
