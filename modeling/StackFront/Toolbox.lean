import StackFront.Drawing
import StackFront.FileTree

/-!
# Tools of a run

What a run relies on and does not do itself. The libraries that analyse and draw graphs may be
missing. How a drawing becomes a picture in a file, and how a digraph is shown on a screen, is up
to programs of which nothing is known here.
-/
namespace StackFront

/-- The tools that a run finds. -/
structure Toolbox extends Tools where
  /-- Puts the picture of a drawing at a path. -/
  picture : Drawing → String → FileTree → FileTree × Except Fault Unit
  /-- Shows a digraph on a screen, if there is anything to plot it with. -/
  plot? : Option (Digraph → Except Fault Unit)

namespace Toolbox

/-- Shows a graph on a screen, for which the tools of analysis are needed as well. -/
def visualize (tools : Toolbox) (g : Graph) : Except Fault Unit :=
  match tools.analysis, tools.plot? with
  | true, some plot => plot (.ofGraph g)
  | _, _ => .error Inability.plottingTools

end Toolbox

end StackFront
