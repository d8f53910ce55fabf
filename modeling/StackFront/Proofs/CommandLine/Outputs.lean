import StackFront.CommandLine.Run
import StackFront.Proofs.Drawing.Clusters
import StackFront.Proofs.Image.RoundTrip

/-!
# Results of programs that were read

Every program that was read from a text can be written as text again. So there is always something
to print, an image and a drawing for a graph of such programs, and writing them out can fail only
for what stands in the file tree.
-/
namespace StackFront

/-- The methods of a program that was read can be written as lines. -/
theorem Program.IsParsed.exists_lines {p : Program} (h : p.IsParsed) :
    ∃ methods, formatMethods p.methods = .ok methods := by
  obtain ⟨text, hformat, -⟩ := h.parse_format
  rw [format] at hformat
  cases hmethods : formatMethods p.methods with
  | error e =>
    rw [hmethods] at hformat
    cases hformat
  | ok methods => exact ⟨methods, rfl⟩

/-- All programs of the graph were read from some text. -/
def Graph.OnlyParsed (g : Graph) : Prop :=
  ∀ n ∈ g.nodes, n.program.IsParsed

theorem Session.OnlyParsed.graph {s : Session} {spelled : String} {g : Graph} (hs : s.OnlyParsed)
    (hg : (s.resolve spelled).1 = .ok g) : g.OnlyParsed := by
  obtain ⟨hex, -, -⟩ := explores_of_resolve hg
  exact fun n hn => hs.content (hex.found_eq n.content (List.mem_map_of_mem hn))

variable {g : Graph} {nodes : List Node}

theorem Image.exists_ofGraph (timestamp : String) (h : g.OnlyParsed) :
    ∃ doc, ofGraph timestamp g = .ok doc := by
  obtain ⟨entries, -, hentries, -⟩ := sourcesOf_entriesOf h
  rw [ofGraph, hentries]
  exact ⟨_, rfl⟩

theorem Drawing.exists_ofGraph (h : g.OnlyParsed) : ∃ d, ofGraph g = .ok d :=
  exists_ofGraph_iff.mpr fun n hn => (h n hn).exists_lines

end StackFront
