import StackFront.Proofs.Graph.Agreement
import StackFront.Proofs.Image.Entries

/-!
# Images of graphs and graphs of images

A graph whose programs were read from texts is rebuilt from its image. An entry of the image stands
for the text that its program is written as, so that the programs are read back one by one. Since
the names in an image are canonical, each text is found again under its own name, and the walk over
the rebuilt texts takes the same way as the one that led to the graph.
-/
namespace StackFront

namespace Session

/-- All that is known was read from some text. -/
def OnlyParsed (s : Session) : Prop :=
  ∀ name loaded, s.program? name = some loaded → loaded.program.IsParsed

theorem OnlyParsed.content {s : Session} (h : s.OnlyParsed) {name : Name} {p : Program}
    (hp : s.content name = .ok p) : p.IsParsed := by
  cases hk : s.program? name with
  | some loaded =>
    rw [content_of_known hk] at hp
    cases hp
    exact h name loaded hk
  | none =>
    rw [content_of_unknown hk, Store.content_eq_ok_iff] at hp
    obtain ⟨text, -, hparse⟩ := hp
    exact ⟨text, some name, hparse⟩

end Session

namespace Image

/-- The entries of nodes stand for texts from which the programs of the nodes are read. -/
theorem sourcesOf_entriesOf {nodes : List Node} (h : ∀ n ∈ nodes, n.program.IsParsed) :
    ∃ entries sources, entriesOf nodes = .ok entries ∧ sourcesOf entries = .ok sources ∧
      entries.map Prod.fst = nodes.map Node.name ∧ sources.map Prod.fst = nodes.map Node.name ∧
      ∀ n ∈ nodes, ∃ text, (n.name, text) ∈ sources ∧
        ∀ file, Program.parse text file = .ok n.program := by
  induction nodes with
  | nil => exact ⟨[], [], rfl, rfl, rfl, rfl, by simp⟩
  | cons n nodes ih =>
    rw [List.forall_mem_cons] at h
    obtain ⟨text, hformat, hparse⟩ := h.1.parse_format
    obtain ⟨entry, hentry, hsource⟩ := sourceOf_entryOf hformat
    obtain ⟨entries, sources, hentries, hsources, hnames, hnames', htexts⟩ := ih h.2
    refine ⟨(n.name, entry) :: entries, (n.name, text) :: sources, ?_, ?_, ?_, ?_, ?_⟩
    · rw [entriesOf, hentry, hentries]
      rfl
    · rw [sourcesOf, hsource, hsources]
      rfl
    · rw [List.map_cons, List.map_cons, hnames]
    · rw [List.map_cons, List.map_cons, hnames']
    · refine List.forall_mem_cons.mpr ⟨⟨text, List.mem_cons_self .., hparse⟩, fun m hm => ?_⟩
      obtain ⟨text', hmem, hparse'⟩ := htexts m hm
      exact ⟨text', List.mem_cons_of_mem _ hmem, hparse'⟩

/-- The image of a graph passes the check. -/
theorem check_ofGraph {g : Graph} {entries : List (String × Json)} (timestamp : String)
    (hentries : entriesOf g.nodes = .ok entries) (hroot : g.root ∈ entries.map Prod.fst) :
    ∃ doc, ofGraph timestamp g = .ok doc ∧ check doc = .ok ⟨g.root, entries⟩ := by
  rw [ofGraph, hentries]
  refine ⟨_, rfl, ?_⟩
  have hmember := Json.isSome_member? hroot
  cases entries with
  | nil => cases hroot
  | cons entry entries =>
    have hversion : isVersion (.string version) := by decide
    have hroots : versionKey ≠ rootKey ∧ timestampKey ≠ rootKey := by decide
    have hprograms : versionKey ≠ programsKey ∧ timestampKey ≠ programsKey ∧
        rootKey ≠ programsKey := by decide
    simp only [check, Json.member?_cons_self, Json.member?_cons_of_ne hroots.1,
      Json.member?_cons_of_ne hroots.2, Json.member?_cons_of_ne hprograms.1,
      Json.member?_cons_of_ne hprograms.2.1, Json.member?_cons_of_ne hprograms.2.2,
      Option.getD_some, hversion, hmember, Bool.not_true, Bool.false_eq_true, if_true, if_false]

end Image

/-- A walk over texts from which the same programs are read takes the same way. -/
theorem Explores.ofSpelled {c : Contents} {root : Name} {found : List (Name × Program)}
    {sources : List (String × String)} (h : Explores c [] [root] found none)
    (hroot : Path.IsCanonical root) (hnames : sources.map Prod.fst = found.map Prod.fst)
    (htexts : ∀ q ∈ found, ∃ text, (q.1, text) ∈ sources ∧
      ∀ file, Program.parse text file = .ok q.2) :
    Explores (Sources.ofSpelled sources).store.content [] [root] found none := by
  have hfound : ∀ q ∈ found, Path.IsCanonical q.1 :=
    h.found_canonical fun n hn => List.mem_singleton.mp hn ▸ hroot
  have hcanonical : ∀ s ∈ sources, Path.IsCanonical s.1 := by
    intro s hs
    have hname : s.1 ∈ found.map Prod.fst := hnames ▸ List.mem_map_of_mem hs
    obtain ⟨q, hq, hq1⟩ := List.mem_map.mp hname
    exact hq1 ▸ hfound q hq
  have hnodup : (sources.map Prod.fst).Nodup := hnames ▸ h.found_nodup
  refine h.congr (fun q hq => ?_) (by simp)
  obtain ⟨text, hmem, hparse⟩ := htexts q hq
  exact Store.content_eq_ok_iff.mpr
    ⟨text, Sources.read_ofSpelled hcanonical hnodup hmem, hparse (some q.1)⟩

namespace Session

/-- A graph of programs that were read from texts is rebuilt from its image. -/
theorem resolve_rebuild {s : Session} {spelled : String} {g : Graph} (timestamp : String)
    (hparsed : s.OnlyParsed) (hg : (s.resolve spelled).1 = .ok g) :
    ∃ doc g', Image.ofGraph timestamp g = .ok doc ∧ Image.rebuild doc = .ok g' ∧
      g.Agrees g' := by
  obtain ⟨hex, hroot, -⟩ := explores_of_resolve hg
  have hparsedNodes : ∀ n ∈ g.nodes, n.program.IsParsed := fun n hn =>
    hparsed.content (hex.found_eq n.content (List.mem_map_of_mem hn))
  obtain ⟨entries, sources, hentries, hsources, hnames, hnames', htexts⟩ :=
    Image.sourcesOf_entriesOf hparsedNodes
  have hfst : (g.nodes.map Node.content).map Prod.fst = g.names := (g.names_eq_content).symm
  rw [← hroot] at hex
  have hcanonical : Path.IsCanonical g.root := ⟨spelled, none, hroot⟩
  have hmem : g.root ∈ entries.map Prod.fst := by
    have hfound := (hex.mem_found_iff g.root).mpr .refl
    rw [hnames]
    rwa [hfst] at hfound
  obtain ⟨doc, hdoc, hcheck⟩ := Image.check_ofGraph timestamp hentries hmem
  have hex' : Explores (Sources.ofSpelled sources).store.content [] [g.root]
      (g.nodes.map Node.content) none := by
    refine hex.ofSpelled hcanonical (hnames'.trans hfst.symm) fun q hq => ?_
    obtain ⟨n, hn, rfl⟩ := List.mem_map.mp hq
    exact htexts n hn
  rw [← hcanonical.canonical_eq] at hex'
  obtain ⟨g', hg', hroot', hnodes', -⟩ :=
    resolve_of_explores (s := { store := (Sources.ofSpelled sources).store }) hex'
  refine ⟨doc, g', hdoc, ?_, .of_content ?_ hnodes'.symm⟩
  · simp only [Image.rebuild, hcheck, hsources, hg']
  · rw [hroot', hcanonical.canonical_eq]

/-- Two programs that refer to each other, and a third one that only the first refers to. -/
theorem resolve_rebuild_cycle :
    let sources : Sources :=
      [("app/main.vt", "'rd3*Z\nm\n;e base.vt\n;u ../lib/mod.vt\n"), ("app/base.vt", "N\n"),
        ("lib/mod.vt", "12+N\n;e ../app/./main.vt\n")]
    ∃ g doc g', ((ofSources sources).resolve "app//main.vt").1 = .ok g ∧
      g.names = ["app/main.vt", "lib/mod.vt", "app/base.vt"] ∧
      Image.ofGraph "" g = .ok doc ∧ Image.rebuild doc = .ok g' ∧ g.Agrees g' := by
  intro sources
  have hex : ∃ p q r, Explores (ofSources sources).content [] [Path.canonical "app//main.vt" none]
      [("app/main.vt", p), ("lib/mod.vt", q), ("app/base.vt", r)] none :=
    ⟨_, _, _, .find (by decide) rfl (.find (by decide) rfl
      (.drop (by decide) (.find (by decide) rfl (.done _))))⟩
  obtain ⟨p, q, r, hex⟩ := hex
  obtain ⟨g, hg, -, hnodes, -⟩ := resolve_of_explores hex
  have hparsed : (ofSources sources).OnlyParsed := fun name loaded h => by cases h
  obtain ⟨doc, g', hdoc, hrebuild, hagrees⟩ := resolve_rebuild "" hparsed hg
  refine ⟨g, doc, g', hg, ?_, hdoc, hrebuild, hagrees⟩
  rw [g.names_eq_content, hnodes]
  rfl

end Session

end StackFront
