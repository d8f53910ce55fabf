import StackFront.Proofs.Image.RoundTrip

/-!
# Images of rebuilt graphs

To rebuild a program, its entry is written as a source text and read like any other. The image of a
rebuilt graph shows whether anything was changed on the way. It was, wherever an item of an entry is
not a line of its own. Such entries are not always refused; they may stand for programs that they do
not show.
-/
namespace StackFront.Image

variable {doc : Json} {parts : Parts} {g : Graph}

/-- An image tells an entry of a name. -/
def Parts.Tells (parts : Parts) (name : Name) (e : Entry) : Prop :=
  ∃ value, Json.member? parts.programs name = some value ∧ Says value e

/-- An image tells one entry of a name at most. -/
theorem Parts.Tells.unique {name : Name} {e e' : Entry}
    (h : parts.Tells name e) (h' : parts.Tells name e') : e = e' := by
  obtain ⟨value, hvalue, he⟩ := h
  obtain ⟨value', hvalue', he'⟩ := h'
  rw [hvalue, Option.some.injEq] at hvalue'
  subst hvalue'
  exact he.unique he'

/-- The image of a graph whose programs were read from texts tells of each name the entry of any
layout of its program. -/
theorem tells_ofGraph (timestamp : String) (hnodup : g.names.Nodup)
    (hroot : g.root ∈ g.names) (hparsed : ∀ n ∈ g.nodes, n.program.IsParsed) :
    ∃ doc parts, ofGraph timestamp g = .ok doc ∧ check doc = .ok parts ∧
      ∀ n ∈ g.nodes, ∀ l : Program.Layout, l.Reads n.program →
        parts.Tells n.name (.ofLayout l) := by
  obtain ⟨entries, -, hentries, -, hnames, -, -⟩ := sourcesOf_entriesOf hparsed
  obtain ⟨doc, hdoc, hcheck⟩ := check_ofGraph timestamp hentries (hnames ▸ hroot)
  refine ⟨doc, ⟨g.root, entries⟩, hdoc, hcheck, fun n hn l hl => ?_⟩
  obtain ⟨value, hmem, hvalue⟩ := mem_of_entriesOf hentries n hn
  obtain ⟨value', hvalue', hsays⟩ := says_ofLayout hl
  rw [hvalue, Except.ok.injEq] at hvalue'
  subst hvalue'
  exact ⟨value, Json.member?_of_mem (hnames ▸ hnodup) hmem, hsays⟩

/-- The graph of an image comes about by an exploration of the texts of its entries. -/
theorem explores_of_rebuild (hcheck : check doc = .ok parts) (hg : rebuild doc = .ok g) :
    ∃ sources, sourcesOf parts.programs = .ok sources ∧
      g.root = Path.canonical parts.root none ∧
      Explores (Sources.ofSpelled sources).store.content [] [g.root]
        (g.nodes.map Node.content) none := by
  simp only [rebuild, hcheck] at hg
  cases hs : sourcesOf parts.programs with
  | error f => simp [hs] at hg
  | ok sources =>
    simp only [hs] at hg
    obtain ⟨hex, hroot, -⟩ := Session.explores_of_resolve hg
    rw [← hroot] at hex
    exact ⟨sources, rfl, hroot, hex⟩

/-- An exploration of the texts of the entries leads to a graph. -/
theorem rebuild_of_explores {sources : List (String × String)}
    {found : List (Name × Program)} (hcheck : check doc = .ok parts)
    (hsources : sourcesOf parts.programs = .ok sources)
    (hex : Explores (Sources.ofSpelled sources).store.content []
      [Path.canonical parts.root none] found none) :
    ∃ g, rebuild doc = .ok g ∧ g.root = Path.canonical parts.root none ∧
      g.nodes.map Node.content = found := by
  obtain ⟨g, hg, hroot, hnodes, -⟩ :=
    Session.resolve_of_explores (s := { store := (Sources.ofSpelled sources).store }) hex
  refine ⟨g, ?_, hroot, hnodes⟩
  simp only [rebuild, hcheck, hsources, hg]

/-- Each program of a rebuilt graph is laid out in the lines of its entry. -/
theorem exists_entry (hcheck : check doc = .ok parts)
    (hnames : ∀ m ∈ parts.programs, Path.IsCanonical m.1)
    (hentries : ∀ m ∈ parts.programs, ∃ e, Says m.2 e) (hg : rebuild doc = .ok g) :
    ∀ n ∈ g.nodes, ∃ value e l, (n.name, value) ∈ parts.programs ∧ Says value e ∧
      Program.Layout.Reads l n.program ∧
      Program.sourceLines (Program.unlines e.lines).toList = l.lines := by
  intro n hn
  obtain ⟨sources, hs, -, hex⟩ := explores_of_rebuild hcheck hg
  obtain ⟨hfst, htexts⟩ := mem_of_sourcesOf hs
  have hcanonical : ∀ s ∈ sources, Path.IsCanonical s.1 := by
    intro s hmem
    have hkey : s.1 ∈ parts.programs.map Prod.fst := hfst ▸ List.mem_map_of_mem hmem
    obtain ⟨m, hm, hm1⟩ := List.mem_map.mp hkey
    exact hm1 ▸ hnames m hm
  -- the program of the node was read from the text of the entry under its name
  have hcontent := hex.found_eq n.content (List.mem_map_of_mem hn)
  rw [Store.content_eq_ok_iff] at hcontent
  obtain ⟨text, hread, hparse⟩ := hcontent
  obtain ⟨value, hvalue, hsource⟩ :=
    htexts n.name text (Sources.mem_of_read_ofSpelled hcanonical hread)
  obtain ⟨e, he⟩ := hentries _ hvalue
  rw [he.sourceOf_eq, Except.ok.injEq] at hsource
  subst hsource
  obtain ⟨l, hl, hreads⟩ := Program.exists_reads hparse
  exact ⟨value, e, l, hvalue, he, hreads, hl⟩

/-- The image of a rebuilt graph tells of each name the entry that the first image tells, if and
only if that entry keeps to its lines. -/
theorem rebuild_entry_iff (timestamp : String)
    (hcheck : check doc = .ok parts) (hkeys : (parts.programs.map Prod.fst).Nodup)
    (hnames : ∀ m ∈ parts.programs, Path.IsCanonical m.1)
    (hentries : ∀ m ∈ parts.programs, ∃ e, Says m.2 e) (hg : rebuild doc = .ok g) :
    ∃ doc' parts', ofGraph timestamp g = .ok doc' ∧ check doc' = .ok parts' ∧
      ∀ name ∈ g.names, ∃ e e', parts.Tells name e ∧ parts'.Tells name e' ∧
        (e' = e ↔ e.IsLineByLine) := by
  have hread := exists_entry hcheck hnames hentries hg
  have hparsed : ∀ n ∈ g.nodes, n.program.IsParsed := by
    intro n hn
    obtain ⟨-, -, l, -, -, hl, -⟩ := hread n hn
    obtain ⟨text, -, hparse⟩ := hl.parse_format
    exact ⟨text, none, hparse none⟩
  obtain ⟨_, -, -, hex⟩ := explores_of_rebuild hcheck hg
  have hnodup : g.names.Nodup := g.names_eq_content ▸ hex.found_nodup
  have hroot : g.root ∈ g.names := g.names_eq_content ▸ (hex.mem_found_iff g.root).mpr .refl
  obtain ⟨doc', parts', hdoc', hcheck', htells'⟩ := tells_ofGraph timestamp hnodup hroot hparsed
  refine ⟨doc', parts', hdoc', hcheck', fun name hname => ?_⟩
  obtain ⟨n, hn, rfl⟩ := List.mem_map.mp hname
  obtain ⟨value, e, l, hvalue, he, hl, hlines⟩ := hread n hn
  have htells : parts.Tells n.name e := ⟨value, Json.member?_of_mem hkeys hvalue, he⟩
  refine ⟨e, .ofLayout l, htells, htells' n hn l hl, ?_⟩
  rw [eq_comm]
  exact Entry.eq_ofLayout_iff hlines

/-- Two programs that refer to each other. The entry of the first keeps to its lines; that of the
second does not, since a declaration stands in the last line of its method. -/
theorem rebuild_entry_iff_declaration :
    let first : Entry := ⟨["'rd3*Z", "N"], ["lib/b.vt"], []⟩
    let second : Entry := ⟨["12\n;u ../a.vt"], [], []⟩
    let doc : Json := .object [(versionKey, .string version), (rootKey, .string "a.vt"),
      (programsKey, .object [
        ("a.vt", .object [(methodsKey, .array [.string "'rd3*Z", .string "N"]),
          (targetsKey .extend, .array [.string "lib/b.vt"])]),
        ("lib/b.vt", .object [(methodsKey, .array [.string "12\n;u ../a.vt"])])])]
    ∃ g doc' parts', rebuild doc = .ok g ∧ g.names = ["a.vt", "lib/b.vt"] ∧
      ofGraph "" g = .ok doc' ∧ check doc' = .ok parts' ∧
      parts'.Tells "a.vt" first ∧ ¬ parts'.Tells "lib/b.vt" second := by
  intro first second doc
  let value : Json := .object [(methodsKey, .array [.string "'rd3*Z", .string "N"]),
    (targetsKey .extend, .array [.string "lib/b.vt"])]
  let value' : Json := .object [(methodsKey, .array [.string "12\n;u ../a.vt"])]
  let parts : Parts := ⟨"a.vt", [("a.vt", value), ("lib/b.vt", value')]⟩
  have hcheck : check doc = .ok parts := rfl
  have hsources : sourcesOf parts.programs =
      .ok [("a.vt", "'rd3*Z\nN\n;e lib/b.vt\n"), ("lib/b.vt", "12\n;u ../a.vt\n")] := rfl
  have hfirst : Says value first := ⟨_, rfl, rfl, rfl, rfl⟩
  have hsecond : Says value' second := ⟨_, rfl, rfl, rfl, rfl⟩
  have hentries : ∀ m ∈ parts.programs, ∃ e, Says m.2 e := by
    rintro m hm
    rcases List.mem_pair.mp hm with rfl | rfl
    · exact ⟨first, hfirst⟩
    · exact ⟨second, hsecond⟩
  have hnames : ∀ m ∈ parts.programs, Path.IsCanonical m.1 := by
    rintro m hm
    rcases List.mem_pair.mp hm with rfl | rfl
    · exact ⟨"a.vt", none, by decide⟩
    · exact ⟨"lib/b.vt", none, by decide⟩
  have hex : ∃ p q, Explores (Sources.ofSpelled
      [("a.vt", "'rd3*Z\nN\n;e lib/b.vt\n"), ("lib/b.vt", "12\n;u ../a.vt\n")]).store.content []
      [Path.canonical "a.vt" none] [("a.vt", p), ("lib/b.vt", q)] none :=
    ⟨_, _, .find (by decide) rfl (.find (by decide) rfl (.drop (by decide) (.done _)))⟩
  obtain ⟨p, q, hex⟩ := hex
  obtain ⟨g, hg, -, hnodes⟩ := rebuild_of_explores hcheck hsources hex
  have hgnames : g.names = ["a.vt", "lib/b.vt"] := by
    rw [g.names_eq_content, hnodes]
    rfl
  obtain ⟨doc', parts', hdoc', hcheck', htells⟩ :=
    rebuild_entry_iff "" hcheck (by decide) hnames hentries hg
  rw [hgnames] at htells
  refine ⟨g, doc', parts', hg, hgnames, hdoc', hcheck', ?_, fun h => ?_⟩
  · obtain ⟨e, e', he, he', hiff⟩ := htells "a.vt" (by simp)
    obtain rfl : e = first := he.unique ⟨value, rfl, hfirst⟩
    rwa [hiff.mpr (by decide)] at he'
  · obtain ⟨e, e', he, he', hiff⟩ := htells "lib/b.vt" (by simp)
    obtain rfl : e = second := he.unique ⟨value', rfl, hsecond⟩
    have hlines : second.IsLineByLine := hiff.mp (he'.unique h)
    revert hlines
    decide

/-- One method that holds a line feed is not refused: the document loads as a program with two
methods, which is not what its entry says. -/
theorem rebuild_splits_method :
    let e : Entry := ⟨["1\n2"], [], []⟩
    let doc : Json := .object [(versionKey, .string version), (rootKey, .string "a"),
      (programsKey, .object [("a", .object [(methodsKey, .array [.string "1\n2"])])])]
    ∃ parts g doc' parts', check doc = .ok parts ∧ Path.IsCanonical "a" ∧ parts.Tells "a" e ∧
      rebuild doc = .ok g ∧ g.names = ["a"] ∧ ofGraph "" g = .ok doc' ∧ check doc' = .ok parts' ∧
      parts'.Tells "a" ⟨["1", "2"], [], []⟩ ∧ ¬ parts'.Tells "a" e := by
  intro e doc
  let value : Json := .object [(methodsKey, .array [.string "1\n2"])]
  have hcheck : check doc = .ok ⟨"a", [("a", value)]⟩ := rfl
  have hsources : sourcesOf [("a", value)] = .ok [("a", "1\n2\n")] := rfl
  let p : Program := ⟨[⟨[.literal 1], by simp⟩, ⟨[.literal 2], by simp⟩], [], []⟩
  have hparse : Program.parse "1\n2\n" (some "a") = .ok p := rfl
  have hex : Explores (Sources.ofSpelled [("a", "1\n2\n")]).store.content []
      [Path.canonical "a" none] [("a", p)] none :=
    .find (by decide) rfl (.done _)
  obtain ⟨g, hg, hroot, hnodes⟩ := rebuild_of_explores hcheck hsources hex
  obtain ⟨n, hn, hcontent⟩ := List.map_eq_singleton_iff.mp hnodes
  have hname : n.name = "a" := congrArg Prod.fst hcontent
  have hprogram : n.program = p := congrArg Prod.snd hcontent
  have hnames : g.names = ["a"] := by rw [Graph.names, hn, List.map_singleton, hname]
  have hparsed : ∀ m ∈ g.nodes, m.program.IsParsed := by
    intro m hm
    rw [hn, List.mem_singleton] at hm
    exact ⟨_, _, (hm ▸ hprogram) ▸ hparse⟩
  have hrootMem : g.root ∈ g.names := by
    rw [hnames, hroot]
    decide
  obtain ⟨doc', parts', hdoc', hcheck', htells⟩ :=
    tells_ofGraph "" (by rw [hnames]; decide) hrootMem hparsed
  -- the layout of the program is the entry of its two methods
  obtain ⟨l, hl, hreads⟩ := Program.exists_reads hparse
  have hlayout : ⟨["1", "2"], [], []⟩ = Entry.ofLayout l := by
    rw [Entry.eq_ofLayout_iff]
    · decide
    · exact hl
  have htells' := htells n (by simp [hn]) l (hprogram ▸ hreads)
  rw [hname, ← hlayout] at htells'
  refine ⟨_, g, doc', parts', hcheck, ⟨"a", none, by decide⟩, ⟨value, rfl, _, rfl, rfl, rfl, rfl⟩,
    hg, hnames, hdoc', hcheck', htells', fun h => ?_⟩
  exact absurd (h.unique htells') (by decide)

end StackFront.Image
