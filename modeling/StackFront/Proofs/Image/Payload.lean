import StackFront.Proofs.Image.RoundTrip
import StackFront.Proofs.Image.Sameness

/-!
# What the digest of an image depends on

The text that the digest is taken of has the time left out and all keys sorted. Two graphs of
programs that were read from texts have the same such text if and only if they have the same root
and the same programs under the same names: the compact text holds all of the sorted image, the
sorted image gives the entry of each name, and an entry the lines that its program was read from.
-/
namespace StackFront

/-- The lines of a layout are all there is to it. -/
theorem Program.Layout.ext_lines {l l' : Program.Layout} (hmethods : l.methodLines = l'.methodLines)
    (hextended : l.extended = l'.extended) (hused : l.used = l'.used) : l = l' := by
  cases l
  cases l'
  subst hmethods hextended hused
  rfl

namespace Image

theorem Entry.ofLayout_injective : Function.Injective Entry.ofLayout := by
  intro l l' h
  have hofList : Function.Injective (List.map String.ofList) :=
    List.map_injective_iff.mpr fun _ _ => String.ofList_injective
  simp only [Entry.ofLayout, Entry.mk.injEq] at h
  exact Program.Layout.ext_lines (hofList h.1) (hofList h.2.1) (hofList h.2.2)

theorem Lists.sorted {members : List (String × Json)} {key : String} {texts : List String}
    (hnodup : (members.map Prod.fst).Nodup) (h : Lists members key texts) :
    Lists (sorted members) key texts := by
  have hsort : ∀ value : Option Json, (value.map sortKeys).getD (.array []) =
      sortKeys (value.getD (.array [])) := by
    intro value
    cases value with
    | none => exact (sortKeys_strings []).symm
    | some v => rfl
  rw [Lists, member?_sorted hnodup, hsort, h, sortKeys_strings]

/-- An entry says the same with its keys sorted. -/
theorem says_sortKeys {p : Program} {value : Json} {e : Entry} (hvalue : entryOf p = .ok value)
    (h : Says value e) : Says (sortKeys value) e := by
  obtain ⟨members, rfl, hm, he, hu⟩ := h
  have hnodup : (members.map Prod.fst).Nodup := by
    rw [entryOf] at hvalue
    cases hmethods : Program.formatMethods p.methods with
    | error f => simp [hmethods, Except.map] at hvalue
    | ok methods =>
      simp only [hmethods, Except.map, Except.ok.injEq, Json.object.injEq] at hvalue
      subst hvalue
      have hkeys : [methodsKey, targetsKey .extend, targetsKey .use].Nodup := by decide
      exact hkeys
  exact ⟨sorted members, by rw [sortKeys, sorted], hm.sorted hnodup, he.sorted hnodup,
    hu.sorted hnodup⟩

/-- The sorted entries of different programs are different. -/
theorem sortKeys_entryOf_iff {p q : Program} {value value' : Json} (hp : p.IsParsed)
    (hq : q.IsParsed) (hvalue : entryOf p = .ok value) (hvalue' : entryOf q = .ok value') :
    sortKeys value = sortKeys value' ↔ p = q := by
  constructor
  · intro h
    obtain ⟨l, hl⟩ := hp.exists_layout
    obtain ⟨l', hl'⟩ := hq.exists_layout
    obtain ⟨_, hv, hsays⟩ := says_ofLayout hl
    obtain ⟨_, hv', hsays'⟩ := says_ofLayout hl'
    rw [hvalue] at hv
    rw [hvalue'] at hv'
    cases hv
    cases hv'
    have hsorted := says_sortKeys hvalue hsays
    rw [h] at hsorted
    have hlayout := Entry.ofLayout_injective (hsorted.unique (says_sortKeys hvalue' hsays'))
    exact hl.unique (hlayout ▸ hl')
  · rintro rfl
    rw [hvalue, Except.ok.injEq] at hvalue'
    rw [hvalue']

/-- Under the name of a node stands its entry, and under no other name any. -/
theorem member?_entriesOf {g : Graph} {entries : List (String × Json)}
    (h : entriesOf g.nodes = .ok entries) (name : Name) :
    (g.find? name = none ∧ Json.member? entries name = none) ∨
      ∃ n value, g.find? name = some n ∧ Json.member? entries name = some value ∧
        entryOf n.program = .ok value := by
  obtain ⟨root, nodes⟩ := g
  simp only [Graph.find?] at h ⊢
  induction nodes generalizing entries with
  | nil =>
    cases h
    exact .inl ⟨rfl, rfl⟩
  | cons n nodes ih =>
    rw [entriesOf] at h
    cases hvalue : entryOf n.program with
    | error f => simp [hvalue] at h
    | ok value =>
      cases hrest : entriesOf nodes with
      | error f => simp [hvalue, hrest, Except.map] at h
      | ok rest =>
        simp only [hvalue, hrest, Except.map, Except.ok.injEq] at h
        subst h
        by_cases hname : n.name = name
        · subst hname
          exact .inr ⟨n, value, by simp, Json.member?_cons_self, hvalue⟩
        · rw [Json.member?_cons_of_ne hname, List.find?_cons_of_neg (by simpa using hname)]
          exact ih hrest

/-- The programs of a graph can be told by its sorted entries. -/
theorem sorted_entries_iff {g g' : Graph} {entries entries' : List (String × Json)}
    (h : entriesOf g.nodes = .ok entries) (h' : entriesOf g'.nodes = .ok entries')
    (hparsed : ∀ n ∈ g.nodes, n.program.IsParsed) (hparsed' : ∀ n ∈ g'.nodes, n.program.IsParsed)
    (hnodup : (entries.map Prod.fst).Nodup) (hnodup' : (entries'.map Prod.fst).Nodup) :
    sorted entries = sorted entries' ↔
      ∀ name, (g.get? name).map Loaded.program = (g'.get? name).map Loaded.program := by
  rw [sorted_eq_iff hnodup hnodup']
  refine forall_congr' fun name => ?_
  simp only [Graph.get?, Option.map_map]
  rcases member?_entriesOf h name with ⟨hn, hv⟩ | ⟨n, value, hn, hv, hvalue⟩
  · rcases member?_entriesOf h' name with ⟨hn', hv'⟩ | ⟨n', value', hn', hv', hvalue'⟩
    · simp [hn, hv, hn', hv']
    · simp [hn, hv, hn', hv']
  · rcases member?_entriesOf h' name with ⟨hn', hv'⟩ | ⟨n', value', hn', hv', hvalue'⟩
    · simp [hn, hv, hn', hv']
    · have hiff := sortKeys_entryOf_iff (hparsed n (List.mem_of_find?_eq_some hn))
        (hparsed' n' (List.mem_of_find?_eq_some hn')) hvalue hvalue'
      rw [hn, hv, hn', hv', Option.map_some, Option.map_some, Option.map_some, Option.map_some,
        Option.some.injEq, Option.some.injEq]
      exact hiff

/-- What the digest of a graph is taken of, before it is written. -/
def digested (root : Name) (entries : List (String × Json)) : List (String × Json) :=
  [(versionKey, .string version), (rootKey, .string root), (programsKey, .object entries)]

theorem nodup_digested (root : Name) (entries : List (String × Json)) :
    ((digested root entries).map Prod.fst).Nodup := by
  have hkeys : (digested root entries).map Prod.fst = [versionKey, rootKey, programsKey] := rfl
  rw [hkeys]
  decide

theorem hasNoNumbers_entryOf {p : Program} {value : Json} (h : entryOf p = .ok value) :
    value.HasNoNumbers := by
  rw [entryOf] at h
  cases hmethods : Program.formatMethods p.methods with
  | error e => simp [hmethods, Except.map] at h
  | ok methods =>
    simp only [hmethods, Except.map, Except.ok.injEq] at h
    subst h
    refine .object trivial fun m hm => ?_
    simp only [List.mem_cons, List.not_mem_nil, or_false] at hm
    rcases hm with rfl | rfl | rfl <;> exact Json.hasNoNumbers_strings _

theorem hasNoNumbers_entriesOf {nodes : List Node} {entries : List (String × Json)}
    (h : entriesOf nodes = .ok entries) : (Json.object entries).HasNoNumbers := by
  refine .object trivial ?_
  induction nodes generalizing entries with
  | nil =>
    cases h
    simp
  | cons n nodes ih =>
    rw [entriesOf] at h
    cases hvalue : entryOf n.program with
    | error f => simp [hvalue] at h
    | ok value =>
      cases hrest : entriesOf nodes with
      | error f => simp [hvalue, hrest, Except.map] at h
      | ok rest =>
        simp only [hvalue, hrest, Except.map, Except.ok.injEq] at h
        subst h
        exact List.forall_mem_cons.mpr ⟨hasNoNumbers_entryOf hvalue, ih hrest⟩

theorem hasNoNumbers_digested {nodes : List Node} {entries : List (String × Json)}
    (h : entriesOf nodes = .ok entries) (root : Name) :
    (Json.object (digested root entries)).HasNoNumbers := by
  refine .object trivial fun m hm => ?_
  simp only [digested, List.mem_cons, List.not_mem_nil, or_false] at hm
  rcases hm with rfl | rfl | rfl
  · exact .string trivial
  · exact .string trivial
  · exact hasNoNumbers_entriesOf h

/-- The time is left out. -/
theorem payload_ofGraph {g : Graph} {entries : List (String × Json)} (timestamp : String)
    (h : entriesOf g.nodes = .ok entries) :
    ∃ doc, ofGraph timestamp g = .ok doc ∧
      payload doc = .ok (Json.compact (.object (sorted (digested g.root entries)))) := by
  rw [ofGraph, h]
  refine ⟨_, rfl, ?_⟩
  have htimestamp : versionKey ≠ timestampKey ∧ rootKey ≠ timestampKey ∧
      programsKey ≠ timestampKey := by decide
  have huntimed : untimed [(versionKey, .string version), (timestampKey, .string timestamp),
      (rootKey, .string g.root), (programsKey, .object entries)] = digested g.root entries := by
    simp [untimed, digested, htimestamp]
  rw [payload_object, huntimed, (hasNoNumbers_digested h g.root).hasFewDigits.hasLong_eq_false,
    if_neg Bool.false_ne_true, sortKeys, sorted]

theorem sorted_digested_iff {root root' : Name} {entries entries' : List (String × Json)} :
    sorted (digested root entries) = sorted (digested root' entries') ↔
      root = root' ∧ sorted entries = sorted entries' := by
  have hversion : versionKey ≠ rootKey ∧ versionKey ≠ programsKey := by decide
  have hroot : rootKey ≠ programsKey := by decide
  constructor
  · intro h
    rw [sorted_eq_iff (nodup_digested ..) (nodup_digested ..)] at h
    have hroots := h rootKey
    have hprograms := h programsKey
    simp only [digested, Json.member?_cons_of_ne hversion.1, Json.member?_cons_self,
      Option.map_some, sortKeys, Option.some.injEq, Json.string.injEq] at hroots
    simp only [digested, Json.member?_cons_of_ne hversion.2, Json.member?_cons_of_ne hroot,
      Json.member?_cons_self, Option.map_some, sortKeys, Option.some.injEq,
      Json.object.injEq] at hprograms
    exact ⟨hroots, hprograms⟩
  · rintro ⟨rfl, hentries⟩
    have hobject : sortKeys (.object entries) = sortKeys (.object entries') := by
      rw [sortKeys, sortKeys]
      exact congrArg Json.object hentries
    rw [sorted, sorted, digested, digested]
    simp only [sortEach, hobject]

end Image

theorem Graph.mem_names_iff {g : Graph} {name : Name} :
    name ∈ g.names ↔ (g.get? name).isSome := by
  rw [names, List.mem_map, get?, Option.isSome_map, find?, List.find?_isSome]
  simp only [decide_eq_true_eq]

namespace Session

variable {s s' : Session} {spelled spelled' : String} {g g' : Graph}

/-- The entries of a resolved graph. -/
theorem exists_entries (hparsed : s.OnlyParsed) (hg : (s.resolve spelled).1 = .ok g) :
    ∃ entries, Image.entriesOf g.nodes = .ok entries ∧ (entries.map Prod.fst).Nodup ∧
      ∀ n ∈ g.nodes, n.program.IsParsed := by
  obtain ⟨hex, -, -⟩ := explores_of_resolve hg
  have hnodes : ∀ n ∈ g.nodes, n.program.IsParsed := fun n hn =>
    hparsed.content (hex.found_eq n.content (List.mem_map_of_mem hn))
  obtain ⟨entries, -, hentries, -, hnames, -⟩ := Image.sourcesOf_entriesOf hnodes
  refine ⟨entries, hentries, ?_, hnodes⟩
  have hnodup := hex.found_nodup
  rw [← g.names_eq_content] at hnodup
  rw [hnames]
  exact hnodup

/-- The text that the digest of an image is taken of tells the root, the names and the programs of
the graph, and nothing else. -/
theorem payload_eq_iff (timestamp timestamp' : String) (hparsed : s.OnlyParsed)
    (hparsed' : s'.OnlyParsed) (hg : (s.resolve spelled).1 = .ok g)
    (hg' : (s'.resolve spelled').1 = .ok g') :
    ∃ doc doc' text text', Image.ofGraph timestamp g = .ok doc ∧
      Image.ofGraph timestamp' g' = .ok doc' ∧ Image.payload doc = .ok text ∧
      Image.payload doc' = .ok text' ∧
      (text = text' ↔ g.root = g'.root ∧ (∀ name, name ∈ g.names ↔ name ∈ g'.names) ∧
        ∀ name, (g.get? name).map Loaded.program = (g'.get? name).map Loaded.program) := by
  obtain ⟨entries, hentries, hnodup, hnodes⟩ := exists_entries hparsed hg
  obtain ⟨entries', hentries', hnodup', hnodes'⟩ := exists_entries hparsed' hg'
  obtain ⟨doc, hdoc, hpayload⟩ := Image.payload_ofGraph timestamp hentries
  obtain ⟨doc', hdoc', hpayload'⟩ := Image.payload_ofGraph timestamp' hentries'
  refine ⟨doc, doc', _, _, hdoc, hdoc', hpayload, hpayload', ?_⟩
  have hfloats : ∀ {nodes : List Node} {entries : List (String × Json)} {root : Name},
      Image.entriesOf nodes = .ok entries →
        (Json.object (Image.sorted (Image.digested root entries))).HasNoFloats := by
    intro nodes entries root h
    have hsorted := Image.hasNoFloats_sortKeys (Image.hasNoNumbers_digested h root).hasNoFloats
    rwa [Image.sortKeys] at hsorted
  rw [Json.compact_inj (hfloats hentries) (hfloats hentries'), Json.object.injEq,
    Image.sorted_digested_iff,
    Image.sorted_entries_iff hentries hentries' hnodes hnodes' hnodup hnodup']
  refine and_congr_right fun _ => ⟨fun h => ⟨fun name => ?_, h⟩, fun h => h.2⟩
  have hsome := congrArg Option.isSome (h name)
  rw [Option.isSome_map, Option.isSome_map] at hsome
  rw [Graph.mem_names_iff, Graph.mem_names_iff, hsome]

/-- The same two programs in another order, with another spelling of the root, blank lines at an
end, an unused source and another time; and one program changed. -/
theorem payload_eq_iff_respelled :
    let sources : Sources := [("a.vt", "N\n;e b.vt\n"), ("b.vt", "1+\n;u a.vt\n")]
    let sources' : Sources :=
      [("c.vt", "N\n"), ("b.vt", "1+\n;u a.vt\n\n\n"), ("a.vt", "N\n;e b.vt")]
    let sources'' : Sources := [("a.vt", "N\n;e b.vt\n"), ("b.vt", "2+\n;u a.vt\n")]
    ∃ g g' g'' doc doc' doc'' text text' text'',
      ((ofSources sources).resolve "a.vt").1 = .ok g ∧
      ((ofSources sources').resolve "./x/..//a.vt").1 = .ok g' ∧
      ((ofSources sources'').resolve "a.vt").1 = .ok g'' ∧
      Image.ofGraph "2024" g = .ok doc ∧ Image.ofGraph "2025" g' = .ok doc' ∧
      Image.ofGraph "2024" g'' = .ok doc'' ∧ Image.payload doc = .ok text ∧
      Image.payload doc' = .ok text' ∧ Image.payload doc'' = .ok text'' ∧
      text = text' ∧ text ≠ text'' := by
  intro sources sources' sources''
  have hex : ∃ p q r,
      Explores (ofSources sources).content [] [Path.canonical "a.vt" none]
        [("a.vt", p), ("b.vt", q)] none ∧
      Explores (ofSources sources').content [] [Path.canonical "./x/..//a.vt" none]
        [("a.vt", p), ("b.vt", q)] none ∧
      Explores (ofSources sources'').content [] [Path.canonical "a.vt" none]
        [("a.vt", p), ("b.vt", r)] none ∧ q ≠ r :=
    ⟨_, _, _,
      .find (by decide) rfl (.find (by decide) rfl (.drop (by decide) (.done _))),
      .find (by decide) rfl (.find (by decide) rfl (.drop (by decide) (.done _))),
      .find (by decide) rfl (.find (by decide) rfl (.drop (by decide) (.done _))), by decide⟩
  obtain ⟨p, q, r, hex, hex', hex'', hne⟩ := hex
  obtain ⟨g, hg, hroot, hnodes, -⟩ := resolve_of_explores hex
  obtain ⟨g', hg', hroot', hnodes', -⟩ := resolve_of_explores hex'
  obtain ⟨g'', hg'', -, hnodes'', -⟩ := resolve_of_explores hex''
  have hparsed : ∀ sources, (ofSources sources).OnlyParsed := fun _ _ _ h => by cases h
  obtain ⟨doc, doc', text, text', hdoc, hdoc', htext, htext', hsame⟩ :=
    payload_eq_iff "2024" "2025" (hparsed _) (hparsed _) hg hg'
  obtain ⟨_, doc'', _, text'', hdoc₂, hdoc'', htext₂, htext'', hother⟩ :=
    payload_eq_iff "2024" "2024" (hparsed _) (hparsed _) hg hg''
  obtain rfl := Except.ok.inj (hdoc.symm.trans hdoc₂)
  obtain rfl := Except.ok.inj (htext.symm.trans htext₂)
  refine ⟨g, g', g'', doc, doc', doc'', text, text', text'', hg, hg', hg'', hdoc, hdoc', hdoc'',
    htext, htext', htext'', hsame.mpr ⟨?_, fun name => ?_, fun name => ?_⟩, fun htexts => ?_⟩
  · rw [hroot, hroot']
    decide
  · rw [g.names_eq_content, g'.names_eq_content, hnodes, hnodes']
  · rw [g.get?_eq_content, g'.get?_eq_content, hnodes, hnodes']
  · have hprogram := (hother.mp htexts).2.2 "b.vt"
    rw [g.get?_eq_content, g''.get?_eq_content, hnodes, hnodes''] at hprogram
    exact hne (Option.some.inj hprogram)

end Session

end StackFront
