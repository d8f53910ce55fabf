import Mathlib.Data.List.Nodup
import StackFront.Proofs.CommandLine.Outputs
import StackFront.Proofs.Drawing.Clusters
import StackFront.Proofs.Session.Characters

/-!
# Identifiers of boxes

The identifier of a box tells the program that it belongs to up to the double quotes in the name of
that program, and the method. So the boxes of a drawing have identifiers of their own exactly if no
two names differ in double quotes only. This is so whenever the root is spelled without any; a root
with double quotes may be given the identifier of another program.
-/
namespace StackFront

namespace Drawing

/-- A name without its double quotes. -/
def bare (name : Name) : List Char :=
  name.toList.filter (· ≠ '\x22')

/-- The boxes of all clusters. -/
def boxes (d : Drawing) : List Box :=
  d.clusters.flatMap (·.boxes)

/-- The identifiers of all boxes. -/
def boxIds (d : Drawing) : List String :=
  d.boxes.map (·.id)

variable {name other : Name} {id : String} {s s' t t' : List Char} {n m : Node} {nodes : List Node}
  {g : Graph} {d : Drawing}

/-! ## Reading identifiers -/

theorem not_mem_bare (name : Name) : '\x22' ∉ bare name := by
  simp [bare]

theorem bare_eq_toList (h : '\x22' ∉ name.toList) : bare name = name.toList := by
  rw [bare, List.filter_eq_self]
  intro c hc
  simpa using fun heq : c = '\x22' => h (heq ▸ hc)

theorem toList_boxId (name : Name) :
    (boxId name).toList = '\x22' :: (bare name ++ ['\x22']) := by
  rw [boxId, String.toList_ofList]
  rfl

theorem toList_methodBoxId (name : Name) (index : Nat) : (methodBoxId name index).toList =
    '\x22' :: (bare name ++ '\x22' :: '_' :: 'm' :: Nat.toDigits 10 index) := by
  have hid : methodBoxId name index = boxId name ++ "_m" ++ Nat.repr index := rfl
  rw [hid, String.toList_append, String.toList_append, toList_boxId, Nat.repr,
    String.toList_ofList]
  simp

theorem toDigits_inj {i j : Nat} (h : Nat.toDigits 10 i = Nat.toDigits 10 j) : i = j := by
  have hback : ∀ k, Nat.ofDigitChars 10 (Nat.toDigits 10 k) 0 = k := fun k =>
    Nat.ofDigitChars_toDigits (by decide) (by decide)
  rw [← hback i, h, hback]

/-- What stands before the first double quote is told from what stands behind it. -/
theorem eq_and_eq_of_quote (hs : '\x22' ∉ s) (hs' : '\x22' ∉ s')
    (h : s ++ '\x22' :: t = s' ++ '\x22' :: t') : s = s' ∧ t = t' := by
  have hsplit := congrArg (Text.splitAt '\x22') h
  rw [Text.splitAt_append_cons hs, Text.splitAt_append_cons hs'] at hsplit
  obtain ⟨rfl, -⟩ := List.cons.inj hsplit
  exact ⟨rfl, (List.cons.inj (List.append_cancel_left h)).2⟩

/-- An identifier is the name of its program in quotes, followed by something else for a method. -/
theorem mem_nodeIds_iff : id ∈ nodeIds n ↔ id = boxId n.name ∨
    ∃ i < n.program.methods.length, id = methodBoxId n.name i := by
  simp only [nodeIds, List.mem_cons, List.mem_map, List.mem_range, eq_comm]

theorem boxId_eq_iff : boxId name = boxId other ↔ bare name = bare other := by
  rw [← String.toList_inj, toList_boxId, toList_boxId, List.cons.injEq, List.append_cancel_right_eq]
  simp only [true_and]

theorem boxId_ne_methodBoxId (i : Nat) : boxId name ≠ methodBoxId other i := by
  intro h
  have hchars := congrArg String.toList h
  rw [toList_boxId, toList_methodBoxId, List.cons.injEq] at hchars
  cases (eq_and_eq_of_quote (not_mem_bare name) (not_mem_bare other) hchars.2).2

theorem methodBoxId_eq_iff {i j : Nat} :
    methodBoxId name i = methodBoxId other j ↔ bare name = bare other ∧ i = j := by
  rw [← String.toList_inj, toList_methodBoxId, toList_methodBoxId, List.cons.injEq]
  constructor
  · rintro ⟨-, h⟩
    obtain ⟨hbare, hrest⟩ := eq_and_eq_of_quote (not_mem_bare name) (not_mem_bare other) h
    simp only [List.cons.injEq, true_and] at hrest
    exact ⟨hbare, toDigits_inj hrest⟩
  · rintro ⟨hbare, rfl⟩
    rw [hbare]
    exact ⟨rfl, rfl⟩

theorem nodup_nodeIds (n : Node) : (nodeIds n).Nodup := by
  rw [nodeIds, List.nodup_cons]
  constructor
  · intro hmem
    obtain ⟨i, -, hi⟩ := List.mem_map.mp hmem
    exact boxId_ne_methodBoxId i hi.symm
  · exact List.nodup_range.map fun i j hij => (methodBoxId_eq_iff.mp hij).2

/-- Two programs share an identifier exactly if their names differ in double quotes only. -/
theorem disjoint_nodeIds_iff :
    List.Disjoint (nodeIds n) (nodeIds m) ↔ bare n.name ≠ bare m.name := by
  constructor
  · intro h hbare
    exact h (mem_nodeIds_iff.mpr (.inl rfl)) (mem_nodeIds_iff.mpr (.inl (boxId_eq_iff.mpr hbare)))
  · intro hne id hn hm
    rcases mem_nodeIds_iff.mp hn with rfl | ⟨i, -, rfl⟩ <;>
      rcases mem_nodeIds_iff.mp hm with h | ⟨j, -, h⟩
    · exact hne (boxId_eq_iff.mp h)
    · exact boxId_ne_methodBoxId j h
    · exact boxId_ne_methodBoxId i h.symm
    · exact hne (methodBoxId_eq_iff.mp h).1

/-! ## Identifiers of a drawing -/

/-- The identifiers of a drawing are those of the programs in its clusters. -/
theorem boxIds_eq (h : List.Forall₂ Depicts d.clusters nodes) :
    d.boxIds = nodes.flatMap nodeIds := by
  rw [boxIds, boxes]
  generalize d.clusters = cs at h
  induction h with
  | nil => rfl
  | cons hc _ ih => rw [List.flatMap_cons, List.flatMap_cons, List.map_append, hc.ids, ih]

theorem nodup_flatMap_nodeIds_iff :
    (nodes.flatMap nodeIds).Nodup ↔ (nodes.map fun n => bare n.name).Nodup := by
  rw [List.nodup_flatMap, List.nodup_iff_pairwise_ne, List.pairwise_map]
  have hdisjoint : Function.onFun List.Disjoint nodeIds =
      fun n m => bare n.name ≠ bare m.name := by
    funext n m
    exact propext disjoint_nodeIds_iff
  rw [hdisjoint]
  exact and_iff_right fun n _ => nodup_nodeIds n

/-- No two names differ in double quotes only. -/
def TellsApart (g : Graph) : Prop :=
  ∀ name ∈ g.names, ∀ other ∈ g.names, bare name = bare other → name = other

theorem Shows.nodup_boxIds_iff (h : d.Shows g) (hnodup : g.names.Nodup) :
    d.boxIds.Nodup ↔ TellsApart g := by
  obtain ⟨nodes, hperm, hclusters⟩ := h.clusters
  have hnames : (g.nodes.map fun n => bare n.name) = g.names.map bare := by
    rw [Graph.names, List.map_map]
    rfl
  rw [boxIds_eq hclusters, nodup_flatMap_nodeIds_iff, (hperm.map _).nodup_iff, hnames,
    List.nodup_map_iff_inj_on hnodup]
  rfl

/-- Among the boxes of a drawing, the one of a program is the only one of its identifier. -/
structure Identifies (d : Drawing) (n : Node) : Prop where
  mem : programBox n ∈ d.boxes
  unique : ∀ b ∈ d.boxes, b.id = boxId n.name → b = programBox n

theorem Shows.identifies (h : d.Shows g) (hids : d.boxIds.Nodup) (hn : n ∈ g.nodes) :
    d.Identifies n := by
  obtain ⟨c, hc, hdepicts⟩ := h.exists_cluster hn
  obtain ⟨lines, -, hboxes⟩ := hdepicts.boxes
  have hmem : programBox n ∈ d.boxes :=
    List.mem_flatMap.mpr ⟨c, hc, hboxes ▸ List.mem_cons_self ..⟩
  exact ⟨hmem, fun b hb hid => List.inj_on_of_nodup_map hids hb hmem hid⟩

end Drawing

namespace Session

variable {s : Session} {spelled : String} {g : Graph}

open Drawing

/-- Unless the root is spelled with a double quote, no name has one. -/
theorem tellsApart_of_resolve (hs : s.OnlyParsed) (hquote : '\x22' ∉ spelled.toList)
    (hshows : g.Shows (Path.canonical spelled none) s (s.resolve spelled).2) : TellsApart g := by
  have hfree : ∀ name ∈ g.names, bare name = name.toList := fun name hname =>
    bare_eq_toList <| hs.not_mem_of_reaches (by decide) ((hshows.mem_names name).mp hname)
      (not_mem_canonical (by decide) hquote (by simp))
  intro name hname other hother hbare
  rw [hfree name hname, hfree other hother] at hbare
  exact String.toList_inj.mp hbare

/-- A resolved graph can be drawn if and only if each operation of its programs has a character. Its
drawing has one cluster for each program, with a box for the program and one for each method, and a
line for each edge between the identifiers of its ends. All boxes have identifiers of their own if
and only if no two names differ in double quotes only, and then the lines join just the boxes of the
two programs. Where all programs were read from texts, it takes no more than a root without double
quotes. -/
theorem resolve_drawing (hg : (s.resolve spelled).1 = .ok g) :
    ((∃ d, ({} : Tools).draw g = .ok d) ↔
        ∀ n ∈ g.nodes, ∀ m ∈ n.program.methods, .opcode .arccosine ∉ m.ops) ∧
      (∀ d, ({} : Tools).draw g = .ok d →
        d.Shows g ∧ (d.boxIds.Nodup ↔ TellsApart g) ∧
          (TellsApart g → ∀ e ∈ g.edges, ∃ n ∈ g.nodes, ∃ m ∈ g.nodes, n.name = e.source ∧
            m.name = e.target ∧ d.Identifies n ∧ d.Identifies m)) ∧
      (s.OnlyParsed → '\x22' ∉ spelled.toList → TellsApart g) := by
  obtain ⟨hex, hroot, hknown⟩ := explores_of_resolve hg
  have hgraph := Graph.shows_of_explores hex hroot hknown
  refine ⟨?_, fun d hd => ?_, fun hs hquote => tellsApart_of_resolve hs hquote hgraph⟩
  · simp only [Tools.draw_eq_ok_iff, exists_ofGraph_iff, Program.exists_formatMethods_iff]
  · have hshows := shows_of_ofGraph (Tools.draw_eq_ok_iff.mp hd)
    refine ⟨hshows, hshows.nodup_boxIds_iff hgraph.nodup, fun hapart e he => ?_⟩
    have hids := (hshows.nodup_boxIds_iff hgraph.nodup).mpr hapart
    obtain ⟨hsource, htarget⟩ := hgraph.edge e he
    obtain ⟨n, hn, hname⟩ := List.mem_map.mp hsource
    obtain ⟨m, hm, hname'⟩ := List.mem_map.mp htarget
    exact ⟨n, hn, m, hm, hname, hname', hshows.identifies hids hn, hshows.identifies hids hm⟩

/-- A cycle of references between two programs, one of which has two methods. -/
theorem resolve_drawing_cycle :
    let sources : Sources := [("a.vt", "m\n1\n;u b.vt\n"), ("b.vt", "2\n;e a.vt\n")]
    ∃ g d, ((ofSources sources).resolve "a.vt").1 = .ok g ∧ ({} : Tools).draw g = .ok d ∧
      g.names = ["a.vt", "b.vt"] ∧ d.Shows g ∧ d.boxIds.Nodup ∧ d.lines.length = 2 := by
  intro sources
  have hroot : Path.canonical "a.vt" none = "a.vt" := by decide
  have hcontent : ∃ p q, (ofSources sources).content "a.vt" = .ok p ∧
      (ofSources sources).content "b.vt" = .ok q ∧
      p.successors "a.vt" = ["b.vt"] ∧ q.successors "b.vt" = ["a.vt"] ∧
      [("a.vt", p), ("b.vt", q)].flatMap Graph.contentEdges =
        [⟨"a.vt", "b.vt", .use⟩, ⟨"b.vt", "a.vt", .extend⟩] :=
    ⟨_, _, rfl, rfl, by decide, by decide, by decide⟩
  obtain ⟨p, q, hp, hq, ha, hb, hedges⟩ := hcontent
  have hex : Explores (ofSources sources).content [] [Path.canonical "a.vt" none]
      [("a.vt", p), ("b.vt", q)] none := by
    rw [hroot]
    refine .find (by decide) hp ?_
    rw [Walk.pendingAfter, ha]
    refine .find (by decide) hq ?_
    rw [Walk.pendingAfter, hb]
    exact .drop (by decide) (.done _)
  obtain ⟨g, hg, -, hnodes, -⟩ := resolve_of_explores hex
  have hparsed : (ofSources sources).OnlyParsed := onlyParsed_of_fresh rfl
  obtain ⟨-, hdrawn, hfree⟩ := resolve_drawing hg
  have hapart := hfree hparsed (by decide)
  obtain ⟨d, hd⟩ := exists_ofGraph (hparsed.graph hg)
  have hdraw := Tools.draw_eq_ok_iff.mpr hd
  obtain ⟨hshows, hids, -⟩ := hdrawn d hdraw
  rw [← hnodes, ← Graph.edges_eq_content] at hedges
  refine ⟨g, d, hg, hdraw, ?_, hshows, hids.mpr hapart, ?_⟩
  · rw [g.names_eq_content, hnodes]
    rfl
  · rw [hshows.lines.length_eq, hedges]
    rfl

/-- Two programs whose names differ in a double quote get one identifier. -/
theorem resolve_drawing_clash :
    let sources : Sources := [("a\x22", "m\n;u a\n"), ("a", "m\n")]
    ∃ g d, ((ofSources sources).resolve "a\x22").1 = .ok g ∧ ({} : Tools).draw g = .ok d ∧
      ¬ d.boxIds.Nodup := by
  intro sources
  have hroot : Path.canonical "a\x22" none = "a\x22" := by decide
  have hcontent : ∃ p q, (ofSources sources).content "a\x22" = .ok p ∧
      (ofSources sources).content "a" = .ok q ∧
      p.successors "a\x22" = ["a"] ∧ q.successors "a" = [] :=
    ⟨_, _, rfl, rfl, by decide, by decide⟩
  obtain ⟨p, q, hp, hq, hsuccessors, hnone⟩ := hcontent
  have hex : Explores (ofSources sources).content [] [Path.canonical "a\x22" none]
      [("a\x22", p), ("a", q)] none := by
    rw [hroot]
    refine .find (by decide) hp ?_
    rw [Walk.pendingAfter, hsuccessors]
    refine .find (by decide) hq ?_
    rw [Walk.pendingAfter, hnone]
    exact .done _
  obtain ⟨g, hg, -, hnodes, -⟩ := resolve_of_explores hex
  have hparsed : (ofSources sources).OnlyParsed := onlyParsed_of_fresh rfl
  have hnames : g.names = ["a\x22", "a"] := by
    rw [g.names_eq_content, hnodes]
    rfl
  obtain ⟨d, hd⟩ := exists_ofGraph (hparsed.graph hg)
  refine ⟨g, d, hg, Tools.draw_eq_ok_iff.mpr hd, ?_⟩
  rw [(shows_of_ofGraph hd).nodup_boxIds_iff (by rw [hnames]; decide), TellsApart, hnames]
  decide

end Session

end StackFront
