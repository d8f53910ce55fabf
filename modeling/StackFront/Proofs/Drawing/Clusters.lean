import Mathlib.Data.List.Forall2
import StackFront.Drawing
import StackFront.Proofs.Program.WrittenForm

/-!
# What a drawing consists of

A graph can be drawn exactly if each operation of its programs has a character. The drawing then has
a cluster for each program, which holds a box for the program and one for each of its methods, and a
line for each edge of the graph.
-/
namespace StackFront

namespace Op

variable {ops : List Op} {line : List Char}

theorem encodeAll_eq_ok_iff : encodeAll ops = .ok line ↔ line.map ofChar? = ops.map some := by
  refine ⟨fun h => ?_, encodeAll_of_map⟩
  induction ops generalizing line with
  | nil =>
    cases h
    rfl
  | cons op ops ih =>
    rw [encodeAll] at h
    cases hop : op.encode with
    | error e => simp [hop] at h
    | ok c =>
      cases hops : encodeAll ops with
      | error e => simp [hop, hops, Except.map] at h
      | ok rest =>
        simp only [hop, hops, Except.map, Except.ok.injEq] at h
        subst h
        rw [List.map_cons, List.map_cons, encode_eq_ok_iff.mp hop, ih hops]

end Op

/-- The line of a method spells its operations. -/
theorem Method.format_eq_ok_iff {m : Method} {line : String} :
    m.format = .ok line ↔ line.toList.map Op.ofChar? = m.ops.map some := by
  rw [← Op.encodeAll_eq_ok_iff, format]
  cases Op.encodeAll m.ops with
  | error e => simp [Except.map]
  | ok chars =>
    simp only [Except.map, Except.ok.injEq]
    constructor
    · rintro rfl
      exact String.toList_ofList.symm
    · rintro rfl
      exact String.ofList_toList

theorem Method.exists_format_iff {m : Method} :
    (∃ line, m.format = .ok line) ↔ .opcode .arccosine ∉ m.ops := by
  simp only [format_eq_ok_iff]
  constructor
  · rintro ⟨line, hline⟩ hmem
    have hsome : some (Op.opcode .arccosine) ∈ line.toList.map Op.ofChar? :=
      hline ▸ List.mem_map_of_mem hmem
    obtain ⟨c, -, hc⟩ := List.mem_map.mp hsome
    exact Op.ofChar?_ne_arccosine c hc
  · intro h
    obtain ⟨line, hline⟩ := Op.exists_line h
    exact ⟨String.ofList line, by rwa [String.toList_ofList]⟩

namespace Program

variable {methods : List Method} {lines : List String}

theorem formatMethods_eq_ok_iff :
    formatMethods methods = .ok lines ↔ methods.map Method.format = lines.map .ok := by
  induction methods generalizing lines with
  | nil => cases lines <;> simp [formatMethods]
  | cons m methods ih =>
    rw [formatMethods, List.map_cons]
    cases hm : m.format with
    | error e => cases lines <;> simp
    | ok line =>
      cases lines with
      | nil => cases formatMethods methods <;> simp [Except.map]
      | cons first others =>
        rw [List.map_cons, List.cons.injEq, Except.ok.injEq, ← ih]
        cases formatMethods methods <;> simp [Except.map]

theorem exists_formatMethods_iff :
    (∃ lines, formatMethods methods = .ok lines) ↔ ∀ m ∈ methods, .opcode .arccosine ∉ m.ops := by
  simp only [formatMethods_eq_ok_iff, ← Method.exists_format_iff]
  induction methods with
  | nil => simp
  | cons m methods ih =>
    rw [List.forall_mem_cons, ← ih]
    constructor
    · rintro ⟨_ | ⟨line, lines⟩, h⟩
      · cases h
      · rw [List.map_cons, List.map_cons, List.cons.injEq] at h
        exact ⟨⟨line, h.1⟩, lines, h.2⟩
    · rintro ⟨⟨line, hline⟩, lines, hlines⟩
      exact ⟨line :: lines, by rw [List.map_cons, List.map_cons, hline, hlines]⟩

end Program

namespace Drawing

variable {number : Nat} {n : Node} {nodes : List Node} {c : Cluster}
  {cs : List Cluster} {g : Graph} {d : Drawing}

theorem methodBoxes_eq (name : Name) (index : Nat) (lines : List String) :
    methodBoxes name index lines = lines.mapIdx fun i line => methodBox name (index + i) line := by
  induction lines generalizing index with
  | nil => rfl
  | cons line lines ih =>
    rw [methodBoxes, ih, List.mapIdx_cons]
    simp only [Nat.add_zero, Nat.add_assoc, Nat.add_comm 1]

/-- The identifiers in the cluster of a program: its own, then those of its methods. -/
def nodeIds (n : Node) : List String :=
  boxId n.name :: (List.range n.program.methods.length).map (methodBoxId n.name)

/-- The cluster of a program bears its name; it has a box for the program and then, method after
method, one for the line of each. -/
structure Depicts (c : Cluster) (n : Node) : Prop where
  label : ("label", n.name) ∈ c.attributes
  ids : c.boxes.map (·.id) = nodeIds n
  boxes : ∃ lines : List String, n.program.methods.map Method.format = lines.map .ok ∧
    c.boxes = programBox n :: lines.mapIdx (methodBox n.name)

theorem map_id_mapIdx (name : Name) (lines : List String) :
    (lines.mapIdx (methodBox name)).map (·.id) =
      (List.range lines.length).map (methodBoxId name) :=
  List.ext_getElem (by simp) fun i _ _ => by simp [methodBox]

theorem depicts_of_cluster (h : cluster number n = .ok c) : Depicts c n := by
  rw [cluster] at h
  cases hlines : Program.formatMethods n.program.methods with
  | error e =>
    rw [hlines] at h
    cases h
  | ok lines =>
    rw [hlines] at h
    cases h
    have hformat := Program.formatMethods_eq_ok_iff.mp hlines
    have hlength : n.program.methods.length = lines.length := by
      simpa using congrArg List.length hformat
    have hboxes : methodBoxes n.name 0 lines = lines.mapIdx (methodBox n.name) := by
      simp only [methodBoxes_eq, Nat.zero_add]
    refine ⟨List.mem_cons_self .., ?_, lines, hformat, congrArg _ hboxes⟩
    rw [List.map_cons, hboxes, map_id_mapIdx, nodeIds, hlength]
    rfl

theorem exists_cluster_iff (number : Nat) : (∃ c, cluster number n = .ok c) ↔
    ∃ lines, Program.formatMethods n.program.methods = .ok lines := by
  rw [cluster]
  cases Program.formatMethods n.program.methods <;> simp [Except.map]

theorem depicts_of_clustersFrom (h : clustersFrom number nodes = .ok cs) :
    List.Forall₂ Depicts cs nodes := by
  induction nodes generalizing number cs with
  | nil =>
    cases h
    exact .nil
  | cons n nodes ih =>
    rw [clustersFrom] at h
    cases hn : cluster number n with
    | error e => simp [hn] at h
    | ok c =>
      cases hrest : clustersFrom (number + 1) nodes with
      | error e => simp [hn, hrest, Except.map] at h
      | ok rest =>
        simp only [hn, hrest, Except.map, Except.ok.injEq] at h
        subst h
        exact .cons (depicts_of_cluster hn) (ih hrest)

theorem exists_clustersFrom_iff (number : Nat) : (∃ cs, clustersFrom number nodes = .ok cs) ↔
    ∀ n ∈ nodes, ∃ lines, Program.formatMethods n.program.methods = .ok lines := by
  induction nodes generalizing number with
  | nil => simp [clustersFrom]
  | cons n nodes ih =>
    rw [List.forall_mem_cons, ← ih (number + 1), ← exists_cluster_iff number, clustersFrom]
    cases cluster number n with
    | error e => simp
    | ok c => cases clustersFrom (number + 1) nodes <;> simp [Except.map]

/-- A line joins the boxes of the two programs of an edge and names its kind. -/
structure Joins (l : Line) (e : Edge) : Prop where
  source_eq : l.source = boxId e.source
  target_eq : l.target = boxId e.target
  label : ("label", e.kind.name) ∈ l.attributes

/-- The drawing has a cluster for each program of the graph, in some order, and a line for each of
its edges. -/
structure Shows (d : Drawing) (g : Graph) : Prop where
  clusters : ∃ nodes, nodes.Perm g.nodes ∧ List.Forall₂ Depicts d.clusters nodes
  lines : List.Forall₂ Joins d.lines g.edges

theorem exists_depicts (h : List.Forall₂ Depicts cs nodes) (hn : n ∈ nodes) :
    ∃ c ∈ cs, Depicts c n := by
  induction h with
  | nil => cases hn
  | @cons c _ cs _ hc _ ih =>
    rcases List.mem_cons.mp hn with rfl | hn
    · exact ⟨c, List.mem_cons_self .., hc⟩
    · obtain ⟨c', hc', hdepicts⟩ := ih hn
      exact ⟨c', List.mem_cons_of_mem _ hc', hdepicts⟩

theorem Shows.exists_cluster (h : d.Shows g) (hn : n ∈ g.nodes) :
    ∃ c ∈ d.clusters, Depicts c n := by
  obtain ⟨nodes, hperm, hclusters⟩ := h.clusters
  exact exists_depicts hclusters (hperm.mem_iff.mpr hn)

theorem mem_sortedNodes : n ∈ sortedNodes g ↔ n ∈ g.nodes :=
  List.mem_mergeSort

theorem shows_of_ofGraph (h : ofGraph g = .ok d) : d.Shows g := by
  rw [ofGraph] at h
  cases hclusters : clustersFrom 0 (sortedNodes g) with
  | error e =>
    rw [hclusters] at h
    cases h
  | ok clusters =>
    rw [hclusters] at h
    cases h
    refine ⟨⟨_, List.mergeSort_perm .., depicts_of_clustersFrom hclusters⟩, ?_⟩
    rw [List.forall₂_map_left_iff]
    exact List.forall₂_same.mpr fun e _ => ⟨rfl, rfl, List.mem_cons_self ..⟩

theorem exists_ofGraph_iff : (∃ d, ofGraph g = .ok d) ↔
    ∀ n ∈ g.nodes, ∃ lines, Program.formatMethods n.program.methods = .ok lines := by
  simp only [← mem_sortedNodes, ← exists_clustersFrom_iff 0, ofGraph]
  cases clustersFrom 0 (sortedNodes g) <;> simp [Except.map]

end Drawing

/-- With the tools of drawing at hand, the drawing of a graph is made. -/
theorem Tools.draw_eq_ok_iff {g : Graph} {d : Drawing} :
    ({} : Tools).draw g = .ok d ↔ Drawing.ofGraph g = .ok d := by
  rw [Tools.draw]
  cases Drawing.ofGraph g <;> simp [Except.mapError]

end StackFront
