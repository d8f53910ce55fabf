import StackFront.Proofs.Graph.Agreement
import StackFront.Proofs.Walk.Referrers

/-!
# Walks under other names

If one session answers for renamed names as another one does for the names themselves, then a walk
through the first is the renamed walk through the second, step by step: it comes to the renamed
names in the same order, notes the renamed referrers and ends in the same way. This only takes
that the names are renamed injectively and that, wherever the walk comes to, programs refer to the
renamed names.
-/
namespace StackFront

/-- An edge between the renamed names. -/
def Edge.rename (ρ : Name → Name) (e : Edge) : Edge :=
  ⟨ρ e.source, ρ e.target, e.kind⟩

/-- A program under its renamed name. -/
def Program.under (ρ : Name → Name) (q : Name × Program) : Name × Program :=
  (ρ q.1, q.2)

/-- The second graph has the same programs as the first one, in the same order, under renamed
names. -/
structure Graph.Renames (ρ : Name → Name) (g g' : Graph) : Prop where
  root : g'.root = ρ g.root
  names : g'.names = g.names.map ρ
  program : ∀ name, (g'.get? (ρ name)).map Loaded.program = (g.get? name).map Loaded.program
  edges : g'.edges = g.edges.map (Edge.rename ρ)

/-- Under its renamed name a program refers to the renamed names. -/
def Program.RefersAlike (ρ : Name → Name) (p : Program) (name : Name) : Prop :=
  ∀ kind, p.linkNames (ρ name) kind = (p.linkNames name kind).map ρ

/-- The same program, with the references renamed, or faults that are in relation `R`. -/
inductive AnswersAlike (ρ : Name → Name) (R : Fault → Fault → Prop) (name : Name) :
    Except Fault Program → Except Fault Program → Prop
  | program {p : Program} (hlinks : p.RefersAlike ρ name) : AnswersAlike ρ R name (.ok p) (.ok p)
  | fault {f f' : Fault} (h : R f f') : AnswersAlike ρ R name (.error f) (.error f')

/-- A renamed graph, or faults that are in relation `R`. -/
inductive EndsAlike (ρ : Name → Name) (R : Fault → Fault → Prop) :
    Except Fault Graph → Except Fault Graph → Prop
  | graph {g g' : Graph} (h : g.Renames ρ g') : EndsAlike ρ R (.ok g) (.ok g')
  | fault {f f' : Fault} (h : R f f') : EndsAlike ρ R (.error f) (.error f')

/-- If no name is changed, the graphs agree. -/
theorem Graph.Renames.agrees {g g' : Graph} (h : g.Renames id g') : g.Agrees g' where
  root := h.root.symm
  names := by rw [h.names, List.map_id]
  program name := (h.program name).symm
  edges := by
    have hedges : Edge.rename id = id := rfl
    rw [h.edges, hedges, List.map_id]

section Names

variable {ρ : Name → Name} {p : Program} {name : Name} {rest : List Name}

theorem Program.RefersAlike.successors (h : p.RefersAlike ρ name) :
    p.successors (ρ name) = (p.successors name).map ρ := by
  rw [Program.successors, Program.successors, List.map_append, h, h]

theorem Program.RefersAlike.pendingAfter (h : p.RefersAlike ρ name) :
    Walk.pendingAfter (ρ name) p (rest.map ρ) = (Walk.pendingAfter name p rest).map ρ := by
  rw [Walk.pendingAfter, Walk.pendingAfter, h.successors, List.map_append, List.map_reverse]

theorem Program.RefersAlike.contentEdges (h : p.RefersAlike ρ name) :
    Graph.contentEdges (ρ name, p) = (Graph.contentEdges (name, p)).map (Edge.rename ρ) := by
  simp only [Graph.contentEdges, h _, List.map_append, List.map_map]
  rfl

end Names

/-- Graphs are renamed if what they hold is. -/
theorem Graph.Renames.of_content {ρ : Name → Name} {g g' : Graph} (hρ : Function.Injective ρ)
    (hroot : g'.root = ρ g.root)
    (hnodes : g'.nodes.map Node.content = (g.nodes.map Node.content).map (Program.under ρ))
    (hlinks : ∀ q ∈ g.nodes.map Node.content, q.2.RefersAlike ρ q.1) : g.Renames ρ g' where
  root := hroot
  names := by
    rw [names_eq_content, names_eq_content, hnodes, List.map_map, List.map_map (g := ρ)]
    rfl
  program name := by
    rw [get?_eq_content, get?_eq_content, hnodes]
    simp only [List.find?_map, Function.comp_def, Program.under, hρ.eq_iff, Option.map_map]
  edges := by
    rw [edges_eq_content, edges_eq_content, hnodes, List.flatMap_map, List.map_flatMap]
    exact List.flatMap_congr fun q hq => (hlinks q hq).contentEdges

namespace Explores

variable {ρ : Name → Name} {R : Fault → Fault → Prop} {D : Name → Prop} {c c' : Contents}
  {visited pending : List Name} {found : List (Name × Program)} {stop : Option (Name × Fault)}

/-- An exploration of names in `D` whose programs refer to names in `D` finds names in `D`, and
stops at one. -/
theorem closed (h : Explores c visited pending found stop) (hpending : ∀ n ∈ pending, D n)
    (hfound : ∀ q ∈ found, ∀ n ∈ q.2.successors q.1, D n) :
    (∀ q ∈ found, D q.1) ∧ ∀ q ∈ stop, D q.1 := by
  induction h with
  | done visited => simp
  | drop _ _ ih => exact ih (List.forall_mem_cons.mp hpending).2 hfound
  | fail _ _ =>
    refine ⟨by simp, ?_⟩
    rintro q ⟨⟩
    exact hpending _ (List.mem_cons_self ..)
  | @find visited rest name p found stop _ _ _ ih =>
    rw [List.forall_mem_cons] at hpending hfound
    obtain ⟨hnames, hstop⟩ := ih (fun n hn => by
      rcases Walk.mem_pendingAfter.mp hn with hn | hn
      · exact hfound.1 n hn
      · exact hpending.2 n hn) hfound.2
    exact ⟨List.forall_mem_cons.mpr ⟨hpending.1, hnames⟩, hstop⟩

/-- Where the answers are alike, the renamed exploration takes the same course. -/
theorem rename (h : Explores c visited pending found stop) (hρ : Function.Injective ρ)
    (hfound : ∀ q ∈ found, AnswersAlike ρ R q.1 (c q.1) (c' (ρ q.1)))
    (hstop : ∀ q ∈ stop, AnswersAlike ρ R q.1 (c q.1) (c' (ρ q.1))) :
    ∃ stop', Explores c' (visited.map ρ) (pending.map ρ) (found.map (Program.under ρ)) stop' ∧
      Option.Rel (fun q q' => q'.1 = ρ q.1 ∧ R q.2 q'.2) stop stop' := by
  induction h with
  | done visited => exact ⟨none, .done _, .none⟩
  | drop hv _ ih =>
    obtain ⟨stop', hex, hrel⟩ := ih hfound hstop
    exact ⟨stop', .drop (List.mem_map_of_mem hv) hex, hrel⟩
  | @fail visited rest name f hv hc =>
    have halike := hstop (name, f) rfl
    rw [hc] at halike
    generalize hc' : c' (ρ name) = answer at halike
    cases halike with
    | @fault _ f' hR =>
      refine ⟨some (ρ name, f'), .fail ?_ hc', .some ⟨rfl, hR⟩⟩
      rwa [List.mem_map_of_injective hρ]
  | @find visited rest name p found stop hv hc _ ih =>
    rw [List.forall_mem_cons] at hfound
    have halike := hfound.1
    rw [hc] at halike
    generalize hc' : c' (ρ name) = answer at halike
    cases halike with
    | program hlinks =>
      obtain ⟨stop', hex, hrel⟩ := ih hfound.2 hstop
      refine ⟨stop', .find ?_ hc' ?_, hrel⟩
      · rwa [List.mem_map_of_injective hρ]
      · rw [hlinks.pendingAfter]
        exact hex

end Explores

namespace Referrers

variable {ρ : Name → Name} {table : Referrers} {source name : Name}

/-- The table for the renamed names. -/
def rename (ρ : Name → Name) (table : Referrers) : Referrers :=
  table.map fun r => (ρ r.1, r.2.map ρ)

theorem add_rename (hρ : Function.Injective ρ) (names : List Name) :
    add (ρ source) (table.rename ρ) (names.map ρ) = (add source table names).rename ρ := by
  induction names generalizing table with
  | nil => rfl
  | cons name names ih =>
    have hentered : (table.rename ρ).any (fun r => r.1 = ρ name) =
        table.any fun r => r.1 = name := by
      simp only [rename, List.any_map, Function.comp_def, hρ.eq_iff]
    rw [List.map_cons, add, add, hentered, ← ih]
    split
    · rfl
    · rw [rename, rename, List.map_append]
      rfl

theorem after_rename (hρ : Function.Injective ρ) {found : List (Name × Program)}
    (hfound : ∀ q ∈ found, q.2.RefersAlike ρ q.1) :
    after (table.rename ρ) (found.map (Program.under ρ)) = (after table found).rename ρ := by
  induction found generalizing table with
  | nil => rfl
  | cons q found ih =>
    rw [List.forall_mem_cons] at hfound
    rw [List.map_cons, after, after, Program.under, hfound.1.successors, add_rename hρ,
      ih hfound.2]

theorem up?_rename (hρ : Function.Injective ρ) (name : Name) :
    up? (table.rename ρ) (ρ name) = (table.up? name).map ρ := by
  simp only [up?, rename, List.find?_map, Function.comp_def, hρ.eq_iff]
  cases table.find? fun r => r.1 = name with
  | none => rfl
  | some r => rfl

end Referrers

namespace Session

variable {ρ : Name → Name} {R : Fault → Fault → Prop} {D : Name → Prop} {s s' : Session}
  {spelled spelled' : String}

theorem climb_rename (hρ : Function.Injective ρ)
    (h : s'.referrers = Referrers.rename ρ s.referrers) (fuel : Nat) (first : Name)
    (rest : List Name) :
    s'.climb fuel (ρ first) (rest.map ρ) = (s.climb fuel first rest).map ρ := by
  induction fuel generalizing first rest with
  | zero => rfl
  | succ fuel ih =>
    have hup : s'.referrer? (ρ first) = (s.referrer? first).map ρ := by
      rw [referrer?_eq, h, Referrers.up?_rename hρ, referrer?_eq]
    rw [climb, climb, hup]
    cases s.referrer? first with
    | none => rfl
    | some up =>
      have hmem : ρ up ∈ ρ first :: rest.map ρ ↔ up ∈ first :: rest := by
        rw [← List.map_cons, List.mem_map_of_injective hρ]
      simp only [Option.map_some, hmem]
      split
      · rfl
      · exact ih up (first :: rest)

theorem chain_rename (hρ : Function.Injective ρ)
    (h : s'.referrers = Referrers.rename ρ s.referrers) (name : Name) :
    s'.chain (ρ name) = (s.chain name).map ρ := by
  have hlength : s'.referrers.length = s.referrers.length := by
    rw [h, Referrers.rename, List.length_map]
  rw [chain, chain, hlength]
  exact climb_rename hρ h _ name []

/-- What is found when resolving is known afterwards. -/
theorem known_of_explores {found : List (Name × Program)} {stop : Option (Name × Fault)}
    (h : Explores s.content [] [Path.canonical spelled none] found stop) {q : Name × Program}
    (hq : q ∈ found) :
    ∃ loaded, (s.resolve spelled).2.program? q.1 = some loaded ∧ loaded.program = q.2 := by
  obtain ⟨found', stop', hcourse⟩ := s.exists_course spelled
  have hex : Explores s.content [] [Path.canonical spelled none] found' stop' := hcourse.explores
  obtain ⟨rfl, rfl⟩ := h.unique hex
  have hgathers : s.Gathers (found.map Prod.fst) (s.resolve spelled).2 :=
    (s.grows_resolve spelled).gathers hcourse.programs
  obtain ⟨loaded, hknown, hcontent⟩ := hgathers.known q.1 (List.mem_map_of_mem hq)
  rw [h.found_eq q hq, Except.ok.injEq] at hcontent
  exact ⟨loaded, hknown, hcontent.symm⟩

/-- A resolution that fails does so at the name that it asks for last. -/
theorem exists_asked_of_error {f : Fault} (h : (s.resolve spelled).1 = .error f) :
    ∃ name, (s.resolve spelled).2.asked.getLast? = some name := by
  obtain ⟨-, name, -, -, -, hasked, -⟩ := exists_stop_of_error h
  exact ⟨name, hasked⟩

/-- All that resolving comes across is in `D`: the root, and what the programs that it finds refer
to. -/
structure KeepsTo (s : Session) (spelled : String) (D : Name → Prop) : Prop where
  root : D (Path.canonical spelled none)
  declared : ∀ m n, (s.resolve spelled).2.Declares m n → D n

/-- What is found, with all that it refers to, is in `D`, and so is the name at which it stops. -/
theorem KeepsTo.closed {found : List (Name × Program)} {stop : Option (Name × Fault)}
    (hkeeps : s.KeepsTo spelled D)
    (h : Explores s.content [] [Path.canonical spelled none] found stop) :
    (∀ q ∈ found, D q.1 ∧ Path.IsCanonical q.1 ∧ ∀ n ∈ q.2.successors q.1, D n) ∧
      ∀ q ∈ stop, D q.1 ∧ Path.IsCanonical q.1 := by
  have htargets : ∀ q ∈ found, ∀ n ∈ q.2.successors q.1, D n := by
    intro q hq n hn
    obtain ⟨loaded, hknown, hprogram⟩ := known_of_explores h hq
    exact hkeeps.declared q.1 n ⟨loaded, hknown, hprogram ▸ hn⟩
  obtain ⟨hfound, hstop⟩ := h.closed (D := fun n => D n ∧ Path.IsCanonical n)
    (fun n hn => List.mem_singleton.mp hn ▸ ⟨hkeeps.root, spelled, none, rfl⟩)
    fun q hq n hn => ⟨htargets q hq n hn, Walk.isCanonical_successors hn⟩
  exact ⟨fun q hq => ⟨(hfound q hq).1, (hfound q hq).2, htargets q hq⟩, hstop⟩

/-- A session that has just begun knows afterwards just what it found. -/
theorem KeepsTo.of_explores {found : List (Name × Program)} {stop : Option (Name × Fault)}
    (hnew : s.programs = [])
    (h : Explores s.content [] [Path.canonical spelled none] found stop)
    (hroot : D (Path.canonical spelled none))
    (hfound : ∀ q ∈ found, ∀ n ∈ q.2.successors q.1, D n) : s.KeepsTo spelled D := by
  refine ⟨hroot, fun m n hdeclares => ?_⟩
  obtain ⟨loaded, hknown, hn⟩ := hdeclares
  obtain ⟨found', stop', hcourse⟩ := s.exists_course spelled
  have hex : Explores s.content [] [Path.canonical spelled none] found' stop' := hcourse.explores
  obtain ⟨rfl, rfl⟩ := h.unique hex
  have hmem : m ∈ (s.resolve spelled).2.programs.map Prod.fst :=
    isSome_program?.mp (by rw [hknown]; rfl)
  rw [hcourse.programs] at hmem
  have hprograms : (Walk.ofRoot s spelled).session.programs = [] := hnew
  rw [hprograms, List.map_nil, List.nil_append] at hmem
  obtain ⟨q, hq, rfl⟩ := List.mem_map.mp (List.mem_filter.mp hmem).1
  have hcontent := content_of_known hknown
  rw [(s.grows_resolve spelled).content, h.found_eq q hq, Except.ok.injEq] at hcontent
  exact hfound q hq n (hcontent ▸ hn)

/-- The second session answers for renamed names in `D` as the first one does for the names, at
least if the program of the name refers to names in `D`. -/
structure Imitates (ρ : Name → Name) (R : Fault → Fault → Prop) (D : Name → Prop)
    (s s' : Session) : Prop where
  injective : Function.Injective ρ
  alike : ∀ name, D name → Path.IsCanonical name →
    (∀ p, s.content name = .ok p → ∀ n ∈ p.successors name, D n) →
    AnswersAlike ρ R name (s.content name) (s'.content (ρ name))
  /-- Faults in relation `R` are traced in the same way, and are in that relation when they are. -/
  isTraced : ∀ f f', R f f' → f'.isTraced = f.isTraced
  mark : ∀ f f' name chain, R f f' → R (f.mark name chain) (f'.mark (ρ name) (chain.map ρ))

namespace Imitates

variable (h : Imitates ρ R D s s') (hkeeps : s.KeepsTo spelled D)
  (hroot : Path.canonical spelled' none = ρ (Path.canonical spelled none))
include h hkeeps hroot

/-- The renamed walk explores the renamed names. -/
theorem exists_explores : ∃ found stop stop',
    Explores s.content [] [Path.canonical spelled none] found stop ∧
      Explores s'.content [] [Path.canonical spelled' none] (found.map (Program.under ρ)) stop' ∧
      Option.Rel (fun q q' => q'.1 = ρ q.1 ∧ R q.2 q'.2) stop stop' ∧
      ∀ q ∈ found, q.2.RefersAlike ρ q.1 := by
  obtain ⟨found, stop, hex, -⟩ := s.resolve_explores spelled
  obtain ⟨hfound, hstop⟩ := hkeeps.closed hex
  have halikeFound : ∀ q ∈ found, AnswersAlike ρ R q.1 (s.content q.1) (s'.content (ρ q.1)) := by
    intro q hq
    obtain ⟨hD, hc, htargets⟩ := hfound q hq
    apply h.alike q.1 hD hc
    intro p hp
    rw [hex.found_eq q hq, Except.ok.injEq] at hp
    exact hp ▸ htargets
  have halikeStop : ∀ q ∈ stop, AnswersAlike ρ R q.1 (s.content q.1) (s'.content (ρ q.1)) := by
    intro q hq
    obtain ⟨hD, hc⟩ := hstop q hq
    apply h.alike q.1 hD hc
    intro p hp
    rw [hex.stop_eq q hq] at hp
    cases hp
  obtain ⟨stop', hex', hrel⟩ := hex.rename h.injective halikeFound halikeStop
  refine ⟨found, stop, stop', hex, ?_, hrel, fun q hq => ?_⟩
  · rw [hroot]
    exact hex'
  · have halike := halikeFound q hq
    rw [hex.found_eq q hq] at halike
    generalize s'.content (ρ q.1) = answer at halike
    cases halike with
    | program hlinks => exact hlinks

/-- It comes to the renamed names in the same order. -/
theorem asked_resolve : ∃ names, (s.resolve spelled).2.asked = s.asked ++ names ∧
    (s'.resolve spelled').2.asked = s'.asked ++ names.map ρ := by
  obtain ⟨found, stop, stop', hex, hex', hrel, -⟩ := h.exists_explores hkeeps hroot
  refine ⟨_, asked_of_explores hex, ?_⟩
  rw [asked_of_explores hex', Explores.trail, Explores.trail, List.map_append, List.map_map,
    List.map_map]
  cases hrel with
  | none => rfl
  | some hq => simp [hq.1, Function.comp_def, Program.under]

/-- It ends in the same way. -/
theorem endsAlike_resolve : EndsAlike ρ R (s.resolve spelled).1 (s'.resolve spelled').1 := by
  obtain ⟨found, stop, stop', hex, hex', hrel, hlinks⟩ := h.exists_explores hkeeps hroot
  have hreferrers : (s'.resolve spelled').2.referrers =
      Referrers.rename ρ (s.resolve spelled).2.referrers := by
    rw [resolve_referrers hex, resolve_referrers hex', ← Referrers.after_rename h.injective hlinks,
      hroot]
    rfl
  cases hrel with
  | none =>
    obtain ⟨g, hg, hgroot, hnodes, -⟩ := resolve_of_explores hex
    obtain ⟨g', hg', hgroot', hnodes', -⟩ := resolve_of_explores hex'
    rw [hg, hg']
    refine .graph (.of_content h.injective ?_ ?_ ?_)
    · rw [hgroot', hgroot, hroot]
    · rw [hnodes', hnodes]
    · rwa [hnodes]
  | @some q q' hq =>
    obtain ⟨name, f⟩ := q
    obtain ⟨name', f'⟩ := q'
    obtain ⟨rfl, hR⟩ : name' = ρ name ∧ R f f' := hq
    rw [resolve_of_stop hex, resolve_of_stop hex']
    refine .fault ?_
    simp only [Walk.trace, hroot, h.injective.ne_iff, h.isTraced f f' hR,
      chain_rename h.injective hreferrers]
    split
    · exact h.mark f f' name _ hR
    · exact hR

end Imitates

end Session

end StackFront
