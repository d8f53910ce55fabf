import StackFront.Proofs.Enrichment.Turns
import StackFront.Proofs.Program.WrittenForm
import StackFront.Proofs.Walk.DepthFirst

/-!
# Entering a program

A root is entered in two stages: it is resolved, and the method that it starts with is enriched. In
a new session the second stage never fails. A program that was read from a text has a first method,
it is still known when that method is asked for, whatever the root was spelled like, and the
standard table refuses none of its operations. Nor is anything read in the second stage.
-/
namespace StackFront

/-- A program that was read from a text has a method to start with. -/
theorem Program.exists_entry {text : String} {file : Option String} {p : Program}
    (h : parse text file = .ok p) :
    ∃ m, p.methods.head? = some m ∧ p.method? Session.entryIndex = some m := by
  obtain ⟨l, -, hreads⟩ := exists_reads h
  obtain ⟨m, rest, hmethods⟩ := List.exists_cons_of_ne_nil hreads.isWritable.methods_ne_nil
  refine ⟨m, by rw [hmethods, List.head?_cons], method?_eq_some_iff.mpr ⟨Int.le_refl 0, ?_, ?_⟩⟩
  · rw [hmethods, List.length_cons, Session.entryIndex]
    omega
  · rw [hmethods]
    rfl

/-- The listing is that of the method that the root of the graph starts with: its instructions are
what the turns of the operations leave, with the standard table and the references of the root, and
each of them presents the operation at its place. -/
structure Graph.StartsWith (g : Graph) (l : Listing) (loaded : Loaded) (m : Method) : Prop where
  root : g.get? g.root = some loaded
  method : loaded.program.methods.head? = some m
  turns : Instruction.Completes .standard
    (Session.site g.root Session.entryIndex loaded.program) 0 m.ops [] l.instructions []
  length : l.instructions.length = m.ops.length
  presents : ∀ k (op : Op) (i : Instruction), m.ops[k]? = some op → l.instructions[k]? = some i →
    i.Presents k op

namespace Session

variable {s t : Session} {g : Graph} {spelled : String} {name : Name} {index : Int}
  {loaded : Loaded} {m : Method}

/-- A method of a known program is enriched with the standard table, without a look at any text. -/
theorem method_of_known_program (hname : Path.canonical spelled none = name)
    (hfirst : t.listing? name index = none) (hknown : t.program? name = some loaded)
    (hm : loaded.program.method? index = some m) :
    ∃ l u, t.method .standard spelled index = (.ok l, u) ∧ u.reads = t.reads ∧
      Instruction.Completes .standard (site name index loaded.program) 0 m.ops t.journal
        l.instructions t.journal := by
  obtain ⟨out, hout, -⟩ := Instruction.enrichAll_standard (site name index loaded.program) 0 m.ops
    t.journal
  have hcompletes := Instruction.enrichAll_eq_ok_iff_completes.mp hout
  have hjournal : (t.note (.programKnown name)).journal = t.journal := rfl
  refine ⟨⟨t.nextSerial, out⟩,
    ((t.note (.programKnown name)).keepListing name index out).2.note
      (.enriched name index out.length), ?_, by simp [reads, note, keepListing], hcompletes⟩
  simp only [method, hname, hfirst, load_of_known hknown, enrichMethod, hm, hjournal, hout]
  rfl

/-- Resolving a root for the first time reads the text of each name of the graph, in the order of
the graph, and no other one. -/
theorem reads_resolve (hs : s.programs = []) (hr : s.resolve spelled = (.ok g, t)) :
    t.reads = s.reads ++ g.names := by
  obtain ⟨found, stop, hcourse⟩ := s.exists_course spelled
  obtain ⟨hex, -, -⟩ := explores_of_resolve (congrArg Prod.fst hr)
  obtain ⟨rfl, rfl⟩ := hex.unique hcourse.explores
  have hunknown : s.unknown g.names = g.names := by
    rw [unknown, List.filter_eq_self]
    intro n _
    rw [program?, hs]
    rfl
  have hreads : (s.resolve spelled).2.reads = s.reads ++ s.unknown (Explores.trail _ none) :=
    hcourse.reads
  rwa [hr, Explores.trail_none, ← g.names_eq_content, hunknown] at hreads

/-- In a new session, a root is entered if and only if it can be resolved: either both fail with the
same fault, or the graph is answered together with the enriched method that its root starts with,
and the text of each name of the graph was read once and no other text at all. -/
theorem loadEntry_fresh (store : Store) (spelled : String) :
    let s : Session := { store }
    (∀ f, (s.loadEntry .standard spelled).1 = .error f ↔ (s.resolve spelled).1 = .error f) ∧
    ∀ g, (s.resolve spelled).1 = .ok g →
      (∃ l loaded m, (s.loadEntry .standard spelled).1 = .ok (g, l) ∧ g.StartsWith l loaded m) ∧
      (s.loadEntry .standard spelled).2.reads = g.names ∧ g.names.Nodup := by
  intro s
  have hentered := s.enters .standard spelled
  generalize s.loadEntry .standard spelled = r at hentered
  cases hentered with
  | @unresolved f t hr =>
    rw [hr]
    refine ⟨fun f' => by rw [Except.error.injEq, Except.error.injEq], fun g hg => ?_⟩
    cases hg
  | @resolved g a t u hr he =>
    have hshows := shows_of_resolve (congrArg Prod.fst hr)
    obtain ⟨hlistings, hjournal⟩ := s.resolve_listings spelled
    have hreads := reads_resolve rfl hr
    rw [hr] at hshows hlistings hjournal
    have hroot : g.root ∈ g.names := by
      rw [hshows.mem_names, hshows.root_eq]
      exact .refl
    obtain ⟨loaded, hget, hknown, hcontent⟩ := hshows.get g.root hroot
    rw [content_of_unknown rfl, Store.content_eq_ok_iff] at hcontent
    obtain ⟨text, -, hparse⟩ := hcontent
    obtain ⟨m, hhead, hm⟩ := Program.exists_entry hparse
    -- the root of the graph is its own canonical name
    have hname := canonical_of_mem_names (congrArg Prod.fst hr) hroot
    have hfirst : t.listing? g.root entryIndex = none := by
      rw [listing?, hlistings]
      rfl
    obtain ⟨l, u', hmethod, hsame, hcompletes⟩ := method_of_known_program hname hfirst hknown hm
    rw [hjournal] at hcompletes
    cases he.symm.trans hmethod
    rw [hr]
    refine ⟨fun f => by simp [Except.map], fun g' hg' => ?_⟩
    cases hg'
    refine ⟨⟨l, loaded, m, rfl, hget, hhead, hcompletes, hcompletes.1, fun k op i hop hi => ?_⟩,
      hsame.trans hreads, hshows.nodup⟩
    rw [← Nat.zero_add k]
    exact hcompletes.presents hop hi fun _ => EnricherTable.decorates_standard

end Session

end StackFront
