import StackFront.CommandLine.Run
import StackFront.Proofs.Session.Entry

/-!
# The stages before anything is printed

A run reads all that its root refers to and then enriches one method of the root. From files,
reading fails with nothing but refusals of the system, texts that cannot be decoded and texts that
are no programs. What was read is there for enriching, which refuses nothing but an index that the
root does not have.
-/
namespace StackFront

/-- The fault is a refusal of the system, or a text or a value that is not admitted. Half of a
surrogate pair is refused only because no string here can hold it. -/
def Fault.IsExpected (f : Fault) : Prop :=
  match f.cause with
  | .json .loneHalf | .methodIndex _ | .inability _ | .misfit _ => False
  | .storage _ | .decode _ | .json _ | .parse _ | .badValue _ => True

namespace Folder

variable {tree tree' : FileTree} {encoding : Text.Encoding} {path text : List Char} {f : Fault}

theorem isExpected_readText (h : readText tree encoding path = .error f) : f.IsExpected := by
  rw [readText] at h
  split at h
  · cases h
    trivial
  · split at h
    · cases h
      trivial
    · split at h
      · cases h
        trivial
      · cases h

theorem isExpected_content {folder : Folder} {name : Name}
    (h : folder.store.content name = .error f) : f.IsExpected := by
  rw [Store.content] at h
  split at h
  next hread =>
    cases h
    exact isExpected_readText hread
  next =>
    split at h
    · cases h
      trivial
    · cases h

end Folder

theorem Walk.isExpected_trace {t : Session} {root name : Name} {f : Fault} :
    (trace t root name f).IsExpected ↔ f.IsExpected := by
  rw [trace]
  split
  · rfl
  · rfl

namespace Session

variable {s t : Session} {spelled : String} {g : Graph} {f : Fault}

/-- What keeps a root from being resolved keeps one of its names from being loaded. -/
theorem isExpected_resolve (hs : ∀ name f, s.content name = .error f → f.IsExpected)
    (h : (s.resolve spelled).1 = .error f) : f.IsExpected := by
  obtain ⟨-, name, raised, -, hload, -, rfl⟩ := exists_stop_of_error h
  exact Walk.isExpected_trace.mpr (hs name raised hload)

end Session

/-- How the first call for a method of the root of a graph is answered: by the fault of an index
that the root does not have, or by instructions that present the operations of the method. -/
inductive Graph.AnswersRoot (g : Graph) (index : Int) : Except Fault Listing → Prop
  | missing {loaded : Loaded} (hroot : g.get? g.root = some loaded)
      (hindex : ¬ (0 ≤ index ∧ index < loaded.program.methods.length)) :
      AnswersRoot g index
        (.error (MethodIndexError.mk (some g.root) index loaded.program.methods.length))
  | listed {loaded : Loaded} {m : Method} {l : Listing} (hroot : g.get? g.root = some loaded)
      (hm : loaded.program.method? index = some m)
      (hlength : l.instructions.length = m.ops.length)
      (hpresents : ∀ k (op : Op) (i : Instruction), m.ops[k]? = some op →
        l.instructions[k]? = some i → i.Presents k op) :
      AnswersRoot g index (.ok l)

namespace Session

variable {s t : Session} {spelled : String} {g : Graph}

/-- The root of a graph has a program, under its own canonical name. -/
theorem exists_root (hr : s.resolve spelled = (.ok g, t)) :
    Path.canonical g.root none = g.root ∧
      ∃ loaded, g.get? g.root = some loaded ∧ t.program? g.root = some loaded := by
  have hg := congrArg Prod.fst hr
  have hshows := shows_of_resolve hg
  have hroot : g.root ∈ g.names := by
    rw [hshows.mem_names, hshows.root_eq]
    exact .refl
  obtain ⟨loaded, hget, hknown, -⟩ := hshows.get g.root hroot
  rw [hr] at hknown
  exact ⟨canonical_of_mem_names hg hroot, loaded, hget, hknown⟩

/-- An exploration begins with the program of the root. -/
theorem exists_root_of_explores {p : Program} {found : List (Name × Program)}
    (h : Explores s.content [] [Path.canonical spelled none]
      ((Path.canonical spelled none, p) :: found) none) :
    ∃ g loaded, (s.resolve spelled).1 = .ok g ∧ g.get? g.root = some loaded ∧
      loaded.program = p ∧ g.names = Path.canonical spelled none :: found.map Prod.fst := by
  obtain ⟨g, hg, hroot, hnodes, -⟩ := resolve_of_explores h
  have hnames : g.names = Path.canonical spelled none :: found.map Prod.fst := by
    rw [g.names_eq_content, hnodes, List.map_cons]
  obtain ⟨loaded, hget, -, hcontent⟩ :=
    (shows_of_resolve hg).get (Path.canonical spelled none) (by rw [hnames]; exact .head _)
  have hp : s.content (Path.canonical spelled none) = .ok p := h.found_eq _ (.head _)
  exact ⟨g, loaded, hg, hroot ▸ hget, Except.ok.inj (hcontent.symm.trans hp), hnames⟩

/-- Once a root is resolved, its methods are at hand. -/
theorem answersRoot (hs : s.listings = []) (hr : s.resolve spelled = (.ok g, t)) (index : Int) :
    g.AnswersRoot index (t.method .standard g.root index).1 := by
  obtain ⟨hname, loaded, hget, hknown⟩ := exists_root hr
  -- Resolving lists no method, so that this is the first call for it: it cannot find a listing of
  -- other enrichers.
  have hfirst : t.listing? g.root index = none := by
    have hlistings := (s.resolve_listings spelled).1
    rw [hr] at hlistings
    rw [listing?, hlistings, hs]
    rfl
  cases hm : loaded.program.method? index with
  | none =>
    obtain ⟨-, ⟨-, hanswer⟩ | ⟨m, l, hm', -⟩⟩ := method_standard hname hknown hfirst
    · rw [hanswer]
      exact .missing hget (Program.method?_eq_none_iff.mp hm)
    · rw [hm] at hm'
      cases hm'
  | some m =>
    obtain ⟨l, u, hmethod, -, hcompletes⟩ := method_of_known_program hname hfirst hknown hm
    rw [hmethod]
    refine .listed hget hm hcompletes.1 fun k op i hop hi => ?_
    rw [← Nat.zero_add k]
    exact hcompletes.presents hop hi fun _ => EnricherTable.decorates_standard

end Session

namespace CommandLine

/-- The session in which a run reads files. -/
abbrev newSession (tree : FileTree) : Session :=
  { store := ({ tree } : Folder).store }

variable {tree : FileTree} {o : Options} {f : Fault}

theorem isReported_of_isExpected (h : f.IsExpected) : isReported f := by
  obtain ⟨cause, file, chain⟩ := f
  cases cause with
  | storage | decode | json | parse | badValue => rfl
  | methodIndex | inability | misfit => cases h

theorem isReported_methodIndex (e : MethodIndexError) : isReported e :=
  rfl

theorem failed_of_isReported (h : isReported f) (tree : FileTree) (err : String) :
    failed tree err f = ⟨.exit 1, "", err ++ faultLine f, tree⟩ :=
  if_pos h

/-- From files, a root cannot be resolved for expected reasons alone. -/
theorem isExpected_resolve {spelled : String}
    (h : ((newSession tree).resolve spelled).1 = .error f) : f.IsExpected := by
  refine Session.isExpected_resolve (fun name f hload => ?_) h
  rw [Session.content_of_unknown rfl] at hload
  exact Folder.isExpected_content hload

/-- How reading and enriching end. -/
inductive Prepares (s : Session) (o : Options) : Except Fault (Graph × Int × Listing) → Prop
  | unresolved {f : Fault} (h : (s.resolve o.source).1 = .error f) : Prepares s o (.error f)
  | unnumbered {g : Graph} (hg : (s.resolve o.source).1 = .ok g) (hmethod : o.method = none) :
      Prepares s o (.error Misfit.wrongType)
  | missing {g : Graph} {index : Int} {f : Fault} (hg : (s.resolve o.source).1 = .ok g)
      (hmethod : o.method = some index) (h : g.AnswersRoot index (.error f)) :
      Prepares s o (.error f)
  | listed {g : Graph} {index : Int} {l : Listing} (hg : (s.resolve o.source).1 = .ok g)
      (hmethod : o.method = some index) (h : g.AnswersRoot index (.ok l)) :
      Prepares s o (.ok (g, index, l))

theorem prepares (tree : FileTree) (o : Options) :
    Prepares (newSession tree) o (prepare (newSession tree) o).1 := by
  rw [prepare]
  rcases hr : (newSession tree).resolve o.source with ⟨f | g, t⟩
  · exact .unresolved (congrArg Prod.fst hr)
  · cases hmethod : o.method with
    | none => exact .unnumbered (congrArg Prod.fst hr) hmethod
    | some index =>
      have hanswers := Session.answersRoot rfl hr index
      simp only
      rcases hm : t.method .standard g.root index with ⟨f | l, u⟩
      · rw [hm] at hanswers
        exact .missing (congrArg Prod.fst hr) hmethod hanswers
      · rw [hm] at hanswers
        exact .listed (congrArg Prod.fst hr) hmethod hanswers

end CommandLine

end StackFront
