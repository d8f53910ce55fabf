import StackFront.Proofs.Walk.Outcome

/-!
# Courses of walks

`Course` tells a walk from its first step to its end, with what it found, where it stopped and what
came of it. Every walk has a course, so that a fact about walks is proved by induction on courses,
one case for each kind of step.
-/
namespace StackFront

namespace Walk

/-- The walk finds the programs in `found`, in this order, stops as `stop` says, and ends with the
given result and session. -/
inductive Course : Walk → (found : List (Name × Program)) → (stop : Option (Name × Fault)) →
    Except Fault Graph × Session → Prop
  | finish {root : Name} {s : Session} {canonical : ∀ n ∈ [], Path.IsCanonical n}
      {nodes : List Node} :
      Course ⟨root, s, [], canonical, nodes⟩ [] none
        (.ok ⟨root, nodes⟩, s.note (.resolved root nodes.length))
  | drop {root name : Name} {s : Session} {rest : List Name}
      {canonical : ∀ n ∈ name :: rest, Path.IsCanonical n}
      {canonical' : ∀ n ∈ rest, Path.IsCanonical n} {nodes : List Node}
      {found : List (Name × Program)} {stop : Option (Name × Fault)}
      {r : Except Fault Graph × Session} (hv : name ∈ s.visited)
      (h : Course ⟨root, s, rest, canonical', nodes⟩ found stop r) :
      Course ⟨root, s, name :: rest, canonical, nodes⟩ found stop r
  | fail {root name : Name} {s s' : Session} {rest : List Name}
      {canonical : ∀ n ∈ name :: rest, Path.IsCanonical n} {nodes : List Node} {f : Fault}
      (hv : name ∉ s.visited) (hl : (s.visit name).load name = (.error f, s')) :
      Course ⟨root, s, name :: rest, canonical, nodes⟩ [] (some (name, f))
        (.error (trace s' root name f), s')
  | find {root name : Name} {s s' : Session} {rest : List Name}
      {canonical : ∀ n ∈ name :: rest, Path.IsCanonical n} {nodes : List Node} {loaded : Loaded}
      {canonical' : ∀ n ∈ pendingAfter name loaded.program rest, Path.IsCanonical n}
      {found : List (Name × Program)} {stop : Option (Name × Fault)}
      {r : Except Fault Graph × Session} (hv : name ∉ s.visited)
      (hl : (s.visit name).load name = (.ok loaded, s'))
      (h : Course ⟨root, s'.refer name (loaded.program.successors name),
        pendingAfter name loaded.program rest, canonical', nodes ++ [⟨name, loaded⟩]⟩
        found stop r) :
      Course ⟨root, s, name :: rest, canonical, nodes⟩ ((name, loaded.program) :: found) stop r

theorem exists_course (w : Walk) : ∃ found stop, Course w found stop w.run := by
  induction w using run.induct with
  | case1 w w' h ih =>
    obtain ⟨found, stop, hcourse⟩ := ih
    rw [run_of_more h]
    have hs := w.steps
    rw [h] at hs
    cases hs with
    | drop hv => exact ⟨found, stop, .drop hv hcourse⟩
    | find hv hl => exact ⟨_, stop, .find hv hl hcourse⟩
  | case2 w r s' h =>
    rw [run_of_done h]
    have hs := w.steps
    rw [h] at hs
    cases hs with
    | finish => exact ⟨[], none, .finish⟩
    | fail hv hl => exact ⟨[], _, .fail hv hl⟩

namespace Course

variable {w : Walk} {found : List (Name × Program)} {stop : Option (Name × Fault)}
  {r : Except Fault Graph × Session}

/-- The course of a walk is an exploration of the contents of its session. -/
theorem explores (h : Course w found stop r) :
    Explores w.session.content w.session.visited w.pending found stop := by
  induction h with
  | finish => exact .done _
  | drop hv _ ih => exact .drop hv ih
  | fail hv hl => exact .fail hv (Session.load_visit hl).2.1
  | @find root name s s' rest _ nodes loaded _ found stop r hv hl _ ih =>
    obtain ⟨hload, hc, hvisited, -⟩ := Session.load_visit hl
    have hrefer := s'.grows_refer name (loaded.program.successors name)
    simp only [Session.refer_visited, hvisited, (hload.trans hrefer).content] at ih
    exact .find hv hc ih

end Course

end Walk

namespace Session

/-- Resolving is a walk from the root with nothing visited before. -/
theorem exists_course (s : Session) (spelled : String) :
    ∃ found stop, Walk.Course (Walk.ofRoot s spelled) found stop (s.resolve spelled) :=
  (Walk.ofRoot s spelled).exists_course

end Session

end StackFront
