import StackFront.Proofs.Exploration

/-!
# Outcomes of walks

A walk ends as the exploration of its pending names does. `Steps` lists what a single step can do;
following a walk step by step then leads from its state to an exploration of the contents of its
session, and from there to its result: the programs found, or the traced fault of the name at
which the exploration stopped. The chain in that fault depends on nothing but the programs found
before it.
-/
namespace StackFront

/-- For each name the program that first referred to it. -/
abbrev Referrers := List (Name × Option Name)

namespace Referrers

/-- Notes that a program referred to some names. -/
def add (source : Name) (table : Referrers) : List Name → Referrers
  | [] => table
  | name :: rest =>
    add source (if table.any fun r => r.1 = name then table else table ++ [(name, some source)])
      rest

/-- Notes all references of some programs, which are visited one after the other. -/
def after (table : Referrers) : List (Name × Program) → Referrers
  | [] => table
  | q :: rest => after (add q.1 table (q.2.successors q.1)) rest

end Referrers

namespace Session

theorem refer_referrers (s : Session) (source : Name) (names : List Name) :
    (s.refer source names).referrers = Referrers.add source s.referrers names := by
  induction names generalizing s with
  | nil => rfl
  | cons name rest ih =>
    rw [refer, ih, Referrers.add]
    split <;> rfl

theorem grows_refer (s : Session) (source : Name) (names : List Name) :
    Grows s (s.refer source names) :=
  .of_eq (refer_store ..) (refer_programs ..)

/-- What a step of a walk does to its session: it marks a name as visited and loads it. -/
theorem load_visit {s s' : Session} {name : Name} {r : Except Fault Loaded}
    (h : (s.visit name).load name = (r, s')) :
    s.Grows s' ∧ s.content name = r.map Loaded.program ∧ s'.visited = name :: s.visited ∧
      s'.referrers = s.referrers := by
  have hg := (s.visit name).grows_load name
  have ha := (s.visit name).load_answers name
  obtain ⟨hv, hr⟩ := (s.visit name).load_record name
  rw [h] at hg ha hv hr
  have hvisit : s.Grows (s.visit name) := .of_eq rfl rfl
  exact ⟨hvisit.trans hg, ha.symm, hv, hr⟩

theorem climb_congr {s t : Session} (h : s.referrers = t.referrers) (fuel : Nat) (first : Name)
    (rest : List Name) : s.climb fuel first rest = t.climb fuel first rest := by
  have href : s.referrer? = t.referrer? := by
    funext name
    simp only [referrer?, h]
  induction fuel generalizing first rest with
  | zero => rfl
  | succ fuel ih => simp only [climb, href, ih]

theorem chain_congr {s t : Session} (h : s.referrers = t.referrers) (name : Name) :
    s.chain name = t.chain name := by
  rw [chain, chain, h, climb_congr h]

end Session

/-- A node without the serial number of its program. -/
def Node.content (n : Node) : Name × Program :=
  (n.name, n.program)

namespace Walk

theorem trace_congr {s t : Session} (h : s.referrers = t.referrers) (root name : Name)
    (f : Fault) : trace s root name f = trace t root name f := by
  simp only [trace, Session.chain_congr h]

/-- What a step can do. -/
inductive Steps : Walk → Step → Prop
  | finish {root : Name} {s : Session} {canonical : ∀ n ∈ [], Path.IsCanonical n}
      {nodes : List Node} :
      Steps ⟨root, s, [], canonical, nodes⟩
        (.done (.ok ⟨root, nodes⟩) (s.note (.resolved root nodes.length)))
  | drop {root name : Name} {s : Session} {rest : List Name}
      {canonical : ∀ n ∈ name :: rest, Path.IsCanonical n}
      {canonical' : ∀ n ∈ rest, Path.IsCanonical n} {nodes : List Node}
      (hv : name ∈ s.visited) :
      Steps ⟨root, s, name :: rest, canonical, nodes⟩ (.more ⟨root, s, rest, canonical', nodes⟩)
  | fail {root name : Name} {s s' : Session} {rest : List Name}
      {canonical : ∀ n ∈ name :: rest, Path.IsCanonical n} {nodes : List Node} {f : Fault}
      (hv : name ∉ s.visited) (hl : (s.visit name).load name = (.error f, s')) :
      Steps ⟨root, s, name :: rest, canonical, nodes⟩ (.done (.error (trace s' root name f)) s')
  | find {root name : Name} {s s' : Session} {rest : List Name}
      {canonical : ∀ n ∈ name :: rest, Path.IsCanonical n} {nodes : List Node} {loaded : Loaded}
      {canonical' : ∀ n ∈ pendingAfter name loaded.program rest, Path.IsCanonical n}
      (hv : name ∉ s.visited) (hl : (s.visit name).load name = (.ok loaded, s')) :
      Steps ⟨root, s, name :: rest, canonical, nodes⟩
        (.more ⟨root, s'.refer name (loaded.program.successors name),
          pendingAfter name loaded.program rest, canonical', nodes ++ [⟨name, loaded⟩]⟩)

theorem steps (w : Walk) : Steps w w.step := by
  obtain ⟨root, s, pending, canonical, nodes⟩ := w
  cases pending with
  | nil => exact .finish
  | cons name rest =>
    simp only [step]
    split
    next hnew =>
      have hv : name ∉ s.visited := by simpa [Session.isNew] using hnew
      split
      next f s' hl => exact .fail hv hl
      next loaded s' hl => exact .find hv hl
    next hold =>
      have hv : name ∈ s.visited := by simpa [Session.isNew] using hold
      exact .drop hv

theorem run_of_more {w w' : Walk} (h : w.step = .more w') : w.run = w'.run := by
  rw [run]
  split
  next v hv =>
    rw [h] at hv
    cases hv
    rfl
  next r s hd =>
    rw [h] at hd
    cases hd

theorem run_of_done {w : Walk} {r : Except Fault Graph} {s : Session}
    (h : w.step = .done r s) : w.run = (r, s) := by
  rw [run]
  split
  next v hv =>
    rw [h] at hv
    cases hv
  next r' s' hd =>
    rw [h] at hd
    cases hd
    rfl

/-- The walk ends with the programs in `found` added to those it has, and stops as `stop` says. -/
structure Ends (w : Walk) (found : List (Name × Program)) (stop : Option (Name × Fault)) :
    Prop where
  grows : w.session.Grows w.run.2
  referrers : w.run.2.referrers = Referrers.after w.session.referrers found
  finished : stop = none → ∃ nodes, w.run.1 = .ok ⟨w.root, w.found ++ nodes⟩ ∧
    nodes.map Node.content = found ∧ ∀ n ∈ nodes, w.run.2.program? n.name = some n.loaded
  failed : ∀ q ∈ stop, w.run.1 = .error (trace w.run.2 w.root q.1 q.2)

namespace Ends

variable {root name : Name} {s s' : Session} {rest : List Name} {nodes : List Node}
  {found : List (Name × Program)} {stop : Option (Name × Fault)}

theorem of_drop {w w' : Walk} (h : w'.Ends found stop) (hs : w'.session = w.session)
    (hroot : w'.root = w.root) (hfound : w'.found = w.found) (hrun : w.run = w'.run) :
    w.Ends found stop := by
  constructor
  · rw [hrun, ← hs]; exact h.grows
  · rw [hrun, ← hs]; exact h.referrers
  · rw [hrun, ← hroot, ← hfound]; exact h.finished
  · rw [hrun, ← hroot]; exact h.failed

/-- What is found first is a program that the rest of the walk leaves as it is. -/
theorem of_find {canonical : ∀ n ∈ name :: rest, Path.IsCanonical n} {loaded : Loaded}
    {canonical' : ∀ n ∈ pendingAfter name loaded.program rest, Path.IsCanonical n}
    (hl : (s.visit name).load name = (.ok loaded, s'))
    (h : Ends ⟨root, s'.refer name (loaded.program.successors name),
      pendingAfter name loaded.program rest, canonical', nodes ++ [⟨name, loaded⟩]⟩ found stop)
    (hrun : run ⟨root, s, name :: rest, canonical, nodes⟩ =
      run ⟨root, s'.refer name (loaded.program.successors name),
        pendingAfter name loaded.program rest, canonical', nodes ++ [⟨name, loaded⟩]⟩) :
    Ends ⟨root, s, name :: rest, canonical, nodes⟩ ((name, loaded.program) :: found) stop := by
  obtain ⟨hload, -, -, hreferrers⟩ := Session.load_visit hl
  have hrefer := s'.grows_refer name (loaded.program.successors name)
  constructor
  · rw [hrun]; exact (hload.trans hrefer).trans h.grows
  · rw [hrun, h.referrers, Session.refer_referrers, hreferrers]
    rfl
  · intro hstop
    obtain ⟨new, hres, hfound, hknown⟩ := h.finished hstop
    have hloaded := h.grows.known _ _ (hrefer.known _ _ (Session.program?_load hl))
    refine ⟨⟨name, loaded⟩ :: new, ?_, ?_, ?_⟩
    · rw [hrun, hres, List.append_assoc, List.singleton_append]
    · rw [List.map_cons, hfound]
      rfl
    · rw [hrun]
      exact List.forall_mem_cons.mpr ⟨hloaded, hknown⟩
  · rw [hrun]; exact h.failed

theorem of_finish {canonical : ∀ n ∈ [], Path.IsCanonical n}
    (hrun : run ⟨root, s, [], canonical, nodes⟩ =
      (.ok ⟨root, nodes⟩, s.note (.resolved root nodes.length))) :
    Ends ⟨root, s, [], canonical, nodes⟩ [] none := by
  constructor
  · rw [hrun]; exact .of_eq rfl rfl
  · rw [hrun]; rfl
  · exact fun _ => ⟨[], by rw [hrun, List.append_nil], rfl, by simp⟩
  · simp

theorem of_fail {canonical : ∀ n ∈ name :: rest, Path.IsCanonical n} {f : Fault}
    (hl : (s.visit name).load name = (.error f, s'))
    (hrun : run ⟨root, s, name :: rest, canonical, nodes⟩ = (.error (trace s' root name f), s')) :
    Ends ⟨root, s, name :: rest, canonical, nodes⟩ [] (some (name, f)) := by
  obtain ⟨hload, -, -, hreferrers⟩ := Session.load_visit hl
  constructor
  · rw [hrun]; exact hload
  · rw [hrun]; exact hreferrers
  · simp
  · rintro q ⟨⟩
    rw [hrun]

end Ends

/-- A walk explores its pending names in the contents of its session. -/
theorem run_explores (w : Walk) : ∃ found stop,
    Explores w.session.content w.session.visited w.pending found stop ∧ w.Ends found stop := by
  induction w using run.induct with
  | case1 w w' h ih =>
    obtain ⟨found, stop, hex, hend⟩ := ih
    have hrun := run_of_more h
    have hs := w.steps
    rw [h] at hs
    cases hs with
    | drop hv => exact ⟨found, stop, .drop hv hex, hend.of_drop rfl rfl rfl hrun⟩
    | @find root name s s' rest _ nodes loaded _ hv hl =>
      obtain ⟨hload, hc, hvisited, -⟩ := Session.load_visit hl
      have hrefer := s'.grows_refer name (loaded.program.successors name)
      simp only [Session.refer_visited, hvisited, (hload.trans hrefer).content] at hex
      exact ⟨(name, loaded.program) :: found, stop, .find hv hc hex, .of_find hl hend hrun⟩
  | case2 w r s' h =>
    have hrun := run_of_done h
    have hs := w.steps
    rw [h] at hs
    cases hs with
    | finish => exact ⟨[], none, .done _, .of_finish hrun⟩
    | @fail root name s _ rest _ nodes f hv hl =>
      have hc := (Session.load_visit hl).2.1
      exact ⟨[], some (name, f), .fail hv hc, .of_fail hl hrun⟩

end Walk

namespace Session

variable {s : Session} {spelled : String} {g : Graph} {f : Fault}
  {found : List (Name × Program)} {stop : Option (Name × Fault)}

/-- Resolving explores what the root stands for, with nothing visited before. -/
theorem resolve_explores (s : Session) (spelled : String) : ∃ found stop,
    Explores s.content [] [Path.canonical spelled none] found stop ∧
      (Walk.ofRoot s spelled).Ends found stop :=
  (Walk.ofRoot s spelled).run_explores

theorem resolve_ends
    (h : Explores s.content [] [Path.canonical spelled none] found stop) :
    (Walk.ofRoot s spelled).Ends found stop := by
  obtain ⟨found', stop', h', hend⟩ := s.resolve_explores spelled
  obtain ⟨rfl, rfl⟩ := h.unique h'
  exact hend

/-- The chains after an exploration are those of the table that it leaves. -/
theorem chain_of_explores
    (h : Explores s.content [] [Path.canonical spelled none] found stop) (name : Name) :
    (s.resolve spelled).2.chain name = chain { s with
      referrers := Referrers.after [(Path.canonical spelled none, none)] found } name :=
  chain_congr (resolve_ends h).referrers name

theorem grows_resolve (s : Session) (spelled : String) : s.Grows (s.resolve spelled).2 := by
  obtain ⟨found, stop, -, hend⟩ := s.resolve_explores spelled
  have hclear : s.Grows (Walk.ofRoot s spelled).session := .of_eq rfl rfl
  exact hclear.trans hend.grows

/-- The graph of an exploration that is not stopped. -/
theorem resolve_of_explores
    (h : Explores s.content [] [Path.canonical spelled none] found none) :
    ∃ g, (s.resolve spelled).1 = .ok g ∧ g.root = Path.canonical spelled none ∧
      g.nodes.map Node.content = found ∧
      ∀ n ∈ g.nodes, (s.resolve spelled).2.program? n.name = some n.loaded := by
  obtain ⟨nodes, hres, hfound, hknown⟩ := (resolve_ends h).finished rfl
  exact ⟨_, hres, rfl, hfound, hknown⟩

/-- The fault of an exploration that is stopped. -/
theorem resolve_of_stop {name : Name}
    (h : Explores s.content [] [Path.canonical spelled none] found (some (name, f))) :
    (s.resolve spelled).1 = .error
      (Walk.trace (s.resolve spelled).2 (Path.canonical spelled none) name f) :=
  (resolve_ends h).failed (name, f) rfl

/-- Each graph that is returned has come about by an exploration. -/
theorem explores_of_resolve (h : (s.resolve spelled).1 = .ok g) :
    Explores s.content [] [Path.canonical spelled none] (g.nodes.map Node.content) none ∧
      g.root = Path.canonical spelled none ∧
      ∀ n ∈ g.nodes, (s.resolve spelled).2.program? n.name = some n.loaded := by
  obtain ⟨found, stop, hex, -⟩ := s.resolve_explores spelled
  cases stop with
  | none =>
    obtain ⟨g', hres, hroot, hfound, hknown⟩ := resolve_of_explores hex
    rw [h] at hres
    cases hres
    exact ⟨hfound ▸ hex, hroot, hknown⟩
  | some q =>
    obtain ⟨name, f⟩ := q
    rw [resolve_of_stop hex] at h
    cases h

end Session

end StackFront
