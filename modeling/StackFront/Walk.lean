import StackFront.Session

/-!
# Walks

A walk explores all that a root refers to, directly or not. It keeps a list of pending names: the
first of them is visited next, and what a visited program refers to goes in front, the last
reference first. A name that was visited before is dropped, so that each program is loaded once.
A walk ends because each step drops a pending name or visits one more of the finitely many names
that can be loaded.
-/
namespace StackFront

namespace Session

/-- Marks a name as visited. -/
def visit (s : Session) (name : Name) : Session :=
  { s with visited := name :: s.visited }

/-- Whether a walk has still to come to a name. -/
def isNew (s : Session) (name : Name) : Bool :=
  name ∉ s.visited

/-- An upper bound for the number of programs that a walk can still visit. -/
noncomputable def unvisited (s : Session) : Nat :=
  ((s.programs.map Prod.fst ++ s.store.names).filter s.isNew).length

@[simp] theorem note_programs (s : Session) (e : Event) : (s.note e).programs = s.programs := rfl
@[simp] theorem note_store (s : Session) (e : Event) : (s.note e).store = s.store := rfl
@[simp] theorem note_visited (s : Session) (e : Event) : (s.note e).visited = s.visited := rfl
@[simp] theorem note_referrers (s : Session) (e : Event) :
    (s.note e).referrers = s.referrers := rfl

@[simp] theorem refer_programs (s : Session) (source : Name) (names : List Name) :
    (s.refer source names).programs = s.programs := by
  induction names generalizing s with
  | nil => rfl
  | cons name rest ih => simp only [refer, ih]; split <;> rfl

@[simp] theorem refer_store (s : Session) (source : Name) (names : List Name) :
    (s.refer source names).store = s.store := by
  induction names generalizing s with
  | nil => rfl
  | cons name rest ih => simp only [refer, ih]; split <;> rfl

@[simp] theorem refer_visited (s : Session) (source : Name) (names : List Name) :
    (s.refer source names).visited = s.visited := by
  induction names generalizing s with
  | nil => rfl
  | cons name rest ih => simp only [refer, ih]; split <;> rfl

@[simp] theorem refer_unvisited (s : Session) (source : Name) (names : List Name) :
    (s.refer source names).unvisited = s.unvisited := by
  have h : (s.refer source names).isNew = s.isNew := by
    funext name
    simp [isNew]
  simp [unvisited, h]

/-- A load changes neither the store nor the visited names, and at most adds the loaded name. -/
theorem load_ok {s s' : Session} {name : Name} {loaded : Loaded}
    (h : s.load name = (.ok loaded, s')) :
    s'.store = s.store ∧ s'.visited = s.visited ∧
      ((name ∈ s.programs.map Prod.fst ∧ s'.programs = s.programs) ∨
        ((∃ text, s.store.read name = .ok text) ∧
          s'.programs = s.programs ++ [(name, loaded)])) := by
  unfold load at h
  split at h
  next found hf =>
    simp only [Prod.mk.injEq, Except.ok.injEq] at h
    obtain ⟨-, rfl⟩ := h
    refine ⟨rfl, rfl, .inl ⟨?_, rfl⟩⟩
    simp only [program?, Option.map_eq_some_iff] at hf
    obtain ⟨p, hp, -⟩ := hf
    have hname := List.find?_some hp
    exact List.mem_map.mpr ⟨p, List.mem_of_find?_eq_some hp, by simpa using hname⟩
  next =>
    split at h
    · simp at h
    next text s₁ hask =>
      simp only [ask, Prod.mk.injEq] at hask
      obtain ⟨ht, rfl⟩ := hask
      split at h
      · simp at h
      · simp only [Prod.mk.injEq, Except.ok.injEq] at h
        obtain ⟨rfl, rfl⟩ := h
        exact ⟨rfl, rfl, .inr ⟨⟨text, ht⟩, rfl⟩⟩

/-- Visiting a canonical name that is new and can be loaded leaves fewer to visit. -/
theorem unvisited_load_lt {s s' : Session} {name : Name} {loaded : Loaded}
    (hc : Path.IsCanonical name) (hn : s.isNew name)
    (h : (s.visit name).load name = (.ok loaded, s')) : s'.unvisited < s.unvisited := by
  obtain ⟨hs, hv, hp⟩ := load_ok h
  have hmem : name ∈ s.programs.map Prod.fst ++ s.store.names := by
    rcases hp with ⟨hp, -⟩ | ⟨⟨text, ht⟩, -⟩
    · exact List.mem_append_left _ hp
    · exact List.mem_append_right _ (Store.mem_names hc ht)
  have hnew : ∀ x, s'.isNew x = (s.isNew x && decide (x ≠ name)) := by
    intro x
    simp only [isNew, hv, visit, List.mem_cons, not_or]
    by_cases hx : x = name <;> simp [hx]
  have hfilter : (s'.programs.map Prod.fst ++ s'.store.names).filter s'.isNew =
      ((s.programs.map Prod.fst ++ s.store.names).filter s.isNew).filter (· ≠ name) := by
    have hown : s'.isNew name = false := by simp [hnew]
    have hsame : (s'.programs.map Prod.fst).filter s'.isNew =
        (s.programs.map Prod.fst).filter s'.isNew := by
      rcases hp with ⟨-, hp⟩ | ⟨-, hp⟩
      · rw [hp]; rfl
      · rw [hp]; simp [hown, visit]
    rw [List.filter_append, hsame, hs, ← List.filter_append, List.filter_filter]
    congr 1
    funext x
    rw [hnew, Bool.and_comm]
  simp only [unvisited, hfilter]
  have hin : name ∈ (s.programs.map Prod.fst ++ s.store.names).filter s.isNew :=
    List.mem_filter.mpr ⟨hmem, hn⟩
  exact List.length_filter_lt_length_iff_exists.mpr ⟨name, hin, by simp⟩

end Session

/-- The state of a walk between two steps. -/
structure Walk where
  root : Name
  session : Session
  /-- The names to visit, next one first. -/
  pending : List Name
  pending_canonical : ∀ name ∈ pending, Path.IsCanonical name
  /-- The programs found so far, earliest first. -/
  found : List Node

namespace Walk

/-- A walk goes on or ends, with a graph or with a fault. -/
inductive Step where
  | more (w : Walk)
  | done (result : Except Fault Graph) (session : Session)

/-- The fault of a name that a walk could not load: if the name is referred to by another program
and the fault is of a kind that is traced, it tells the chain of references. -/
def trace (session : Session) (root name : Name) (f : Fault) : Fault :=
  if name ≠ root ∧ f.isTraced then f.mark name (session.chain name) else f

/-- The names that a walk has to visit after a program: its own references, last one first, and then
the others. -/
def pendingAfter (name : Name) (p : Program) (rest : List Name) : List Name :=
  (p.successors name).reverse ++ rest

theorem isCanonical_successors {name target : Name} {p : Program}
    (h : target ∈ p.successors name) : Path.IsCanonical target := by
  simp only [Program.successors, Program.linkNames, List.mem_append, List.mem_map] at h
  rcases h with ⟨t, -, rfl⟩ | ⟨t, -, rfl⟩ <;> exact ⟨t, some name, rfl⟩

theorem pendingAfter_canonical {name : Name} {p : Program} {rest : List Name}
    (h : ∀ n ∈ rest, Path.IsCanonical n) :
    ∀ n ∈ pendingAfter name p rest, Path.IsCanonical n := by
  intro n hn
  simp only [pendingAfter, List.mem_append, List.mem_reverse] at hn
  rcases hn with hn | hn
  · exact isCanonical_successors hn
  · exact h n hn

/-- Takes the first pending name. -/
def step (w : Walk) : Step :=
  match w with
  | ⟨root, session, [], _, found⟩ =>
    .done (.ok ⟨root, found⟩) (session.note (.resolved root found.length))
  | ⟨root, session, name :: rest, canonical, found⟩ =>
    if session.isNew name then
      match (session.visit name).load name with
      | (.error f, session) => .done (.error (trace session root name f)) session
      | (.ok loaded, session) =>
        .more
          { root
            session := session.refer name (loaded.program.successors name)
            pending := pendingAfter name loaded.program rest
            pending_canonical :=
              pendingAfter_canonical fun n hn => canonical n (List.mem_cons_of_mem _ hn)
            found := found ++ [⟨name, loaded⟩] }
    else
      .more ⟨root, session, rest, fun n hn => canonical n (List.mem_cons_of_mem _ hn), found⟩

/-- What is left to do: programs to visit, then names to drop. -/
noncomputable def remaining (w : Walk) : Nat × Nat :=
  (w.session.unvisited, w.pending.length)

theorem remaining_step {w w' : Walk} (h : w.step = .more w') :
    Prod.Lex (· < ·) (· < ·) w'.remaining w.remaining := by
  obtain ⟨root, session, pending, canonical, found⟩ := w
  cases pending with
  | nil => simp [step] at h
  | cons name rest =>
    simp only [step] at h
    split at h
    next hnew =>
      split at h
      · cases h
      next loaded session' hload =>
        cases h
        apply Prod.Lex.left
        have := Session.unvisited_load_lt (canonical name (by simp)) hnew hload
        simpa [remaining] using this
    next =>
      cases h
      exact Prod.Lex.right _ (by simp)

set_option linter.unusedVariables false in
/-- Walks to the end. -/
def run (w : Walk) : Except Fault Graph × Session :=
  match h : w.step with
  | .more w => w.run
  | .done result session => (result, session)
termination_by w.remaining
decreasing_by exact remaining_step h

/-- The walk from a root that is about to begin. -/
def ofRoot (session : Session) (spelled : String) : Walk :=
  let root := Path.canonical spelled none
  { root
    session := { session with visited := [], referrers := [(root, none)] }
    pending := [root]
    pending_canonical := by
      intro name hn
      simp only [List.mem_singleton] at hn
      exact ⟨spelled, none, hn⟩
    found := [] }

end Walk

/-- The graph of all that a root refers to, directly or not. Either every program of it is loaded
or the first fault is the answer. -/
def Session.resolve (s : Session) (root : String) : Except Fault Graph × Session :=
  (Walk.ofRoot s root).run

end StackFront
