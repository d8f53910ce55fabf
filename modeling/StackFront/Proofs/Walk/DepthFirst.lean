import StackFront.Proofs.Walk.Course

/-!
# Walks are depth-first searches

A walk keeps the names that it has still to visit in a list and drops a name only when it meets it
for a second time. Depth-first search is shorter to tell as a recursive procedure: `search`. The two
take the same way, because to search what a name refers to before the names that are pending is
nothing but to put it in front of them (`searchAll_of_ok`). So a walk loads the names in the order
in which the recursive procedure sees them, up to the first one that cannot be loaded.
-/
namespace StackFront

namespace Program

/-- What a program refers to, in the order in which a search goes through it: used names before
extended ones, and of each kind the last declared one first. -/
def references (p : Program) (name : Name) : List Name :=
  (p.linkNames name .use).reverse ++ (p.linkNames name .extend).reverse

theorem references_eq (p : Program) (name : Name) :
    p.references name = (p.successors name).reverse := by
  rw [references, successors, List.reverse_append]

theorem isCanonical_references {p : Program} {name n : Name} (h : n ∈ p.references name) :
    Path.IsCanonical n := by
  rw [references_eq, List.mem_reverse] at h
  exact Walk.isCanonical_successors h

end Program

namespace Session

/-- The names that a search may still find a program for. -/
noncomputable def unseen (s : Session) (seen : List Name) : List Name :=
  (s.programs.map Prod.fst ++ s.store.names).filter (· ∉ seen)

theorem unseen_append (s : Session) (seen added : List Name) :
    s.unseen (seen ++ added) = (s.unseen seen).filter (· ∉ added) := by
  rw [unseen, unseen, List.filter_filter]
  congr 1
  funext n
  simp [Bool.and_comm]

theorem unseen_le (s : Session) {seen order : List Name} (h : seen <+: order) :
    (s.unseen order).length ≤ (s.unseen seen).length := by
  obtain ⟨added, rfl⟩ := h
  rw [unseen_append]
  exact List.length_filter_le ..

/-- To see a name that can be loaded brings a search nearer to its end. -/
theorem unseen_lt {s : Session} {seen : List Name} {name : Name} {p : Program}
    (hcanonical : Path.IsCanonical name) (hnew : name ∉ seen) (hp : s.content name = .ok p) :
    (s.unseen (seen ++ [name])).length < (s.unseen seen).length := by
  have hloadable : name ∈ s.programs.map Prod.fst ++ s.store.names := by
    rw [List.mem_append, ← isSome_program?]
    cases hk : s.program? name with
    | some loaded => exact .inl rfl
    | none =>
      rw [content_of_unknown hk, Store.content_eq_ok_iff] at hp
      obtain ⟨text, htext, -⟩ := hp
      exact .inr (Store.mem_names hcanonical htext)
  have hmem : name ∈ s.unseen seen := List.mem_filter.mpr ⟨hloadable, by simpa using hnew⟩
  rw [unseen_append]
  exact List.length_filter_lt_length_iff_exists.mpr ⟨name, hmem, by simp⟩

set_option linter.unusedVariables false in
mutual

/-- Depth-first search. A name that was seen before is left alone; any other one is seen now, and
then the search goes on with everything that its program refers to, one name after the other. The
names stand in the order in which they were seen. -/
def search (s : Session) (seen : List Name) (name : Name) (canonical : Path.IsCanonical name) :
    {order : List Name // seen <+: order} :=
  if hseen : name ∈ seen then ⟨seen, List.prefix_rfl⟩
  else
    match hname : s.content name with
    | .ok p =>
      let order := s.searchAll (seen ++ [name]) (p.references name) fun _ h =>
        Program.isCanonical_references h
      ⟨order, (List.prefix_append seen [name]).trans order.property⟩
    | .error _ => ⟨seen ++ [name], List.prefix_append seen [name]⟩
termination_by ((s.unseen seen).length, 0)
decreasing_by exact .left _ _ (unseen_lt canonical hseen hname)

/-- Depth-first search from some names, one after the other. -/
def searchAll (s : Session) (seen pending : List Name)
    (canonical : ∀ n ∈ pending, Path.IsCanonical n) : {order : List Name // seen <+: order} :=
  match pending with
  | [] => ⟨seen, List.prefix_rfl⟩
  | name :: rest =>
    let middle := s.search seen name (canonical name (List.mem_cons_self ..))
    let order := s.searchAll middle rest fun n h => canonical n (List.mem_cons_of_mem _ h)
    ⟨order, middle.property.trans order.property⟩
termination_by ((s.unseen seen).length, pending.length)
decreasing_by
  · exact .right _ (Nat.zero_lt_succ _)
  · exact Prod.Lex.right' _ (s.unseen_le middle.property) (Nat.lt_succ_self _)

end

variable {s : Session} {seen middle rest xs ys : List Name} {name : Name} {p : Program}

theorem search_of_seen (canonical : Path.IsCanonical name) (h : name ∈ seen) :
    (s.search seen name canonical).val = seen := by
  rw [search, dif_pos h]

theorem search_of_ok (canonical : Path.IsCanonical name) (hnew : name ∉ seen)
    (hp : s.content name = .ok p) :
    (s.search seen name canonical).val =
      (s.searchAll (seen ++ [name]) (p.references name) fun _ h =>
        Program.isCanonical_references h).val := by
  rw [search, dif_neg hnew]
  split
  next q hq =>
    cases hq.symm.trans hp
    rfl
  next f hf => cases hf.symm.trans hp

theorem search_of_error {f : Fault} (canonical : Path.IsCanonical name) (hnew : name ∉ seen)
    (hf : s.content name = .error f) : (s.search seen name canonical).val = seen ++ [name] := by
  rw [search, dif_neg hnew]
  split
  next q hq => cases hq.symm.trans hf
  next => rfl

theorem searchAll_nil (canonical : ∀ n ∈ [], Path.IsCanonical n) :
    (s.searchAll seen [] canonical).val = seen := by
  rw [searchAll]

theorem searchAll_cons (canonical : ∀ n ∈ name :: rest, Path.IsCanonical n)
    (h : (s.search seen name (canonical name (List.mem_cons_self ..))).val = middle) :
    (s.searchAll seen (name :: rest) canonical).val =
      (s.searchAll middle rest fun n hn => canonical n (List.mem_cons_of_mem _ hn)).val := by
  subst h
  rw [searchAll]

theorem searchAll_append (canonical : ∀ n ∈ xs ++ ys, Path.IsCanonical n)
    (h : (s.searchAll seen xs fun n hn => canonical n (List.mem_append_left _ hn)).val = middle) :
    (s.searchAll seen (xs ++ ys) canonical).val =
      (s.searchAll middle ys fun n hn => canonical n (List.mem_append_right _ hn)).val := by
  induction xs generalizing seen with
  | nil =>
    rw [searchAll_nil] at h
    subst h
    rfl
  | cons name rest ih =>
    rw [searchAll_cons _ rfl] at h
    exact (searchAll_cons _ rfl).trans (ih _ h)

/-- To search what a name refers to is the same as to put it in front of the pending names. -/
theorem searchAll_of_ok (canonical : ∀ n ∈ name :: rest, Path.IsCanonical n)
    (canonical' : ∀ n ∈ (p.successors name).reverse ++ rest, Path.IsCanonical n)
    (hnew : name ∉ seen) (hp : s.content name = .ok p) :
    (s.searchAll seen (name :: rest) canonical).val =
      (s.searchAll (seen ++ [name]) ((p.successors name).reverse ++ rest) canonical').val := by
  have hname := search_of_ok (canonical name (List.mem_cons_self ..)) hnew hp
  simp only [Program.references_eq] at hname
  rw [searchAll_cons canonical hname, searchAll_append canonical' rfl]

end Session

namespace Explores

variable {c : Contents} {s : Session} {visited pending seen : List Name}
  {found : List (Name × Program)} {stop : Option (Name × Fault)}

/-- The names that an exploration comes to: those that it finds, and the one at which it stops. -/
def trail (found : List (Name × Program)) (stop : Option (Name × Fault)) : List Name :=
  found.map Prod.fst ++ (stop.map Prod.fst).toList

@[simp] theorem trail_none : trail found none = found.map Prod.fst :=
  List.append_nil _

@[simp] theorem trail_some (q : Name × Fault) :
    trail found (some q) = found.map Prod.fst ++ [q.1] := rfl

/-- An exploration comes to no name that was visited before it. -/
theorem trail_new (h : Explores c visited pending found stop) :
    ∀ n ∈ trail found stop, n ∉ visited := by
  induction h with
  | done visited => simp
  | drop _ _ ih => exact ih
  | fail hv _ => simpa using hv
  | find hv _ _ ih =>
    intro n hn
    rcases List.mem_cons.mp hn with rfl | hn
    · exact hv
    · exact fun hmem => ih n hn (List.mem_cons_of_mem _ hmem)

/-- And it comes to no name twice. -/
theorem trail_nodup (h : Explores c visited pending found stop) : (trail found stop).Nodup := by
  induction h with
  | done visited => simp
  | drop _ _ ih => exact ih
  | fail _ _ => simp
  | find _ _ h ih =>
    refine List.nodup_cons.mpr ⟨fun hmem => ?_, ih⟩
    exact h.trail_new _ hmem (List.mem_cons_self ..)

/-- An exploration comes to the names in the order in which a depth-first search sees them, and it
comes to all of them unless it stops. -/
theorem searchAll_eq (h : Explores s.content visited pending found stop)
    (canonical : ∀ n ∈ pending, Path.IsCanonical n) (hseen : ∀ n, n ∈ seen ↔ n ∈ visited) :
    ∃ after, (s.searchAll seen pending canonical).val = seen ++ trail found stop ++ after ∧
      (stop = none → after = []) := by
  induction h generalizing seen with
  | done visited =>
    refine ⟨[], ?_, fun _ => rfl⟩
    rw [Session.searchAll_nil]
    simp [trail]
  | @drop visited rest name _ _ hv _ ih =>
    rw [Session.searchAll_cons canonical (Session.search_of_seen _ ((hseen name).mpr hv))]
    exact ih _ hseen
  | @fail visited rest name f hv hc =>
    have hnew : name ∉ seen := fun hn => hv ((hseen name).mp hn)
    rw [Session.searchAll_cons canonical (Session.search_of_error _ hnew hc)]
    -- the search leaves the name alone and goes on where the exploration stops
    obtain ⟨after, hafter⟩ := (s.searchAll (seen ++ [name]) rest fun n hn =>
      canonical n (List.mem_cons_of_mem _ hn)).property
    exact ⟨after, hafter.symm, by simp⟩
  | @find visited rest name p found stop hv hc _ ih =>
    have hnew : name ∉ seen := fun hn => hv ((hseen name).mp hn)
    have canonical' : ∀ n ∈ (p.successors name).reverse ++ rest, Path.IsCanonical n :=
      Walk.pendingAfter_canonical fun n hn => canonical n (List.mem_cons_of_mem _ hn)
    rw [Session.searchAll_of_ok canonical canonical' hnew hc]
    have hseen' : ∀ n, n ∈ seen ++ [name] ↔ n ∈ name :: visited := by
      intro n
      rw [List.mem_append, List.mem_singleton, List.mem_cons, hseen n, or_comm]
    obtain ⟨after, hafter, hall⟩ := ih _ hseen'
    refine ⟨after, hafter.trans ?_, hall⟩
    simp [trail]

end Explores

namespace Session

/-- The names whose programs were asked for, known ones included, earliest first. -/
def asked (s : Session) : List Name :=
  s.events.filterMap fun e =>
    match e with
    | .read name | .programKnown name => some name
    | _ => none

/-- Those of some names that have no program yet. -/
def unknown (s : Session) (names : List Name) : List Name :=
  names.filter fun n => (s.program? n).isNone

variable {s s' t : Session} {name n : Name} {loaded : Loaded} {spelled : String}

theorem unknown_cons (s : Session) (name : Name) (rest : List Name) :
    s.unknown (name :: rest) = s.unknown [name] ++ s.unknown rest :=
  List.filter_append [name] rest

theorem asked_load (s : Session) (name : Name) : (s.load name).2.asked = s.asked ++ [name] := by
  have h := s.loads name
  generalize s.load name = r at h
  cases h <;> simp [asked, note, keep]

/-- The text of a name is read if its program is not known. -/
theorem reads_load (s : Session) (name : Name) :
    (s.load name).2.reads = s.reads ++ s.unknown [name] := by
  have h := s.loads name
  generalize s.load name = r at h
  cases h with
  | known loaded h => simp [reads, note, unknown, h]
  | refused f h _ => simp [reads, note, unknown, h]
  | added p h _ => simp [reads, note, keep, unknown, h]

theorem events_refer (s : Session) (source : Name) (names : List Name) :
    (s.refer source names).events = s.events := by
  induction names generalizing s with
  | nil => rfl
  | cons name rest ih =>
    rw [refer, ih]
    split <;> rfl

theorem asked_refer (s : Session) (source : Name) (names : List Name) :
    (s.refer source names).asked = s.asked := by
  rw [asked, events_refer, asked]

theorem reads_refer (s : Session) (source : Name) (names : List Name) :
    (s.refer source names).reads = s.reads := by
  rw [reads, events_refer, reads]

/-- A load that succeeds gives a program to its name, unless it has one, and to no other one. -/
theorem programs_load (h : s.load name = (.ok loaded, s')) :
    s'.programs.map Prod.fst = s.programs.map Prod.fst ++ s.unknown [name] ∧
      ∀ n, n ≠ name → s'.program? n = s.program? n := by
  have hl := s.loads name
  rw [h] at hl
  cases hl with
  | known _ hk =>
    refine ⟨?_, fun n _ => rfl⟩
    simp [unknown, hk]
  | added p hk _ =>
    refine ⟨?_, fun n hn => ?_⟩
    · simp [unknown, hk, keep]
    · have hkeep := (s.note (.read name)).program?_keep name p n
      rw [if_neg hn.symm, Option.or_none] at hkeep
      exact hkeep

/-- So which of the other names are unknown does not depend on it. -/
theorem unknown_refer_load {names : List Name} (h : (s.visit name).load name = (.ok loaded, s'))
    (hname : name ∉ names) :
    (s'.refer name (loaded.program.successors name)).unknown names = s.unknown names := by
  obtain ⟨-, hothers⟩ := programs_load h
  refine List.filter_congr fun n hn => ?_
  have hne : n ≠ name := fun heq => hname (heq ▸ hn)
  rw [program?_congr (s'.refer_programs ..), hothers n hne]
  rfl

/-- The second session has come from the first one by loading the programs of some names: each of
them that had no program yet has got one, in this order, and it is the one that it stands for. -/
structure Gathers (s : Session) (names : List Name) (t : Session) : Prop where
  programs : t.programs.map Prod.fst = s.programs.map Prod.fst ++ s.unknown names
  known : ∀ n ∈ names, ∃ loaded, t.program? n = some loaded ∧ s.content n = .ok loaded.program

theorem Grows.gathers {names : List Name} (h : s.Grows t)
    (hprograms : t.programs.map Prod.fst = s.programs.map Prod.fst ++ s.unknown names) :
    s.Gathers names t := by
  refine ⟨hprograms, fun n hn => ?_⟩
  have hmem : n ∈ t.programs.map Prod.fst := by
    rw [hprograms, List.mem_append, ← isSome_program?]
    cases hk : s.program? n with
    | some loaded => exact .inl rfl
    | none => exact .inr (List.mem_filter.mpr ⟨hn, by rw [hk]; rfl⟩)
  obtain ⟨loaded, hloaded⟩ := Option.isSome_iff_exists.mp (isSome_program?.mpr hmem)
  have hcontent := content_of_known hloaded
  rw [h.content] at hcontent
  exact ⟨loaded, hloaded, hcontent⟩

end Session

namespace Walk.Course

variable {w : Walk} {found : List (Name × Program)} {stop : Option (Name × Fault)}
  {r : Except Fault Graph × Session}

/-- A walk asks for the programs of the names that it comes to, and for no others. -/
theorem asked (h : Course w found stop r) :
    r.2.asked = w.session.asked ++ Explores.trail found stop := by
  induction h with
  | finish => simp [Explores.trail, Session.asked, Session.note]
  | drop _ _ ih => exact ih
  | @fail root name s s' rest _ nodes f hv hl =>
    have hasked := (s.visit name).asked_load name
    rw [hl] at hasked
    exact hasked
  | @find root name s s' rest _ nodes loaded _ found stop r hv hl _ ih =>
    have hasked := (s.visit name).asked_load name
    rw [hl] at hasked
    rw [ih, Session.asked_refer, hasked, List.append_assoc]
    rfl

theorem programs (h : Course w found stop r) :
    r.2.programs.map Prod.fst =
      w.session.programs.map Prod.fst ++ w.session.unknown (found.map Prod.fst) := by
  induction h with
  | finish => exact (List.append_nil _).symm
  | drop _ _ ih => exact ih
  | @fail root name s s' rest _ nodes f hv hl =>
    have hload := (s.visit name).loads name
    rw [hl] at hload
    cases hload
    exact (List.append_nil _).symm
  | @find root name s s' rest _ nodes loaded _ found stop r hv hl h ih =>
    obtain ⟨hname, -⟩ := Session.programs_load hl
    obtain ⟨-, -, hvisited, -⟩ := Session.load_visit hl
    -- what is found later was not visited before, so that the load of this name made no difference
    have hrest : (s'.refer name (loaded.program.successors name)).unknown (found.map Prod.fst) =
        s.unknown (found.map Prod.fst) := by
      refine Session.unknown_refer_load hl fun hmem => ?_
      obtain ⟨q, hq, hqname⟩ := List.mem_map.mp hmem
      apply h.explores.found_new q hq
      rw [Session.refer_visited, hvisited, hqname]
      exact List.mem_cons_self ..
    have hvisit : s'.programs.map Prod.fst = s.programs.map Prod.fst ++ s.unknown [name] := hname
    rw [ih, hrest, Session.refer_programs, hvisit, List.append_assoc, ← Session.unknown_cons]
    rfl

/-- The texts of these names are read, except for those that are known already. -/
theorem reads (h : Course w found stop r) :
    r.2.reads = w.session.reads ++ w.session.unknown (Explores.trail found stop) := by
  induction h with
  | finish => simp [Explores.trail, Session.reads, Session.note, Session.unknown]
  | drop _ _ ih => exact ih
  | @fail root name s s' rest _ nodes f hv hl =>
    have hreads := (s.visit name).reads_load name
    rw [hl] at hreads
    exact hreads
  | @find root name s s' rest _ nodes loaded _ found stop r hv hl h ih =>
    have hreads := (s.visit name).reads_load name
    rw [hl] at hreads
    obtain ⟨-, -, hvisited, -⟩ := Session.load_visit hl
    have hrest : (s'.refer name (loaded.program.successors name)).unknown
        (Explores.trail found stop) = s.unknown (Explores.trail found stop) := by
      refine Session.unknown_refer_load hl fun hmem => h.explores.trail_new name hmem ?_
      rw [Session.refer_visited, hvisited]
      exact List.mem_cons_self ..
    have hvisit : s'.reads = s.reads ++ s.unknown [name] := hreads
    rw [ih, hrest, Session.reads_refer, hvisit, List.append_assoc, ← Session.unknown_cons]
    rfl

end Walk.Course

namespace Session

/-- What resolving comes to if a depth-first search from its root sees the names in `order`. Either
they can all be loaded and are the names of the graph, or it is the first one that cannot be loaded
that makes it fail. -/
inductive Follows (s : Session) (root : Name) (order : List Name) :
    Except Fault Graph × Session → Prop
  | graph {g : Graph} {t : Session} (hnames : g.names = order)
      (hasked : t.asked = s.asked ++ order) (hloaded : s.Gathers order t) :
      Follows s root order (.ok g, t)
  | fault {before after : List Name} {name : Name} {f : Fault} {t : Session}
      (horder : order = before ++ name :: after) (hname : s.content name = .error f)
      (hasked : t.asked = s.asked ++ before ++ [name]) (hloaded : s.Gathers before t) :
      Follows s root order (.error (Walk.trace t root name f), t)

/-- The names that a depth-first search from a root comes to, in its order. -/
def depthFirst (s : Session) (spelled : String) : List Name :=
  (s.search [] (Path.canonical spelled none) ⟨spelled, none, rfl⟩).val

/-- Resolving follows the depth-first search from the root. -/
theorem resolve_depthFirst (s : Session) (spelled : String) :
    s.Follows (Path.canonical spelled none) (s.depthFirst spelled) (s.resolve spelled) := by
  obtain ⟨found, stop, hcourse⟩ := s.exists_course spelled
  have hex : Explores s.content [] [Path.canonical spelled none] found stop := hcourse.explores
  have hgathers : s.Gathers (found.map Prod.fst) (s.resolve spelled).2 :=
    (s.grows_resolve spelled).gathers hcourse.programs
  have hasked : (s.resolve spelled).2.asked = s.asked ++ Explores.trail found stop :=
    hcourse.asked
  have hroot : ∀ n ∈ [Path.canonical spelled none], Path.IsCanonical n :=
    (Walk.ofRoot s spelled).pending_canonical
  obtain ⟨after, hafter, hall⟩ := hex.searchAll_eq hroot fun n => Iff.rfl
  rw [searchAll_cons hroot rfl, searchAll_nil, List.nil_append] at hafter
  have horder : s.depthFirst spelled = Explores.trail found stop ++ after := hafter
  cases stop with
  | none =>
    obtain ⟨g, hg, -, hnodes, -⟩ := resolve_of_explores hex
    have hnames : g.names = found.map Prod.fst := by
      rw [← hnodes, List.map_map]
      rfl
    rw [hall rfl, List.append_nil, Explores.trail_none] at horder
    rw [Explores.trail_none] at hasked
    have hr : s.resolve spelled = (.ok g, (s.resolve spelled).2) := Prod.ext hg rfl
    rw [hr, horder]
    exact .graph hnames hasked hgathers
  | some q =>
    obtain ⟨name, f⟩ := q
    rw [Explores.trail_some, List.append_assoc] at horder
    rw [Explores.trail_some, ← List.append_assoc] at hasked
    have hr : s.resolve spelled = (.error (Walk.trace (s.resolve spelled).2
        (Path.canonical spelled none) name f), (s.resolve spelled).2) :=
      Prod.ext (resolve_of_stop hex) rfl
    rw [hr]
    exact .fault horder (hex.stop_eq (name, f) rfl) hasked hgathers

variable {s : Session} {spelled : String}

/-- The names that resolving asks for. -/
theorem asked_of_explores {found : List (Name × Program)} {stop : Option (Name × Fault)}
    (h : Explores s.content [] [Path.canonical spelled none] found stop) :
    (s.resolve spelled).2.asked = s.asked ++ Explores.trail found stop := by
  obtain ⟨found', stop', hcourse⟩ := s.exists_course spelled
  have hex : Explores s.content [] [Path.canonical spelled none] found' stop' := hcourse.explores
  obtain ⟨rfl, rfl⟩ := h.unique hex
  exact hcourse.asked

/-- A resolution that fails has stopped at a name that cannot be loaded and that it asked for last,
and its fault is that of the name, with or without a trace. -/
theorem exists_stop_of_error {f : Fault} (h : (s.resolve spelled).1 = .error f) :
    ∃ found name raised,
      Walk.Course (Walk.ofRoot s spelled) found (some (name, raised)) (s.resolve spelled) ∧
      s.content name = .error raised ∧ (s.resolve spelled).2.asked.getLast? = some name ∧
      f = Walk.trace (s.resolve spelled).2 (Path.canonical spelled none) name raised := by
  obtain ⟨found, stop, hcourse⟩ := s.exists_course spelled
  have hex : Explores s.content [] [Path.canonical spelled none] found stop := hcourse.explores
  cases stop with
  | none =>
    obtain ⟨g, hg, -⟩ := resolve_of_explores hex
    cases h.symm.trans hg
  | some q =>
    obtain ⟨name, raised⟩ := q
    refine ⟨found, name, raised, hcourse, hex.stop_eq (name, raised) rfl, ?_, ?_⟩
    · rw [asked_of_explores hex, Explores.trail_some, ← List.append_assoc, List.getLast?_concat]
    · exact Except.error.inj (h.symm.trans (resolve_of_stop hex))

end Session

end StackFront
