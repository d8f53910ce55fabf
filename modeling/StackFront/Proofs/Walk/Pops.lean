import Mathlib.Data.List.Basic
import StackFront.Proofs.Walk.DepthFirst

/-!
# How long walks take

The pending names become more while a walk takes them one by one, and a name is pending as often as
it is referred to. Still every walk ends: each program is found once, so that each of its
declarations is put in front of the pending names once, and is taken from them once. A walk that
finds everything therefore takes one name for the root and one for each declaration of the programs
that it finds; a walk that fails takes no more than that.
-/
namespace StackFront

namespace Program

theorem length_successors (p : Program) (name : Name) :
    (p.successors name).length = p.targets.length := by
  rw [successors, targets, List.length_append, List.length_append, linkNames, linkNames,
    List.length_map, List.length_map]
  rfl

end Program

namespace Explores

/-- The declarations of the programs that are found. -/
def declarations (found : List (Name × Program)) : List String :=
  found.flatMap fun q => q.2.targets

theorem declarations_cons (name : Name) (p : Program) (found : List (Name × Program)) :
    declarations ((name, p) :: found) = p.targets ++ declarations found := rfl

end Explores

namespace Walk

/-- The walk takes so many of its pending names, one after the other, and then ends as it is said:
because no name is pending any more or because the last one that it took cannot be loaded. -/
inductive Pops : Walk → Nat → Except Fault Graph × Session → Prop
  | spent {w : Walk} {r : Except Fault Graph} {t : Session} (hpending : w.pending = [])
      (h : w.step = .done r t) : Pops w 0 (r, t)
  | stopped {w : Walk} {r : Except Fault Graph} {t : Session} (hpending : w.pending ≠ [])
      (h : w.step = .done r t) : Pops w 1 (r, t)
  | taken {w w' : Walk} {n : Nat} {r : Except Fault Graph × Session} (h : w.step = .more w')
      (hrest : Pops w' n r) : Pops w (n + 1) r

/-- There is one way for a walk to end. -/
theorem Pops.unique {w : Walk} {m n : Nat} {r r' : Except Fault Graph × Session}
    (h : Pops w m r) (h' : Pops w n r') : m = n ∧ r = r' := by
  induction h generalizing n r' with
  | spent hpending h =>
    cases h' with
    | spent _ h' =>
      rw [h] at h'
      cases h'
      exact ⟨rfl, rfl⟩
    | stopped hpending' _ => exact absurd hpending hpending'
    | taken h' _ =>
      rw [h] at h'
      cases h'
  | stopped hpending h =>
    cases h' with
    | spent hpending' _ => exact absurd hpending' hpending
    | stopped _ h' =>
      rw [h] at h'
      cases h'
      exact ⟨rfl, rfl⟩
    | taken h' _ =>
      rw [h] at h'
      cases h'
  | taken h _ ih =>
    cases h' with
    | spent _ h' =>
      rw [h] at h'
      cases h'
    | stopped _ h' =>
      rw [h] at h'
      cases h'
    | taken h' hrest' =>
      rw [h] at h'
      cases h'
      obtain ⟨rfl, rfl⟩ := ih hrest'
      exact ⟨rfl, rfl⟩

section Step

variable {root name : Name} {s s' : Session} {rest : List Name} {nodes : List Node}
  {canonical : ∀ n ∈ name :: rest, Path.IsCanonical n}

theorem step_of_visited {canonical' : ∀ n ∈ rest, Path.IsCanonical n} (hv : name ∈ s.visited) :
    step ⟨root, s, name :: rest, canonical, nodes⟩ = .more ⟨root, s, rest, canonical', nodes⟩ := by
  have hold : s.isNew name = false := by simpa [Session.isNew] using hv
  rw [step, if_neg (by simp [hold])]

theorem step_of_error {f : Fault} (hv : name ∉ s.visited)
    (hl : (s.visit name).load name = (.error f, s')) :
    step ⟨root, s, name :: rest, canonical, nodes⟩ =
      .done (.error (trace s' root name f)) s' := by
  have hnew : s.isNew name = true := by simpa [Session.isNew] using hv
  simp only [step, if_pos hnew, hl]

theorem step_of_ok {loaded : Loaded}
    {canonical' : ∀ n ∈ pendingAfter name loaded.program rest, Path.IsCanonical n}
    (hv : name ∉ s.visited) (hl : (s.visit name).load name = (.ok loaded, s')) :
    step ⟨root, s, name :: rest, canonical, nodes⟩ =
      .more ⟨root, s'.refer name (loaded.program.successors name),
        pendingAfter name loaded.program rest, canonical', nodes ++ [⟨name, loaded⟩]⟩ := by
  have hnew : s.isNew name = true := by simpa [Session.isNew] using hv
  simp only [step, if_pos hnew, hl]

end Step

/-- A walk takes the names that are pending at its beginning and one more for each declaration of
the programs that it finds, all of them unless it stops. -/
theorem Course.pops {w : Walk} {found : List (Name × Program)} {stop : Option (Name × Fault)}
    {r : Except Fault Graph × Session} (h : Course w found stop r) :
    ∃ n, Pops w n r ∧ n ≤ w.pending.length + (Explores.declarations found).length ∧
      (stop = none → n = w.pending.length + (Explores.declarations found).length) := by
  induction h with
  | finish => exact ⟨0, .spent rfl rfl, Nat.zero_le _, fun _ => rfl⟩
  | drop hv _ ih =>
    obtain ⟨n, hpops, hle, heq⟩ := ih
    dsimp only at hle heq ⊢
    rw [List.length_cons]
    exact ⟨n + 1, .taken (step_of_visited hv) hpops, by omega, fun hstop => by
      have := heq hstop
      omega⟩
  | fail hv hl =>
    refine ⟨1, .stopped (List.cons_ne_nil _ _) (step_of_error hv hl), ?_, nofun⟩
    dsimp only
    rw [List.length_cons]
    omega
  | @find root name s s' rest _ nodes loaded _ found stop r hv hl _ ih =>
    obtain ⟨n, hpops, hle, heq⟩ := ih
    -- the declarations of the program that is found are pending from now on
    have hlength : (pendingAfter name loaded.program rest).length =
        loaded.program.targets.length + rest.length := by
      rw [pendingAfter, List.length_append, List.length_reverse, Program.length_successors]
    dsimp only at hle heq ⊢
    rw [hlength] at hle heq
    rw [List.length_cons, Explores.declarations_cons, List.length_append]
    exact ⟨n + 1, .taken (step_of_ok hv hl) hpops, by omega, fun hstop => by
      have := heq hstop
      omega⟩

end Walk

/-- The declarations of the programs of a graph. -/
def Graph.declarations (g : Graph) : List String :=
  g.nodes.flatMap fun n => n.program.targets

namespace Session

/-- The declarations of the program of a name, as far as it is known. -/
def declarations (s : Session) (name : Name) : List String :=
  match s.program? name with
  | some loaded => loaded.program.targets
  | none => []

theorem flatMap_declarations {s t : Session} {found : List (Name × Program)}
    (h : s.Gathers (found.map Prod.fst) t) (hfound : ∀ q ∈ found, s.content q.1 = .ok q.2) :
    (found.map Prod.fst).flatMap t.declarations = Explores.declarations found := by
  rw [List.flatMap_map, Explores.declarations]
  refine List.flatMap_congr fun q hq => ?_
  obtain ⟨loaded, hknown, hcontent⟩ := h.known q.1 (List.mem_map_of_mem hq)
  rw [hfound q hq, Except.ok.injEq] at hcontent
  simp only [declarations, hknown, hcontent]

/-- What it takes to resolve a root. -/
structure Takes (s : Session) (spelled : String) (n : Nat) : Prop where
  /-- After `n` names, and not otherwise, the walk comes to its end and answers. -/
  ends : ∀ m r, (Walk.ofRoot s spelled).Pops m r ↔ m = n ∧ r = s.resolve spelled
  /-- No name is loaded twice, and the names that are loaded have declarations enough to account for
  all that are taken but the root. -/
  loads : ∃ names, (s.resolve spelled).2.asked = s.asked ++ names ∧ names.Nodup ∧
    n ≤ 1 + (names.flatMap (s.resolve spelled).2.declarations).length
  /-- If there is a graph in the end, each of its declarations was taken. -/
  graph : ∀ g, (s.resolve spelled).1 = .ok g → n = 1 + g.declarations.length

/-- Whatever its programs refer to, a root is resolved in finitely many steps. -/
theorem resolve_takes (s : Session) (spelled : String) : ∃ n, s.Takes spelled n := by
  obtain ⟨found, stop, hcourse⟩ := s.exists_course spelled
  have hex : Explores s.content [] [Path.canonical spelled none] found stop := hcourse.explores
  obtain ⟨n, hpops, hle, heq⟩ := hcourse.pops
  have hgathers : s.Gathers (found.map Prod.fst) (s.resolve spelled).2 :=
    (s.grows_resolve spelled).gathers hcourse.programs
  refine ⟨n, fun m r => ⟨fun h => h.unique hpops, ?_⟩,
    ⟨Explores.trail found stop, hcourse.asked, hex.trail_nodup, ?_⟩, fun g hg => ?_⟩
  · rintro ⟨rfl, rfl⟩
    exact hpops
  · rw [Explores.trail, List.flatMap_append, List.length_append,
      flatMap_declarations hgathers hex.found_eq, ← Nat.add_assoc]
    exact Nat.le_trans hle (Nat.le_add_right ..)
  · obtain ⟨hg', -, -⟩ := explores_of_resolve hg
    obtain ⟨rfl, rfl⟩ := hex.unique hg'
    rw [heq rfl, Explores.declarations, List.flatMap_map]
    rfl

end Session

end StackFront
