import Mathlib.Data.List.Chain
import Mathlib.Data.List.Nodup
import Mathlib.Data.List.Perm.Subperm
import StackFront.Proofs.Walk.DepthFirst

/-!
# Chains of references

A walk notes for each name the program that first referred to it. This need not be the program
after which the name is visited, and programs may refer to each other in circles; still, to go up
from referrer to referrer always leads to the root. The reason is the order in which names are
entered in the table: a program refers to others only after it was visited, and it was pending, and
so entered, before that (`Grown`). Each step up therefore goes towards the front of the table, where
the root stands. The chain that a failed resolution tells is such a way from the root.
-/
namespace StackFront

/-- A way from a root to a name, each step of which is in `R`, that comes to no name twice. -/
structure IsRoute (R : Name → Name → Prop) (root name : Name) (route : List Name) : Prop where
  head : route.head? = some root
  last : route.getLast? = some name
  nodup : route.Nodup
  steps : route.IsChain R

namespace IsRoute

variable {R S : Name → Name → Prop} {root source name : Name} {route : List Name}

theorem single (R : Name → Name → Prop) (root : Name) : IsRoute R root root [root] :=
  ⟨rfl, rfl, List.nodup_singleton root, .singleton root⟩

theorem imp (h : IsRoute R root name route)
    (hRS : ∀ m n, m ∈ route → n ∈ route → R m n → S m n) : IsRoute S root name route :=
  ⟨h.head, h.last, h.nodup, h.steps.imp_of_mem_imp hRS⟩

/-- A route goes on to each name that it has not come to. -/
theorem snoc (h : IsRoute R root source route) (hnew : name ∉ route) (hstep : R source name) :
    IsRoute R root name (route ++ [name]) := by
  have hne : route ≠ [] := by
    rintro rfl
    cases h.head
  refine ⟨?_, List.getLast?_concat, ?_, ?_⟩
  · rw [List.head?_append_of_ne_nil route hne, h.head]
  · apply h.nodup.append (List.nodup_singleton name)
    simpa using hnew
  · apply h.steps.append (.singleton name)
    simpa [h.last] using hstep

/-- A route to another name than the root has a last step. -/
theorem exists_last_step (h : IsRoute R root name route) (hne : name ≠ root) :
    ∃ above source, route = above ++ [source, name] ∧ R source name := by
  obtain ⟨before, rfl⟩ := List.getLast?_eq_some_iff.mp h.last
  rcases List.eq_nil_or_concat before with rfl | ⟨above, source, rfl⟩
  · exact absurd (Option.some.inj h.head) hne
  · have hsteps := h.steps
    rw [List.concat_eq_append, List.append_assoc, List.singleton_append] at hsteps ⊢
    rw [List.isChain_append_cons_cons] at hsteps
    exact ⟨above, source, rfl, hsteps.2.1⟩

theorem one_lt_length (h : IsRoute R root name route) (hne : name ≠ root) : 1 < route.length := by
  obtain ⟨above, source, rfl, -⟩ := h.exists_last_step hne
  rw [List.length_append, List.length_cons, List.length_singleton]
  omega

end IsRoute

namespace Referrers

/-- The names that are entered in a table. -/
def names (table : Referrers) : List Name :=
  table.map Prod.fst

/-- The program that is entered as the first one to refer to a name. -/
def up? (table : Referrers) (name : Name) : Option Name :=
  (table.find? fun r => r.1 = name).bind Prod.snd

variable {table : Referrers} {root source name n : Name} {R : Name → Name → Prop}

@[simp] theorem mem_names_append {r : Name × Option Name} :
    n ∈ names (table ++ [r]) ↔ n ∈ table.names ∨ n = r.1 := by
  simp [names]

/-- What is entered later does not change who referred to a name. -/
theorem up?_append (hn : n ∈ table.names) (r : Name × Option Name) :
    up? (table ++ [r]) n = table.up? n := by
  obtain ⟨q, hq, rfl⟩ := List.mem_map.mp hn
  have hfound : (table.find? fun r => r.1 = q.1).isSome := by
    rw [List.find?_isSome]
    exact ⟨q, hq, by simp⟩
  rw [up?, List.find?_append, Option.or_of_isSome hfound, up?]

theorem up?_append_self (hnew : name ∉ table.names) (up : Option Name) :
    up? (table ++ [(name, up)]) name = up := by
  have hnone : table.find? (fun r => r.1 = name) = none := by
    rw [List.find?_eq_none]
    intro r hr heq
    have hname : r.1 = name := by simpa using heq
    exact hnew (hname ▸ List.mem_map_of_mem hr)
  simp [up?, List.find?_append, hnone]

/-- The table has grown from a root: every further name was entered together with a name that stood
in the table before it and that is in relation `R` to it. -/
inductive Grown (R : Name → Name → Prop) (root : Name) : Referrers → Prop
  | root : Grown R root [(root, none)]
  | enter {table : Referrers} {source name : Name} (h : Grown R root table)
      (hsource : source ∈ table.names) (hnew : name ∉ table.names) (hstep : R source name) :
      Grown R root (table ++ [(name, some source)])

namespace Grown

theorem root_mem (h : Grown R root table) : root ∈ table.names := by
  induction h with
  | root => simp [names]
  | enter _ _ _ _ ih => simp [ih]

theorem up?_root (h : Grown R root table) : table.up? root = none := by
  induction h with
  | root => simp [up?]
  | enter h _ _ _ ih => rw [up?_append h.root_mem, ih]

/-- Each name in the table is the end of a route from the root, on which every name was referred to
by the one before it. -/
theorem exists_route (h : Grown R root table) (hn : n ∈ table.names) :
    ∃ route, IsRoute (fun m n => table.up? n = some m ∧ R m n) root n route ∧
      ∀ m ∈ route, m ∈ table.names := by
  induction h generalizing n with
  | root =>
    have hroot : n = root := by simpa [names] using hn
    subst hroot
    exact ⟨[n], .single _ n, by simp [names]⟩
  | @enter table source name h hsource hnew hstep ih =>
    -- the steps within the old part of the table are the same as before
    have keep : ∀ {m route}, IsRoute (fun m n => table.up? n = some m ∧ R m n) root m route →
        (∀ k ∈ route, k ∈ table.names) →
        IsRoute (fun m n => up? (table ++ [(name, some source)]) n = some m ∧ R m n)
          root m route := by
      intro m route hroute hmem
      apply hroute.imp
      intro j k _ hk hstep
      rw [up?_append (hmem k hk)]
      exact hstep
    rcases mem_names_append.mp hn with hold | rfl
    · obtain ⟨route, hroute, hmem⟩ := ih hold
      exact ⟨route, keep hroute hmem, fun m hm => mem_names_append.mpr (.inl (hmem m hm))⟩
    · obtain ⟨route, hroute, hmem⟩ := ih hsource
      have hfresh : n ∉ route := fun hin => hnew (hmem n hin)
      refine ⟨route ++ [n], ?_, ?_⟩
      · exact (keep hroute hmem).snoc hfresh ⟨up?_append_self hnew (some source), hstep⟩
      · intro m hm
        rcases List.mem_append.mp hm with hm | hm
        · exact mem_names_append.mpr (.inl (hmem m hm))
        · exact mem_names_append.mpr (.inr (List.mem_singleton.mp hm))

end Grown

theorem mem_names_add {added : List Name} :
    n ∈ (add source table added).names ↔ n ∈ table.names ∨ n ∈ added := by
  induction added generalizing table with
  | nil => simp [add]
  | cons name rest ih =>
    rw [add, ih]
    by_cases hold : table.any (fun r => r.1 = name) = true
    · have hname : name ∈ table.names := by simpa [names] using hold
      simp only [hold, if_true, List.mem_cons]
      constructor
      · rintro (h | h)
        · exact .inl h
        · exact .inr (.inr h)
      · rintro (h | rfl | h)
        · exact .inl h
        · exact .inl hname
        · exact .inr h
    · simp only [hold, Bool.false_eq_true, if_false, mem_names_append, List.mem_cons, or_assoc]

/-- The table grows by the references of a program that stands in it. -/
theorem Grown.add {added : List Name} (h : Grown R root table) (hsource : source ∈ table.names)
    (hstep : ∀ n ∈ added, R source n) : Grown R root (Referrers.add source table added) := by
  induction added generalizing table with
  | nil => exact h
  | cons name rest ih =>
    rw [List.forall_mem_cons] at hstep
    rw [Referrers.add]
    by_cases hold : table.any (fun r => r.1 = name) = true
    · rw [if_pos hold]
      exact ih h hsource hstep.2
    · rw [if_neg hold]
      have hnew : name ∉ table.names := by simpa [names] using hold
      exact ih (h.enter hsource hnew hstep.1) (mem_names_append.mpr (.inl hsource)) hstep.2

end Referrers

/-- An exploration enters a name before it comes to it. -/
theorem Explores.grown_after {c : Contents} {visited pending : List Name}
    {found : List (Name × Program)} {stop : Option (Name × Fault)} {R : Name → Name → Prop}
    {root : Name} {table : Referrers} (h : Explores c visited pending found stop)
    (hstep : ∀ q ∈ found, ∀ n ∈ q.2.successors q.1, R q.1 n)
    (htable : Referrers.Grown R root table) (hpending : ∀ n ∈ pending, n ∈ table.names) :
    Referrers.Grown R root (Referrers.after table found) ∧
      ∀ q ∈ stop, q.1 ∈ (Referrers.after table found).names := by
  induction h generalizing table with
  | done visited => exact ⟨htable, by simp⟩
  | drop _ _ ih => exact ih hstep htable (List.forall_mem_cons.mp hpending).2
  | fail _ _ =>
    refine ⟨htable, ?_⟩
    rintro q ⟨⟩
    exact hpending _ (List.mem_cons_self ..)
  | @find visited rest name p found stop _ _ _ ih =>
    rw [List.forall_mem_cons] at hstep hpending
    apply ih hstep.2 (htable.add hpending.1 hstep.1)
    intro n hn
    rw [Referrers.mem_names_add]
    rcases Walk.mem_pendingAfter.mp hn with hn | hn
    · exact .inr hn
    · exact .inl (hpending.2 n hn)

/-- A store raises its faults without a chain: chains are told by walks only. -/
def Store.IsUnchained (s : Store) : Prop :=
  ∀ name f, s.read name = .error f → f.chain = []

theorem Sources.isUnchained_store (sources : Sources) : sources.store.IsUnchained := by
  intro name f h
  simp only [store] at h
  split at h
  · cases h
  · cases h
    rfl

theorem Folder.isUnchained_store (folder : Folder) : folder.store.IsUnchained := by
  intro name f h
  simp only [store, readText] at h
  split at h
  · cases h
    rfl
  · split at h
    · cases h
      rfl
    · split at h
      · cases h
        rfl
      · cases h

/-- Nor do grammar errors come with a chain. -/
theorem Store.IsUnchained.chain_of_content {s : Session} {name : Name} {f : Fault}
    (h : s.store.IsUnchained) (hc : s.content name = .error f) : f.chain = [] := by
  rw [Session.content_of_unknown (Session.unknown_of_content hc), Store.content] at hc
  cases hr : s.store.read name with
  | error e =>
    simp only [hr, Except.error.injEq] at hc
    exact hc ▸ h name e hr
  | ok text =>
    simp only [hr] at hc
    split at hc
    · cases hc
      rfl
    · cases hc

namespace Session

variable {s t : Session} {root first name : Name} {R : Name → Name → Prop}

theorem referrer?_eq (s : Session) (name : Name) :
    s.referrer? name = Referrers.up? s.referrers name := by
  rw [referrer?, Referrers.up?]
  cases s.referrers.find? fun r => r.1 = name with
  | none => rfl
  | some r => rfl

/-- To climb along a route leads to its beginning, if the steps suffice. -/
theorem climb_eq {above rest : List Name} {fuel : Nat}
    (hsteps : (above ++ [first]).IsChain fun m n => s.referrer? n = some m)
    (hhead : (above ++ [first]).head? = some root) (hroot : s.referrer? root = none)
    (hnodup : (above ++ first :: rest).Nodup) (hfuel : above.length ≤ fuel) :
    s.climb fuel first rest = above ++ first :: rest := by
  induction above using List.reverseRecOn generalizing first rest fuel with
  | nil =>
    have hfirst : first = root := by simpa using hhead
    subst hfirst
    cases fuel with
    | zero => rfl
    | succ fuel => simp [climb, hroot]
  | append_singleton above up ih =>
    rw [List.append_assoc, List.singleton_append, List.isChain_append_cons_cons] at hsteps
    obtain ⟨habove, hup, -⟩ := hsteps
    rw [List.append_assoc, List.singleton_append] at hhead hnodup ⊢
    have hnew : up ∉ first :: rest := by
      have hrest := (List.nodup_append.mp hnodup).2.1
      exact (List.nodup_cons.mp hrest).1
    have hhead' : (above ++ [up]).head? = some root := by
      cases above with
      | nil => simpa using hhead
      | cons m above => simpa using hhead
    cases fuel with
    | zero => simp at hfuel
    | succ fuel =>
      have hfuel' : above.length ≤ fuel := by
        rw [List.length_append, List.length_singleton] at hfuel
        omega
      simp only [climb, hup, if_neg hnew]
      exact ih habove hhead' hnodup hfuel'

/-- In a table that has grown from a root, the chain of each name is a route from the root. -/
theorem isRoute_chain (h : Referrers.Grown R root s.referrers)
    (hname : name ∈ Referrers.names s.referrers) : IsRoute R root name (s.chain name) := by
  obtain ⟨route, hroute, hmem⟩ := h.exists_route hname
  obtain ⟨above, rfl⟩ := List.getLast?_eq_some_iff.mp hroute.last
  have hlength : (above ++ [name]).length ≤ s.referrers.length := by
    have hle := (hroute.nodup.subperm hmem).length_le
    rwa [Referrers.names, List.length_map] at hle
  have hfuel : above.length ≤ s.referrers.length := by
    rw [List.length_append, List.length_singleton] at hlength
    omega
  have hsteps : (above ++ [name]).IsChain fun m n => s.referrer? n = some m :=
    hroute.steps.imp fun m n hstep => (s.referrer?_eq n).trans hstep.1
  have hroot : s.referrer? root = none := by rw [referrer?_eq, h.up?_root]
  have hchain : s.chain name = above ++ [name] :=
    climb_eq hsteps hroute.head hroot hroute.nodup hfuel
  rw [hchain]
  exact hroute.imp fun m n _ _ hstep => hstep.2

/-- A known program refers to a name. -/
def Declares (s : Session) (m n : Name) : Prop :=
  ∃ loaded, s.program? m = some loaded ∧ n ∈ loaded.program.successors m

/-- The table of a walk has grown from its root by references of programs that are known after it,
and the name at which the walk stops stands in it. -/
theorem grown_resolve {spelled : String} {found : List (Name × Program)}
    {stop : Option (Name × Fault)}
    (h : Walk.Course (Walk.ofRoot s spelled) found stop (s.resolve spelled)) :
    Referrers.Grown (s.resolve spelled).2.Declares (Path.canonical spelled none)
        (s.resolve spelled).2.referrers ∧
      ∀ q ∈ stop, q.1 ∈ Referrers.names (s.resolve spelled).2.referrers := by
  have hex : Explores s.content [] [Path.canonical spelled none] found stop := h.explores
  have hgathers : s.Gathers (found.map Prod.fst) (s.resolve spelled).2 :=
    (s.grows_resolve spelled).gathers h.programs
  have hdeclares : ∀ q ∈ found, ∀ n ∈ q.2.successors q.1,
      (s.resolve spelled).2.Declares q.1 n := by
    intro q hq n hn
    obtain ⟨loaded, hknown, hcontent⟩ := hgathers.known q.1 (List.mem_map_of_mem hq)
    rw [hex.found_eq q hq] at hcontent
    have hprogram : q.2 = loaded.program := Except.ok.inj hcontent
    exact ⟨loaded, hknown, hprogram ▸ hn⟩
  have hreferrers : (s.resolve spelled).2.referrers =
      Referrers.after [(Path.canonical spelled none, none)] found := (resolve_ends hex).referrers
  rw [hreferrers]
  exact hex.grown_after hdeclares .root (by simp [Referrers.names])

/-- What a failed resolution tells of a name that could not be loaded: the fault of the root is left
as it is, and a fault of the store or of the grammar at any other name is given the chain of that
name, which stands in the table of referrers. -/
inductive Blames (s t : Session) (root name : Name) : Fault → Prop
  | root {f : Fault} (hname : name = root) (hload : s.content name = .error f)
      (hchain : s.store.IsUnchained → f.chain = []) : Blames s t root name f
  | reference {f : Fault} (hname : name ≠ root) (hload : s.content name = .error f)
      (hkind : f.isTraced) (hmem : name ∈ Referrers.names t.referrers) :
      Blames s t root name (f.mark name (t.chain name))
  | other {f : Fault} (hname : name ≠ root) (hload : s.content name = .error f)
      (hkind : ¬ f.isTraced) : Blames s t root name f

/-- After a resolution, answered or not, the chain of each name in the table of referrers is a route
from the root to it along references of known programs. If the resolution failed, the name that it
asked for last could not be loaded, and the fault tells just the chain of that name, or no chain if
it is the root. -/
theorem resolve_chains (s : Session) (spelled : String) :
    (∀ name ∈ Referrers.names (s.resolve spelled).2.referrers,
      IsRoute (s.resolve spelled).2.Declares (Path.canonical spelled none) name
        ((s.resolve spelled).2.chain name)) ∧
    ∀ f, (s.resolve spelled).1 = .error f →
      ∃ name, (s.resolve spelled).2.asked.getLast? = some name ∧
        s.Blames (s.resolve spelled).2 (Path.canonical spelled none) name f := by
  obtain ⟨found, stop, hcourse⟩ := s.exists_course spelled
  obtain ⟨hgrown, hstop⟩ := grown_resolve hcourse
  refine ⟨fun name hname => isRoute_chain hgrown hname, fun f hf => ?_⟩
  have hex : Explores s.content [] [Path.canonical spelled none] found stop := hcourse.explores
  cases stop with
  | none =>
    obtain ⟨g, hg, -⟩ := resolve_of_explores hex
    rw [hg] at hf
    cases hf
  | some q =>
    obtain ⟨name, raised⟩ := q
    have hload : s.content name = .error raised := hex.stop_eq (name, raised) rfl
    have hasked : (s.resolve spelled).2.asked.getLast? = some name := by
      rw [hcourse.asked, Explores.trail_some, ← List.append_assoc, List.getLast?_concat]
    have hfault := resolve_of_stop hex
    rw [hf] at hfault
    cases hfault
    refine ⟨name, hasked, ?_⟩
    by_cases hname : name = Path.canonical spelled none
    · rw [Walk.trace, if_neg fun h => h.1 hname]
      exact .root hname hload fun h => h.chain_of_content hload
    · by_cases hkind : raised.isTraced = true
      · rw [Walk.trace, if_pos ⟨hname, hkind⟩]
        exact .reference hname hload hkind (hstop _ rfl)
      · rw [Walk.trace, if_neg fun h => hkind h.2]
        exact .other hname hload hkind

/-- The first referrer counts: the missing file is asked for on behalf of `mod.vt`, but it was
`main.vt` that referred to it first. -/
theorem resolve_chains_missing :
    let sources : Sources :=
      [("main.vt", "m\n;e lib.vt\n;u mod.vt\n"), ("mod.vt", "N\n;u lib.vt\n;u ./main.vt\n")]
    ∃ f, ((ofSources sources).resolve "main.vt").1 = .error f ∧
      f.chain = ["main.vt", "lib.vt"] ∧
      IsRoute ((ofSources sources).resolve "main.vt").2.Declares "main.vt" "lib.vt" f.chain := by
  intro sources
  let main : Program := ⟨[⟨[.opcode .callMethod], by simp⟩], ["lib.vt"], ["mod.vt"]⟩
  let mod : Program := ⟨[⟨[.opcode .outputNumeric], by simp⟩], [], ["lib.vt", "./main.vt"]⟩
  have hex : Explores (ofSources sources).content [] [Path.canonical "main.vt" none]
      [("main.vt", main), ("mod.vt", mod)] (some ("lib.vt", StorageError.noSource "lib.vt")) :=
    .find (by decide) rfl (.find (by decide) rfl
      (.drop (by decide) (.fail (by decide) rfl)))
  have hreferrers : ((ofSources sources).resolve "main.vt").2.referrers =
      [("main.vt", none), ("lib.vt", some "main.vt"), ("mod.vt", some "main.vt")] := by
    have hafter := (resolve_ends hex).referrers
    exact Eq.trans hafter (by decide)
  have hchain : ((ofSources sources).resolve "main.vt").2.chain "lib.vt" =
      ["main.vt", "lib.vt"] :=
    chain_congr (t := { ofSources sources with referrers := _ }) hreferrers "lib.vt"
  have hroot : Path.canonical "main.vt" none = "main.vt" := by decide
  have hfault : ((ofSources sources).resolve "main.vt").1 = .error
      (Fault.mark (StorageError.noSource "lib.vt") "lib.vt"
        (((ofSources sources).resolve "main.vt").2.chain "lib.vt")) := by
    rw [resolve_of_stop hex, Walk.trace, if_pos (by rw [hroot]; decide)]
  obtain ⟨hroutes, -⟩ := (ofSources sources).resolve_chains "main.vt"
  rw [hroot] at hroutes
  refine ⟨_, hfault, hchain, ?_⟩
  exact hroutes "lib.vt" (by rw [hreferrers]; decide)

end Session

end StackFront
