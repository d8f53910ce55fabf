import StackFront.Proofs.Enrichment.Plain
import StackFront.Proofs.Walk.Referrers

/-!
# Every key is canonical

Names come to a session by many ways and in many spellings: as roots, as targets in source texts,
with programs that are given, with questions for methods. Each of them is made canonical on its way
in and is not touched after that. So a session keeps nothing under two spellings of one name
(`IsKeyed`), and the names in its answers, be they in graphs, in notes on instructions or in the
chains of faults, are canonical as well.
-/
namespace StackFront

theorem Path.isCanonical_iff {name : Name} :
    IsCanonical name ↔ canonical name none = name :=
  ⟨IsCanonical.canonical_eq, fun h => ⟨name, none, h.symm⟩⟩

/-- The names that were noted on the instructions of a listing. -/
def Listing.names (l : Listing) : List Name :=
  l.instructions.flatMap fun i => i.notes.names

/-- The names in a graph: its root, those of its programs, and the ends of its edges. -/
def Graph.mentions (g : Graph) : List Name :=
  g.root :: (g.names ++ g.edges.flatMap fun e => [e.source, e.target])

namespace Response

def graph? : Response → Option Graph
  | graph g | entry g _ => some g
  | _ => none

def listing? : Response → Option Listing
  | listing l | entry _ l => some l
  | _ => none

end Response

/-- The request spells its names; to load a name is to take it as it is. -/
def Request.isSpelled : Request → Bool
  | .load _ => false
  | _ => true

/-- The request brings no table of enrichers that make up names. -/
def Request.IsPlain : Request → Prop
  | .method table .. | .entry table _ | .loadEntry table _ => table.IsPlain
  | _ => True

namespace Session

/-- All that a session keeps stands under canonical names, and the record of its latest walk has no
name twice. -/
structure IsKeyed (s : Session) : Prop where
  programs : ∀ p ∈ s.programs, Path.IsCanonical p.1
  listings : ∀ e ∈ s.listings, Path.IsCanonical e.name
  visited : ∀ n ∈ s.visited, Path.IsCanonical n
  referrers : ∀ r ∈ s.referrers, Path.IsCanonical r.1 ∧ ∀ up ∈ r.2, Path.IsCanonical up
  visited_nodup : s.visited.Nodup
  referrers_nodup : (Referrers.names s.referrers).Nodup

end Session

/-- What is entered in a table of referrers stands there once, and its referrer is the given one. -/
theorem Referrers.add_entries (source : Name) (added : List Name) {table : Referrers}
    (hnodup : table.names.Nodup) :
    (add source table added).names.Nodup ∧
      ∀ r ∈ add source table added, r ∈ table ∨ r.1 ∈ added ∧ r.2 = some source := by
  induction added generalizing table with
  | nil => exact ⟨hnodup, fun r hr => .inl hr⟩
  | cons name rest ih =>
    rw [add]
    by_cases hold : table.any (fun r => r.1 = name) = true
    · rw [if_pos hold]
      obtain ⟨hnodup', hall⟩ := ih hnodup
      refine ⟨hnodup', fun r hr => (hall r hr).imp_right ?_⟩
      exact And.imp_left (List.mem_cons_of_mem _)
    · rw [if_neg hold]
      have hnew : name ∉ table.names := by simpa [names] using hold
      have hnodup' : (names (table ++ [(name, some source)])).Nodup := by
        rw [names, List.map_append]
        exact hnodup.append (List.nodup_singleton _) (by simpa [names] using hnew)
      obtain ⟨hnodup'', hall⟩ := ih hnodup'
      refine ⟨hnodup'', fun r hr => ?_⟩
      rcases hall r hr with hr | ⟨hr, hup⟩
      · rcases List.mem_append.mp hr with hr | hr
        · exact .inl hr
        · rw [List.mem_singleton] at hr
          subst hr
          exact .inr ⟨List.mem_cons_self .., rfl⟩
      · exact .inr ⟨List.mem_cons_of_mem _ hr, hup⟩

namespace Session

variable {s t : Session} {name : Name} {spelled : String} {index : Int} {table : EnricherTable}

/-- A chain is made of the name that it leads to and of referrers. -/
theorem mem_climb {n first : Name} {rest : List Name} {fuel : Nat}
    (h : n ∈ s.climb fuel first rest) : n ∈ first :: rest ∨ ∃ r ∈ s.referrers, r.2 = some n := by
  induction fuel generalizing first rest with
  | zero => exact .inl h
  | succ fuel ih =>
    rw [climb] at h
    split at h
    · exact .inl h
    next up hup =>
      split at h
      · exact .inl h
      · rcases ih h with hn | hn
        · rcases List.mem_cons.mp hn with rfl | hn
          · rw [referrer?] at hup
            split at hup
            next r hr => exact .inr ⟨r, List.mem_of_find?_eq_some hr, hup⟩
            next => cases hup
          · exact .inl hn
        · exact .inr hn

namespace IsKeyed

theorem of_eq (h : s.IsKeyed) (hp : t.programs = s.programs) (hl : t.listings = s.listings)
    (hv : t.visited = s.visited) (hr : t.referrers = s.referrers) : t.IsKeyed :=
  ⟨hp ▸ h.programs, hl ▸ h.listings, hv ▸ h.visited, hr ▸ h.referrers, hv ▸ h.visited_nodup,
    hr ▸ h.referrers_nodup⟩

theorem ofStore (store : Store) : IsKeyed { store } := by
  constructor <;> simp [Referrers.names]

theorem keep (h : s.IsKeyed) (hname : Path.IsCanonical name) (p : Program) :
    (s.keep name p).2.IsKeyed :=
  { h with
    programs := List.forall_mem_append.mpr
      ⟨h.programs, fun _ hq => List.mem_singleton.mp hq ▸ hname⟩ }

theorem keepListing (h : s.IsKeyed) (hname : Path.IsCanonical name) (is : List Instruction) :
    (s.keepListing name index is).2.IsKeyed :=
  { h with
    listings := List.forall_mem_append.mpr
      ⟨h.listings, fun _ he => List.mem_singleton.mp he ▸ hname⟩ }

theorem visit (h : s.IsKeyed) (hname : Path.IsCanonical name) (hnew : name ∉ s.visited) :
    (s.visit name).IsKeyed :=
  { h with
    visited := List.forall_mem_cons.mpr ⟨hname, h.visited⟩
    visited_nodup := List.nodup_cons.mpr ⟨hnew, h.visited_nodup⟩ }

theorem load {r : Except Fault Loaded} (h : s.IsKeyed) (hname : Path.IsCanonical name)
    (hl : s.load name = (r, t)) : t.IsKeyed := by
  have hloads := s.loads name
  rw [hl] at hloads
  cases hloads with
  | known => exact h.of_eq rfl rfl rfl rfl
  | refused => exact h.of_eq rfl rfl rfl rfl
  | added p =>
    have hread : (s.note (.read name)).IsKeyed := h.of_eq rfl rfl rfl rfl
    exact (hread.keep hname p).of_eq rfl rfl rfl rfl

theorem refer {names : List Name} (h : s.IsKeyed) (hname : Path.IsCanonical name)
    (hnames : ∀ n ∈ names, Path.IsCanonical n) : (s.refer name names).IsKeyed := by
  obtain ⟨hnodup, hall⟩ := Referrers.add_entries name names h.referrers_nodup
  rw [refer_eq]
  refine ⟨h.programs, h.listings, h.visited, fun r hr => ?_, h.visited_nodup, hnodup⟩
  rcases hall r hr with hr | ⟨hr, hup⟩
  · exact h.referrers r hr
  · rw [hup]
    refine ⟨hnames _ hr, fun up hmem => ?_⟩
    cases hmem
    exact hname

/-- What a walk begins with. -/
theorem ofRoot (h : s.IsKeyed) (spelled : String) : (Walk.ofRoot s spelled).session.IsKeyed := by
  refine ⟨h.programs, h.listings, by simp [Walk.ofRoot], ?_, by simp [Walk.ofRoot],
    by simp [Walk.ofRoot, Referrers.names]⟩
  simpa [Walk.ofRoot] using ⟨spelled, none, rfl⟩

/-- From a canonical name, a chain leads over canonical names. -/
theorem chain (h : s.IsKeyed) (hname : Path.IsCanonical name) :
    ∀ n ∈ s.chain name, Path.IsCanonical n := by
  intro n hn
  rcases mem_climb hn with hn | ⟨r, hr, hup⟩
  · exact List.mem_singleton.mp hn ▸ hname
  · exact (h.referrers r hr).2 n hup

end IsKeyed

end Session

/-- A walk keeps to canonical names, also in the fault that it ends with. -/
theorem Walk.Course.isKeyed {w : Walk} {found : List (Name × Program)}
    {stop : Option (Name × Fault)} {r : Except Fault Graph × Session} (h : Course w found stop r)
    (hw : w.session.IsKeyed) :
    r.2.IsKeyed ∧ (w.session.store.IsUnchained →
      ∀ f, r.1 = .error f → ∀ n ∈ f.chain, Path.IsCanonical n) := by
  induction h with
  | finish => exact ⟨hw.of_eq rfl rfl rfl rfl, fun _ f hf => by cases hf⟩
  | drop _ _ ih => exact ih hw
  | @fail root name s s' rest canonical nodes f hv hl =>
    have hname := canonical name (List.mem_cons_self ..)
    have hkeyed := (hw.visit hname hv).load hname hl
    refine ⟨hkeyed, fun hstore f' hf' => ?_⟩
    obtain rfl : trace s' root name f = f' := Except.error.inj hf'
    have hchain : f.chain = [] := hstore.chain_of_content (Session.load_visit hl).2.1
    rw [trace]
    split
    · exact hkeyed.chain hname
    · simp [hchain]
  | @find root name s s' rest canonical nodes loaded _ found stop r hv hl _ ih =>
    have hname := canonical name (List.mem_cons_self ..)
    have hkeyed : (s'.refer name (loaded.program.successors name)).IsKeyed :=
      ((hw.visit hname hv).load hname hl).refer hname fun n hn => isCanonical_successors hn
    have hstore : (s'.refer name (loaded.program.successors name)).store = s.store :=
      (Session.refer_store ..).trans (Session.load_visit hl).1.store
    obtain ⟨hend, hfault⟩ := ih hkeyed
    exact ⟨hend, fun hs => hfault (hstore ▸ hs)⟩

namespace Session

variable {s t : Session} {name : Name} {spelled : String} {index : Int} {table : EnricherTable}

/-- The notes on the listings that a session keeps hold canonical names. -/
def IsNoted (s : Session) : Prop :=
  ∀ e ∈ s.listings, ∀ n ∈ e.listing.names, Path.IsCanonical n

/-- Faults of loads come from the store or from the grammar; they have no chain. -/
theorem chain_of_load {f : Fault} (hs : s.store.IsUnchained)
    (hl : s.load name = (.error f, t)) : f.chain = [] := by
  have hcontent := s.load_answers name
  rw [hl] at hcontent
  exact hs.chain_of_content hcontent.symm

theorem IsKeyed.method {r : Except Fault Listing} (h : s.IsKeyed)
    (hm : s.method table spelled index = (r, t)) : t.IsKeyed := by
  have hname : Path.IsCanonical (Path.canonical spelled none) := ⟨spelled, none, rfl⟩
  have henlists := s.enlists table spelled index
  rw [hm] at henlists
  cases henlists with
  | known => exact h.of_eq rfl rfl rfl rfl
  | unloadable _ hl => exact h.load hname hl
  | missing _ hl _ => exact h.load hname hl
  | refused _ hl _ _ => exact (h.load hname hl).of_eq rfl rfl rfl rfl
  | @stored loaded u m is journal _ hl _ _ =>
    have hjournal : ({ u with journal } : Session).IsKeyed :=
      (h.load hname hl).of_eq rfl rfl rfl rfl
    exact (hjournal.keepListing hname is).of_eq rfl rfl rfl rfl

/-- The site of a method names canonical names only. -/
theorem canonical_of_site {p : Program} {n : Name}
    (h : n ∈ (site name index p).extendNames ++ (site name index p).useNames) :
    Path.IsCanonical n := by
  have hsuccessor : n ∈ p.successors name := h
  exact Walk.isCanonical_successors hsuccessor

theorem names_ofOps (first : Nat) (ops : List Op) :
    (Instruction.ofOps first ops).flatMap (fun i => i.notes.names) = [] := by
  induction ops generalizing first with
  | nil => rfl
  | cons op rest ih =>
    rw [Instruction.ofOps, List.flatMap_cons, ih]
    cases op <;> rfl

/-- With plain enrichers, the notes on a listing that is made hold canonical names. -/
theorem IsNoted.method {r : Except Fault Listing} (h : s.IsNoted) (htable : table.IsPlain)
    (hm : s.method table spelled index = (r, t)) : t.IsNoted := by
  have henlists := s.enlists table spelled index
  rw [hm] at henlists
  have keep : ∀ {u : Session}, u.listings = s.listings → u.IsNoted := by
    intro u hu
    rw [IsNoted, hu]
    exact h
  cases henlists with
  | known => exact h
  | unloadable _ hl => exact keep (load_listings hl).1
  | missing _ hl _ => exact keep (load_listings hl).1
  | refused _ hl _ _ => exact keep (load_listings hl).1
  | @stored loaded u m is journal _ hl _ he =>
    refine List.forall_mem_append.mpr ⟨keep (load_listings hl).1, fun e hmem n hn => ?_⟩
    rw [List.mem_singleton] at hmem
    subst hmem
    obtain ⟨i, hi, hni⟩ := List.mem_flatMap.mp hn
    have hsite := (Instruction.enrichAll_names htable _ _).1 _ _ he i hi n hni
    rw [names_ofOps, List.nil_append] at hsite
    exact canonical_of_site hsite

theorem IsNoted.names_of_listing? {l : Listing} (h : s.IsNoted)
    (hl : s.listing? name index = some l) : ∀ n ∈ l.names, Path.IsCanonical n := by
  rw [listing?, Option.map_eq_some_iff] at hl
  obtain ⟨e, he, rfl⟩ := hl
  exact h e (List.mem_of_find?_eq_some he)

theorem chain_of_method {f : Fault} (hs : s.store.IsUnchained) (htable : table.IsPlain)
    (hm : s.method table spelled index = (.error f, t)) : f.chain = [] := by
  have henlists := s.enlists table spelled index
  rw [hm] at henlists
  cases henlists with
  | unloadable _ hl => exact chain_of_load hs hl
  | missing => rfl
  | refused _ _ _ he => exact (Instruction.enrichAll_names htable _ _).2 _ _ he

theorem canonical_of_mentions {g : Graph} (hg : (s.resolve spelled).1 = .ok g) :
    ∀ n ∈ g.mentions, Path.IsCanonical n := by
  obtain ⟨hex, hroot, -⟩ := explores_of_resolve hg
  have hnames : ∀ n ∈ g.names, Path.IsCanonical n := fun n hn =>
    Path.isCanonical_iff.mpr (canonical_of_mem_names hg hn)
  intro n hn
  simp only [Graph.mentions, List.mem_cons, List.mem_append, List.mem_flatMap] at hn
  rcases hn with rfl | hn | ⟨e, he, hn⟩
  · exact ⟨spelled, none, hroot⟩
  · exact hnames n hn
  · obtain ⟨hsource, htarget⟩ := (shows_of_resolve hg).edge e he
    rcases hn with rfl | rfl | hn
    · exact hnames _ hsource
    · exact hnames _ htarget
    · cases hn

/-- Resolving keeps to canonical names, in the graph and in the fault. -/
theorem IsKeyed.resolve {r : Except Fault Graph} (h : s.IsKeyed)
    (hr : s.resolve spelled = (r, t)) :
    t.IsKeyed ∧ (s.store.IsUnchained →
      ∀ f, r = .error f → ∀ n ∈ f.chain, Path.IsCanonical n) := by
  obtain ⟨found, stop, hcourse⟩ := s.exists_course spelled
  rw [hr] at hcourse
  exact hcourse.isKeyed (h.ofRoot spelled)

theorem IsNoted.resolve {r : Except Fault Graph} (h : s.IsNoted)
    (hr : s.resolve spelled = (r, t)) : t.IsNoted := by
  have hlistings := (s.resolve_listings spelled).1
  rw [hr] at hlistings
  rw [IsNoted, hlistings]
  exact h

theorem IsKeyed.perform (h : s.IsKeyed) {r : Request} (hr : r.isSpelled) :
    (s.perform r).2.IsKeyed := by
  cases r with
  | provide => exact h.of_eq rfl rfl rfl rfl
  | load => cases hr
  | program spelled => exact h.load ⟨spelled, none, rfl⟩ rfl
  | seed spelled p =>
    simp only [Session.perform, seed]
    split
    · exact h
    · exact h.keep ⟨spelled, none, rfl⟩ p
  | resolve root => exact (h.resolve rfl).1
  | method table spelled index => exact h.method rfl
  | entry table spelled => exact h.method rfl
  | loadEntry table spelled =>
    have henters := s.enters table spelled
    simp only [Session.perform, respond]
    generalize s.loadEntry table spelled = a at henters ⊢
    cases henters with
    | unresolved hr => exact (h.resolve hr).1
    | resolved hr he => exact (h.resolve hr).1.method he

theorem IsNoted.perform (h : s.IsNoted) {r : Request} (hr : r.IsPlain) :
    (s.perform r).2.IsNoted := by
  cases r with
  | provide => exact h
  | load name =>
    have hlistings : (s.load name).2.listings = s.listings := (load_listings rfl).1
    simpa only [Session.perform, respond, IsNoted, hlistings] using h
  | program spelled =>
    have hlistings : (s.program spelled).2.listings = s.listings := (load_listings rfl).1
    simpa only [Session.perform, respond, IsNoted, hlistings] using h
  | seed spelled p =>
    simp only [Session.perform, seed]
    split <;> exact h
  | resolve root => exact h.resolve rfl
  | method table spelled index => exact h.method hr rfl
  | entry table spelled => exact h.method hr rfl
  | loadEntry table spelled =>
    have henters := s.enters table spelled
    simp only [Session.perform, respond]
    generalize s.loadEntry table spelled = a at henters ⊢
    cases henters with
    | unresolved hres => exact h.resolve hres
    | resolved hres he => exact (h.resolve hres).method hr he

theorem respond_eq_ok_iff {α : Type} {f : α → Response} {x : Except Fault α × Session}
    {a : Response} : (respond f x).1 = .ok a ↔ ∃ y, x.1 = .ok y ∧ f y = a := by
  obtain ⟨_ | y, u⟩ := x <;> simp [respond, Except.map]

theorem respond_eq_error_iff {α : Type} {f : α → Response} {x : Except Fault α × Session}
    {e : Fault} : (respond f x).1 = .error e ↔ x.1 = .error e := by
  obtain ⟨_ | y, u⟩ := x <;> simp [respond, Except.map]

variable {r : Request} {a : Response} {g : Graph} {l : Listing} {f : Fault}

/-- Each graph that is answered comes from resolving a root. -/
theorem resolve_of_graph? (ha : (s.perform r).1 = .ok a) (hg : g ∈ a.graph?) :
    ∃ root, (s.resolve root).1 = .ok g := by
  cases r with
  | provide => cases ha; cases hg
  | seed => cases ha; cases hg
  | load => obtain ⟨y, -, rfl⟩ := respond_eq_ok_iff.mp ha; cases hg
  | program => obtain ⟨y, -, rfl⟩ := respond_eq_ok_iff.mp ha; cases hg
  | method => obtain ⟨y, -, rfl⟩ := respond_eq_ok_iff.mp ha; cases hg
  | entry => obtain ⟨y, -, rfl⟩ := respond_eq_ok_iff.mp ha; cases hg
  | resolve root =>
    obtain ⟨y, hy, rfl⟩ := respond_eq_ok_iff.mp ha
    cases hg
    exact ⟨root, hy⟩
  | loadEntry table spelled =>
    obtain ⟨y, hy, rfl⟩ := respond_eq_ok_iff.mp ha
    have henters := s.enters table spelled
    generalize s.loadEntry table spelled = x at henters hy
    cases henters with
    | unresolved => cases hy
    | @resolved g' b _ _ hr _ =>
      cases b with
      | error => cases hy
      | ok l =>
        cases hy
        cases hg
        exact ⟨spelled, congrArg Prod.fst hr⟩

/-- Each listing that is answered is kept. -/
theorem exists_listing? (ha : (s.perform r).1 = .ok a) (hl : l ∈ a.listing?) :
    ∃ name index, (s.perform r).2.listing? name index = some l := by
  have of_call : ∀ table (c : Call), (s.call table c).1 = .ok l →
      ∃ name index, (s.perform (c.request table)).2.listing? name index = some l := by
    intro table c hc
    rw [← call_snd]
    exact ⟨c.name, c.index, listing?_of_call (Prod.ext hc rfl)⟩
  cases r with
  | provide => cases ha; cases hl
  | seed => cases ha; cases hl
  | load => obtain ⟨y, -, rfl⟩ := respond_eq_ok_iff.mp ha; cases hl
  | program => obtain ⟨y, -, rfl⟩ := respond_eq_ok_iff.mp ha; cases hl
  | resolve => obtain ⟨y, -, rfl⟩ := respond_eq_ok_iff.mp ha; cases hl
  | method table spelled index =>
    obtain ⟨y, hy, rfl⟩ := respond_eq_ok_iff.mp ha
    cases hl
    exact of_call table (.method spelled index) hy
  | entry table spelled =>
    obtain ⟨y, hy, rfl⟩ := respond_eq_ok_iff.mp ha
    cases hl
    exact of_call table (.entry spelled) hy
  | loadEntry table spelled =>
    obtain ⟨y, hy, rfl⟩ := respond_eq_ok_iff.mp ha
    cases hl
    refine of_call table (.loadEntry spelled) ?_
    rw [call, hy]
    rfl

/-- The faults of requests with plain enrichers tell canonical names only. -/
theorem IsKeyed.canonical_of_chain (h : s.IsKeyed) (hs : s.store.IsUnchained) (hr : r.IsPlain)
    (hf : (s.perform r).1 = .error f) : ∀ n ∈ f.chain, Path.IsCanonical n := by
  have of_nil : f.chain = [] → ∀ n ∈ f.chain, Path.IsCanonical n := by
    intro hnil
    simp [hnil]
  cases r with
  | provide => cases hf
  | seed => cases hf
  | load name => exact of_nil (chain_of_load hs (Prod.ext (respond_eq_error_iff.mp hf) rfl))
  | program spelled => exact of_nil (chain_of_load hs (Prod.ext (respond_eq_error_iff.mp hf) rfl))
  | resolve root => exact (h.resolve rfl).2 hs f (respond_eq_error_iff.mp hf)
  | method table spelled index =>
    exact of_nil (chain_of_method hs hr (Prod.ext (respond_eq_error_iff.mp hf) rfl))
  | entry table spelled =>
    exact of_nil (chain_of_method hs hr (Prod.ext (respond_eq_error_iff.mp hf) rfl))
  | loadEntry table spelled =>
    have herror := respond_eq_error_iff.mp hf
    have henters := s.enters table spelled
    generalize s.loadEntry table spelled = x at henters herror
    cases henters with
    | unresolved hr =>
      cases herror
      exact (h.resolve hr).2 hs f rfl
    | @resolved g b u v hres he =>
      cases b with
      | ok l => cases herror
      | error f' =>
        cases herror
        have hstore : u.store = s.store := by
          have hgrows := (s.grows_resolve spelled).store
          rwa [hres] at hgrows
        exact of_nil (chain_of_method (hstore ▸ hs) hr he)

/-- No request brings a store to tell chains. -/
theorem isUnchained_perform (hs : s.store.IsUnchained) (r : Request) :
    (s.perform r).2.store.IsUnchained := by
  cases r with
  | provide spelled text =>
    intro name f hf
    simp only [Session.perform, withStore, Store.provide] at hf
    split at hf
    · cases hf
    · exact hs name f hf
  | seed spelled p =>
    have hstore : (s.perform (.seed spelled p)).2.store = s.store := s.seed_store spelled p
    rwa [hstore]
  | _ => rwa [(s.grows_perform rfl).store]

/-- The answers to some requests, one after the other. -/
def answers (s : Session) : List Request → List (Except Fault Response)
  | [] => []
  | r :: rest => (s.perform r).1 :: (s.perform r).2.answers rest

/-- The keys under which a session keeps anything. -/
def keys (s : Session) : List Name :=
  s.programs.map Prod.fst ++ s.listings.map (·.name) ++ s.visited ++ Referrers.names s.referrers

/-- No two entries of a session stand under two spellings of one name. -/
structure IsUnambiguous (s : Session) : Prop where
  programs : (s.programs.map fun p => Path.canonical p.1 none).Nodup
  listings : (s.listings.map fun e => (Path.canonical e.name none, e.index)).Nodup
  visited : (s.visited.map fun n => Path.canonical n none).Nodup
  referrers : (s.referrers.map fun r => Path.canonical r.1 none).Nodup

/-- How names fare over a history of requests. Those in the notes on instructions and in the chains
of faults are the work of the session itself where enrichers and store do not make up any. -/
structure KeepsNamesCanonical (s : Session) (history : List Request) : Prop where
  keys : ∀ n ∈ (s.run history).keys, Path.canonical n none = n
  unambiguous : (s.run history).IsUnambiguous
  chains : ∀ name ∈ Referrers.names (s.run history).referrers,
    ∀ n ∈ (s.run history).chain name, Path.canonical n none = n
  graphs : ∀ a, .ok a ∈ s.answers history → ∀ g ∈ a.graph?,
    ∀ n ∈ g.mentions, Path.canonical n none = n
  notes : (∀ r ∈ history, r.IsPlain) →
    (∀ e ∈ (s.run history).listings, ∀ n ∈ e.listing.names, Path.canonical n none = n) ∧
    ∀ a, .ok a ∈ s.answers history → ∀ l ∈ a.listing?,
      ∀ n ∈ l.names, Path.canonical n none = n
  faults : s.store.IsUnchained → (∀ r ∈ history, r.IsPlain) →
    ∀ f, .error f ∈ s.answers history → ∀ n ∈ f.chain, Path.canonical n none = n

/-- Each answer of a history is that to one of its requests, after the ones before it. -/
theorem exists_of_mem_answers {history : List Request} {x : Except Fault Response}
    (h : x ∈ s.answers history) :
    ∃ before r, (∀ q ∈ before ++ [r], q ∈ history) ∧ ((s.run before).perform r).1 = x := by
  induction history generalizing s with
  | nil => cases h
  | cons q rest ih =>
    rcases List.mem_cons.mp h with rfl | h
    · exact ⟨[], q, by simp, rfl⟩
    · obtain ⟨before, r, hmem, hx⟩ := ih h
      refine ⟨q :: before, r, fun k hk => ?_, hx⟩
      rcases List.mem_cons.mp hk with rfl | hk
      · exact List.mem_cons_self ..
      · exact List.mem_cons_of_mem _ (hmem k hk)

theorem IsKeyed.run {history : List Request} (h : s.IsKeyed)
    (hr : ∀ r ∈ history, r.isSpelled) : (s.run history).IsKeyed := by
  induction history generalizing s with
  | nil => exact h
  | cons r rest ih =>
    rw [List.forall_mem_cons] at hr
    exact ih (h.perform hr.1) hr.2

theorem IsNoted.run {history : List Request} (h : s.IsNoted)
    (hr : ∀ r ∈ history, r.IsPlain) : (s.run history).IsNoted := by
  induction history generalizing s with
  | nil => exact h
  | cons r rest ih =>
    rw [List.forall_mem_cons] at hr
    exact ih (h.perform hr.1) hr.2

theorem isUnchained_run {history : List Request} (h : s.store.IsUnchained) :
    (s.run history).store.IsUnchained := by
  induction history generalizing s with
  | nil => exact h
  | cons r rest ih => exact ih (isUnchained_perform h r)

theorem IsKeyed.canonical_of_keys (h : s.IsKeyed) : ∀ n ∈ s.keys, Path.IsCanonical n := by
  simp only [keys, List.forall_mem_append, List.forall_mem_map, Referrers.names]
  exact ⟨⟨⟨h.programs, h.listings⟩, h.visited⟩, fun r hr => (h.referrers r hr).1⟩

/-- Where all keys are canonical, two entries with one canonical form are one entry. -/
theorem IsKeyed.isUnambiguous (h : s.IsKeyed) (hprograms : (s.programs.map Prod.fst).Nodup)
    (hlistings : (s.listings.map fun e => (e.name, e.index)).Nodup) : s.IsUnambiguous where
  programs := by
    rwa [List.map_congr_left fun p hp => (h.programs p hp).canonical_eq]
  listings := by
    rwa [List.map_congr_left fun e he =>
      congrArg (fun n => (n, e.index)) (h.listings e he).canonical_eq]
  visited := by
    rw [List.map_congr_left fun n hn => (h.visited n hn).canonical_eq, List.map_id']
    exact h.visited_nodup
  referrers := by
    rw [List.map_congr_left fun r hr => (h.referrers r hr).1.canonical_eq]
    exact h.referrers_nodup

/-- Over every history of requests that spell their names, from a session that has just begun, each
name that is kept or answered is its own canonical form. -/
theorem run_keepsNamesCanonical (store : Store) {history : List Request}
    (h : ∀ r ∈ history, r.isSpelled) :
    KeepsNamesCanonical { store } history := by
  have hkeyed : IsKeyed { store } := .ofStore store
  have hnoted : IsNoted { store } := by simp [IsNoted]
  have hend := hkeyed.run h
  have hretains := ({ store } : Session).retains_run history
  -- what is true after each beginning of the history is true at each of its requests
  have before_keyed : ∀ {before r}, (∀ q ∈ before ++ [r], q ∈ history) →
      (({ store } : Session).run before).IsKeyed := fun hmem =>
    hkeyed.run fun q hq => h q (hmem q (List.mem_append_left _ hq))
  refine ⟨fun n hn => (hend.canonical_of_keys n hn).canonical_eq, hend.isUnambiguous ?_ ?_,
    fun name hname n hn => ?_, fun a ha g hg n hn => ?_, fun hplain => ⟨fun e he n hn => ?_,
    fun a ha l hl n hn => ?_⟩, fun hstore hplain f hf n hn => ?_⟩
  · obtain ⟨added, hadded, hnodup, -⟩ := hretains.programs
    rwa [hadded]
  · obtain ⟨added, hadded, hnodup, -⟩ := hretains.listings
    rwa [hadded]
  · obtain ⟨r, hr, rfl⟩ := List.mem_map.mp hname
    exact (hend.chain (hend.referrers r hr).1 n hn).canonical_eq
  · obtain ⟨before, r, -, hx⟩ := exists_of_mem_answers ha
    obtain ⟨root, hroot⟩ := resolve_of_graph? hx hg
    exact (canonical_of_mentions hroot n hn).canonical_eq
  · exact (hnoted.run hplain e he n hn).canonical_eq
  · obtain ⟨before, r, hmem, hx⟩ := exists_of_mem_answers ha
    obtain ⟨name, index, hkept⟩ := exists_listing? hx hl
    have hafter := hnoted.run fun q hq => hplain q (hmem q (List.mem_append_left _ hq))
    have hr : r.IsPlain := hplain r (hmem r (List.mem_append_right _ (List.mem_singleton_self r)))
    exact ((hafter.perform hr).names_of_listing? hkept n hn).canonical_eq
  · obtain ⟨before, r, hmem, hx⟩ := exists_of_mem_answers hf
    have hr : r.IsPlain := hplain r (hmem r (List.mem_append_right _ (List.mem_singleton_self r)))
    exact ((before_keyed hmem).canonical_of_chain (isUnchained_run hstore) hr hx n hn).canonical_eq

/-- Four spellings of one name, and a library that is missing. -/
theorem run_keepsNamesCanonical_spellings :
    let sources : Sources := [("lib/mod.vt", "N\n"),
      ("app/main.vt", "m\n;e ../lib//./mod.vt\n;u ../lib/x/../gone.vt\n")]
    let history : List Request := [.program "app//main.vt", .method .standard "./app/main.vt" 0,
      .seed "lib/../app/main.vt" {}, .resolve "app/./main.vt"]
    (∀ r ∈ history, r.isSpelled) ∧ sources.store.IsUnchained ∧ (∀ r ∈ history, r.IsPlain) ∧
      KeepsNamesCanonical (ofSources sources) history := by
  intro sources history
  have hspelled : ∀ r ∈ history, r.isSpelled := by simp [history, Request.isSpelled]
  refine ⟨hspelled, sources.isUnchained_store, ?_, run_keepsNamesCanonical _ hspelled⟩
  simp [history, Request.IsPlain, EnricherTable.isPlain_standard]

end Session

end StackFront
