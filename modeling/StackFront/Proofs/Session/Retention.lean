import StackFront.Proofs.Lookup
import StackFront.Proofs.Session.Changes
import StackFront.Proofs.Session.Growth

/-!
# What is known stays known

Over any history of requests, a name that has a program keeps it, and its text is neither asked for
nor parsed any more. A text that cannot be read or parsed gives its name no program. So all graphs
that one session returns, however far apart, hold the same programs under the names that they share.
-/
namespace StackFront

namespace Session

/-- The names whose texts were read and parsed, earliest first. -/
def parses (s : Session) : List Name :=
  s.events.filterMap fun e =>
    match e with
    | .parsed name .. => some name
    | _ => none

/-- The serial numbers of all programs and listings that a session holds. -/
def serials (s : Session) : List Nat :=
  s.programs.map (·.2.serial) ++ s.listings.map (·.listing.serial)

/-- No two objects of the session have the same serial number, and no later one will have it. -/
structure IsNumbered (s : Session) : Prop where
  nodup : s.serials.Nodup
  lt_next : ∀ k ∈ s.serials, k < s.nextSerial

/-- The second session holds all that the first one holds, each program under the same name and each
listing for the same method. Since then, only texts of names without a program were asked for, and
each text that was parsed was so for the first and last time. -/
structure Retains (s t : Session) : Prop where
  programs : Supplements Prod.fst s.programs t.programs
  listings : Supplements (fun e : ListingEntry => (e.name, e.index)) s.listings t.listings
  reads : ∃ new, t.reads = s.reads ++ new ∧ ∀ n ∈ new, s.program? n = none
  parses : ∃ new, t.parses = s.parses ++ new ∧ new.Nodup ∧
    ∀ n ∈ new, s.program? n = none ∧ (t.program? n).isSome

theorem notMem_programs {s : Session} {name : Name} (h : s.program? name = none) :
    name ∉ s.programs.map Prod.fst := by
  rw [← isSome_program?, h]
  simp

theorem notMem_listings {s : Session} {name : Name} {index : Int}
    (h : s.listing? name index = none) :
    (name, index) ∉ s.listings.map fun e => (e.name, e.index) := by
  intro hmem
  obtain ⟨e, he, heq⟩ := List.mem_map.mp hmem
  rw [listing?, Option.map_eq_none_iff, List.find?_eq_none] at h
  have hne := h e he
  cases heq
  simp at hne

namespace Retains

variable {s t u : Session} {name : Name} {index : Int} {loaded : Loaded} {l : Listing}

theorem program? (h : Retains s t) (hk : s.program? name = some loaded) :
    t.program? name = some loaded := by
  rw [Session.program?, Option.map_eq_some_iff] at hk ⊢
  obtain ⟨q, hq, hq2⟩ := hk
  exact ⟨q, h.programs.find? hq, hq2⟩

theorem listing? (h : Retains s t) (hk : s.listing? name index = some l) :
    t.listing? name index = some l := by
  rw [Session.listing?, Option.map_eq_some_iff] at hk ⊢
  obtain ⟨e, he, hl⟩ := hk
  exact ⟨e, h.listings.find? he, hl⟩

theorem unknown_before (h : Retains s t) (hk : t.program? name = none) :
    s.program? name = none := by
  cases hs : s.program? name with
  | none => rfl
  | some loaded =>
    rw [h.program? hs] at hk
    cases hk

theorem of_eq (hp : t.programs = s.programs) (hl : t.listings = s.listings)
    (he : t.events = s.events) : Retains s t where
  programs := hp ▸ .refl _ _
  listings := hl ▸ .refl _ _
  reads := ⟨[], by simp [Session.reads, he], by simp⟩
  parses := ⟨[], by simp [Session.parses, he], List.nodup_nil, by simp⟩

theorem refl (s : Session) : Retains s s :=
  of_eq rfl rfl rfl

theorem trans (h : Retains s t) (h' : Retains t u) : Retains s u where
  programs := h.programs.trans h'.programs
  listings := h.listings.trans h'.listings
  reads := by
    obtain ⟨new, hnew, hunknown⟩ := h.reads
    obtain ⟨new', hnew', hunknown'⟩ := h'.reads
    refine ⟨new ++ new', by rw [hnew', hnew, List.append_assoc], fun n hn => ?_⟩
    rcases List.mem_append.mp hn with hn | hn
    · exact hunknown n hn
    · exact h.unknown_before (hunknown' n hn)
  parses := by
    obtain ⟨new, hnew, hnodup, hunknown⟩ := h.parses
    obtain ⟨new', hnew', hnodup', hunknown'⟩ := h'.parses
    refine ⟨new ++ new', by rw [hnew', hnew, List.append_assoc], ?_, fun n hn => ?_⟩
    · -- what was parsed first is known when the other texts are parsed
      refine hnodup.append hnodup' fun n hn hn' => ?_
      have hknown := (hunknown n hn).2
      rw [(hunknown' n hn').1] at hknown
      cases hknown
    · rcases List.mem_append.mp hn with hn | hn
      · obtain ⟨loaded, hloaded⟩ := Option.isSome_iff_exists.mp (hunknown n hn).2
        exact ⟨(hunknown n hn).1, by rw [h'.program? hloaded]; rfl⟩
      · exact ⟨h.unknown_before (hunknown' n hn).1, (hunknown' n hn).2⟩

end Retains

theorem reads_parses_note (s : Session) {e : Event} (he : e.source? = none) :
    (s.note e).reads = s.reads ∧ (s.note e).parses = s.parses := by
  cases e with
  | read name => cases he
  | parsed name => cases he
  | _ => simp [reads, parses, note]

theorem Change.retains {s t : Session} (h : Change s t) : Retains s t := by
  cases h with
  | noted he =>
    obtain ⟨hreads, hparses⟩ := s.reads_parses_note he
    exact ⟨.refl _ _, .refl _ _, ⟨[], by rw [hreads, List.append_nil], by simp⟩,
      ⟨[], by rw [hparses, List.append_nil], List.nodup_nil, by simp⟩⟩
  | @refused name h =>
    refine ⟨.refl _ _, .refl _ _, ⟨[name], ?_, by simpa using h⟩,
      ⟨[], ?_, List.nodup_nil, by simp⟩⟩
    · simp [reads, note]
    · simp [parses, note]
  | @added name p h =>
    have hkept := Option.isSome_of_mem (program?_keep_self (s := s.note (.read name)) p h)
    refine ⟨.append (notMem_programs h), .refl _ _, ⟨[name], ?_, by simpa using h⟩,
      ⟨[name], ?_, List.nodup_singleton _, by simpa using ⟨h, hkept⟩⟩⟩
    · simp [reads, note, keep]
    · simp [parses, note, keep]
  | seeded h =>
    refine ⟨.append (notMem_programs h), .refl _ _, ⟨[], ?_, by simp⟩,
      ⟨[], ?_, List.nodup_nil, by simp⟩⟩
    · simp [reads, keep]
    · simp [parses, keep]
  | listed h =>
    refine ⟨.refl _ _, .append (notMem_listings h), ⟨[], ?_, by simp⟩,
      ⟨[], ?_, List.nodup_nil, by simp⟩⟩
    · simp [reads, keepListing]
    · simp [parses, keepListing]
  | walked _ _ => exact .of_eq rfl rfl rfl
  | journaled _ => exact .of_eq rfl rfl rfl
  | provided _ => exact .of_eq rfl rfl rfl

theorem Changes.retains {s t : Session} (h : Changes s t) : Retains s t := by
  induction h with
  | refl => exact .refl s
  | tail _ hstep ih => exact ih.trans hstep.retains

theorem retains_run (s : Session) (history : List Request) : s.Retains (s.run history) :=
  (s.changes_run history).retains

namespace IsNumbered

variable {s t : Session}

theorem ofStore (store : Store) : IsNumbered { store } :=
  ⟨List.nodup_nil, by simp [serials]⟩

theorem of_eq (h : s.IsNumbered) (hs : t.serials = s.serials)
    (hn : t.nextSerial = s.nextSerial) : t.IsNumbered :=
  ⟨hs ▸ h.nodup, by rw [hs, hn]; exact h.lt_next⟩

/-- A new object takes the next number. -/
theorem perm_cons (h : s.IsNumbered) (hs : t.serials.Perm (s.nextSerial :: s.serials))
    (hn : t.nextSerial = s.nextSerial + 1) : t.IsNumbered := by
  have hfresh : s.nextSerial ∉ s.serials := fun hmem => (h.lt_next _ hmem).ne rfl
  refine ⟨hs.nodup_iff.mpr (List.nodup_cons.mpr ⟨hfresh, h.nodup⟩), fun k hk => ?_⟩
  rw [hn]
  rcases List.mem_cons.mp (hs.subset hk) with rfl | hk
  · exact Nat.lt_succ_self _
  · exact Nat.lt_succ_of_lt (h.lt_next k hk)

theorem keep (h : s.IsNumbered) (name : Name) (p : Program) : (s.keep name p).2.IsNumbered := by
  refine h.perm_cons ?_ rfl
  simp only [serials, Session.keep, List.map_append, List.map_cons, List.map_nil,
    List.append_assoc, List.singleton_append]
  exact List.perm_middle

theorem keepListing (h : s.IsNumbered) (name : Name) (index : Int) (is : List Instruction) :
    (s.keepListing name index is).2.IsNumbered := by
  refine h.perm_cons ?_ rfl
  simp only [serials, Session.keepListing, List.map_append, List.map_cons, List.map_nil]
  rw [← List.append_assoc]
  exact List.perm_append_singleton _ _

theorem change (h : s.IsNumbered) (hstep : Change s t) : t.IsNumbered := by
  cases hstep with
  | @added name p _ =>
    have hread : (s.note (.read name)).IsNumbered := h.of_eq rfl rfl
    exact (hread.keep name p).of_eq rfl rfl
  | seeded _ => exact h.keep _ _
  | listed _ => exact h.keepListing _ _ _
  | _ => exact h.of_eq rfl rfl

theorem run (h : s.IsNumbered) (history : List Request) : (s.run history).IsNumbered := by
  have hchanges := s.changes_run history
  generalize s.run history = t at hchanges
  induction hchanges with
  | refl => exact h
  | tail _ hstep ih => exact ih.change hstep

end IsNumbered

/-- The session returns the graph in answer to one of the requests. -/
inductive Returns : Session → List Request → Graph → Prop
  | resolved {s : Session} {root : String} {rest : List Request} {g : Graph}
      (h : (s.resolve root).1 = .ok g) : Returns s (.resolve root :: rest) g
  | entered {s : Session} {table : EnricherTable} {root : String} {rest : List Request}
      {g : Graph} {l : Listing} (h : (s.loadEntry table root).1 = .ok (g, l)) :
      Returns s (.loadEntry table root :: rest) g
  | later {s : Session} {r : Request} {rest : List Request} {g : Graph}
      (h : Returns (s.perform r).2 rest g) : Returns s (r :: rest) g

theorem known_of_resolve {s : Session} {root : String} {g : Graph} {name : Name}
    {loaded : Loaded} (h : (s.resolve root).1 = .ok g) (hg : g.get? name = some loaded) :
    (s.resolve root).2.program? name = some loaded := by
  obtain ⟨-, -, hknown⟩ := explores_of_resolve h
  rw [Graph.get?, Option.map_eq_some_iff] at hg
  obtain ⟨n, hn, rfl⟩ := hg
  have hname : n.name = name := by simpa using List.find?_some hn
  exact hname ▸ hknown n (List.mem_of_find?_eq_some hn)

/-- The programs of a graph are still those of the session. -/
theorem Returns.known {s : Session} {history : List Request} {g : Graph} {name : Name}
    {loaded : Loaded} (h : s.Returns history g) (hg : g.get? name = some loaded) :
    (s.run history).program? name = some loaded := by
  induction h with
  | @resolved s root rest g h =>
    have hrun := (s.resolve root).2.retains_run rest
    exact hrun.program? (known_of_resolve h hg)
  | @entered s table root rest g l h =>
    have hrun := (s.loadEntry table root).2.retains_run rest
    refine hrun.program? ?_
    have henters := s.enters table root
    generalize s.loadEntry table root = r at h henters
    cases henters with
    | unresolved => cases h
    | @resolved g' a t _ hr he =>
      cases a with
      | error f => cases h
      | ok l' =>
        cases h
        have hknown := known_of_resolve (congrArg Prod.fst hr) hg
        have hentry := (t.changes_method table g.root entryIndex).retains
        rw [hr] at hknown
        rw [← entry, he] at hentry
        exact hentry.program? hknown
  | later _ ih => exact ih hg

/-- What a session does about the texts of names over a history of requests. -/
structure ParsesOnce (s : Session) (history : List Request) : Prop where
  /-- A program that is known is kept. -/
  kept : ∀ name loaded, s.program? name = some loaded →
    (s.run history).program? name = some loaded
  /-- The text of a known program is not asked for again. -/
  unasked : ∀ name loaded, s.program? name = some loaded →
    (s.run history).reads.count name = s.reads.count name
  /-- Each text is parsed at most once, and only if its program was unknown until then. -/
  parsed : ∃ new, (s.run history).parses = s.parses ++ new ∧ new.Nodup ∧
    ∀ name ∈ new, s.program? name = none ∧ ((s.run history).program? name).isSome
  /-- A name that cannot be loaded gets no program from a load, nor from any question. -/
  failed : ∀ name f, (s.load name).1 = .error f → (s.load name).2.programs = s.programs ∧
    ∀ r : Request, r.isQuery → (s.perform r).2.program? name = none
  /-- To give a program to a name that has one is to get that one. -/
  seeded : ∀ spelled p loaded, s.program? (Path.canonical spelled none) = some loaded →
    s.seed spelled p = (loaded, s)
  /-- All graphs hold the same object under the same name. -/
  shared : ∀ g h, s.Returns history g → s.Returns history h → ∀ name a b,
    g.get? name = some a → h.get? name = some b → a = b
  /-- Different objects remain so. -/
  numbered : s.IsNumbered → (s.run history).IsNumbered

theorem failed_load {s : Session} {name : Name} {f : Fault} (h : (s.load name).1 = .error f) :
    (s.load name).2.programs = s.programs ∧
      ∀ r : Request, r.isQuery → (s.perform r).2.program? name = none := by
  have hcontent := s.load_answers name
  rw [h] at hcontent
  constructor
  · have hl := s.loads name
    generalize s.load name = r at hl h
    cases hl with
    | refused => rfl
    | known => rfl
    | added => cases h
  · intro r hr
    apply unknown_of_content (f := f)
    rw [(s.grows_perform hr).content, ← hcontent]
    rfl

/-- Over every history, each text is read and parsed once at most, and its program is kept. -/
theorem run_parsesOnce (s : Session) (history : List Request) : s.ParsesOnce history where
  kept _ _ hk := (s.retains_run history).program? hk
  unasked name loaded hk := by
    obtain ⟨new, hnew, hunknown⟩ := (s.retains_run history).reads
    have hnone : new.count name = 0 := by
      refine List.count_eq_zero.mpr fun hmem => ?_
      rw [hunknown name hmem] at hk
      cases hk
    rw [hnew, List.count_append, hnone, Nat.add_zero]
  parsed := (s.retains_run history).parses
  failed _ _ h := failed_load h
  seeded spelled p loaded hk := by simp only [seed, hk]
  shared g h hg hh name a b ha hb := by
    have hsame := hg.known ha
    rw [hh.known hb] at hsame
    cases hsame
    rfl
  numbered hs := hs.run history

end Session

end StackFront
