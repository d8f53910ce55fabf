import StackFront.Proofs.Path.NormalForm
import StackFront.Proofs.Session.Retention

/-!
# Listings are made once

A call for the listing of a method either finds it or makes it, in one pass of enrichers over
instructions on which nothing is noted yet. It keeps a listing only after the pass has come to its
end. From then on every call for that method, in whatever spelling and with whatever table, gets the
same listing, and no enricher is run for it.
-/
namespace StackFront

/-- A call for the listing of a method. -/
inductive Call where
  | method (spelled : String) (index : Int)
  | entry (spelled : String)
  | loadEntry (spelled : String)

namespace Call

/-- The canonical name of the program whose method is asked for. -/
def name : Call → Name
  | method spelled _ | entry spelled | loadEntry spelled => Path.canonical spelled none

def index : Call → Int
  | method _ index => index
  | entry _ | loadEntry _ => Session.entryIndex

/-- The call as a request that brings its table along. -/
def request (table : EnricherTable) : Call → Request
  | method spelled index => .method table spelled index
  | entry spelled => .entry table spelled
  | loadEntry spelled => .loadEntry table spelled

end Call

namespace Session

/-- Answers a call with the listing. -/
def call (s : Session) (table : EnricherTable) : Call → Except Fault Listing × Session
  | .method spelled index => s.method table spelled index
  | .entry spelled => s.entry table spelled
  | .loadEntry spelled =>
    ((s.loadEntry table spelled).1.map Prod.snd, (s.loadEntry table spelled).2)

theorem call_snd (s : Session) (table : EnricherTable) (c : Call) :
    (s.call table c).2 = (s.perform (c.request table)).2 := by
  cases c <;> rfl

variable {s t : Session} {table : EnricherTable} {c c' : Call} {l : Listing} {f : Fault}
  {spelled : String} {index : Int} {r : Except Fault Listing}

theorem retains_call (h : s.call table c = (r, t)) : s.Retains t := by
  have hperform := (s.changes_perform (c.request table)).retains
  rwa [← call_snd, h] at hperform

theorem IsNumbered.call (hs : s.IsNumbered) (h : s.call table c = (r, t)) : t.IsNumbered := by
  have hperform := hs.run [c.request table]
  rwa [Session.run, Session.run, ← call_snd, h] at hperform

theorem canonical_root {g : Graph} (h : s.resolve spelled = (.ok g, t)) :
    Path.canonical g.root none = Path.canonical spelled none := by
  obtain ⟨-, hroot, -⟩ := explores_of_resolve (congrArg Prod.fst h)
  have hcanonical : Path.IsCanonical g.root := ⟨spelled, none, hroot⟩
  rw [hcanonical.canonical_eq, hroot]

/-- Whatever a call does before it asks for its listing leaves listings and journal alone. -/
theorem call_starts (s : Session) (table : EnricherTable) (c : Call) :
    ∃ u : Session, u.listings = s.listings ∧ u.journal = s.journal ∧
      ((∃ f, s.call table c = (.error f, u)) ∨
        Enlists u table c.name c.index (s.call table c)) := by
  cases c with
  | method spelled index => exact ⟨s, rfl, rfl, .inr (s.enlists ..)⟩
  | entry spelled => exact ⟨s, rfl, rfl, .inr (s.enlists ..)⟩
  | loadEntry spelled =>
    obtain ⟨hlistings, hjournal⟩ := s.resolve_listings spelled
    have h := s.enters table spelled
    simp only [call]
    generalize s.loadEntry table spelled = r at h ⊢
    cases h with
    | @unresolved f t hr =>
      rw [hr] at hlistings hjournal
      exact ⟨t, hlistings, hjournal, .inl ⟨f, rfl⟩⟩
    | @resolved g a t u hr he =>
      -- the root of the graph is one more spelling of the name that is asked for
      have hentry := t.enlists table g.root entryIndex
      rw [canonical_root hr, ← entry, he] at hentry
      rw [hr] at hlistings hjournal
      refine ⟨t, hlistings, hjournal, .inr ?_⟩
      cases a <;> exact hentry

/-- A call that fails makes no listing. -/
theorem failed_call (h : s.call table c = (.error f, t)) : t.listings = s.listings := by
  obtain ⟨u, hu, -, hstop | henlists⟩ := s.call_starts table c
  · obtain ⟨f', hstop⟩ := hstop
    rw [h] at hstop
    cases hstop
    exact hu
  · rw [h] at henlists
    cases henlists with
    | unloadable _ hl => exact (load_listings hl).1.trans hu
    | missing _ hl _ => exact (load_listings hl).1.trans hu
    | refused _ hl _ _ => exact (load_listings hl).1.trans hu

/-- What it is to make a listing: it is the outcome of one pass over instructions on which nothing
is noted yet, each handed once and in its turn to the enricher that the table has for it; it is an
object of its own; and it is kept for its method, with all other listings as they are. -/
structure Stores (s : Session) (table : EnricherTable) (c : Call) (l : Listing) (t : Session) :
    Prop where
  kept : t.listings = s.listings ++ [⟨c.name, c.index, l⟩]
  fresh : s.IsNumbered → l.serial ∉ s.serials
  pass : ∃ loaded m handed, t.program? c.name = some loaded ∧
    loaded.program.method? c.index = some m ∧
    Instruction.Pass table (site c.name c.index loaded.program) (Instruction.ofOps 0 m.ops)
      s.journal handed l.instructions t.journal ∧
    handed = (Instruction.concerned table (Instruction.ofOps 0 m.ops)).map
      Instruction.categorized ∧
    (handed.map Instruction.position).Pairwise (· < ·)

theorem serial_notMem {e : ListingEntry} (ht : t.IsNumbered) (h : s.Retains t)
    (hl : t.listings = s.listings ++ [e]) : e.listing.serial ∉ s.serials := by
  obtain ⟨added, hp, -⟩ := h.programs
  have hnodup := ht.nodup
  rw [serials, hl, hp, List.map_append, List.map_append, ← List.append_assoc,
    List.nodup_append] at hnodup
  intro hmem
  refine hnodup.2.2 _ ?_ _ (List.mem_singleton_self _) rfl
  rcases List.mem_append.mp hmem with hmem | hmem
  · exact List.mem_append_left _ (List.mem_append_left _ hmem)
  · exact List.mem_append_right _ hmem

/-- A call for a method that has no listing makes one if it succeeds. -/
theorem stores_of_call (hnew : s.listing? c.name c.index = none)
    (h : s.call table c = (.ok l, t)) : s.Stores table c l t := by
  obtain ⟨u, hu, hjournal, hstop | henlists⟩ := s.call_starts table c
  · obtain ⟨f, hstop⟩ := hstop
    rw [h] at hstop
    cases hstop
  · rw [h] at henlists
    rw [← listing?_congr hu] at hnew
    cases henlists with
    | known hk =>
      rw [hk] at hnew
      cases hnew
    | @stored loaded u' m is journal _ hl hm he =>
      obtain ⟨hlistings, hjournal'⟩ := load_listings hl
      obtain ⟨handed, hpass⟩ := Instruction.enrichAll_eq_ok_iff.mp he
      rw [hjournal', hjournal] at hpass
      have hkept : u'.listings ++ [⟨c.name, c.index, ⟨u'.nextSerial, is⟩⟩] =
          s.listings ++ [⟨c.name, c.index, ⟨u'.nextSerial, is⟩⟩] := by
        rw [hlistings, hu]
      have hprogram := program?_load hl
      refine ⟨hkept, fun hs => ?_, loaded, m, handed, hprogram, hm, hpass, hpass.handed_eq,
        hpass.position_lt⟩
      exact serial_notMem (hs.call h) (retains_call h) hkept

/-- What it is to find a listing: the outcome of the call is the same for every table, neither
listings nor journal change, and the answer is that listing, unless the call is one that resolves
its root first and fails to do so. -/
structure Finds (s : Session) (c : Call) (l : Listing) : Prop where
  outcome : ∃ r : Except Fault Listing × Session, (∀ table, s.call table c = r) ∧
    r.2.listings = s.listings ∧ r.2.journal = s.journal ∧
    (r.1 = .ok l ∨ ∃ root f, c = .loadEntry root ∧ (s.resolve root).1 = .error f ∧ r.1 = .error f)

theorem method_of_known (table : EnricherTable)
    (h : s.listing? (Path.canonical spelled none) index = some l) :
    s.method table spelled index =
      (.ok l, s.note (.listingKnown (Path.canonical spelled none) index)) := by
  simp only [method, h]

/-- A call for a method that has a listing finds it. -/
theorem finds_of_known (h : s.listing? c.name c.index = some l) : s.Finds c l := by
  cases c with
  | method spelled index => exact ⟨_, fun table => method_of_known table h, rfl, rfl, .inl rfl⟩
  | entry spelled => exact ⟨_, fun table => method_of_known table h, rfl, rfl, .inl rfl⟩
  | loadEntry root =>
    obtain ⟨hlistings, hjournal⟩ := s.resolve_listings root
    rcases hr : s.resolve root with ⟨f | g, t⟩
    · rw [hr] at hlistings hjournal
      refine ⟨(.error f, t), fun table => ?_, hlistings, hjournal, .inr ⟨root, f, rfl, ?_, rfl⟩⟩
      · simp only [call, loadEntry, hr]
        rfl
      · rw [hr]
    · rw [hr] at hlistings hjournal
      have hknown : t.listing? (Path.canonical g.root none) entryIndex = some l := by
        rw [canonical_root hr, listing?_congr hlistings]
        exact h
      refine ⟨(.ok l, t.note (.listingKnown (Path.canonical g.root none) entryIndex)),
        fun table => ?_, hlistings, hjournal, .inl rfl⟩
      simp only [call, loadEntry, hr, entry, method_of_known table hknown]
      rfl

/-- What a call answers is the listing of its method from then on. -/
theorem listing?_of_call (h : s.call table c = (.ok l, t)) :
    t.listing? c.name c.index = some l := by
  cases hk : s.listing? c.name c.index with
  | none =>
    have hkept := (stores_of_call hk h).kept
    rw [listing?, Option.map_eq_none_iff] at hk
    rw [listing?, hkept, List.find?_append, hk]
    simp
  | some l' =>
    obtain ⟨r, hr, -, -, hanswer⟩ := (finds_of_known hk).outcome
    rw [hr table] at h
    subst h
    rcases hanswer with hl | ⟨root, f, -, -, hf⟩
    · cases hl
      exact (retains_call (hr table)).listing? hk
    · cases hf

/-- How a session deals with calls for listings. -/
structure Memoises (s : Session) : Prop where
  /-- In every history a method gets a listing at most once, and only if it had none. -/
  once : ∀ history, Supplements (fun e : ListingEntry => (e.name, e.index)) s.listings
    (s.run history).listings
  /-- A listing is made in one pass. -/
  made : ∀ table c l t, s.listing? c.name c.index = none → s.call table c = (.ok l, t) →
    s.Stores table c l t
  /-- Whenever a call has been answered, every later call for the same method finds the same
  listing. -/
  shared : ∀ table c l t, s.call table c = (.ok l, t) →
    ∀ history c', c'.name = c.name → c'.index = c.index → (t.run history).Finds c' l
  /-- A call that fails leaves all listings as they are. -/
  failed : ∀ table c f t, s.call table c = (.error f, t) → t.listings = s.listings

theorem listings_memoised (s : Session) : s.Memoises where
  once history := (s.retains_run history).listings
  made _ _ _ _ hnew h := stores_of_call hnew h
  shared table c l t h history c' hname hindex := by
    apply finds_of_known
    rw [hname, hindex]
    exact (t.retains_run history).listing? (listing?_of_call h)
  failed _ _ _ _ h := failed_call h

end Session

end StackFront
