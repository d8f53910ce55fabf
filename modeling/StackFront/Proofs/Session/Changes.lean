import Mathlib.Logic.Relation
import StackFront.Proofs.Enrichment.Pass
import StackFront.Proofs.Walk.Course
import StackFront.Session.Request

/-!
# Elementary changes

Whatever is asked of a session, it changes by small steps of a few kinds. `Change` lists them, each
with what is known when it is made: a program is kept for a name that has none, a listing for a
method that has none. Every request, answered or not, is a sequence of such steps, and so is every
history. What one step preserves is therefore preserved by all histories.
-/
namespace StackFront

/-- The name whose source text was asked for or parsed. -/
def Event.source? : Event → Option Name
  | .read name | .parsed name .. => some name
  | _ => none

namespace Session

/-- One step. -/
inductive Change : Session → Session → Prop
  /-- An event is noted that has nothing to do with a source text. -/
  | noted {s : Session} {e : Event} (he : e.source? = none) : Change s (s.note e)
  /-- The text of a name is asked for in vain. -/
  | refused {s : Session} {name : Name} (h : s.program? name = none) :
      Change s (s.note (.read name))
  /-- The text of a name is asked for and parsed. -/
  | added {s : Session} {name : Name} {p : Program} (h : s.program? name = none) :
      Change s (((s.note (.read name)).keep name p).2.note
        (.parsed name p.methods.length p.extendTargets.length p.useTargets.length))
  /-- A name is given a program. -/
  | seeded {s : Session} {name : Name} {p : Program} (h : s.program? name = none) :
      Change s (s.keep name p).2
  | listed {s : Session} {name : Name} {index : Int} {is : List Instruction}
      (h : s.listing? name index = none) : Change s (s.keepListing name index is).2
  /-- The record of the latest walk is changed. -/
  | walked {s : Session} (visited : List Name) (referrers : Referrers) :
      Change s { s with visited, referrers }
  | journaled {s : Session} (journal : Journal) : Change s { s with journal }
  | provided {s : Session} (store : Store) : Change s (s.withStore store)

/-- Any number of steps. -/
abbrev Changes : Session → Session → Prop :=
  Relation.ReflTransGen Change

/-- What a load leaves as it is. -/
theorem load_listings {s t : Session} {name : Name} {r : Except Fault Loaded}
    (h : s.load name = (r, t)) : t.listings = s.listings ∧ t.journal = s.journal := by
  have hl := s.loads name
  rw [h] at hl
  cases hl <;> exact ⟨rfl, rfl⟩

theorem refer_eq (s : Session) (source : Name) (names : List Name) :
    s.refer source names =
      { s with referrers := Referrers.add source s.referrers names } := by
  induction names generalizing s with
  | nil => rfl
  | cons name rest ih =>
    rw [refer, ih, Referrers.add]
    split <;> rfl

theorem changes_load (s : Session) (name : Name) : Changes s (s.load name).2 := by
  have h := s.loads name
  generalize s.load name = r at h
  cases h with
  | known loaded _ => exact .single (.noted rfl)
  | refused f h _ => exact .single (.refused h)
  | added p h _ => exact .single (.added h)

theorem changes_visit_load {s t : Session} {name : Name} {r : Except Fault Loaded}
    (h : (s.visit name).load name = (r, t)) : Changes s t := by
  have hload := (s.visit name).changes_load name
  rw [h] at hload
  exact .head (.walked (name :: s.visited) s.referrers) hload

end Session

namespace Walk.Course

variable {w : Walk} {found : List (Name × Program)} {stop : Option (Name × Fault)}
  {r : Except Fault Graph × Session}

theorem changes (h : Course w found stop r) : Session.Changes w.session r.2 := by
  induction h with
  | finish => exact .single (.noted rfl)
  | drop _ _ ih => exact ih
  | fail _ hl => exact Session.changes_visit_load hl
  | find _ hl _ ih =>
    have hload := Session.changes_visit_load hl
    rw [Session.refer_eq] at ih
    exact (hload.tail (.walked ..)).trans ih

/-- A walk has no part in listings. -/
theorem listings (h : Course w found stop r) :
    r.2.listings = w.session.listings ∧ r.2.journal = w.session.journal := by
  induction h with
  | finish => exact ⟨rfl, rfl⟩
  | drop _ _ ih => exact ih
  | fail _ hl =>
    obtain ⟨hlistings, hjournal⟩ := Session.load_listings hl
    exact ⟨hlistings, hjournal⟩
  | find _ hl _ ih =>
    obtain ⟨hlistings, hjournal⟩ := Session.load_listings hl
    rw [Session.refer_eq] at ih
    exact ⟨ih.1.trans hlistings, ih.2.trans hjournal⟩

end Walk.Course

namespace Session

theorem changes_resolve (s : Session) (spelled : String) : Changes s (s.resolve spelled).2 := by
  obtain ⟨found, stop, hcourse⟩ := s.exists_course spelled
  exact .head (.walked ..) hcourse.changes

theorem resolve_listings (s : Session) (spelled : String) :
    (s.resolve spelled).2.listings = s.listings ∧
      (s.resolve spelled).2.journal = s.journal := by
  obtain ⟨found, stop, hcourse⟩ := s.exists_course spelled
  exact hcourse.listings

theorem listing?_congr {s t : Session} (h : s.listings = t.listings) :
    s.listing? = t.listing? := by
  funext name index
  simp only [listing?, h]

theorem changes_method (s : Session) (table : EnricherTable) (spelled : String) (index : Int) :
    Changes s (s.method table spelled index).2 := by
  have hload := s.changes_load (Path.canonical spelled none)
  have h := s.enlists table spelled index
  generalize s.method table spelled index = r at h
  cases h with
  | known _ => exact .single (.noted rfl)
  | unloadable _ hl => rwa [hl] at hload
  | missing _ hl _ => rwa [hl] at hload
  | refused _ hl _ _ =>
    rw [hl] at hload
    exact hload.tail (.journaled _)
  | @stored loaded t m is journal h hl _ _ =>
    rw [hl] at hload
    -- the load has made no listing, so that there still is none
    have hnew : ({ t with journal } : Session).listing? (Path.canonical spelled none) index =
        none := (congrFun₂ (listing?_congr (load_listings hl).1) _ _).trans h
    exact ((hload.tail (.journaled journal)).tail (.listed hnew)).tail (.noted rfl)

theorem changes_seed (s : Session) (spelled : String) (p : Program) :
    Changes s (s.seed spelled p).2 := by
  simp only [seed]
  split
  · exact .refl
  next h => exact .single (.seeded h)

theorem changes_loadEntry (s : Session) (table : EnricherTable) (spelled : String) :
    Changes s (s.loadEntry table spelled).2 := by
  have hresolve := s.changes_resolve spelled
  have h := s.enters table spelled
  generalize s.loadEntry table spelled = r at h
  cases h with
  | unresolved hr => rwa [hr] at hresolve
  | @resolved g _ t _ hr he =>
    have hentry := t.changes_method table g.root entryIndex
    rw [hr] at hresolve
    rw [← entry, he] at hentry
    exact hresolve.trans hentry

theorem changes_perform (s : Session) (r : Request) : Changes s (s.perform r).2 := by
  cases r with
  | provide spelled text => exact .single (.provided _)
  | load name => exact s.changes_load name
  | program spelled => exact s.changes_load _
  | seed spelled p => exact s.changes_seed spelled p
  | resolve root => exact s.changes_resolve root
  | method table spelled index => exact s.changes_method table spelled index
  | entry table spelled => exact s.changes_method table spelled entryIndex
  | loadEntry table spelled => exact s.changes_loadEntry table spelled

theorem changes_run (s : Session) (history : List Request) : Changes s (s.run history) := by
  induction history generalizing s with
  | nil => exact .refl
  | cons r rest ih => exact (s.changes_perform r).trans (ih (s.perform r).2)

end Session

end StackFront
