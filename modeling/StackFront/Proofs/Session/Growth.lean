import StackFront.Proofs.Walk.Outcome
import StackFront.Session.Request

/-!
# What requests leave behind

Every question that is put to a session, answered or not, makes what it knows grow, and does no
more than that to its store and to what names stand for. Only two kinds of requests are no
questions: one puts a text into the store, the other gives a program to a name.
-/
namespace StackFront

/-- A request that asks for something and brings nothing along. -/
def Request.isQuery : Request → Bool
  | .provide .. | .seed .. => false
  | _ => true

namespace Session

theorem grows_enrichMethod (s : Session) (table : EnricherTable) (name : Name) (index : Int)
    (p : Program) : s.Grows (s.enrichMethod table name index p).2 := by
  unfold enrichMethod
  split
  · exact .refl s
  · split <;> exact .of_eq rfl rfl

theorem grows_method (s : Session) (table : EnricherTable) (spelled : String) (index : Int) :
    s.Grows (s.method table spelled index).2 := by
  have hload := s.grows_load (Path.canonical spelled none)
  simp only [method]
  split
  · exact .of_eq rfl rfl
  · split
    next hl => rwa [hl] at hload
    next loaded s' hl =>
      rw [hl] at hload
      exact hload.trans (s'.grows_enrichMethod ..)

theorem grows_loadEntry (s : Session) (table : EnricherTable) (spelled : String) :
    s.Grows (s.loadEntry table spelled).2 := by
  have hresolve := s.grows_resolve spelled
  unfold loadEntry
  split
  next hr => rwa [hr] at hresolve
  next g s' hr =>
    rw [hr] at hresolve
    have hentry : s'.Grows (s'.entry table g.root).2 := s'.grows_method ..
    split
    next he =>
      rw [he] at hentry
      exact hresolve.trans hentry
    next he =>
      rw [he] at hentry
      exact hresolve.trans hentry

theorem grows_perform (s : Session) {r : Request} (h : r.isQuery) : s.Grows (s.perform r).2 := by
  cases r with
  | provide => cases h
  | seed => cases h
  | load name => exact s.grows_load name
  | program spelled => exact s.grows_load _
  | resolve root => exact s.grows_resolve root
  | method table spelled index => exact s.grows_method table spelled index
  | entry table spelled => exact s.grows_method table spelled entryIndex
  | loadEntry table spelled => exact s.grows_loadEntry table spelled

/-- To give a program to a name is no matter of the store. -/
theorem seed_store (s : Session) (spelled : String) (p : Program) :
    (s.seed spelled p).2.store = s.store := by
  simp only [seed]
  split <;> rfl

end Session

end StackFront
