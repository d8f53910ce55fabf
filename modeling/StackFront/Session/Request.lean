import StackFront.Enrichment

/-!
# Requests

Everything that can be asked of a session, as data, so that whole histories of a session can be
spoken about: `run` carries out one request after the other, failed ones included.
-/
namespace StackFront

/-- What can be asked of a session. Names that are said to be spelled are made canonical. -/
inductive Request where
  /-- Puts a text into the store under a spelled name. -/
  | provide (spelled text : String)
  /-- The program of exactly this name. -/
  | load (name : Name)
  /-- The program of a spelled name. -/
  | program (spelled : String)
  | seed (spelled : String) (p : Program)
  | resolve (root : String)
  | method (table : EnricherTable) (spelled : String) (index : Int)
  | entry (table : EnricherTable) (spelled : String)
  | loadEntry (table : EnricherTable) (spelled : String)

/-- What a session answers. -/
inductive Response where
  | done
  | program (loaded : Loaded)
  | graph (g : Graph)
  | listing (l : Listing)
  | entry (g : Graph) (l : Listing)

namespace Session

/-- The same session over another store. -/
def withStore (s : Session) (store : Store) : Session :=
  { s with store }

/-- An answer with a function applied to what it holds. -/
def respond {α : Type} (f : α → Response) (r : Except Fault α × Session) :
    Except Fault Response × Session :=
  (r.1.map f, r.2)

/-- Carries out a request. -/
def perform (s : Session) : Request → Except Fault Response × Session
  | .provide spelled text => (.ok .done, s.withStore (s.store.provide spelled text))
  | .load name => respond .program (s.load name)
  | .program spelled => respond .program (s.program spelled)
  | .seed spelled p =>
    let seeded := s.seed spelled p
    (.ok (.program seeded.1), seeded.2)
  | .resolve root => respond .graph (s.resolve root)
  | .method table spelled index => respond .listing (s.method table spelled index)
  | .entry table spelled => respond .listing (s.entry table spelled)
  | .loadEntry table spelled =>
    respond (fun r => .entry r.1 r.2) (s.loadEntry table spelled)

/-- The session after some requests. -/
def run (s : Session) : List Request → Session
  | [] => s
  | r :: rest => (s.perform r).2.run rest

end Session

end StackFront
