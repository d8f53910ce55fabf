import StackFront.Graph
import StackFront.Instruction
import StackFront.Program.Reader
import StackFront.Store

/-!
# Sessions

A session reads programs from one store and keeps what it has read: a name that has a program keeps
that very program, and the store is not asked for it again. It also keeps the enriched instruction
lists, and of the latest walk the names visited and, for each name, the program that first referred
to it.
-/
namespace StackFront

/-- What a session did, in the words of its log. -/
inductive Event where
  | read (name : Name)
  | parsed (name : Name) (methods extendTargets useTargets : Nat)
  | programKnown (name : Name)
  | resolved (root : Name) (count : Nat)
  | listingKnown (name : Name) (index : Int)
  | enriched (name : Name) (index : Int) (count : Nat)
  deriving DecidableEq, Repr

/-- An enriched method held by a session. -/
structure Listing where
  serial : Nat
  instructions : List Instruction

/-- A listing under the name and the index of its method. -/
structure ListingEntry where
  name : Name
  index : Int
  listing : Listing

/-- The state of a session. -/
structure Session where
  store : Store
  /-- Programs in the order in which they were first known. -/
  programs : List (Name × Loaded) := []
  /-- Listings in the order in which they were made. -/
  listings : List ListingEntry := []
  /-- The names visited by the latest walk, latest first. -/
  visited : List Name := []
  /-- Who first referred to a name in the latest walk; the root has no referrer. -/
  referrers : List (Name × Option Name) := []
  /-- The serial number of the next object. -/
  nextSerial : Nat := 0
  journal : Journal := []
  /-- Events, earliest first. -/
  events : List Event := []

namespace Session

/-- Adds an event. -/
def note (s : Session) (e : Event) : Session :=
  { s with events := s.events ++ [e] }

/-- The program known under a name. -/
def program? (s : Session) (name : Name) : Option Loaded :=
  (s.programs.find? fun p => p.1 = name).map (·.2)

/-- Keeps a program under a name that has none yet, as a new object. -/
def keep (s : Session) (name : Name) (p : Program) : Loaded × Session :=
  let loaded : Loaded := ⟨s.nextSerial, p⟩
  (loaded, { s with programs := s.programs ++ [(name, loaded)], nextSerial := s.nextSerial + 1 })

/-- Asks the store for the text of a name. -/
def ask (s : Session) (name : Name) : Except Fault String × Session :=
  (s.store.read name, s.note (.read name))

/-- The program of a name, which is read and parsed unless it is known. -/
def load (s : Session) (name : Name) : Except Fault Loaded × Session :=
  match s.program? name with
  | some loaded => (.ok loaded, s.note (.programKnown name))
  | none =>
    match s.ask name with
    | (.error f, s) => (.error f, s)
    | (.ok text, s) =>
      match Program.parse text (some name) with
      | .error e => (.error e, s)
      | .ok p =>
        let kept := s.keep name p
        (.ok kept.1, kept.2.note
          (.parsed name p.methods.length p.extendTargets.length p.useTargets.length))

/-- The program of a spelled name. -/
def program (s : Session) (spelled : String) : Except Fault Loaded × Session :=
  s.load (Path.canonical spelled none)

/-- Gives a program to a spelled name, unless it has one; the answer is the program it then has. -/
def seed (s : Session) (spelled : String) (p : Program) : Loaded × Session :=
  let name := Path.canonical spelled none
  match s.program? name with
  | some loaded => (loaded, s)
  | none => s.keep name p

/-- The program that first referred to a name. -/
def referrer? (s : Session) (name : Name) : Option Name :=
  match s.referrers.find? fun r => r.1 = name with
  | some r => r.2
  | none => none

/-- Continues a chain of references upwards for at most `fuel` steps, as long as there is a referrer
that is not on it. -/
def climb (s : Session) : (fuel : Nat) → Name → List Name → List Name
  | 0, first, rest => first :: rest
  | fuel + 1, first, rest =>
    match s.referrer? first with
    | none => first :: rest
    | some up => if up ∈ first :: rest then first :: rest else s.climb fuel up (first :: rest)

/-- The references that led the latest walk to a name, from the root down. No chain is longer than
the table of referrers. -/
def chain (s : Session) (name : Name) : List Name :=
  s.climb s.referrers.length name []

/-- The canonical extended and used names of a known program. -/
def links? (s : Session) (name : Name) : Option (List Name × List Name) :=
  (s.program? name).map fun loaded =>
    (loaded.program.linkNames name .extend, loaded.program.linkNames name .use)

/-- Notes that a program referred to some names; the first referrer of a name stays. -/
def refer (s : Session) (source : Name) : List Name → Session
  | [] => s
  | name :: rest =>
    let s :=
      if s.referrers.any fun r => r.1 = name then s
      else { s with referrers := s.referrers ++ [(name, some source)] }
    s.refer source rest

/-- The names that the store was asked for, earliest first. -/
def reads (s : Session) : List Name :=
  s.events.filterMap fun e =>
    match e with
    | .read name => some name
    | _ => none

end Session

end StackFront
