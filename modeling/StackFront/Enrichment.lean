import StackFront.Walk

/-!
# Enrichment

A method is enriched once: its operations become instructions, and the enricher that a table gives
for each of them is applied from the first to the last. Only a list that was enriched to its end is
kept; a later request for the same method gets that very list.
-/
namespace StackFront

/-- The method that is being enriched. -/
structure Site where
  file : Name
  method : Int
  program : Program
  extendNames : List Name
  useNames : List Name

/-- An enricher may change the instruction, write to the journal and refuse the instruction. -/
abbrev Enricher := Site → Instruction → Journal → Except Fault Instruction × Journal

namespace Enricher

/-- Changes the notes of an instruction and nothing else. -/
def noting (f : Site → Notes → Notes) : Enricher := fun site i journal =>
  (.ok { i with notes := f site i.notes }, journal)

/-- Whether a value is equal to a number from 0 to 15. -/
def isNibble (value : Json) : Bool :=
  value.nibble?.isSome

/-- Refuses a value that is not a nibble; the refusal tells where it stands. -/
def checkNibble (file : Name) (method position : Int) (value : Json) : Except BadValue Unit :=
  if isNibble value then .ok () else .error (.notNibble file method position value)

/-- Refuses literals that are not nibbles. -/
def checkLiteral : Enricher := fun site i journal =>
  match checkNibble site.file site.method i.position (i.value?.getD .null) with
  | .ok () => (.ok i, journal)
  | .error e => (.error e, journal)

/-- Notes what a call of a method in the same file can reach. -/
def linkMethods : Enricher := noting fun site notes =>
  { notes with methodCount := some site.program.methods.length,
               extendNames := some site.extendNames }

/-- Notes the modules that a call of another program can reach. -/
def linkUses : Enricher := noting fun site notes =>
  { notes with useNames := some site.useNames }

/-- The journal with a line for an instruction added. -/
def entered (site : Site) (i : Instruction) (journal : Journal) : Journal :=
  journal ++ [⟨site.file, site.method, i.position⟩]

/-- Enters each instruction in the journal and notes on it how long the journal has become. -/
def record : Enricher := fun site i journal =>
  let journal := entered site i journal
  (.ok { i with notes := { i.notes with seen := some journal.length } }, journal)

/-- Enters each instruction in the journal and refuses it. -/
def refuse : Enricher := fun site i journal =>
  (.error (Inability.rejected i.name), entered site i journal)

end Enricher

/-- What a table of enrichers is asked for: all literals together, or one opcode. -/
inductive EnricherKey where
  | literals
  | opcode (op : Opcode)
  deriving DecidableEq, Repr

def Instruction.key (i : Instruction) : EnricherKey :=
  match i.action with
  | .operation op => .opcode op
  | .literal _ => .literals

/-- The enricher for each kind of instruction; kinds without one are left alone. -/
abbrev EnricherTable := EnricherKey → Option Enricher

namespace EnricherTable

/-- Literals are checked, and calls are linked to what they can reach. -/
def standard : EnricherTable
  | .literals => some Enricher.checkLiteral
  | .opcode .callMethod => some Enricher.linkMethods
  | .opcode .callProgramMethod => some Enricher.linkUses
  | .opcode .callShortProgramMethod => some Enricher.linkUses
  | .opcode .useCount => some Enricher.linkUses
  | .opcode .useName => some Enricher.linkUses
  | .opcode _ => none

/-- A change of one entry; without an enricher, the entry is switched off. -/
abbrev Change := EnricherKey × Option Enricher

/-- Applies changes one after the other. -/
def override (table : EnricherTable) : List Change → EnricherTable
  | [] => table
  | change :: rest =>
    override (fun key => if key = change.1 then change.2 else table key) rest

/-- The standard table with changes. -/
def changed (changes : List Change) : EnricherTable :=
  standard.override changes

end EnricherTable

namespace Instruction

/-- Notes the category of an instruction and applies the enricher for it. -/
def enrich (table : EnricherTable) (site : Site) (i : Instruction) (journal : Journal) :
    Except Fault Instruction × Journal :=
  let i := { i with notes := { i.notes with category := some i.category } }
  match table i.key with
  | none => (.ok i, journal)
  | some enricher => enricher site i journal

/-- Enriches instructions from the first to the last and stops at the first refusal. -/
def enrichAll (table : EnricherTable) (site : Site) :
    List Instruction → Journal → Except Fault (List Instruction) × Journal
  | [], journal => (.ok [], journal)
  | i :: rest, journal =>
    match i.enrich table site journal with
    | (.error f, journal) => (.error f, journal)
    | (.ok i, journal) =>
      match enrichAll table site rest journal with
      | (.error f, journal) => (.error f, journal)
      | (.ok rest, journal) => (.ok (i :: rest), journal)

end Instruction

/-- The method of an index, if the program has it. -/
def Program.method? (p : Program) (index : Int) : Option Method :=
  if 0 ≤ index then p.methods[index.toNat]? else none

namespace Session

/-- The listing kept for a method. -/
def listing? (s : Session) (name : Name) (index : Int) : Option Listing :=
  (s.listings.find? fun e => e.name = name && e.index = index).map (·.listing)

/-- Keeps instructions as the listing of a method, as a new object. -/
def keepListing (s : Session) (name : Name) (index : Int) (instructions : List Instruction) :
    Listing × Session :=
  let listing : Listing := ⟨s.nextSerial, instructions⟩
  (listing, { s with listings := s.listings ++ [⟨name, index, listing⟩],
                     nextSerial := s.nextSerial + 1 })

/-- Where the method of a loaded program is enriched. -/
def site (name : Name) (index : Int) (p : Program) : Site :=
  ⟨name, index, p, p.linkNames name .extend, p.linkNames name .use⟩

/-- Enriches a method of a loaded program and keeps the listing. -/
def enrichMethod (s : Session) (table : EnricherTable) (name : Name) (index : Int)
    (p : Program) : Except Fault Listing × Session :=
  match p.method? index with
  | none => (.error ({ file := some name, index, count := p.methods.length } : MethodIndexError), s)
  | some m =>
    match Instruction.enrichAll table (site name index p) (Instruction.ofOps 0 m.ops) s.journal with
    | (.error f, journal) => (.error f, { s with journal })
    | (.ok instructions, journal) =>
      let kept := { s with journal }.keepListing name index instructions
      (.ok kept.1, kept.2.note (.enriched name index instructions.length))

/-- The listing of a method of the program under a spelled name. -/
def method (s : Session) (table : EnricherTable) (spelled : String) (index : Int) :
    Except Fault Listing × Session :=
  let name := Path.canonical spelled none
  match s.listing? name index with
  | some listing => (.ok listing, s.note (.listingKnown name index))
  | none =>
    match s.load name with
    | (.error f, s) => (.error f, s)
    | (.ok loaded, s) => s.enrichMethod table name index loaded.program

/-- The index of the method that a program starts with. -/
def entryIndex : Int := 0

/-- The listing of the method that a program starts with. -/
def entry (s : Session) (table : EnricherTable) (spelled : String) :
    Except Fault Listing × Session :=
  s.method table spelled entryIndex

/-- Resolves a root and enriches the method that it starts with. -/
def loadEntry (s : Session) (table : EnricherTable) (spelled : String) :
    Except Fault (Graph × Listing) × Session :=
  match s.resolve spelled with
  | (.error f, s) => (.error f, s)
  | (.ok graph, s) =>
    match s.entry table graph.root with
    | (.error f, s) => (.error f, s)
    | (.ok listing, s) => (.ok (graph, listing), s)

/-- Appends an operation to the kept listing of a method, in place. -/
def appendTo (s : Session) (name : Name) (index : Int) (op : Op) : Session :=
  { s with
    listings := s.listings.map fun e =>
      if e.name = name ∧ e.index = index then
        let instructions := e.listing.instructions
        { e with listing.instructions :=
            instructions ++ [Instruction.ofOp instructions.length op] }
      else e }

/-- Appends an operation to the listing of a method, which is made first if it is missing. -/
def append (s : Session) (table : EnricherTable) (spelled : String) (index : Int) (op : Op) :
    Except Fault Listing × Session :=
  match s.method table spelled index with
  | (.error f, s) => (.error f, s)
  | (.ok listing, s) =>
    let name := Path.canonical spelled none
    let s := s.appendTo name index op
    (.ok ((s.listing? name index).getD listing), s)

end Session

end StackFront
