import Mathlib.Data.List.Basic
import Mathlib.Data.List.Range
import StackFront.Enrichment

/-!
# Passes of enrichers

To enrich a method is one pass over its instructions. `Pass` tells a pass that comes to its end: the
instructions that were handed to an enricher, in this order, and what the enrichers made of them.
`Enlists` and `Enters` list the ways in which the requests around such a pass can go, so that what
is proved about these requests goes by cases on them.
-/
namespace StackFront

namespace Instruction

/-- An instruction as it is handed to its enricher. -/
def categorized (i : Instruction) : Instruction :=
  { i with notes := { i.notes with category := some i.category } }

variable {table : EnricherTable} {site : Site} {i i' : Instruction}
  {is handed out : List Instruction} {journal journal' : Journal}

/-- A pass over instructions, from the first to the last, that is refused nowhere. Each instruction
is left as it is, but for its category, or handed to the enricher that the table has for it. -/
inductive Pass (table : EnricherTable) (site : Site) :
    List Instruction → Journal → (handed out : List Instruction) → Journal → Prop
  | done (journal : Journal) : Pass table site [] journal [] [] journal
  | leave {i : Instruction} {rest handed out : List Instruction} {journal journal' : Journal}
      (hkey : table i.key = none) (h : Pass table site rest journal handed out journal') :
      Pass table site (i :: rest) journal handed (i.categorized :: out) journal'
  | apply {i i' : Instruction} {rest handed out : List Instruction}
      {journal journal' journal'' : Journal} {enricher : Enricher}
      (hkey : table i.key = some enricher)
      (hrun : enricher site i.categorized journal = (.ok i', journal'))
      (h : Pass table site rest journal' handed out journal'') :
      Pass table site (i :: rest) journal (i.categorized :: handed) (i' :: out) journal''

theorem map_position_ofOps (first : Nat) (ops : List Op) :
    (ofOps first ops).map position = List.range' first ops.length := by
  induction ops generalizing first with
  | nil => rfl
  | cons op rest ih =>
    rw [ofOps, List.map_cons, ih, List.length_cons, List.range'_succ]
    cases op <;> rfl

/-- The instructions of a list that a table has an enricher for. -/
def concerned (table : EnricherTable) (is : List Instruction) : List Instruction :=
  is.filter fun i => (table i.key).isSome

theorem enrich_of_none (h : table i.key = none) :
    i.enrich table site journal = (.ok i.categorized, journal) := by
  have hkey : table i.categorized.key = none := h
  rw [enrich, ← categorized, hkey]

theorem enrich_of_some {enricher : Enricher} (h : table i.key = some enricher) :
    i.enrich table site journal = enricher site i.categorized journal := by
  have hkey : table i.categorized.key = some enricher := h
  rw [enrich, ← categorized, hkey]

theorem enrichAll_cons_eq_ok {rest : List Instruction} :
    enrichAll table site (i :: rest) journal = (.ok out, journal') ↔
      ∃ i' out' middle, i.enrich table site journal = (.ok i', middle) ∧
        enrichAll table site rest middle = (.ok out', journal') ∧ out = i' :: out' := by
  rw [enrichAll]
  rcases i.enrich table site journal with ⟨f | i', middle⟩
  · simp
  · dsimp only
    rcases hrest : enrichAll table site rest middle with ⟨f | out', last⟩ <;>
      simp [hrest, and_comm, eq_comm]

/-- Enriching succeeds exactly with a pass to the end. -/
theorem enrichAll_eq_ok_iff :
    enrichAll table site is journal = (.ok out, journal') ↔
      ∃ handed, Pass table site is journal handed out journal' := by
  constructor
  · intro h
    induction is generalizing journal out with
    | nil =>
      cases h
      exact ⟨[], .done _⟩
    | cons i rest ih =>
      obtain ⟨i', out', middle, hi, hrest, rfl⟩ := enrichAll_cons_eq_ok.mp h
      obtain ⟨handed, hpass⟩ := ih hrest
      cases hkey : table i.key with
      | none =>
        rw [enrich_of_none hkey] at hi
        cases hi
        exact ⟨handed, .leave hkey hpass⟩
      | some enricher =>
        rw [enrich_of_some hkey] at hi
        exact ⟨i.categorized :: handed, .apply hkey hi hpass⟩
  · rintro ⟨handed, h⟩
    induction h with
    | done journal => rfl
    | leave hkey _ ih =>
      exact enrichAll_cons_eq_ok.mpr ⟨_, _, _, enrich_of_none hkey, ih, rfl⟩
    | apply hkey hrun _ ih =>
      exact enrichAll_cons_eq_ok.mpr ⟨_, _, _, (enrich_of_some hkey).trans hrun, ih, rfl⟩

namespace Pass

/-- Each instruction that the table has an enricher for is handed to it once, in the order of the
instructions, and no other one is handed to any. -/
theorem handed_eq (h : Pass table site is journal handed out journal') :
    handed = (concerned table is).map categorized := by
  induction h with
  | done => rfl
  | leave hkey _ ih => simp [concerned, hkey, ih]
  | apply hkey _ _ ih => simp [concerned, hkey, ih]

/-- Nothing is handed over out of turn or twice. -/
theorem position_lt {ops : List Op} {first : Nat}
    (h : Pass table site (ofOps first ops) journal handed out journal') :
    (handed.map position).Pairwise (· < ·) := by
  rw [h.handed_eq, List.map_map]
  have hsub : ((concerned table (ofOps first ops)).map position).Sublist
      ((ofOps first ops).map position) := List.filter_sublist.map _
  rw [map_position_ofOps] at hsub
  exact List.Pairwise.sublist hsub List.pairwise_lt_range'

end Pass

end Instruction

namespace Session

/-- The ways in which a request for the listing of a method can go. -/
inductive Enlists (s : Session) (table : EnricherTable) (name : Name) (index : Int) :
    Except Fault Listing × Session → Prop
  | known {l : Listing} (h : s.listing? name index = some l) :
      Enlists s table name index (.ok l, s.note (.listingKnown name index))
  | unloadable {f : Fault} {t : Session} (h : s.listing? name index = none)
      (hl : s.load name = (.error f, t)) : Enlists s table name index (.error f, t)
  | missing {loaded : Loaded} {t : Session} (h : s.listing? name index = none)
      (hl : s.load name = (.ok loaded, t)) (hm : loaded.program.method? index = none) :
      Enlists s table name index
        (.error (MethodIndexError.mk (some name) index loaded.program.methods.length), t)
  | refused {loaded : Loaded} {t : Session} {m : Method} {f : Fault} {journal : Journal}
      (h : s.listing? name index = none) (hl : s.load name = (.ok loaded, t))
      (hm : loaded.program.method? index = some m)
      (he : Instruction.enrichAll table (site name index loaded.program)
        (Instruction.ofOps 0 m.ops) t.journal = (.error f, journal)) :
      Enlists s table name index (.error f, { t with journal })
  | stored {loaded : Loaded} {t : Session} {m : Method} {is : List Instruction}
      {journal : Journal} (h : s.listing? name index = none) (hl : s.load name = (.ok loaded, t))
      (hm : loaded.program.method? index = some m)
      (he : Instruction.enrichAll table (site name index loaded.program)
        (Instruction.ofOps 0 m.ops) t.journal = (.ok is, journal)) :
      Enlists s table name index (.ok ⟨t.nextSerial, is⟩,
        ({ t with journal }.keepListing name index is).2.note (.enriched name index is.length))

theorem enlists (s : Session) (table : EnricherTable) (spelled : String) (index : Int) :
    Enlists s table (Path.canonical spelled none) index (s.method table spelled index) := by
  simp only [method]
  split
  next l h => exact .known h
  next h =>
    split
    next f t hl => exact .unloadable h hl
    next loaded t hl =>
      simp only [enrichMethod]
      split
      next hm => exact .missing h hl hm
      next m hm =>
        split
        next f journal he => exact .refused h hl hm he
        next is journal he => exact .stored (t := t) h hl hm he

/-- The ways in which it can go to resolve a root and to enrich the method that it starts with. -/
inductive Enters (s : Session) (table : EnricherTable) (spelled : String) :
    Except Fault (Graph × Listing) × Session → Prop
  | unresolved {f : Fault} {t : Session} (hr : s.resolve spelled = (.error f, t)) :
      Enters s table spelled (.error f, t)
  | resolved {g : Graph} {a : Except Fault Listing} {t u : Session}
      (hr : s.resolve spelled = (.ok g, t)) (he : t.entry table g.root = (a, u)) :
      Enters s table spelled (a.map fun l => (g, l), u)

theorem enters (s : Session) (table : EnricherTable) (spelled : String) :
    Enters s table spelled (s.loadEntry table spelled) := by
  unfold loadEntry
  split
  next f t hr => exact .unresolved hr
  next g t hr =>
    split
    next f u he => exact .resolved hr he
    next l u he => exact .resolved hr he

end Session

end StackFront
