import StackFront.Proofs.Enrichment.Links

/-!
# The turns of a pass

A method is enriched in turns, one for each of its operations. In its turn an operation becomes an
instruction at its place with its category noted, which goes to the enricher that the table has for
it. A method that is asked for the first time gets its listing if and only if its program is there,
it is one of the methods of the program, and every turn is taken without a refusal; the listing then
holds what the turns left, in their order.
-/
namespace StackFront

namespace Op

/-- What the instruction of an operation does. -/
def action : Op → Action
  | opcode op => .operation op
  | literal n => .literal (.number (n.val : Int))

/-- Under which key a table has the enricher for an operation. -/
def key : Op → EnricherKey
  | opcode op => .opcode op
  | literal _ => .literals

end Op

namespace EnricherTable

/-- The enricher for a kind of instruction after changes of the standard table: the one that the
latest change of this kind gives, or else the standard one. -/
def entry (changes : List Change) (key : EnricherKey) : Option Enricher :=
  match changes.reverse.find? fun change => change.1 = key with
  | some change => change.2
  | none => standard key

end EnricherTable

namespace Instruction

variable {table : EnricherTable} {site : Site} {first k : Nat} {op : Op} {ops : List Op}
  {is : List Instruction} {start finish : Journal} {f : Fault}

/-- The turn of an operation at its place: its instruction, on which nothing but the category is
noted, goes to the enricher that the table has for it. Without an enricher it stays as it is. -/
inductive Turn (table : EnricherTable) (site : Site) (place : Nat) (op : Op) (journal : Journal) :
    Except Fault Instruction → Journal → Prop
  | left (h : table op.key = none) :
      Turn table site place op journal
        (.ok ⟨place, op.action, { category := some op.category }⟩) journal
  | called {enricher : Enricher} {r : Except Fault Instruction} {journal' : Journal}
      (h : table op.key = some enricher)
      (hrun : enricher site ⟨place, op.action, { category := some op.category }⟩ journal =
        (r, journal')) :
      Turn table site place op journal r journal'

theorem categorized_ofOp (place : Nat) (op : Op) :
    (ofOp place op).categorized = ⟨place, op.action, { category := some op.category }⟩ := by
  cases op <;> rfl

theorem key_ofOp (place : Nat) (op : Op) : (ofOp place op).key = op.key := by
  cases op <;> rfl

theorem enrich_eq_iff {place : Nat} {journal journal' : Journal} {r : Except Fault Instruction} :
    (ofOp place op).enrich table site journal = (r, journal') ↔
      Turn table site place op journal r journal' := by
  have hkey := key_ofOp place op
  have hgiven := categorized_ofOp place op
  constructor
  · intro h
    cases htable : table op.key with
    | none =>
      rw [enrich_of_none (hkey ▸ htable), hgiven] at h
      cases h
      exact .left htable
    | some enricher =>
      rw [enrich_of_some (hkey ▸ htable), hgiven] at h
      exact .called htable h
  · intro h
    cases h with
    | left htable => rw [enrich_of_none (hkey ▸ htable), hgiven]
    | called htable hrun => rw [enrich_of_some (hkey ▸ htable), hgiven, hrun]

/-- All operations have their turns, one after the other, the first of them at place `first`, and
none is refused: in turn `k` the journal is `journals k` before and `journals (k + 1)` after it. -/
def Completes (table : EnricherTable) (site : Site) (first : Nat) (ops : List Op)
    (start : Journal) (is : List Instruction) (finish : Journal) : Prop :=
  is.length = ops.length ∧ ∃ journals : Nat → Journal, journals 0 = start ∧
    journals ops.length = finish ∧ ∀ k op, ops[k]? = some op → ∃ i, is[k]? = some i ∧
      Turn table site (first + k) op (journals k) (.ok i) (journals (k + 1))

/-- Some operation is refused in its turn, after all before it had theirs. -/
def Refused (table : EnricherTable) (site : Site) (first : Nat) (ops : List Op)
    (start : Journal) (f : Fault) (finish : Journal) : Prop :=
  ∃ before op after is middle, ops = before ++ op :: after ∧
    Completes table site first before start is middle ∧
    Turn table site (first + before.length) op middle (.error f) finish

theorem completes_nil_iff :
    Completes table site first [] start is finish ↔ is = [] ∧ finish = start := by
  constructor
  · rintro ⟨hlength, journals, rfl, rfl, -⟩
    exact ⟨List.length_eq_zero_iff.mp hlength, rfl⟩
  · rintro ⟨rfl, rfl⟩
    exact ⟨rfl, fun _ => finish, rfl, rfl, nofun⟩

theorem completes_cons_iff :
    Completes table site first (op :: ops) start is finish ↔
      ∃ i rest middle, Turn table site first op start (.ok i) middle ∧
        Completes table site (first + 1) ops middle rest finish ∧ is = i :: rest := by
  constructor
  · rintro ⟨hlength, journals, rfl, rfl, hturns⟩
    obtain ⟨i, hi, hturn⟩ := hturns 0 op rfl
    cases is with
    | nil => cases hi
    | cons i' rest =>
      cases hi
      refine ⟨i, rest, journals 1, hturn, ⟨Nat.succ.inj hlength, fun k => journals (k + 1),
        rfl, rfl, fun k op' hop => ?_⟩, rfl⟩
      obtain ⟨i', hi', hturn'⟩ := hturns (k + 1) op' hop
      rw [← Nat.add_assoc, Nat.add_right_comm] at hturn'
      exact ⟨i', hi', hturn'⟩
  · rintro ⟨i, rest, middle, hturn, ⟨hlength, journals, rfl, rfl, hturns⟩, rfl⟩
    refine ⟨congrArg Nat.succ hlength, fun k => Nat.casesOn k start journals, rfl, rfl, ?_⟩
    intro k op' hop
    cases k with
    | zero =>
      cases hop
      exact ⟨i, rfl, hturn⟩
    | succ k =>
      obtain ⟨i', hi', hturn'⟩ := hturns k op' hop
      rw [Nat.add_right_comm, Nat.add_assoc] at hturn'
      exact ⟨i', hi', hturn'⟩

/-- Enriching succeeds exactly if all turns are taken. -/
theorem enrichAll_eq_ok_iff_completes :
    enrichAll table site (ofOps first ops) start = (.ok is, finish) ↔
      Completes table site first ops start is finish := by
  induction ops generalizing first start is with
  | nil =>
    rw [ofOps, enrichAll, completes_nil_iff, Prod.mk.injEq, Except.ok.injEq, eq_comm,
      eq_comm (a := start)]
  | cons op ops ih =>
    rw [ofOps, enrichAll_cons_eq_ok, completes_cons_iff]
    simp only [enrich_eq_iff, ih]

/-- An instruction does what an operation says, at its place, under its category. -/
structure Presents (i : Instruction) (place : Nat) (op : Op) : Prop where
  position : i.position = place
  action : i.action = op.action
  category : i.notes.category = some op.category

end Instruction

/-- An enricher that decorates changes neither what an instruction does nor its place nor its
category. -/
def Enricher.Decorates (enricher : Enricher) : Prop :=
  ∀ site i journal i' journal', enricher site i journal = (.ok i', journal') →
    i'.position = i.position ∧ i'.action = i.action ∧ i'.notes.category = i.notes.category

namespace Instruction

/-- Where only decorating enrichers are called, the instruction stays that of its operation. -/
theorem Turn.presents {table : EnricherTable} {site : Site} {place : Nat} {op : Op}
    {journal journal' : Journal} {i : Instruction}
    (h : Turn table site place op journal (.ok i) journal')
    (hdecorates : ∀ enricher, table op.key = some enricher → enricher.Decorates) :
    i.Presents place op := by
  cases h with
  | left => exact ⟨rfl, rfl, rfl⟩
  | called hkey hrun =>
    obtain ⟨hposition, haction, hcategory⟩ := hdecorates _ hkey _ _ _ _ _ hrun
    exact ⟨hposition, haction, hcategory⟩

theorem Completes.presents {table : EnricherTable} {site : Site} {first k : Nat} {ops : List Op}
    {start finish : Journal} {is : List Instruction} {op : Op} {i : Instruction}
    (h : Completes table site first ops start is finish) (hop : ops[k]? = some op)
    (hi : is[k]? = some i)
    (hdecorates : ∀ enricher, table op.key = some enricher → enricher.Decorates) :
    i.Presents (first + k) op := by
  obtain ⟨-, journals, -, -, hturns⟩ := h
  obtain ⟨i', hi', hturn⟩ := hturns k op hop
  rw [hi] at hi'
  cases hi'
  exact hturn.presents hdecorates

end Instruction

namespace EnricherTable

theorem decorates_noting {f : Site → Notes → Notes}
    (h : ∀ site notes, (f site notes).category = notes.category) :
    (Enricher.noting f).Decorates := by
  intro site i journal i' journal' hrun
  cases hrun
  exact ⟨rfl, rfl, h site i.notes⟩

theorem decorates_checkLiteral : Enricher.checkLiteral.Decorates := by
  intro site i journal i' journal' hrun
  rw [Enricher.checkLiteral] at hrun
  split at hrun
  · cases hrun
    exact ⟨rfl, rfl, rfl⟩
  · cases hrun

theorem decorates_standard {key : EnricherKey} {enricher : Enricher}
    (h : standard key = some enricher) : enricher.Decorates := by
  have hlinkMethods : Enricher.linkMethods.Decorates := decorates_noting fun _ _ => rfl
  have hlinkUses : Enricher.linkUses.Decorates := decorates_noting fun _ _ => rfl
  cases key with
  | literals =>
    cases h
    exact decorates_checkLiteral
  | opcode op =>
    by_cases hmethod : op = .callMethod
    · subst hmethod
      cases h
      exact hlinkMethods
    by_cases huses : op ∈ Opcode.linkedToUses
    · rw [standard_of_linkedToUses huses] at h
      cases h
      exact hlinkUses
    · rw [standard_of_other hmethod huses] at h
      cases h

end EnricherTable

theorem Program.method?_eq_some_iff {p : Program} {index : Int} {m : Method} :
    p.method? index = some m ↔
      0 ≤ index ∧ index < p.methods.length ∧ p.methods[index.toNat]? = some m := by
  rw [method?, Option.ite_none_right_eq_some]
  refine and_congr_right fun hindex => ⟨fun h => ⟨?_, h⟩, And.right⟩
  obtain ⟨hlt, -⟩ := List.getElem?_eq_some_iff.mp h
  omega

namespace Session

variable {s : Session} {table : EnricherTable} {name : Name} {index : Int} {site : Site}
  {m : Method} {f : Fault}

/-- A program of the name can be loaded and has a method of the index; the site tells where it
stands, with the targets as they are seen from the file. -/
structure Offers (s : Session) (name : Name) (index : Int) (site : Site) (m : Method) :
    Prop where
  loads : ∃ loaded, (s.load name).1 = .ok loaded ∧ site.program = loaded.program
  file : site.file = name
  method : site.method = index
  extendNames : site.extendNames =
    site.program.extendTargets.map fun target => Path.canonical target (some name)
  useNames : site.useNames =
    site.program.useTargets.map fun target => Path.canonical target (some name)
  nonneg : 0 ≤ index
  lt : index < site.program.methods.length
  found : site.program.methods[index.toNat]? = some m

/-- What it is to answer the first request for the listing of a method. It is made if and only if
the method is there and none of its operations is refused. Then its instructions are what the turns
left, and each of them presents its operation unless the enricher for it has made something else of
it. -/
structure Makes (s : Session) (table : EnricherTable) (name : Name) (index : Int)
    (r : Except Fault Listing × Session) : Prop where
  made_iff : (∃ l, r.1 = .ok l) ↔ ∃ site m, s.Offers name index site m ∧
    ¬ ∃ f finish, Instruction.Refused table site 0 m.ops s.journal f finish
  turns : ∀ l, r.1 = .ok l → ∃ site m, s.Offers name index site m ∧
    Instruction.Completes table site 0 m.ops s.journal l.instructions r.2.journal ∧
    ∀ k (op : Op) (i : Instruction), m.ops[k]? = some op → l.instructions[k]? = some i →
      (∀ enricher, table op.key = some enricher → enricher.Decorates) → i.Presents k op

end Session

end StackFront
