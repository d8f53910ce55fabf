import StackFront.Proofs.Graph.Agreement
import StackFront.Proofs.Enrichment.Memo

/-!
# Graphs and listings link the same programs

A graph tells which programs each of its programs extends and uses; a listing that the standard
table makes notes the same on the instructions that call other methods. Graph and listing are made
by different requests, with other requests in between. They agree because the program from which the
references are read is the same object both times.
-/
namespace StackFront

/-- The opcodes that are linked to the used programs. -/
def Opcode.linkedToUses : List Opcode :=
  [.callProgramMethod, .callShortProgramMethod, .useCount, .useName]

namespace Instruction

/-- What the standard table makes of an instruction: it stays what it is and is linked to what its
opcode can reach. -/
structure Links (methodCount : Nat) (extendNames useNames : List Name) (i i' : Instruction) :
    Prop where
  position : i'.position = i.position
  action : i'.action = i.action
  method : i.action = .operation .callMethod →
    i'.notes.methodCount = some methodCount ∧ i'.notes.extendNames = some extendNames
  uses : ∀ op ∈ Opcode.linkedToUses, i.action = .operation op →
    i'.notes.useNames = some useNames

end Instruction

namespace EnricherTable

theorem standard_of_linkedToUses {op : Opcode} (h : op ∈ Opcode.linkedToUses) :
    standard (.opcode op) = some Enricher.linkUses := by
  simp only [Opcode.linkedToUses, List.mem_cons, List.not_mem_nil, or_false] at h
  rcases h with rfl | rfl | rfl | rfl <;> rfl

theorem standard_of_other {op : Opcode} (hmethod : op ≠ .callMethod)
    (huses : op ∉ Opcode.linkedToUses) : standard (.opcode op) = none := by
  unfold standard
  split <;> simp_all [Opcode.linkedToUses]

end EnricherTable

namespace Instruction

variable {site : Site}

theorem checkLiteral_literal (position : Nat) (n : Fin 16) (journal : Journal) :
    Enricher.checkLiteral site (ofOp position (.literal n)).categorized journal =
      (.ok (ofOp position (.literal n)).categorized, journal) := by
  have hnibble : ∀ n : Fin 16, Enricher.isNibble (.number (n.val : Int)) := by decide
  have hvalue : (ofOp position (.literal n)).categorized.value?.getD .null =
      .number (n.val : Int) := rfl
  rw [Enricher.checkLiteral, hvalue, Enricher.checkNibble, if_pos (hnibble n)]

/-- The standard table accepts each instruction that comes from an operation. -/
theorem enrich_standard (site : Site) (position : Nat) (op : Op) (journal : Journal) :
    ∃ i', (ofOp position op).enrich .standard site journal = (.ok i', journal) ∧
      Links site.program.methods.length site.extendNames site.useNames (ofOp position op) i' := by
  cases op with
  | literal n =>
    have hrun : (ofOp position (.literal n)).enrich .standard site journal = _ :=
      (enrich_of_some rfl).trans (checkLiteral_literal position n journal)
    exact ⟨_, hrun, rfl, rfl, nofun, nofun⟩
  | opcode op =>
    by_cases hmethod : op = .callMethod
    · subst hmethod
      have hrun : (ofOp position (.opcode .callMethod)).enrich .standard site journal =
          Enricher.linkMethods site (ofOp position (.opcode .callMethod)).categorized journal :=
        enrich_of_some rfl
      rw [Enricher.linkMethods, Enricher.noting] at hrun
      refine ⟨_, hrun, rfl, rfl, fun _ => ⟨rfl, rfl⟩, fun op hop h => ?_⟩
      cases h
      exact absurd hop (by decide)
    by_cases huses : op ∈ Opcode.linkedToUses
    · have hrun : (ofOp position (.opcode op)).enrich .standard site journal =
          Enricher.linkUses site (ofOp position (.opcode op)).categorized journal :=
        enrich_of_some (EnricherTable.standard_of_linkedToUses huses)
      rw [Enricher.linkUses, Enricher.noting] at hrun
      refine ⟨_, hrun, rfl, rfl, fun h => ?_, fun _ _ _ => rfl⟩
      cases h
      exact absurd rfl hmethod
    · have hrun : (ofOp position (.opcode op)).enrich .standard site journal = _ :=
        enrich_of_none (EnricherTable.standard_of_other hmethod huses)
      refine ⟨_, hrun, rfl, rfl, fun h => ?_, fun op hop h => ?_⟩
      · cases h
        exact absurd rfl hmethod
      · cases h
        exact absurd hop huses

/-- So the standard table accepts every method. -/
theorem enrichAll_standard (site : Site) (first : Nat) (ops : List Op) (journal : Journal) :
    ∃ out, enrichAll .standard site (ofOps first ops) journal = (.ok out, journal) ∧
      List.Forall₂ (Links site.program.methods.length site.extendNames site.useNames)
        (ofOps first ops) out := by
  induction ops generalizing first with
  | nil => exact ⟨[], rfl, .nil⟩
  | cons op rest ih =>
    obtain ⟨i', hi, hlinks⟩ := enrich_standard site first op journal
    obtain ⟨out, hout, hall⟩ := ih (first + 1)
    exact ⟨i' :: out, enrichAll_cons_eq_ok.mpr ⟨i', out, journal, hi, hout, rfl⟩,
      .cons hlinks hall⟩

end Instruction

theorem Program.method?_eq_none_iff {p : Program} {index : Int} :
    p.method? index = none ↔ ¬ (0 ≤ index ∧ index < p.methods.length) := by
  by_cases h : 0 ≤ index
  · rw [method?, if_pos h, List.getElem?_eq_none_iff]
    omega
  · rw [method?, if_neg h]
    simp [h]

namespace Session

variable {s t : Session} {g : Graph} {spelled : String} {name : Name} {index : Int}

theorem shows_of_resolve (h : (s.resolve spelled).1 = .ok g) :
    g.Shows (Path.canonical spelled none) s (s.resolve spelled).2 := by
  obtain ⟨hex, hroot, hknown⟩ := explores_of_resolve h
  exact Graph.shows_of_explores hex hroot hknown

/-- The names of a graph are their own canonical forms. -/
theorem canonical_of_mem_names (h : (s.resolve spelled).1 = .ok g) (hname : name ∈ g.names) :
    Path.canonical name none = name := by
  obtain ⟨hex, -, -⟩ := explores_of_resolve h
  have hroot : ∀ n ∈ [Path.canonical spelled none], Path.IsCanonical n :=
    (Walk.ofRoot s spelled).pending_canonical
  obtain ⟨n, hn, rfl⟩ := List.mem_map.mp hname
  exact (hex.found_canonical hroot n.content (List.mem_map_of_mem hn)).canonical_eq

theorem load_of_known {loaded : Loaded} (h : s.program? name = some loaded) :
    s.load name = (.ok loaded, s.note (.programKnown name)) := by
  simp only [load, h]

/-- What the standard table makes of a method depends on nothing but the program that is known. -/
theorem method_standard {loaded : Loaded} (hname : Path.canonical spelled none = name)
    (hknown : t.program? name = some loaded) (hfirst : t.listing? name index = none) :
    (t.method .standard spelled index).2.reads = t.reads ∧
      ((loaded.program.method? index = none ∧ (t.method .standard spelled index).1 =
          .error (MethodIndexError.mk (some name) index loaded.program.methods.length)) ∨
        ∃ m l, loaded.program.method? index = some m ∧
          (t.method .standard spelled index).1 = .ok l ∧
          List.Forall₂ (Instruction.Links loaded.program.methods.length
            (loaded.program.linkNames name .extend) (loaded.program.linkNames name .use))
            (Instruction.ofOps 0 m.ops) l.instructions) := by
  have hload := load_of_known hknown
  have h := t.enlists .standard spelled index
  rw [hname] at h
  generalize t.method .standard spelled index = r at h ⊢
  cases h with
  | known hk =>
    rw [hk] at hfirst
    cases hfirst
  | unloadable _ hl =>
    rw [hload] at hl
    cases hl
  | missing _ hl hm =>
    rw [hload] at hl
    cases hl
    exact ⟨by simp [reads, note], .inl ⟨hm, rfl⟩⟩
  | @refused _ _ m _ _ _ hl hm he =>
    rw [hload] at hl
    cases hl
    obtain ⟨out, hout, -⟩ := Instruction.enrichAll_standard (site name index loaded.program) 0
      m.ops (t.note (.programKnown name)).journal
    rw [hout] at he
    cases he
  | @stored _ _ m _ _ _ hl hm he =>
    rw [hload] at hl
    cases hl
    obtain ⟨out, hout, hlinks⟩ := Instruction.enrichAll_standard (site name index loaded.program) 0
      m.ops (t.note (.programKnown name)).journal
    rw [hout] at he
    cases he
    exact ⟨by simp [reads, note, keepListing], .inr ⟨m, _, hm, rfl, hlinks⟩⟩

end Session

end StackFront
