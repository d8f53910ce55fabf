import StackFront.Proofs.Enrichment.Links

/-!
# Enrichers that make up no names

An enricher is told the names that the program of its site refers to. The standard ones note some of
these and no others, so the names that a pass leaves on instructions are those of the site and those
that stood there before.
-/
namespace StackFront

/-- The names that were noted on an instruction. -/
def Notes.names (notes : Notes) : List Name :=
  notes.extendNames.getD [] ++ notes.useNames.getD []

/-- What an enricher may do with names: it notes those of its site or those that were noted before,
and it raises no fault with a chain. -/
inductive Enricher.IsPlain (site : Site) (i : Instruction) : Except Fault Instruction → Prop
  | ok {i' : Instruction}
      (h : ∀ n ∈ i'.notes.names, n ∈ i.notes.names ++ (site.extendNames ++ site.useNames)) :
      IsPlain site i (.ok i')
  | error {f : Fault} (h : f.chain = []) : IsPlain site i (.error f)

/-- The enrichers of the table keep to the names that they are given. -/
def EnricherTable.IsPlain (table : EnricherTable) : Prop :=
  ∀ key enricher, table key = some enricher →
    ∀ site i journal, Enricher.IsPlain site i (enricher site i journal).1

namespace Enricher

theorem isPlain_noting {f : Site → Notes → Notes} {site : Site} {i : Instruction}
    (journal : Journal)
    (h : ∀ n ∈ (f site i.notes).names, n ∈ i.notes.names ++ (site.extendNames ++ site.useNames)) :
    IsPlain site i (noting f site i journal).1 :=
  .ok h

theorem isPlain_linkMethods (site : Site) (i : Instruction) (journal : Journal) :
    IsPlain site i (linkMethods site i journal).1 := by
  refine isPlain_noting journal fun n hn => ?_
  simp only [Notes.names, Option.getD_some, List.mem_append] at hn ⊢
  rcases hn with hn | hn
  · exact .inr (.inl hn)
  · exact .inl (.inr hn)

theorem isPlain_linkUses (site : Site) (i : Instruction) (journal : Journal) :
    IsPlain site i (linkUses site i journal).1 := by
  refine isPlain_noting journal fun n hn => ?_
  simp only [Notes.names, Option.getD_some, List.mem_append] at hn ⊢
  rcases hn with hn | hn
  · exact .inl (.inl hn)
  · exact .inr (.inr hn)

theorem isPlain_checkLiteral (site : Site) (i : Instruction) (journal : Journal) :
    IsPlain site i (checkLiteral site i journal).1 := by
  unfold checkLiteral
  split
  · exact .ok fun n hn => List.mem_append_left _ hn
  · exact .error rfl

end Enricher

theorem EnricherTable.isPlain_standard : IsPlain standard := by
  intro key enricher h site i journal
  cases key with
  | literals =>
    cases h
    exact Enricher.isPlain_checkLiteral site i journal
  | opcode op =>
    by_cases hmethod : op = .callMethod
    · subst hmethod
      cases h
      exact Enricher.isPlain_linkMethods site i journal
    by_cases huses : op ∈ Opcode.linkedToUses
    · rw [standard_of_linkedToUses huses] at h
      cases h
      exact Enricher.isPlain_linkUses site i journal
    · rw [standard_of_other hmethod huses] at h
      cases h

namespace Instruction

variable {table : EnricherTable} {site : Site}

theorem enrich_isPlain (h : table.IsPlain) (i : Instruction) (journal : Journal) :
    Enricher.IsPlain site i (i.enrich table site journal).1 := by
  cases hkey : table i.key with
  | none =>
    rw [enrich_of_none hkey]
    exact .ok fun n hn => List.mem_append_left _ hn
  | some enricher =>
    rw [enrich_of_some hkey]
    -- to note the category of an instruction is no matter of names
    generalize hr : (enricher site i.categorized journal).1 = r
    have hplain := h i.key enricher hkey site i.categorized journal
    rw [hr] at hplain
    cases hplain with
    | ok hnames => exact .ok hnames
    | error hchain => exact .error hchain

/-- A pass over instructions that ends leaves only names of the site and those that stood on the
instructions; a refusal has no chain. -/
theorem enrichAll_names (h : table.IsPlain) (is : List Instruction) (journal : Journal) :
    (∀ out journal', enrichAll table site is journal = (.ok out, journal') →
      ∀ i' ∈ out, ∀ n ∈ i'.notes.names,
        n ∈ is.flatMap (fun i => i.notes.names) ++ (site.extendNames ++ site.useNames)) ∧
    ∀ f journal', enrichAll table site is journal = (.error f, journal') → f.chain = [] := by
  induction is generalizing journal with
  | nil =>
    refine ⟨fun out journal' hrun => ?_, fun f journal' hrun => ?_⟩
    · cases hrun
      simp
    · cases hrun
  | cons i rest ih =>
    have hplain : Enricher.IsPlain site i (i.enrich table site journal).1 :=
      enrich_isPlain h i journal
    rcases hi : i.enrich table site journal with ⟨f | i', middle⟩
    · rw [hi] at hplain
      refine ⟨fun out journal' hrun => ?_, fun f' journal' hrun => ?_⟩
      · rw [enrichAll, hi] at hrun
        cases hrun
      · rw [enrichAll, hi] at hrun
        cases hrun
        cases hplain with
        | error hchain => exact hchain
    · rw [hi] at hplain
      obtain ⟨hnames, hchain⟩ := ih middle
      refine ⟨fun out journal' hrun => ?_, fun f journal' hrun => ?_⟩
      · obtain ⟨i'', out', middle', hi', hrest, rfl⟩ := enrichAll_cons_eq_ok.mp hrun
        rw [hi] at hi'
        cases hi'
        rw [List.forall_mem_cons]
        refine ⟨fun n hn => ?_, fun k hk n hn => ?_⟩
        · cases hplain with
          | ok hi'' =>
            have hmem := hi'' n hn
            simp only [List.flatMap_cons, List.mem_append] at hmem ⊢
            tauto
        · have hmem := hnames out' _ hrest k hk n hn
          simp only [List.flatMap_cons, List.mem_append] at hmem ⊢
          tauto
      · rw [enrichAll, hi] at hrun
        rcases hrest : enrichAll table site rest middle with ⟨f' | out', last⟩
        · simp only [hrest] at hrun
          cases hrun
          exact hchain _ _ hrest
        · simp only [hrest] at hrun
          cases hrun

end Instruction

end StackFront
