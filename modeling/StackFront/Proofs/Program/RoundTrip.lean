import StackFront.Proofs.Program.Layout

/-!
# Programs written and read again

A program that was read from a text can be written, and its writing is the lines that it was read
from. So it is read back from what is written, whatever the blank lines at the end of the first
text were.
-/
namespace StackFront

namespace Op

/-- The operation of a character is written as that character. -/
theorem encode_of_ofChar? {c : Char} {op : Op} (h : ofChar? c = some op) :
    op.encode = .ok c := by
  rw [ofChar?] at h
  cases hc : Opcode.ofChar? c with
  | some o =>
    rw [hc] at h
    cases h
    have hlisted : o.listedChar = c := by simpa using List.find?_some hc
    have hchar : o.char? = some c := by rw [Opcode.char?, hlisted, if_pos hc]
    simp only [encode, hchar]
  | none =>
    rw [hc] at h
    obtain ⟨n, hn, rfl⟩ := Option.map_eq_some_iff.mp h
    have hdigit : digit n = c := by simpa using List.find?_some hn
    simp only [encode, hdigit]

theorem encodeAll_of_map {line : List Char} {ops : List Op}
    (h : line.map ofChar? = ops.map some) : encodeAll ops = .ok line := by
  induction ops generalizing line with
  | nil => rw [List.map_eq_nil_iff.mp h]; rfl
  | cons op ops ih =>
    cases line with
    | nil => cases h
    | cons c line =>
      rw [List.map_cons, List.map_cons, List.cons.injEq] at h
      rw [encodeAll, encode_of_ofChar? h.1, ih h.2]
      rfl

end Op

namespace Program

/-- Method lines are written as they were read. -/
theorem formatMethods_of_map {methods : List Method} {lines : List (List Char)}
    (h : methods.map (fun m => m.ops.map some) = lines.map fun line => line.map Op.ofChar?) :
    formatMethods methods = .ok (lines.map String.ofList) := by
  induction methods generalizing lines with
  | nil => rw [List.map_eq_nil_iff.mp h.symm]; rfl
  | cons m methods ih =>
    cases lines with
    | nil => cases h
    | cons line lines =>
      rw [List.map_cons, List.map_cons, List.cons.injEq] at h
      rw [formatMethods, Method.format, Op.encodeAll_of_map h.1.symm, ih h.2]
      rfl

theorem toList_declarationLine (kind : LinkKind) (target : List Char) :
    declarationLine kind (String.ofList target) = String.ofList (declare kind target) := by
  rw [declarationLine, String.toList_ofList, declare]

namespace Layout

variable {l : Layout} {p q : Program}

/-- A layout determines what its program says. -/
theorem Reads.unique (hp : l.Reads p) (hq : l.Reads q) : p = q := by
  obtain ⟨hm, he, hu⟩ := hp
  obtain ⟨hm', he', hu'⟩ := hq
  have hinj : Function.Injective fun m : Method => m.ops.map some := by
    intro m m' h
    cases m
    cases m'
    simpa using List.map_injective_iff.mpr (Option.some_injective _) h
  have hmethods : p.methods = q.methods :=
    List.map_injective_iff.mpr hinj (hm.trans hm'.symm)
  cases p
  cases q
  simp only at hmethods he hu he' hu'
  rw [hmethods, he, hu, he', hu']

/-- A program is written as the lines of its layout. -/
theorem Reads.format (h : l.Reads p) :
    p.format = .ok (unlines (l.lines.map String.ofList)) := by
  have hdeclare : ∀ (kind : LinkKind) (targets : List (List Char)),
      (targets.map String.ofList).map (declarationLine kind) =
        (targets.map (declare kind)).map String.ofList := by
    intro kind targets
    simp only [List.map_map]
    exact List.map_congr_left fun target _ => toList_declarationLine kind target
  rw [Program.format, formatMethods_of_map h.methods, h.extendTargets, h.useTargets, hdeclare,
    hdeclare, lines, List.map_append, List.map_append]
  rfl

theorem ne_nil_of_mem_lines {line : List Char} (h : line ∈ l.lines) : line ≠ [] := by
  simp only [lines, List.mem_append, List.mem_map] at h
  rcases h with (h | ⟨target, -, rfl⟩) | ⟨target, -, rfl⟩
  · exact (l.isMethodLine line h).ne_nil
  · simp [declare]
  · simp [declare]

theorem not_mem_declare {kind : LinkKind} {target : List Char} (h : '\n' ∉ target) :
    '\n' ∉ declare kind target := by
  rw [declare, List.mem_append, List.mem_cons, not_or, not_or]
  exact ⟨by cases kind <;> decide, by decide, h⟩

theorem not_mem_target {target : List Char} (h : IsTarget target) : '\n' ∉ target :=
  fun hmem => absurd (h.isTargetChar _ hmem) (by decide)

theorem not_mem_methodLine {line : List Char} (h : IsMethodLine line) : '\n' ∉ line :=
  fun hmem => not_mem_alphabet (.inr rfl) (h.mem_alphabet _ hmem)

theorem not_mem_of_mem_lines {line : List Char} (h : line ∈ l.lines) : '\n' ∉ line := by
  simp only [lines, List.mem_append, List.mem_map] at h
  rcases h with (h | ⟨target, ht, rfl⟩) | ⟨target, ht, rfl⟩
  · exact not_mem_methodLine (l.isMethodLine line h)
  · exact not_mem_declare (not_mem_target (l.isTarget_extended target ht))
  · exact not_mem_declare (not_mem_target (l.isTarget_used target ht))

theorem lines_ne_nil (l : Layout) : l.lines ≠ [] := by
  simp [lines, l.methodLines_ne_nil]

/-- The lines of a layout are read back from the text that they are written to. -/
theorem sourceLines_unlines (l : Layout) :
    sourceLines (unlines (l.lines.map String.ofList)).toList = l.lines := by
  have hback : (l.lines.map String.ofList).map String.toList = l.lines :=
    Text.map_toList_ofList l.lines
  have hne : l.lines.map String.ofList ≠ [] := by
    simpa using l.lines_ne_nil
  rw [Program.sourceLines_unlines hne, hback]
  · intro line hline
    obtain ⟨cs, hcs, rfl⟩ := List.mem_map.mp hline
    rw [String.toList_ofList]
    exact not_mem_of_mem_lines hcs
  · rw [hback]
    intro hlast
    exact ne_nil_of_mem_lines (List.mem_of_getLast? hlast) rfl

/-- A program with a layout can be written, and is read from what is written. -/
theorem Reads.parse_format (h : l.Reads p) :
    ∃ text, p.format = .ok text ∧ ∀ file, parse text file = .ok p := by
  refine ⟨_, h.format, fun file => ?_⟩
  obtain ⟨q, hq, hreads⟩ := parse_of_lines file l.sourceLines_unlines
  rw [hq, hreads.unique h]

end Layout

/-- What is read from a text is laid out in its lines. -/
theorem exists_reads {text : String} {file : Option String} {p : Program}
    (h : parse text file = .ok p) :
    ∃ l : Layout, sourceLines text.toList = l.lines ∧ l.Reads p := by
  obtain ⟨l, hl⟩ := exists_layout h
  obtain ⟨q, hq, hreads⟩ := parse_of_lines file hl
  rw [h] at hq
  cases hq
  exact ⟨l, hl, hreads⟩

/-- The program was read from some text. -/
def IsParsed (p : Program) : Prop :=
  ∃ text file, parse text file = .ok p

/-- A program that was read from a text is laid out in that text. -/
theorem IsParsed.exists_layout {p : Program} (h : IsParsed p) : ∃ l : Layout, l.Reads p := by
  obtain ⟨text, file, hp⟩ := h
  obtain ⟨l, -, hreads⟩ := exists_reads hp
  exact ⟨l, hreads⟩

/-- A program that was read from a text can be written, and is read from what is written. -/
theorem IsParsed.parse_format {p : Program} (h : IsParsed p) :
    ∃ text, p.format = .ok text ∧ ∀ file, parse text file = .ok p := by
  obtain ⟨l, hreads⟩ := h.exists_layout
  exact hreads.parse_format

end Program

end StackFront
