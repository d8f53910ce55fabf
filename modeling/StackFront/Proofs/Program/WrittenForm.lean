import StackFront.Proofs.Program.RoundTrip

/-!
# Written forms

Which programs have a written form, and which texts are written forms. A program is read back from
what it is written as exactly if it has a method, each of its operations has a character, none of
its methods is spelled like a bare marker and each of its targets is the spelling of a file: this
is what the layout of a text can say, and it can say all of it. The other way round, a program that
was read is written as the text that it was read from, with a single line feed at the end, so that
two texts hold the same program only if they differ in the line feeds at their ends.
-/
namespace StackFront

namespace Opcode

set_option maxRecDepth 2000 in
/-- There is one opcode without a character of its own. -/
theorem char?_eq_none_iff {op : Opcode} : op.char? = none ↔ op = .arccosine := by
  have hall : ∀ op ∈ all, op.char? = none ↔ op = .arccosine := by decide
  exact hall op (mem_all op)

end Opcode

namespace Op

variable {c : Char} {op : Op} {line : List Char} {ops : List Op}

theorem ofChar?_digit (n : Fin 16) : ofChar? (digit n) = some (literal n) := by
  revert n
  decide

/-- Only the character that stands for an operation is written for it. -/
theorem encode_eq_ok_iff : op.encode = .ok c ↔ ofChar? c = some op := by
  refine ⟨fun h => ?_, encode_of_ofChar?⟩
  cases op with
  | literal n =>
    cases h
    exact ofChar?_digit n
  | opcode op =>
    rw [encode] at h
    cases hchar : op.char? with
    | none => simp [hchar] at h
    | some d =>
      simp only [hchar, Except.ok.injEq] at h
      subst h
      rw [Opcode.char?] at hchar
      split at hchar
      next hown =>
        cases hchar
        rw [ofChar?, hown]
      next => cases hchar

/-- Every operation but the shadowed opcode has a character. -/
theorem exists_ofChar? (h : op ≠ opcode .arccosine) : ∃ c, ofChar? c = some op := by
  cases op with
  | literal n => exact ⟨digit n, ofChar?_digit n⟩
  | opcode op =>
    cases hchar : op.char? with
    | none =>
      rw [Opcode.char?_eq_none_iff] at hchar
      exact absurd (congrArg opcode hchar) h
    | some c => exact ⟨c, encode_eq_ok_iff.mp (by rw [encode, hchar])⟩

theorem ofChar?_ne_arccosine (c : Char) : ofChar? c ≠ some (opcode .arccosine) := by
  intro h
  have hencode := encode_of_ofChar? h
  simp [encode, Opcode.char?_eq_none_iff.mpr] at hencode

/-- Operations with characters are spelled by some line. -/
theorem exists_line (h : opcode .arccosine ∉ ops) :
    ∃ line : List Char, line.map ofChar? = ops.map some := by
  induction ops with
  | nil => exact ⟨[], rfl⟩
  | cons op ops ih =>
    rw [List.mem_cons, not_or] at h
    obtain ⟨c, hc⟩ := exists_ofChar? (Ne.symm h.1)
    obtain ⟨line, hline⟩ := ih h.2
    exact ⟨c :: line, by rw [List.map_cons, List.map_cons, hc, hline]⟩

/-- The bare marker of a declaration, read as a method. -/
def marker : LinkKind → List Op
  | .extend => [opcode .endMethod, literal 14]
  | .use => [opcode .endMethod, opcode .flatten]

/-- A line reads like a bare marker only if it is one. -/
theorem eq_marker_iff {kind : LinkKind} (h : line.map ofChar? = ops.map some) :
    line = kind.marker ↔ ops = marker kind := by
  have hmarker : kind.marker.map ofChar? = (marker kind).map some := by
    cases kind <;> decide
  constructor
  · rintro rfl
    rw [hmarker] at h
    exact (List.map_injective_iff.mpr (Option.some_injective _) h).symm
  · rintro rfl
    have hline := encodeAll_of_map h
    rw [encodeAll_of_map hmarker] at hline
    exact (Except.ok.inj hline).symm

end Op

namespace Program

variable {p q : Program} {text text' : String} {file file' : Option String}

/-- What the layout of a text can say. -/
structure IsWritable (p : Program) : Prop where
  methods_ne_nil : p.methods ≠ []
  no_arccosine : ∀ m ∈ p.methods, Op.opcode .arccosine ∉ m.ops
  ne_marker : ∀ m ∈ p.methods, m.ops ≠ [.opcode .endMethod, .literal 14] ∧
    m.ops ≠ [.opcode .endMethod, .opcode .flatten]
  isTarget : ∀ target ∈ p.targets, IsTarget target.toList

namespace IsWritable

/-- The line of a method that can be written. -/
theorem exists_methodLine (h : p.IsWritable) {m : Method} (hm : m ∈ p.methods) :
    ∃ line, IsMethodLine line ∧ m.ops.map some = line.map Op.ofChar? := by
  obtain ⟨line, hline⟩ := Op.exists_line (h.no_arccosine m hm)
  obtain ⟨hextend, huse⟩ := h.ne_marker m hm
  refine ⟨line, ⟨?_, fun c hc => Op.mem_alphabet_of_map hline hc, fun kind hkind => ?_⟩,
    hline.symm⟩
  · rintro rfl
    exact m.ops_ne_nil (List.map_eq_nil_iff.mp hline.symm)
  · have hops := (Op.eq_marker_iff hline).mp hkind
    cases kind with
    | extend => exact hextend hops
    | use => exact huse hops

theorem exists_methodLines {methods : List Method}
    (h : ∀ m ∈ methods, ∃ line, IsMethodLine line ∧ m.ops.map some = line.map Op.ofChar?) :
    ∃ lines : List (List Char), (∀ line ∈ lines, IsMethodLine line) ∧
      methods.map (fun m => m.ops.map some) = lines.map fun line => line.map Op.ofChar? := by
  induction methods with
  | nil => exact ⟨[], by simp, rfl⟩
  | cons m methods ih =>
    rw [List.forall_mem_cons] at h
    obtain ⟨line, hline, hm⟩ := h.1
    obtain ⟨lines, hlines, hmethods⟩ := ih h.2
    refine ⟨line :: lines, List.forall_mem_cons.mpr ⟨hline, hlines⟩, ?_⟩
    rw [List.map_cons, List.map_cons, hm, hmethods]

/-- All that a layout has to say is there. -/
theorem exists_layout (h : p.IsWritable) : ∃ l : Layout, l.Reads p := by
  obtain ⟨lines, hlines, hmethods⟩ := exists_methodLines fun m hm => h.exists_methodLine hm
  have hne : lines ≠ [] := by
    rintro rfl
    exact h.methods_ne_nil (List.map_eq_nil_iff.mp hmethods)
  have htargets : ∀ {targets : List String}, (∀ t ∈ targets, t ∈ p.targets) →
      ∀ target ∈ targets.map String.toList, IsTarget target := by
    intro targets hsub target ht
    obtain ⟨s, hs, rfl⟩ := List.mem_map.mp ht
    exact h.isTarget s (hsub s hs)
  refine ⟨⟨lines, p.extendTargets.map String.toList, p.useTargets.map String.toList, hne, hlines,
    htargets fun t ht => ?_, htargets fun t ht => ?_⟩, hmethods, (Text.map_ofList_toList _).symm,
    (Text.map_ofList_toList _).symm⟩
  · exact List.mem_append_left _ ht
  · exact List.mem_append_right _ ht

end IsWritable

/-- Whatever has a layout can be written. -/
theorem Layout.Reads.isWritable {l : Layout} (h : l.Reads p) : p.IsWritable := by
  have hline : ∀ m ∈ p.methods,
      ∃ line ∈ l.methodLines, line.map Op.ofChar? = m.ops.map some := by
    intro m hm
    have hmem := List.mem_map_of_mem (f := fun m : Method => m.ops.map some) hm
    rw [h.methods] at hmem
    exact List.mem_map.mp hmem
  constructor
  · intro hnil
    have hmethods := h.methods
    rw [hnil] at hmethods
    exact l.methodLines_ne_nil (List.map_eq_nil_iff.mp hmethods.symm)
  · intro m hm hmem
    obtain ⟨line, -, hops⟩ := hline m hm
    have hsome := List.mem_map_of_mem (f := some) hmem
    rw [← hops] at hsome
    obtain ⟨c, -, hc⟩ := List.mem_map.mp hsome
    exact Op.ofChar?_ne_arccosine c hc
  · intro m hm
    obtain ⟨line, hmem, hops⟩ := hline m hm
    have hmarker : ∀ kind, m.ops ≠ Op.marker kind := fun kind hkind =>
      (l.isMethodLine line hmem).ne_marker kind ((Op.eq_marker_iff hops).mpr hkind)
    exact ⟨hmarker .extend, hmarker .use⟩
  · intro target ht
    rw [targets, h.extendTargets, h.useTargets, ← List.map_append] at ht
    obtain ⟨cs, hcs, rfl⟩ := List.mem_map.mp ht
    rw [String.toList_ofList]
    rcases List.mem_append.mp hcs with hcs | hcs
    · exact l.isTarget_extended cs hcs
    · exact l.isTarget_used cs hcs

/-- A character that targets are not made of stands in no target of a program that was read. -/
theorem IsParsed.not_mem_target {c : Char} (h : p.IsParsed) (hc : isTargetChar c = false)
    {target : String} (ht : target ∈ p.targets) : c ∉ target.toList := by
  obtain ⟨l, hreads⟩ := h.exists_layout
  intro hmem
  have hchar := (hreads.isWritable.isTarget target ht).isTargetChar c hmem
  rw [hc] at hchar
  cases hchar

/-- A program can be written and is read back from its written form if and only if it has a method,
has no `arccosine`, has no method that is spelled like a bare marker, and has only targets that are
spelled like files. -/
theorem parse_format_iff (p : Program) (file : Option String) :
    (∃ text, p.format = .ok text ∧ parse text file = .ok p) ↔ p.IsWritable := by
  constructor
  · rintro ⟨text, -, hp⟩
    obtain ⟨l, -, hreads⟩ := exists_reads hp
    exact hreads.isWritable
  · intro h
    obtain ⟨l, hreads⟩ := h.exists_layout
    obtain ⟨text, hformat, hparse⟩ := hreads.parse_format
    exact ⟨text, hformat, hparse file⟩

/-- A text without the line feeds at its end. -/
def withoutEnd (text : String) : String :=
  String.ofList (text.toList.rdropWhile (· = '\n'))

/-- A program is written as the text that it was read from, up to the end of that text. -/
theorem format_of_parse (h : parse text file = .ok p) :
    p.format = .ok (withoutEnd text ++ "\n") := by
  obtain ⟨l, hl, hreads⟩ := exists_reads h
  rw [hreads.format, Except.ok.injEq]
  have hparts : ∀ part ∈ text.toList.splitOn '\n', '\n' ∉ part := by
    intro part hpart
    rw [← Text.splitAt_eq_splitOn] at hpart
    exact Text.not_mem_of_mem_splitAt hpart
  apply String.toList_injective
  rw [toList_unlines, Text.map_toList_ofList, ← hl, sourceLines_eq,
    Text.intercalate_rdropWhile hparts, List.intercalate_splitOn, withoutEnd, String.toList_append,
    String.toList_ofList]
  rfl

/-- A text that is read is given back by writing its program, with one line feed at its end. So
texts hold the same program if and only if they are the same but for the line feeds at their
ends. -/
theorem format_parse (h : parse text file = .ok p) :
    p.format = .ok (withoutEnd text ++ "\n") ∧
      ∀ text' file' p', parse text' file' = .ok p' →
        (p = p' ↔ withoutEnd text = withoutEnd text') := by
  refine ⟨format_of_parse h, fun text' file' p' h' => ⟨?_, fun hend => ?_⟩⟩
  · rintro rfl
    have hformat := format_of_parse h'
    rw [format_of_parse h, Except.ok.injEq] at hformat
    exact (String.append_left_inj _).mp hformat
  · -- both are read back from one written form
    obtain ⟨written, hformat, hparse⟩ := IsParsed.parse_format ⟨text, file, h⟩
    obtain ⟨written', hformat', hparse'⟩ := IsParsed.parse_format ⟨text', file', h'⟩
    have hwritten : written = written' := by
      rw [format_of_parse h, hend, ← format_of_parse h', hformat', Except.ok.injEq] at hformat
      exact hformat.symm
    have hsame := hparse none
    rw [hwritten, hparse' none, Except.ok.injEq] at hsame
    exact hsame.symm

/-- Two texts that differ in their last line feeds, of which one has none. -/
theorem format_parse_unended :
    ∃ p q, parse "'rd3*Z\nm\n;e base.vt\n;u ../lib/mod.vt\n\n\n" none = .ok p ∧
      parse "'rd3*Z\nm\n;e base.vt\n;u ../lib/mod.vt" (some "main.vt") = .ok q ∧
      p.format = .ok "'rd3*Z\nm\n;e base.vt\n;u ../lib/mod.vt\n" ∧ p = q := by
  have hp : ∃ p, parse "'rd3*Z\nm\n;e base.vt\n;u ../lib/mod.vt\n\n\n" none = .ok p := ⟨_, rfl⟩
  have hq : ∃ q, parse "'rd3*Z\nm\n;e base.vt\n;u ../lib/mod.vt" (some "main.vt") = .ok q :=
    ⟨_, rfl⟩
  obtain ⟨p, hp⟩ := hp
  obtain ⟨q, hq⟩ := hq
  obtain ⟨hformat, hsame⟩ := format_parse hp
  exact ⟨p, q, hp, hq, hformat, (hsame _ _ _ hq).mpr (by decide)⟩

end Program

end StackFront
