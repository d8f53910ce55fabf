import Mathlib.Data.Option.Basic
import StackFront.Proofs.Text.Lines

/-!
# Layouts of source texts

The texts that can be read are exactly those whose lines are laid out as one or more method lines,
then declarations of extended files, then declarations of used ones. A layout says so without
reading: it lists the parts of the lines, and what the program has to be follows from it.
-/
namespace StackFront

namespace Op

/-- The alphabet holds exactly the characters that stand for operations. -/
theorem mem_alphabet {c : Char} : c ∈ alphabet ↔ ∃ op, ofChar? c = some op := by
  rw [alphabet, List.mem_append, List.mem_filterMap]
  constructor
  · rintro (⟨op, -, hop⟩ | hdigit)
    · rw [Opcode.char?] at hop
      split at hop
      next hown =>
        cases hop
        exact ⟨opcode op, by rw [ofChar?, hown]⟩
      next => cases hop
    · cases h : Opcode.ofChar? c with
      | some op => exact ⟨opcode op, by rw [ofChar?, h]⟩
      | none =>
        obtain ⟨n, hn⟩ := List.get_of_mem hdigit
        have hfound : (ofDigit? c).isSome := by
          rw [ofDigit?, List.find?_isSome]
          exact ⟨n, List.mem_finRange n, decide_eq_true hn⟩
        obtain ⟨m, hm⟩ := Option.isSome_iff_exists.mp hfound
        exact ⟨literal m, by rw [ofChar?, h, hm, Option.map_some]⟩
  · rintro ⟨op, hop⟩
    rw [ofChar?] at hop
    cases h : Opcode.ofChar? c with
    | some op =>
      have hlisted : op.listedChar = c := by simpa using List.find?_some h
      exact .inl ⟨op, Opcode.mem_all op, by rw [Opcode.char?, hlisted, if_pos h]⟩
    | none =>
      rw [h] at hop
      obtain ⟨n, hn, -⟩ := Option.map_eq_some_iff.mp hop
      have hdigit : digit n = c := by simpa using List.find?_some hn
      exact .inr (hdigit ▸ List.getElem_mem _)

/-- Where all characters stand for operations, they belong to the alphabet. -/
theorem mem_alphabet_of_map {line : List Char} {ops : List Op} {c : Char}
    (h : line.map ofChar? = ops.map some) (hc : c ∈ line) : c ∈ alphabet := by
  have hop : ofChar? c ∈ ops.map some := h ▸ List.mem_map_of_mem hc
  obtain ⟨op, -, hop⟩ := List.mem_map.mp hop
  exact mem_alphabet.mpr ⟨op, hop.symm⟩

/-- Where all characters belong to the alphabet, they stand for operations. -/
theorem exists_map_ofChar? {line : List Char} (h : ∀ c ∈ line, c ∈ alphabet) :
    ∃ ops : List Op, line.map ofChar? = ops.map some := by
  induction line with
  | nil => exact ⟨[], rfl⟩
  | cons c rest ih =>
    rw [List.forall_mem_cons] at h
    obtain ⟨op, hop⟩ := mem_alphabet.mp h.1
    obtain ⟨ops, hops⟩ := ih h.2
    exact ⟨op :: ops, by rw [List.map_cons, List.map_cons, hop, hops]⟩

/-- Reading does not stop exactly if every character stands for an operation. -/
theorem scan_eq_iff {column : Nat} {text : List Char} {ops : List Op} :
    scan column text = (ops, none) ↔ text.map ofChar? = ops.map some := by
  induction text generalizing column ops with
  | nil => cases ops <;> simp [scan]
  | cons c rest ih =>
    rw [scan]
    cases h : ofChar? c with
    | none => cases ops <;> simp [h]
    | some op =>
      cases ops with
      | nil => simp
      | cons first others =>
        simp only [Prod.mk.injEq, List.cons.injEq, List.map_cons, h, Option.some.injEq]
        rw [← @ih (column + 1) others, Prod.ext_iff]
        simp only [and_assoc]

theorem tokenize_eq_iff {text : List Char} {line : Option Int} {ops : List Op} :
    tokenize text line = (ops, none) ↔ text.map ofChar? = ops.map some := by
  rw [← @scan_eq_iff 1, tokenize]
  simp [Prod.ext_iff]

end Op

namespace Program

/-- A line that holds a method: characters of the alphabet that do not just open a declaration. -/
structure IsMethodLine (line : List Char) : Prop where
  ne_nil : line ≠ []
  mem_alphabet : ∀ c ∈ line, c ∈ Op.alphabet
  ne_marker : ∀ kind : LinkKind, line ≠ kind.marker

/-- The spelling of a file that can be declared. -/
structure IsTarget (target : List Char) : Prop where
  ne_nil : target ≠ []
  isTargetChar : ∀ c ∈ target, isTargetChar c

/-- The line that declares a file. -/
def declare (kind : LinkKind) (target : List Char) : List Char :=
  kind.marker ++ ' ' :: target

/-- The lines of a source text, taken apart. -/
structure Layout where
  methodLines : List (List Char)
  extended : List (List Char)
  used : List (List Char)
  methodLines_ne_nil : methodLines ≠ []
  isMethodLine : ∀ line ∈ methodLines, IsMethodLine line
  isTarget_extended : ∀ target ∈ extended, IsTarget target
  isTarget_used : ∀ target ∈ used, IsTarget target

namespace Layout

/-- The lines, put together again. -/
def lines (l : Layout) : List (List Char) :=
  l.methodLines ++ l.extended.map (declare .extend) ++ l.used.map (declare .use)

/-- The program says what the lines do: each character of a method line stands for the operation at
its place, and the declared files are the given ones. -/
structure Reads (l : Layout) (p : Program) : Prop where
  methods : p.methods.map (fun m => m.ops.map some) =
    l.methodLines.map fun line => line.map Op.ofChar?
  extendTargets : p.extendTargets = l.extended.map String.ofList
  useTargets : p.useTargets = l.used.map String.ofList

end Layout

/-! ## Single lines -/

/-- The line is a declaration of the given kind, perhaps without a target. -/
def Opens (kind : LinkKind) (line : List Char) : Prop :=
  line = kind.marker ∨ ∃ target, line = declare kind target

/-- The second character of a declaration tells its kind. -/
theorem Opens.unique {kind kind' : LinkKind} {line : List Char} (h : Opens kind line)
    (h' : Opens kind' line) : kind = kind' := by
  have hsecond : ∀ k : LinkKind, Opens k line → line.tail.head? = k.marker.tail.head? := by
    rintro k (rfl | ⟨target, rfl⟩)
    · rfl
    · cases k <;> rfl
  have hmark := (hsecond kind h).symm.trans (hsecond kind' h')
  revert hmark
  cases kind <;> cases kind' <;> decide

theorem declaration?_eq_some_iff {line : List Char} {kind : LinkKind} :
    declaration? line = some kind ↔ Opens kind line := by
  have htest : ∀ k : LinkKind,
      (line = k.marker || (k.marker ++ [' ']).isPrefixOf line) = true ↔ Opens k line := by
    intro k
    simp only [Bool.or_eq_true, decide_eq_true_eq, List.isPrefixOf_iff_prefix, Opens, declare]
    refine or_congr_right ⟨?_, ?_⟩
    · rintro ⟨target, rfl⟩
      exact ⟨target, by rw [List.append_assoc, List.singleton_append]⟩
    · rintro ⟨target, rfl⟩
      exact ⟨target, by rw [List.append_assoc, List.singleton_append]⟩
  constructor
  · intro h
    have hfound := List.find?_some h
    exact (htest kind).mp hfound
  · intro h
    cases hd : declaration? line with
    | none =>
      have hno := List.find?_eq_none.mp hd kind (by cases kind <;> simp)
      exact absurd ((htest kind).mpr h) hno
    | some kind' =>
      have hfound := List.find?_some hd
      rw [((htest kind').mp hfound).unique h]

theorem declaration?_declare (kind : LinkKind) (target : List Char) :
    declaration? (declare kind target) = some kind :=
  declaration?_eq_some_iff.mpr (.inr ⟨target, rfl⟩)

theorem declaration?_eq_none_iff {line : List Char} :
    declaration? line = none ↔ ∀ kind, ¬ Opens kind line := by
  constructor
  · intro h kind hopen
    rw [declaration?_eq_some_iff.mpr hopen] at h
    cases h
  · intro h
    cases hd : declaration? line with
    | none => rfl
    | some kind => exact absurd (declaration?_eq_some_iff.mp hd) (h kind)

/-- Blanks and line feeds stand for no operation. -/
theorem not_mem_alphabet {c : Char} (h : c = ' ' ∨ c = '\n') : c ∉ Op.alphabet := by
  rw [Op.mem_alphabet]
  rintro ⟨op, hop⟩
  have hnone : Op.ofChar? c = none := by rcases h with rfl | rfl <;> decide
  rw [hnone] at hop
  cases hop

/-- A method line is no declaration: declarations with a target have a blank in them. -/
theorem IsMethodLine.declaration?_eq_none {line : List Char} (h : IsMethodLine line) :
    declaration? line = none := by
  rw [declaration?_eq_none_iff]
  rintro kind (rfl | ⟨target, rfl⟩)
  · exact h.ne_marker kind rfl
  · exact not_mem_alphabet (.inl rfl) (h.mem_alphabet ' ' (by simp [declare]))

/-- A method line has a method: each of its characters stands for an operation. -/
theorem IsMethodLine.exists_method {line : List Char} (h : IsMethodLine line) :
    ∃ m : Method, line.map Op.ofChar? = m.ops.map some := by
  obtain ⟨ops, hmap⟩ := Op.exists_map_ofChar? h.mem_alphabet
  refine ⟨⟨ops, ?_⟩, hmap⟩
  rintro rfl
  exact h.ne_nil (List.map_eq_nil_iff.mp hmap)

theorem strayTargetChar?_eq_none_iff {column : Nat} {target : List Char} :
    strayTargetChar? column target = none ↔ ∀ c ∈ target, isTargetChar c := by
  induction target generalizing column with
  | nil => simp [strayTargetChar?]
  | cons c rest ih =>
    rw [strayTargetChar?, List.forall_mem_cons]
    by_cases hc : isTargetChar c = true <;> simp [hc, ih]

theorem readTarget_eq_ok_iff {kind : LinkKind} {line : List Char} {file : Option String}
    {number : Int} {target : String} :
    readTarget kind line file number = .ok target ↔
      IsTarget (line.drop 3) ∧ target = String.ofList (line.drop 3) := by
  rw [readTarget]
  by_cases hne : line.drop 3 = []
  · simp only [hne, if_true, reduceCtorEq, false_iff, not_and]
    exact fun h => absurd rfl h.ne_nil
  · simp only [hne, if_false]
    cases hs : strayTargetChar? targetColumn (line.drop 3) with
    | none =>
      have htarget : IsTarget (line.drop 3) := ⟨hne, strayTargetChar?_eq_none_iff.mp hs⟩
      simp only [htarget, true_and, Except.ok.injEq, eq_comm]
    | some stray =>
      simp only [reduceCtorEq, false_iff, not_and]
      intro h
      rw [strayTargetChar?_eq_none_iff.mpr h.isTargetChar] at hs
      cases hs

theorem addMethod_eq_ok_iff {p q : Program} {file : Option String} {number : Int}
    {line : List Char} :
    addMethod p file number line = .ok q ↔
      ∃ m : Method, line.map Op.ofChar? = m.ops.map some ∧
        q = { p with methods := p.methods ++ [m] } := by
  rw [addMethod]
  cases ht : Op.tokenize line (some number) with
  | mk ops e =>
    cases e with
    | some e =>
      simp only [reduceCtorEq, false_iff, not_exists, not_and]
      intro m hm
      rw [Op.tokenize_eq_iff.mpr hm] at ht
      cases ht
    | none =>
      have hops := Op.tokenize_eq_iff.mp ht
      have hsame : ∀ m : Method, line.map Op.ofChar? = m.ops.map some ↔ ops = m.ops := by
        intro m
        rw [hops]
        exact (List.map_injective_iff.mpr (Option.some_injective _)).eq_iff
      simp only [hsame]
      by_cases hne : ops = []
      · simp only [Method.ofOps?, hne, ne_eq, not_true_eq_false, dite_false, reduceCtorEq,
          false_iff, not_exists, not_and]
        exact fun m hm => absurd hm.symm m.ops_ne_nil
      · simp only [Method.ofOps?, ne_eq, hne, not_false_eq_true, dite_true, Except.ok.injEq]
        constructor
        · rintro rfl
          exact ⟨⟨ops, hne⟩, rfl, rfl⟩
        · rintro ⟨m, rfl, rfl⟩
          rfl

theorem drop_declare {kind : LinkKind} {target : List Char} :
    (declare kind target).drop 3 = target := by
  cases kind <;> rfl

/-- What one line adds: a method as long as nothing is declared, or a target after a method, an
extended file only as long as no file is used. -/
inductive Adds (p : Program) : List Char → Program → Prop
  | method {line : List Char} {m : Method} (hline : IsMethodLine line) (htargets : p.targets = [])
      (hm : line.map Op.ofChar? = m.ops.map some) :
      Adds p line { p with methods := p.methods ++ [m] }
  | target {kind : LinkKind} {target : List Char} (htarget : IsTarget target)
      (hmethods : p.methods ≠ []) (horder : kind = .extend → p.useTargets = []) :
      Adds p (declare kind target) (p.addTarget (String.ofList target) kind)

theorem Adds.addLine_eq {p q : Program} {line : List Char} (h : Adds p line q)
    (file : Option String) (number : Int) : addLine file p number line = .ok q := by
  cases h with
  | method hline htargets hm =>
    simp only [addLine, hline.declaration?_eq_none, htargets, ne_eq, not_true_eq_false, if_false]
    exact addMethod_eq_ok_iff.mpr ⟨_, hm, rfl⟩
  | @target kind target htarget hmethods horder =>
    have hd := declaration?_declare kind target
    have hr : readTarget kind (declare kind target) file number = .ok (String.ofList target) :=
      readTarget_eq_ok_iff.mpr (by rw [drop_declare]; exact ⟨htarget, rfl⟩)
    have hallowed : ¬ (kind = .extend ∧ p.useTargets ≠ []) := fun h => h.2 (horder h.1)
    simp only [addLine, hd, if_neg hmethods, if_neg hallowed, hr]
    rfl

/-- A line that opens no declaration and that can be read as a method is a method line. -/
theorem isMethodLine_of_map {line : List Char} {m : Method} (hd : declaration? line = none)
    (hm : line.map Op.ofChar? = m.ops.map some) : IsMethodLine line := by
  refine ⟨?_, fun c hc => Op.mem_alphabet_of_map hm hc,
    fun kind e => declaration?_eq_none_iff.mp hd kind (.inl e)⟩
  rintro rfl
  exact m.ops_ne_nil (List.map_eq_nil_iff.mp hm.symm)

/-- A line whose target can be read is the declaration of that target. -/
theorem eq_declare_of_readTarget {kind : LinkKind} {line : List Char} {file : Option String}
    {number : Int} {spelled : String} (hd : declaration? line = some kind)
    (hr : readTarget kind line file number = .ok spelled) :
    ∃ target, line = declare kind target ∧ IsTarget target ∧
      spelled = String.ofList target := by
  obtain ⟨htarget, hspelled⟩ := readTarget_eq_ok_iff.mp hr
  rcases declaration?_eq_some_iff.mp hd with rfl | ⟨target, rfl⟩
  · -- after the bare marker there is no target
    have hnil : kind.marker.drop 3 = [] := by cases kind <;> rfl
    exact absurd hnil htarget.ne_nil
  · rw [drop_declare] at htarget hspelled
    exact ⟨target, rfl, htarget, hspelled⟩

theorem adds_of_addLine {p q : Program} {file : Option String} {number : Int}
    {line : List Char} (h : addLine file p number line = .ok q) : Adds p line q := by
  cases hd : declaration? line with
  | none =>
    simp only [addLine, hd] at h
    split at h
    · cases h
    next htargets =>
      obtain ⟨m, hm, rfl⟩ := addMethod_eq_ok_iff.mp h
      exact .method (isMethodLine_of_map hd hm) (not_not.mp htargets) hm
  | some kind =>
    simp only [addLine, hd] at h
    split at h
    · cases h
    next hmethods =>
      split at h
      · cases h
      next horder =>
        cases hr : readTarget kind line file number with
        | error e =>
          rw [hr] at h
          cases h
        | ok spelled =>
          rw [hr] at h
          cases h
          obtain ⟨target, rfl, htarget, rfl⟩ := eq_declare_of_readTarget hd hr
          exact .target htarget hmethods fun hk => not_not.mp fun hu => horder ⟨hk, hu⟩

/-! ## All lines -/

theorem addLines_cons {p q : Program} {file : Option String} {number : Int} {line : List Char}
    {rest : List (List Char)} (h : addLine file p number line = .ok q) :
    addLines file p number (line :: rest) = addLines file q (number + 1) rest := by
  rw [addLines, h]

/-- Method lines are read one after the other, as long as nothing is declared. -/
theorem addLines_methods {methodLines : List (List Char)} (file : Option String)
    (h : ∀ line ∈ methodLines, IsMethodLine line) (p : Program) (hp : p.targets = [])
    (number : Int) (rest : List (List Char)) :
    ∃ methods number', methods.map (fun m => m.ops.map some) =
        methodLines.map (fun line => line.map Op.ofChar?) ∧
      addLines file p number (methodLines ++ rest) =
        addLines file { p with methods := p.methods ++ methods } number' rest := by
  induction methodLines generalizing p number with
  | nil => exact ⟨[], number, rfl, by rw [List.append_nil, List.nil_append]⟩
  | cons line methodLines ih =>
    rw [List.forall_mem_cons] at h
    obtain ⟨m, hm⟩ := h.1.exists_method
    have hline : addLine file p number line = .ok { p with methods := p.methods ++ [m] } :=
      (Adds.method h.1 hp hm).addLine_eq file number
    obtain ⟨methods, number', hmethods, hrest⟩ :=
      ih h.2 { p with methods := p.methods ++ [m] } hp (number + 1)
    refine ⟨m :: methods, number', ?_, ?_⟩
    · rw [List.map_cons, List.map_cons, hmethods, hm]
    · rw [List.cons_append, addLines_cons hline, hrest]
      simp only [List.append_assoc, List.singleton_append]

/-- Adds several declared targets. -/
def addTargets (p : Program) (targets : List String) : LinkKind → Program
  | .extend => { p with extendTargets := p.extendTargets ++ targets }
  | .use => { p with useTargets := p.useTargets ++ targets }

theorem addTargets_nil (p : Program) (kind : LinkKind) : p.addTargets [] kind = p := by
  cases kind <;> simp only [addTargets, List.append_nil]

theorem addTargets_addTarget (p : Program) (target : String) (targets : List String)
    (kind : LinkKind) :
    (p.addTarget target kind).addTargets targets kind = p.addTargets (target :: targets) kind := by
  cases kind <;> simp [addTargets, addTarget]

/-- Declarations of one kind are read one after the other, if such a declaration may stand here. -/
theorem addLines_targets (kind : LinkKind) {targets : List (List Char)} (file : Option String)
    (h : ∀ target ∈ targets, IsTarget target) (p : Program) (hmethods : p.methods ≠ [])
    (horder : kind = .extend → p.useTargets = []) (number : Int) (rest : List (List Char)) :
    ∃ number', addLines file p number (targets.map (declare kind) ++ rest) =
      addLines file (p.addTargets (targets.map String.ofList) kind) number' rest := by
  induction targets generalizing p number with
  | nil => exact ⟨number, by rw [List.map_nil, List.map_nil, List.nil_append, addTargets_nil]⟩
  | cons target targets ih =>
    rw [List.forall_mem_cons] at h
    have hline : addLine file p number (declare kind target) =
        .ok (p.addTarget (String.ofList target) kind) :=
      (Adds.target h.1 hmethods horder).addLine_eq file number
    have hmethods' : (p.addTarget (String.ofList target) kind).methods ≠ [] := by
      cases kind <;> exact hmethods
    have horder' : kind = .extend → (p.addTarget (String.ofList target) kind).useTargets = [] := by
      rintro rfl
      exact horder rfl
    obtain ⟨number', hrest⟩ := ih h.2 _ hmethods' horder' (number + 1)
    refine ⟨number', ?_⟩
    rw [List.map_cons, List.cons_append, addLines_cons hline, hrest, addTargets_addTarget,
      List.map_cons]

/-- A text that is laid out is read as its layout says. -/
theorem parse_of_lines {text : String} {l : Layout} (file : Option String)
    (h : sourceLines text.toList = l.lines) : ∃ p, parse text file = .ok p ∧ l.Reads p := by
  obtain ⟨methods, n₁, hmethods, h₁⟩ := addLines_methods file l.isMethodLine {} rfl 1
    (l.extended.map (declare .extend) ++ (l.used.map (declare .use) ++ []))
  have hne : methods ≠ [] := by
    rintro rfl
    exact l.methodLines_ne_nil (List.map_eq_nil_iff.mp hmethods.symm)
  obtain ⟨n₂, h₂⟩ := addLines_targets .extend file l.isTarget_extended
    { methods := methods } hne (fun _ => rfl) n₁ (l.used.map (declare .use) ++ [])
  obtain ⟨n₃, h₃⟩ := addLines_targets .use file l.isTarget_used
    { methods := methods, extendTargets := l.extended.map String.ofList } hne
    (fun e => by cases e) n₂ []
  have hlines : l.lines = l.methodLines ++
      (l.extended.map (declare .extend) ++ (l.used.map (declare .use) ++ [])) := by
    rw [Layout.lines, List.append_nil, List.append_assoc]
  refine ⟨⟨methods, l.extended.map String.ofList, l.used.map String.ofList⟩, ?_,
    hmethods, rfl, rfl⟩
  have hall : addLines file {} 1 l.lines =
      .ok ⟨methods, l.extended.map String.ofList, l.used.map String.ofList⟩ := by
    calc addLines file {} 1 l.lines
      _ = addLines file { methods := methods } n₁ _ := by rw [hlines, h₁]; rfl
      _ = addLines file ⟨methods, l.extended.map String.ofList, []⟩ n₂ _ := h₂
      _ = addLines file ⟨methods, l.extended.map String.ofList, l.used.map String.ofList⟩ n₃ [] :=
        h₃
      _ = _ := rfl
  rw [parse, h, hall]
  exact if_neg hne

/-- Lines that are added without fault are method lines, declarations of extended files and
declarations of used files, in this order; what the program has already says which of them are
ruled out. -/
theorem lines_of_addLines {file : Option String} {p q : Program} {number : Int}
    {lines : List (List Char)} (h : addLines file p number lines = .ok q) :
    ∃ methodLines extended used : List (List Char),
      lines = methodLines ++ extended.map (declare .extend) ++ used.map (declare .use) ∧
      (∀ line ∈ methodLines, IsMethodLine line) ∧ (∀ target ∈ extended, IsTarget target) ∧
      (∀ target ∈ used, IsTarget target) ∧ (p.targets ≠ [] → methodLines = []) ∧
      (p.useTargets ≠ [] → extended = []) ∧
      (p.methods = [] → methodLines = [] → lines = []) := by
  induction lines generalizing p number with
  | nil => exact ⟨[], [], [], rfl, by simp, by simp, by simp, by simp, by simp, by simp⟩
  | cons line lines ih =>
    rw [addLines] at h
    cases hline : addLine file p number line with
    | error e => simp [hline] at h
    | ok p' =>
      rw [hline] at h
      obtain ⟨methodLines, extended, used, hlines, hmethod, hextended, hused, hno, hnoextend, -⟩ :=
        ih h
      cases adds_of_addLine hline with
      | method hm htargets _ =>
        refine ⟨line :: methodLines, extended, used, by rw [hlines]; rfl,
          List.forall_mem_cons.mpr ⟨hm, hmethod⟩, hextended, hused,
          fun hne => absurd htargets hne, fun hne => ?_, by simp⟩
        -- without any target there is no used one
        exact absurd (List.append_eq_nil_iff.mp htargets).2 hne
      | @target kind target htarget hmethods horder =>
        have hdeclared : (p.addTarget (String.ofList target) kind).targets ≠ [] := by
          cases kind <;> simp [addTarget, targets]
        have hnil := hno hdeclared
        subst hnil
        cases kind with
        | extend =>
          exact ⟨[], target :: extended, used, by rw [hlines]; rfl, by simp,
            List.forall_mem_cons.mpr ⟨htarget, hextended⟩, hused, fun _ => rfl,
            fun hne => absurd (horder rfl) hne, fun hnil => absurd hnil hmethods⟩
        | use =>
          have hnil := hnoextend (by simp [addTarget])
          subst hnil
          exact ⟨[], [], target :: used, by rw [hlines]; rfl, by simp, by simp,
            List.forall_mem_cons.mpr ⟨htarget, hused⟩, fun _ => rfl, fun _ => rfl,
            fun hnil => absurd hnil hmethods⟩

/-- Only texts that are laid out can be read. -/
theorem exists_layout {text : String} {file : Option String} {p : Program}
    (h : parse text file = .ok p) : ∃ l : Layout, sourceLines text.toList = l.lines := by
  rw [parse] at h
  cases hadd : addLines file {} 1 (sourceLines text.toList) with
  | error e => simp [hadd] at h
  | ok q =>
    simp only [hadd] at h
    obtain ⟨methodLines, extended, used, hlines, hmethod, hextended, hused, -, -, hnone⟩ :=
      lines_of_addLines hadd
    by_cases hne : methodLines = []
    · -- without a method line there is no line at all, and then no program
      rw [hnone rfl hne] at hadd
      cases hadd
      cases h
    · exact ⟨⟨methodLines, extended, used, hne, hmethod, hextended, hused⟩, hlines⟩

/-- A text can be read if and only if its lines, the empty ones at its end left out, are laid out,
and its program then says just what the lines do. -/
theorem parse_iff_layout (text : String) (file : Option String) :
    ((∃ p, parse text file = .ok p) ↔
      ∃ l : Layout, (text.toList.splitOn '\n').rdropWhile (· = []) = l.lines) ∧
    ∀ p, parse text file = .ok p → ∀ l : Layout,
      (text.toList.splitOn '\n').rdropWhile (· = []) = l.lines → l.Reads p := by
  rw [← sourceLines_eq]
  refine ⟨⟨?_, ?_⟩, ?_⟩
  · rintro ⟨p, hp⟩
    exact exists_layout hp
  · rintro ⟨l, hl⟩
    obtain ⟨p, hp, -⟩ := parse_of_lines file hl
    exact ⟨p, hp⟩
  · intro p hp l hl
    obtain ⟨q, hq, hreads⟩ := parse_of_lines file hl
    rw [hp] at hq
    cases hq
    exact hreads

end Program

end StackFront
