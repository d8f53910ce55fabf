import StackFront.Image
import StackFront.Proofs.Lookup
import StackFront.Proofs.Program.RoundTrip

/-!
# Entries of images

An entry of an image lists the lines of the methods of a program and the targets of each kind. It
stands for one source text, in which nothing but line feeds keeps the items of these lists apart. If
the text can be read, then the program says what the entry says if and only if each method of the
entry is one line, which is not empty and opens no declaration, and no target goes on to another
line.
-/
namespace StackFront

namespace Program

theorem declare_injective (kind : LinkKind) : Function.Injective (declare kind) := by
  intro target target' h
  have hdrop := congrArg (List.drop 3) h
  rwa [drop_declare, drop_declare] at hdrop

/-- The lines of one kind, looked for by their kind. -/
theorem filter_declaration {lines : List (List Char)} {kind : Option LinkKind}
    (h : ∀ line ∈ lines, declaration? line = kind) (k : Option LinkKind) :
    lines.filter (fun line => declaration? line = k) = if k = kind then lines else [] := by
  split
  next hk =>
    rw [List.filter_eq_self]
    simpa [hk] using h
  next hk =>
    rw [List.filter_eq_nil_iff]
    intro line hline
    simpa [h line hline] using Ne.symm hk

/-- Lines that are put together can be told apart again. -/
theorem lines_unique {methodLines methodLines' extended extended' used used' : List (List Char)}
    (h : methodLines ++ extended.map (declare .extend) ++ used.map (declare .use) =
      methodLines' ++ extended'.map (declare .extend) ++ used'.map (declare .use))
    (hmethods : ∀ line ∈ methodLines, declaration? line = none)
    (hmethods' : ∀ line ∈ methodLines', declaration? line = none) :
    methodLines = methodLines' ∧ extended = extended' ∧ used = used' := by
  have hdeclared : ∀ (kind : LinkKind) (targets : List (List Char)),
      ∀ line ∈ targets.map (declare kind), declaration? line = some kind := by
    intro kind targets line hline
    obtain ⟨target, -, rfl⟩ := List.mem_map.mp hline
    exact declaration?_declare kind target
  have hkinds : ∀ k : Option LinkKind, _ := fun k =>
    congrArg (List.filter fun line => declaration? line = k) h
  simp only [List.filter_append, filter_declaration hmethods, filter_declaration hmethods',
    filter_declaration (hdeclared _ _)] at hkinds
  have hnone := hkinds none
  have hextend := hkinds (some .extend)
  have huse := hkinds (some .use)
  simp only [reduceCtorEq, if_true, if_false, List.append_nil, List.nil_append,
    Option.some.injEq] at hnone hextend huse
  exact ⟨hnone, List.map_injective_iff.mpr (declare_injective _) hextend,
    List.map_injective_iff.mpr (declare_injective _) huse⟩

end Program

namespace Image

/-- What an entry says of a program. -/
structure Entry where
  methods : List String
  extended : List String
  used : List String
  deriving DecidableEq

/-- The member of an object is a list of just these texts; a missing member is an empty list. -/
def Lists (members : List (String × Json)) (key : String) (texts : List String) : Prop :=
  (Json.member? members key).getD (.array []) = .array (texts.map .string)

/-- The value is an object with the lists of an entry. -/
def Says (value : Json) (e : Entry) : Prop :=
  ∃ members, value = .object members ∧ Lists members methodsKey e.methods ∧
    Lists members (targetsKey .extend) e.extended ∧ Lists members (targetsKey .use) e.used

namespace Entry

/-- The lines that an entry stands for. -/
def lines (e : Entry) : List String :=
  e.methods ++ e.extended.map (Program.declarationLine .extend) ++
    e.used.map (Program.declarationLine .use)

/-- Every item of an entry stays on a line of its own, and every method is a method there. -/
structure IsLineByLine (e : Entry) : Prop where
  methods : ∀ line ∈ e.methods,
    line ≠ "" ∧ '\n' ∉ line.toList ∧ ∀ kind, ¬ Program.Opens kind line.toList
  targets : ∀ target ∈ e.extended ++ e.used, '\n' ∉ target.toList

/-- Whether an entry keeps to its lines is told by looking at each item. -/
instance (e : Entry) : Decidable e.IsLineByLine :=
  decidable_of_iff
    ((∀ line ∈ e.methods, line ≠ "" ∧ '\n' ∉ line.toList ∧
        Program.declaration? line.toList = none) ∧
      ∀ target ∈ e.extended ++ e.used, '\n' ∉ target.toList) <| by
    simp only [Program.declaration?_eq_none_iff]
    exact ⟨fun h => ⟨h.1, h.2⟩, fun h => ⟨h.methods, h.targets⟩⟩

/-- The entry of a program with the given layout. -/
def ofLayout (l : Program.Layout) : Entry :=
  ⟨l.methodLines.map String.ofList, l.extended.map String.ofList, l.used.map String.ofList⟩

end Entry

theorem string_injective : Function.Injective Json.string := fun s t h => by
  cases h
  rfl

theorem Lists.unique {members : List (String × Json)} {key : String} {texts texts' : List String}
    (h : Lists members key texts) (h' : Lists members key texts') : texts = texts' := by
  rw [Lists, h', Json.array.injEq] at h
  exact (List.map_injective_iff.mpr string_injective h).symm

/-- A value says one entry at most. -/
theorem Says.unique {value : Json} {e e' : Entry} (h : Says value e) (h' : Says value e') :
    e = e' := by
  obtain ⟨members, rfl, hm, he, hu⟩ := h
  obtain ⟨members', hmembers, hm', he', hu'⟩ := h'
  cases hmembers
  cases e
  cases e'
  rw [Entry.mk.injEq]
  exact ⟨hm.unique hm', he.unique he', hu.unique hu'⟩

theorem Lists.items_eq {members : List (String × Json)} {key : String} {texts : List String}
    (h : Lists members key texts) :
    items (Json.member? members key) = .ok (texts.map .string) := by
  cases hm : Json.member? members key with
  | none =>
    rw [Lists, hm, Option.getD_none, Json.array.injEq] at h
    rw [items, ← h]
  | some value =>
    rw [Lists, hm, Option.getD_some] at h
    rw [h, items]

theorem methodLines_strings (lines : List String) :
    methodLines (lines.map .string) = .ok lines := by
  induction lines with
  | nil => rfl
  | cons line lines ih =>
    rw [List.map_cons, methodLines, ih]
    rfl

theorem declarationLines_strings (kind : LinkKind) (targets : List String) :
    declarationLines kind (targets.map .string) =
      .ok (targets.map (Program.declarationLine kind)) := by
  induction targets with
  | nil => rfl
  | cons target targets ih =>
    have hshort : (Json.string target).hasLong = false := by simp only [Json.hasLong]
    rw [List.map_cons, declarationLines, hshort, if_neg Bool.false_ne_true, ih]
    rfl

/-- An entry stands for the text of its lines. -/
theorem Says.sourceOf_eq {value : Json} {e : Entry} (h : Says value e) :
    sourceOf value = .ok (Program.unlines e.lines) := by
  obtain ⟨members, rfl, hm, he, hu⟩ := h
  simp only [sourceOf, hm.items_eq, he.items_eq, hu.items_eq, bind, Except.bind,
    declarationLines_strings, methodLines_strings, Entry.lines]
  rfl

/-- The entry that is written for a program says the lines of its methods and its targets. -/
theorem says_entryOf {p : Program} {methods : List String}
    (h : Program.formatMethods p.methods = .ok methods) :
    ∃ value, entryOf p = .ok value ∧ Says value ⟨methods, p.extendTargets, p.useTargets⟩ := by
  rw [entryOf, h]
  have hextend : methodsKey ≠ targetsKey .extend := by decide
  have huse : methodsKey ≠ targetsKey .use := by decide
  have hkinds : targetsKey .extend ≠ targetsKey .use := by decide
  refine ⟨_, rfl, _, rfl, ?_, ?_, ?_⟩
  · simp only [Lists, Json.member?_cons_self, Option.getD_some]
  · simp only [Lists, Json.member?_cons_of_ne hextend, Json.member?_cons_self, Option.getD_some]
  · simp only [Lists, Json.member?_cons_of_ne huse, Json.member?_cons_of_ne hkinds,
      Json.member?_cons_self, Option.getD_some]

/-- The entry of a program stands for the text that the program is written as. -/
theorem sourceOf_entryOf {p : Program} {text : String} (h : p.format = .ok text) :
    ∃ value, entryOf p = .ok value ∧ sourceOf value = .ok text := by
  rw [Program.format] at h
  cases hm : Program.formatMethods p.methods with
  | error e =>
    rw [hm] at h
    cases h
  | ok methods =>
    rw [hm] at h
    cases h
    obtain ⟨value, hvalue, hsays⟩ := says_entryOf hm
    exact ⟨value, hvalue, hsays.sourceOf_eq⟩

/-- For a program that was read from some lines, the entry says these lines. -/
theorem says_ofLayout {l : Program.Layout} {p : Program} (h : l.Reads p) :
    ∃ value, entryOf p = .ok value ∧ Says value (.ofLayout l) := by
  have hentry : Entry.ofLayout l =
      ⟨l.methodLines.map String.ofList, p.extendTargets, p.useTargets⟩ := by
    rw [Entry.ofLayout, h.extendTargets, h.useTargets]
  rw [hentry]
  exact says_entryOf (Program.formatMethods_of_map h.methods)

namespace Entry

variable {e : Entry} {l : Program.Layout}

/-- What is laid out in lines is an entry that keeps to its lines. -/
theorem isLineByLine_ofLayout (l : Program.Layout) : (ofLayout l).IsLineByLine := by
  constructor
  · intro line hline
    obtain ⟨cs, hcs, rfl⟩ := List.mem_map.mp hline
    have hmethod := l.isMethodLine cs hcs
    refine ⟨?_, ?_, ?_⟩
    · simpa using hmethod.ne_nil
    · rw [String.toList_ofList]
      exact Program.Layout.not_mem_methodLine hmethod
    · rw [String.toList_ofList]
      exact Program.declaration?_eq_none_iff.mp hmethod.declaration?_eq_none
  · intro target htarget
    rw [ofLayout, ← List.map_append] at htarget
    obtain ⟨cs, hcs, rfl⟩ := List.mem_map.mp htarget
    rw [String.toList_ofList]
    apply Program.Layout.not_mem_target
    rcases List.mem_append.mp hcs with hcs | hcs
    · exact l.isTarget_extended cs hcs
    · exact l.isTarget_used cs hcs

theorem map_toList_lines (e : Entry) : e.lines.map String.toList =
    e.methods.map String.toList ++
      (e.extended.map String.toList).map (Program.declare .extend) ++
      (e.used.map String.toList).map (Program.declare .use) := by
  simp [lines, Program.declarationLine, Program.declare, Function.comp_def]

/-- The lines of such an entry are read back as they are. -/
theorem IsLineByLine.sourceLines_eq (h : e.IsLineByLine) (hne : e.lines ≠ []) :
    Program.sourceLines (Program.unlines e.lines).toList = e.lines.map String.toList := by
  have hdeclare : ∀ (kind : LinkKind) (target : String), target ∈ e.extended ++ e.used →
      '\n' ∉ Program.declare kind target.toList :=
    fun kind target ht => Program.Layout.not_mem_declare (h.targets target ht)
  have hline : ∀ line ∈ e.lines.map String.toList, '\n' ∉ line ∧ line ≠ [] := by
    intro line hline
    simp only [map_toList_lines, List.mem_append, List.mem_map] at hline
    rcases hline with (⟨s, hs, rfl⟩ | ⟨_, ⟨t, ht, rfl⟩, rfl⟩) | ⟨_, ⟨t, ht, rfl⟩, rfl⟩
    · obtain ⟨hempty, hfeed, -⟩ := h.methods s hs
      exact ⟨hfeed, by simpa using hempty⟩
    · exact ⟨hdeclare _ t (List.mem_append_left _ ht), by simp [Program.declare]⟩
    · exact ⟨hdeclare _ t (List.mem_append_right _ ht), by simp [Program.declare]⟩
  apply Program.sourceLines_unlines hne
  · intro line hmem
    exact (hline _ (List.mem_map_of_mem hmem)).1
  · intro hlast
    exact (hline [] (List.mem_of_getLast? hlast)).2 rfl

/-- If the text of an entry is laid out in lines, then the layout says the same as the entry if and
only if the entry keeps to its lines. -/
theorem eq_ofLayout_iff
    (hl : Program.sourceLines (Program.unlines e.lines).toList = l.lines) :
    e = ofLayout l ↔ e.IsLineByLine := by
  constructor
  · rintro rfl
    exact isLineByLine_ofLayout l
  · intro h
    have hne : e.lines ≠ [] := by
      intro hnil
      rw [hnil] at hl
      exact l.lines_ne_nil hl.symm
    rw [h.sourceLines_eq hne, map_toList_lines, Program.Layout.lines] at hl
    have hmethods : ∀ line ∈ e.methods.map String.toList, Program.declaration? line = none := by
      intro line hline
      obtain ⟨s, hs, rfl⟩ := List.mem_map.mp hline
      exact Program.declaration?_eq_none_iff.mpr (h.methods s hs).2.2
    obtain ⟨hm, he, hu⟩ := Program.lines_unique hl hmethods
      fun line hline => (l.isMethodLine line hline).declaration?_eq_none
    simp only [ofLayout, ← hm, ← he, ← hu, Text.map_ofList_toList]

end Entry

/-- Each text is what the entry under its name stands for. -/
theorem mem_of_sourcesOf {programs : List (String × Json)} {sources : List (String × String)}
    (h : sourcesOf programs = .ok sources) :
    sources.map Prod.fst = programs.map Prod.fst ∧
      ∀ name text, (name, text) ∈ sources →
        ∃ value, (name, value) ∈ programs ∧ sourceOf value = .ok text := by
  induction programs generalizing sources with
  | nil =>
    cases h
    exact ⟨rfl, by simp⟩
  | cons m programs ih =>
    obtain ⟨name, value⟩ := m
    rw [sourcesOf] at h
    cases hvalue : sourceOf value with
    | error f => simp [hvalue] at h
    | ok text =>
      cases hrest : sourcesOf programs with
      | error f => simp [hvalue, hrest, Except.map] at h
      | ok rest =>
        simp only [hvalue, hrest, Except.map, Except.ok.injEq] at h
        subst h
        obtain ⟨hnames, htexts⟩ := ih hrest
        refine ⟨by rw [List.map_cons, List.map_cons, hnames], fun name' text' hmem => ?_⟩
        rcases List.mem_cons.mp hmem with heq | hmem
        · cases heq
          exact ⟨value, List.mem_cons_self .., hvalue⟩
        · obtain ⟨value', hmem', hvalue'⟩ := htexts name' text' hmem
          exact ⟨value', List.mem_cons_of_mem _ hmem', hvalue'⟩

theorem mem_of_entriesOf {nodes : List Node} {entries : List (String × Json)}
    (h : entriesOf nodes = .ok entries) :
    ∀ n ∈ nodes, ∃ value, (n.name, value) ∈ entries ∧ entryOf n.program = .ok value := by
  induction nodes generalizing entries with
  | nil => simp
  | cons n nodes ih =>
    rw [entriesOf] at h
    cases hvalue : entryOf n.program with
    | error f => simp [hvalue] at h
    | ok value =>
      cases hrest : entriesOf nodes with
      | error f => simp [hvalue, hrest, Except.map] at h
      | ok rest =>
        simp only [hvalue, hrest, Except.map, Except.ok.injEq] at h
        subst h
        rw [List.forall_mem_cons]
        refine ⟨⟨value, List.mem_cons_self .., hvalue⟩, fun m hm => ?_⟩
        obtain ⟨value', hmem, hvalue'⟩ := ih hrest m hm
        exact ⟨value', List.mem_cons_of_mem _ hmem, hvalue'⟩

end Image

end StackFront
