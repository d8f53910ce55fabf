import StackFront.Drawing.Dot
import StackFront.Proofs.CommandLine.Outputs
import StackFront.Proofs.Drawing.Clusters
import StackFront.Proofs.Session.Characters

/-!
# Labels of methods

The line of a method is escaped before it is put into a label, so that it is read back from between
two quotes whatever it holds. But a label is written as any other value is, and writers of drawings
escape the double quotes of values once more: the backslash of the first escape is then escaped
itself, and the quote behind it ends the label. So just the labels of methods without a double quote
are read back from a drawing.
-/
namespace StackFront

namespace Dot

variable {s s' t t' : List Char}

/-- What a text between quotes says: it has no double quote of its own, and each backslash escapes
the character behind it. -/
inductive Says : (text said : List Char) → Prop
  | nil : Says [] []
  | plain {c : Char} {t s : List Char} (hslash : c ≠ '\\') (hquote : c ≠ '\x22') (h : Says t s) :
      Says (c :: t) (c :: s)
  | escaped (c : Char) {t s : List Char} (h : Says t s) : Says ('\\' :: c :: t) (c :: s)

/-- Reads up to the first double quote that is not escaped: what is said before it, and what stands
behind it. There is no answer if the text ends before. -/
def readQuoted : List Char → Option (List Char × List Char)
  | [] => none
  | ['\\'] => none
  | '\\' :: c :: rest => (readQuoted rest).map fun read => (c :: read.1, read.2)
  | c :: rest =>
    if c = '\x22' then some ([], rest)
    else (readQuoted rest).map fun read => (c :: read.1, read.2)

namespace Says

/-- A text is read up to the quote that closes it. -/
theorem readQuoted_eq (h : Says t s) (rest : List Char) :
    readQuoted (t ++ '\x22' :: rest) = some (s, rest) := by
  induction h with
  | nil => simp [readQuoted]
  | plain hslash hquote _ ih => simp [readQuoted, hslash, hquote, ih]
  | escaped c _ ih => simp [readQuoted, ih]

theorem append (h : Says t s) (h' : Says t' s') : Says (t ++ t') (s ++ s') := by
  induction h with
  | nil => exact h'
  | plain hslash hquote _ ih => exact .plain hslash hquote ih
  | escaped c _ ih => exact .escaped c ih

theorem of_plain (h : ∀ c ∈ s, c ≠ '\\' ∧ c ≠ '\x22') : Says s s := by
  induction s with
  | nil => exact .nil
  | cons c s ih =>
    rw [List.forall_mem_cons] at h
    exact .plain h.1.1 h.1.2 (ih h.2)

end Says

/-! ## Escaped texts -/

/-- A text in which every occurrence of a character is replaced. -/
def replace (c : Char) (new s : List Char) : List Char :=
  s.flatMap fun x => if x = c then new else [x]

/-- Escaping is replacing backslashes first and double quotes second. -/
theorem escape_eq_replace (s : List Char) : Drawing.escape s =
    replace '\x22' ['\\', '\x22'] (replace '\\' ['\\', '\\'] s) := by
  rw [replace, replace, List.flatMap_assoc, Drawing.escape]
  congr 1
  funext c
  by_cases hslash : c = '\\'
  · subst hslash
    decide
  · by_cases hquote : c = '\x22' <;> simp [hslash, hquote]

/-- An escaped text says what was escaped. -/
theorem says_escape (s : List Char) : Says (Drawing.escape s) s := by
  induction s with
  | nil => exact .nil
  | cons c s ih =>
    rw [Drawing.escape, List.flatMap_cons]
    by_cases hc : c = '\\' ∨ c = '\x22'
    · rw [if_pos hc]
      exact .escaped c ih
    · rw [if_neg hc]
      rw [not_or] at hc
      exact .plain hc.1 hc.2 ih

/-! ## Values in quotes -/

/-- What stands between the quotes of a quoted value. -/
def inner (s : List Char) : List Char :=
  s.flatMap quotedChar

theorem quoted_eq (s : List Char) : quoted s = '\x22' :: (inner s ++ ['\x22']) := rfl

theorem inner_append (s t : List Char) : inner (s ++ t) = inner s ++ inner t :=
  List.flatMap_append

/-- The text takes one line. -/
def IsOneLine (s : List Char) : Prop :=
  '\n' ∉ s ∧ '\r' ∉ s

/-- Without double quotes and line ends, a value stands between its quotes as it is. -/
theorem inner_eq_self (hquote : '\x22' ∉ s) (hline : IsOneLine s) : inner s = s := by
  have hself : ∀ c ∈ s, quotedChar c = [c] := by
    intro c hc
    rw [quotedChar, if_neg (ne_of_mem_of_not_mem hc hquote),
      if_neg (ne_of_mem_of_not_mem hc hline.1), if_neg (ne_of_mem_of_not_mem hc hline.2)]
  rw [inner, List.flatMap_congr hself, List.flatMap_singleton']

theorem mem_escape {c : Char} (hslash : c ≠ '\\') : c ∈ Drawing.escape s ↔ c ∈ s := by
  rw [Drawing.escape, List.mem_flatMap]
  constructor
  · rintro ⟨x, hx, hc⟩
    split at hc
    · simp only [List.mem_cons, hslash, List.not_mem_nil, or_false, false_or] at hc
      exact hc ▸ hx
    · rw [List.mem_singleton] at hc
      exact hc ▸ hx
  · intro hc
    refine ⟨c, hc, ?_⟩
    split <;> simp

theorem IsOneLine.escape (h : IsOneLine s) : IsOneLine (Drawing.escape s) :=
  ⟨by rw [mem_escape (by decide)]; exact h.1, by rw [mem_escape (by decide)]; exact h.2⟩

theorem escape_append (s t : List Char) :
    Drawing.escape (s ++ t) = Drawing.escape s ++ Drawing.escape t :=
  List.flatMap_append

/-- The first double quote of an escaped text stands behind an escaped backslash once the text is
put in quotes. -/
theorem inner_escape (hquote : '\x22' ∉ s) (hline : IsOneLine s) :
    inner (Drawing.escape (s ++ '\x22' :: t)) =
      Drawing.escape s ++ ['\\', '\\'] ++ '\x22' :: inner (Drawing.escape t) := by
  have hself : inner (Drawing.escape s) = Drawing.escape s :=
    inner_eq_self (by rwa [mem_escape (by decide)]) hline.escape
  have hcons : Drawing.escape ('\x22' :: t) = ['\\', '\x22'] ++ Drawing.escape t := rfl
  have hescaped : inner ['\\', '\x22'] = ['\\', '\\', '\x22'] := by decide
  rw [escape_append, inner_append, hself, hcons, inner_append, hescaped, List.append_assoc]
  rfl

/-! ## Labels -/

/-- A text behind a number. -/
def numbered (index : Nat) (s : List Char) : List Char :=
  Nat.toDigits 10 index ++ ':' :: ' ' :: s

variable {index : Nat}

theorem isDigit_of_mem {c : Char} (hc : c ∈ Nat.toDigits 10 index) : c.isDigit :=
  Nat.isDigit_of_mem_toDigits (by decide) (by decide) hc

theorem not_mem_toDigits {c : Char} (hc : c.isDigit = false) : c ∉ Nat.toDigits 10 index := by
  intro hmem
  rw [isDigit_of_mem hmem] at hc
  cases hc

theorem Says.numbered (h : Says t s) : Says (numbered index t) (numbered index s) := by
  have hdigits : Says (Nat.toDigits 10 index) (Nat.toDigits 10 index) :=
    .of_plain fun c hc => ⟨fun h => not_mem_toDigits (by decide) (h ▸ hc),
      fun h => not_mem_toDigits (by decide) (h ▸ hc)⟩
  exact hdigits.append (.plain (by decide) (by decide) (.plain (by decide) (by decide) h))

theorem inner_numbered : inner (numbered index t) = numbered index (inner t) := by
  have hdigits : inner (Nat.toDigits 10 index) = Nat.toDigits 10 index :=
    inner_eq_self (not_mem_toDigits (by decide))
      ⟨not_mem_toDigits (by decide), not_mem_toDigits (by decide)⟩
  rw [numbered, inner_append, hdigits]
  rfl

theorem exists_numbered (index : Nat) (t : List Char) : ∃ digit rest, digit.isDigit ∧
    ':' ∈ rest ∧ numbered index t = digit :: rest := by
  obtain ⟨digit, digits, hdigits⟩ := List.exists_cons_of_ne_nil
    (Nat.toDigits_ne_nil : Nat.toDigits 10 index ≠ [])
  refine ⟨digit, digits ++ ':' :: ' ' :: t, isDigit_of_mem (hdigits ▸ List.mem_cons_self ..),
    by simp, ?_⟩
  rw [numbered, hdigits, List.cons_append]

theorem isNumber_numbered : isNumber (numbered index t) = false := by
  have hdrop : (numbered index t).dropWhile Char.isDigit = ':' :: ' ' :: t := by
    rw [numbered, List.dropWhile_append_of_pos fun c hc => isDigit_of_mem hc]
    rfl
  rw [isNumber, hdrop]
  rfl

theorem isWord_numbered : isWord (numbered index t) = false := by
  obtain ⟨digit, rest, -, hcolon, hcons⟩ := exists_numbered index t
  rw [hcons, isWord, Bool.and_eq_false_iff, List.all_eq_false]
  exact .inr ⟨':', hcolon, by decide⟩

theorem isEnclosed_numbered {opening closing : Char} (h : opening.isDigit = false) :
    isEnclosed opening closing (numbered index t) = false := by
  obtain ⟨digit, rest, hdigit, -, hcons⟩ := exists_numbered index t
  have hne : digit ≠ opening := by
    rintro rfl
    rw [hdigit] at h
    cases h
  rw [hcons, isEnclosed]
  simp [hne]

/-- A text behind a number and a colon is neither a number nor a word, so it may not stand as it
is. -/
theorem isBare_numbered : isBare (numbered index t) = false := by
  rw [isBare, isNumber_numbered, isWord_numbered, isEnclosed_numbered (by decide),
    isEnclosed_numbered (by decide)]
  exact Bool.and_false _

/-- What is documented of writers of drawings: they put a value that is no identifier in double
quotes, in which double quotes and line ends are escaped and backslashes are not. A value that
begins with a number, a colon and a blank is none. -/
def Quotes (write : List Char → List Char) : Prop :=
  ∀ index s, write (numbered index s) = quoted (numbered index s)

theorem quotes_value : Quotes value := by
  intro index s
  rw [value, isBare_numbered, if_neg Bool.false_ne_true]

/-- The double quote stands for one operation. -/
theorem quote_mem_iff {m : Method} {line : String} (h : m.format = .ok line) :
    '\x22' ∈ line.toList ↔ .opcode .doubleQuote ∈ m.ops := by
  have hmap := Method.format_eq_ok_iff.mp h
  have hquote : Op.ofChar? '\x22' = some (.opcode .doubleQuote) := by decide
  constructor
  · intro hmem
    have hsome : some (.opcode .doubleQuote) ∈ m.ops.map some :=
      hmap ▸ hquote ▸ List.mem_map_of_mem hmem
    simpa using hsome
  · intro hmem
    have hsome : some (.opcode .doubleQuote) ∈ line.toList.map Op.ofChar? :=
      hmap ▸ List.mem_map_of_mem hmem
    obtain ⟨c, hc, hop⟩ := List.mem_map.mp hsome
    have hencode := Op.encode_of_ofChar? hop
    rw [Op.encode_of_ofChar? hquote, Except.ok.injEq] at hencode
    exact hencode ▸ hc

theorem isOneLine_of_format {m : Method} {line : String} (h : m.format = .ok line) :
    IsOneLine line.toList := by
  have halphabet : ∀ c ∈ line.toList, c ∈ Op.alphabet := fun c hc =>
    Op.mem_alphabet_of_map (Method.format_eq_ok_iff.mp h) hc
  exact ⟨fun hmem => absurd (halphabet _ hmem) (by decide),
    fun hmem => absurd (halphabet _ hmem) (by decide)⟩

/-- The label of the method of a number: between two quotes it says the number and the line, but
this is how it is written only if the line has no double quote; if it has one, the value that is
written ends before its last quote. -/
structure IsLabel (write : List Char → List Char) (m : Method) (index : Nat)
    (line label : List Char) : Prop where
  between : Says label (numbered index line)
  written : ∃ body, write label = '\x22' :: (body ++ ['\x22']) ∧
    (.opcode .doubleQuote ∉ m.ops → Says body (numbered index line)) ∧
    (.opcode .doubleQuote ∈ m.ops → ∃ said left, ∀ rest,
      readQuoted (body ++ '\x22' :: rest) = some (said, left ++ '\x22' :: rest))

theorem isLabel_of_format {write : List Char → List Char} (hwrite : Quotes write) {m : Method}
    {line : String} (h : m.format = .ok line) (index : Nat) :
    IsLabel write m index line.toList (numbered index (Drawing.escape line.toList)) := by
  have honeLine := isOneLine_of_format h
  refine ⟨(says_escape _).numbered, inner (numbered index (Drawing.escape line.toList)),
    by rw [hwrite, quoted_eq], fun hquote => ?_, fun hquote => ?_⟩
  · rw [← quote_mem_iff h] at hquote
    rw [inner_numbered, inner_eq_self (by rwa [mem_escape (by decide)]) honeLine.escape]
    exact (says_escape _).numbered
  · rw [← quote_mem_iff h] at hquote
    obtain ⟨before, after, hline, hbefore⟩ := List.eq_append_cons_of_mem hquote
    have hbeforeLine : IsOneLine before := by
      rw [hline] at honeLine
      exact ⟨fun hmem => honeLine.1 (List.mem_append_left _ hmem),
        fun hmem => honeLine.2 (List.mem_append_left _ hmem)⟩
    -- The first quote of the line is bare behind what is then an escaped backslash.
    have hsays : Says (numbered index (Drawing.escape before ++ ['\\', '\\']))
        (numbered index (before ++ ['\\'])) :=
      ((says_escape before).append (.escaped '\\' .nil)).numbered
    have hbody : inner (numbered index (Drawing.escape line.toList)) =
        numbered index (Drawing.escape before ++ ['\\', '\\']) ++
          '\x22' :: inner (Drawing.escape after) := by
      rw [inner_numbered, hline, inner_escape hbefore hbeforeLine]
      simp only [numbered, List.append_assoc, List.cons_append]
    refine ⟨numbered index (before ++ ['\\']), inner (Drawing.escape after), fun rest => ?_⟩
    rw [hbody, List.append_assoc, List.cons_append]
    exact hsays.readQuoted_eq _

end Dot

namespace Drawing

variable {n : Node} {c : Cluster} {m : Method} {i : Nat}

theorem lookup_label (name : Name) (index : Nat) (line : String) :
    (methodBox name index line).attributes.lookup "label" =
      some (String.ofList (Dot.numbered index (escape line.toList))) := by
  have hlabel : (methodBox name index line).attributes.lookup "label" =
      some (Nat.repr index ++ ": " ++ String.ofList (escape line.toList)) := rfl
  rw [hlabel, Option.some.injEq, ← String.toList_inj]
  simp [Nat.repr, Dot.numbered]

/-- The box of a method in the cluster of its program. -/
theorem Depicts.exists_methodBox (h : Depicts c n) (hm : n.program.methods[i]? = some m) :
    ∃ line, m.format = .ok line ∧ methodBox n.name i line ∈ c.boxes := by
  obtain ⟨lines, hformat, hboxes⟩ := h.boxes
  have hline := congrArg (·[i]?) hformat
  simp only [List.getElem?_map, hm, Option.map_some] at hline
  obtain ⟨line, hget, hline⟩ := Option.map_eq_some_iff.mp hline.symm
  refine ⟨line, hline.symm, hboxes ▸ List.mem_cons_of_mem _ ?_⟩
  rw [List.mem_mapIdx]
  obtain ⟨hi, rfl⟩ := List.getElem?_eq_some_iff.mp hget
  exact ⟨i, hi, rfl⟩

/-- Escaping a text, which is replacing its backslashes and then its double quotes, gives a text
that says it between any two quotes. In a drawing, each method has a box, the label of which says
the number and the line of the method if it is put between quotes. It is read back as such from what
is written for it, by any writer that quotes values as is documented, if the method has no double
quote; the label of any other method is closed early. -/
theorem draw_labels (s : List Char) (g : Graph) {write : List Char → List Char}
    (hwrite : Dot.Quotes write) :
    (escape s = Dot.replace '\x22' ['\\', '\x22'] (Dot.replace '\\' ['\\', '\\'] s) ∧
      Dot.Says (escape s) s ∧
      ∀ rest, Dot.readQuoted (escape s ++ '\x22' :: rest) = some (s, rest)) ∧
    ∀ d, ({} : Tools).draw g = .ok d → ∀ n ∈ g.nodes, ∀ i m, n.program.methods[i]? = some m →
      ∃ c ∈ d.clusters, Depicts c n ∧ ∃ line, m.format = .ok line ∧
        ∃ b ∈ c.boxes, b.id = methodBoxId n.name i ∧
          ∃ label, b.attributes.lookup "label" = some label ∧
            Dot.IsLabel write m i line.toList label.toList := by
  refine ⟨⟨Dot.escape_eq_replace s, Dot.says_escape s, (Dot.says_escape s).readQuoted_eq⟩,
    fun d hd n hn i m hm => ?_⟩
  obtain ⟨c, hc, hdepicts⟩ := (shows_of_ofGraph (Tools.draw_eq_ok_iff.mp hd)).exists_cluster hn
  obtain ⟨line, hline, hbox⟩ := hdepicts.exists_methodBox hm
  refine ⟨c, hc, hdepicts, line, hline, _, hbox, rfl, _, lookup_label .., ?_⟩
  rw [String.toList_ofList]
  exact Dot.isLabel_of_format hwrite hline i

open Session

/-- A program that refers to none has a drawing of its own. -/
theorem exists_single {text : String} {p : Program}
    (hp : (ofSources [("a", text)]).content "a" = .ok p) (hnone : Walk.pendingAfter "a" p [] = []) :
    ∃ g d n, ((ofSources [("a", text)]).resolve "a").1 = .ok g ∧
      ({} : Tools).draw g = .ok d ∧ n ∈ g.nodes ∧ n.name = "a" ∧ n.program = p := by
  have hroot : Path.canonical "a" none = "a" := by decide
  have hex : Explores (ofSources [("a", text)]).content [] [Path.canonical "a" none]
      [("a", p)] none := by
    rw [hroot]
    refine .find (by simp) hp ?_
    rw [hnone]
    exact .done _
  obtain ⟨g, hg, -, hnodes, -⟩ := resolve_of_explores hex
  obtain ⟨n, hn, hcontent⟩ := List.map_eq_singleton_iff.mp hnodes
  obtain ⟨hname, hprogram⟩ := Prod.mk.inj hcontent
  have hparsed : (ofSources [("a", text)]).OnlyParsed := onlyParsed_of_fresh rfl
  obtain ⟨d, hd⟩ := exists_ofGraph (hparsed.graph hg)
  exact ⟨g, d, n, hg, Tools.draw_eq_ok_iff.mpr hd, hn ▸ List.mem_singleton_self n, hname, hprogram⟩

/-- A method that begins with a backslash: its label is read back. -/
theorem draw_labels_backslash :
    let sources : Sources := [("a", "\\m\n")]
    ∃ g d, ((ofSources sources).resolve "a").1 = .ok g ∧ ({} : Tools).draw g = .ok d ∧
      Dot.Quotes Dot.value ∧ ∃ c ∈ d.clusters, ∃ b ∈ c.boxes, b.id = methodBoxId "a" 0 ∧
        ∃ label body, b.attributes.lookup "label" = some label ∧
          Dot.value label.toList = '\x22' :: (body ++ ['\x22']) ∧
          Dot.Says body "0: \\m".toList := by
  intro sources
  let m : Method := ⟨[.opcode .repeatBlock, .opcode .callMethod], by simp⟩
  have hp : (ofSources sources).content "a" = .ok ⟨[m], [], []⟩ := rfl
  obtain ⟨g, d, n, hg, hd, hn, hname, hprogram⟩ := exists_single hp rfl
  obtain ⟨c, hc, -, line, hline, b, hb, hid, label, hlabel, hwritten⟩ :=
    (draw_labels [] g Dot.quotes_value).2 d hd n hn 0 m (by rw [hprogram]; rfl)
  obtain ⟨body, hbody, hsays, -⟩ := hwritten.written
  have hwritten : line = "\\m" := (Except.ok.inj hline).symm
  rw [hname] at hid
  rw [hwritten] at hsays
  exact ⟨g, d, hg, hd, Dot.quotes_value, c, hc, b, hb, hid, label, body, hlabel, hbody,
    hsays (by decide)⟩

/-- The box of the method of a single double quote. However its label is written by a writer that
quotes values as is documented, it ends before the last quote of the value, and the quote that is
left over opens another text. -/
theorem draw_labels_quote :
    let sources : Sources := [("a", "\x22\n")]
    ∃ g d, ((ofSources sources).resolve "a").1 = .ok g ∧ ({} : Tools).draw g = .ok d ∧
      (∃ c ∈ d.clusters, methodBox "a" 0 "\x22" ∈ c.boxes) ∧
      (methodBox "a" 0 "\x22").attributes.lookup "label" = some "0: \\\x22" ∧
      (∀ write, Dot.Quotes write → write "0: \\\x22".toList = "\x220: \\\\\x22\x22".toList) ∧
      ∀ rest, Dot.readQuoted ("0: \\\\\x22\x22".toList ++ rest) =
        some ("0: \\".toList, '\x22' :: rest) := by
  intro sources
  let m : Method := ⟨[.opcode .doubleQuote], by simp⟩
  have hp : (ofSources sources).content "a" = .ok ⟨[m], [], []⟩ := rfl
  obtain ⟨g, d, n, hg, hd, hn, hname, hprogram⟩ := exists_single hp rfl
  obtain ⟨c, hc, hdepicts⟩ := (shows_of_ofGraph (Tools.draw_eq_ok_iff.mp hd)).exists_cluster hn
  obtain ⟨line, hline, hbox⟩ :=
    hdepicts.exists_methodBox (i := 0) (m := m) (by rw [hprogram]; rfl)
  have hwritten : line = "\x22" := (Except.ok.inj hline).symm
  rw [hname, hwritten] at hbox
  refine ⟨g, d, hg, hd, ⟨c, hc, hbox⟩, by decide, fun write hwrite => ?_, fun rest => ?_⟩
  · exact hwrite 0 ['\\', '\x22']
  · simp [Dot.readQuoted]

end Drawing

end StackFront
