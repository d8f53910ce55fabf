import StackFront.Proofs.Program.Errors
import StackFront.Proofs.Program.Layout

/-!
# Refused texts

A text is refused for the first of its lines that cannot be added. The lines before it can be read
on their own, and the lines behind it make no difference. Where the error tells a column, the
character in that column is the first one of the line that must not stand where it stands.
-/
namespace StackFront

namespace Op

/-- Reading stops at the first character that stands for no operation. -/
theorem exists_of_scan {column : Nat} {text : List Char} {stop : Nat × Char}
    (h : (scan column text).2 = some stop) :
    ∃ before after, text = before ++ stop.2 :: after ∧ stop.1 = column + before.length ∧
      (∀ c ∈ before, c ∈ alphabet) ∧ stop.2 ∉ alphabet := by
  induction text generalizing column with
  | nil => cases h
  | cons c rest ih =>
    rw [scan] at h
    cases hop : ofChar? c with
    | none =>
      rw [hop] at h
      cases h
      refine ⟨[], rest, rfl, rfl, by simp, fun hc => ?_⟩
      obtain ⟨op, hop'⟩ := mem_alphabet.mp hc
      rw [hop] at hop'
      cases hop'
    | some op =>
      rw [hop] at h
      obtain ⟨before, after, rfl, hcolumn, hbefore, hstop⟩ := ih h
      refine ⟨c :: before, after, rfl, ?_, ?_, hstop⟩
      · rw [hcolumn, List.length_cons]
        omega
      · exact List.forall_mem_cons.mpr ⟨mem_alphabet.mpr ⟨op, hop⟩, hbefore⟩

end Op

namespace Program

variable {p q : Program} {file : Option String} {number : Int} {line : List Char}
  {lines : List (List Char)} {e : ParseError}

/-- The character that is found is the first one that may not stand in a target. -/
theorem exists_of_strayTargetChar? {column : Nat} {target : List Char} {stray : Nat × Char}
    (h : strayTargetChar? column target = some stray) :
    ∃ before after, target = before ++ stray.2 :: after ∧ stray.1 = column + before.length ∧
      (∀ c ∈ before, isTargetChar c) ∧ ¬ isTargetChar stray.2 := by
  induction target generalizing column with
  | nil => cases h
  | cons c rest ih =>
    rw [strayTargetChar?] at h
    by_cases hc : isTargetChar c = true
    · rw [if_pos hc] at h
      obtain ⟨before, after, rfl, hcolumn, hbefore, hstray⟩ := ih h
      refine ⟨c :: before, after, rfl, ?_, List.forall_mem_cons.mpr ⟨hc, hbefore⟩, hstray⟩
      rw [hcolumn, List.length_cons]
      omega
    · rw [if_neg hc] at h
      cases h
      exact ⟨[], rest, rfl, rfl, by simp, hc⟩

/-! ## The line at fault -/

/-- What is wrong in a column of a line, the first column being number one: the character there is
the one that the reason names, and it is the first one outside of the alphabet on a method line, or
the first one behind marker and blank of a declaration that may not stand in a target. -/
inductive StrayAt (chars : List Char) (column : Nat) : Reason → Prop
  | method {c : Char} (hline : ∀ kind, ¬ Opens kind chars) (hpos : 1 ≤ column)
      (hc : chars[column - 1]? = some c) (hstray : c ∉ Op.alphabet)
      (hfirst : ∀ d ∈ chars.take (column - 1), d ∈ Op.alphabet) :
      StrayAt chars column (.unrecognized c.toString)
  | target {kind : LinkKind} {target : List Char} {c : Char} (hline : chars = declare kind target)
      (hpos : 4 ≤ column) (hc : chars[column - 1]? = some c) (hstray : ¬ isTargetChar c)
      (hfirst : ∀ d ∈ (chars.take (column - 1)).drop 3, isTargetChar d) :
      StrayAt chars column (.targetCharacter c)

/-- The error of a line tells its number, and where it tells a column there is a stray character. -/
structure Refuses (line : List Char) (number : Int) (e : ParseError) : Prop where
  number : e.line = some number
  column : ∀ column, e.column = some column → ∃ k : Nat, column = k ∧ StrayAt line k e.reason

theorem refuses_whole (reason : Reason) :
    Refuses line number { reason, file, line := some number } :=
  ⟨rfl, nofun⟩

theorem refuses_of_addMethod (hd : declaration? line = none)
    (h : addMethod p file number line = .error e) : Refuses line number e := by
  rw [addMethod, Op.tokenize] at h
  cases hstop : (Op.scan 1 line).2 with
  | none =>
    simp only [hstop, Option.map_none] at h
    split at h
    · cases h
    · cases h
      exact refuses_whole _
  | some stop =>
    simp only [hstop, Option.map_some] at h
    cases h
    obtain ⟨before, after, hline, hcolumn, hbefore, hstray⟩ := Op.exists_of_scan hstop
    refine ⟨rfl, fun column hc => ⟨stop.1, ?_, ?_⟩⟩
    · cases hc
      rfl
    · have hplace : stop.1 - 1 = before.length := by omega
      refine .method (declaration?_eq_none_iff.mp hd) (by omega) ?_ hstray ?_
      · rw [hplace, hline]
        simp
      · rw [hplace, hline, List.take_left]
        exact hbefore

theorem refuses_of_readTarget {kind : LinkKind} (hd : declaration? line = some kind)
    (h : readTarget kind line file number = .error e) : Refuses line number e := by
  rw [readTarget] at h
  rcases declaration?_eq_some_iff.mp hd with rfl | ⟨target, rfl⟩
  · have hnil : kind.marker.drop 3 = [] := by cases kind <;> rfl
    simp only [hnil, if_true] at h
    cases h
    exact refuses_whole _
  · rw [drop_declare] at h
    by_cases hempty : target = []
    · simp only [hempty, if_true] at h
      cases h
      exact refuses_whole _
    · simp only [hempty, if_false] at h
      cases hstray : strayTargetChar? targetColumn target with
      | none =>
        rw [hstray] at h
        cases h
      | some stray =>
        rw [hstray] at h
        cases h
        obtain ⟨before, after, htarget, hplace, hbefore, hc⟩ := exists_of_strayTargetChar? hstray
        refine ⟨rfl, fun column hcolumn => ⟨stray.1, ?_, ?_⟩⟩
        · cases hcolumn
          rfl
        · rw [targetColumn] at hplace
          have hlength : stray.1 - 1 = (kind.marker ++ ' ' :: before).length := by
            cases kind <;> simp [LinkKind.marker] <;> omega
          have hline : declare kind target =
              (kind.marker ++ ' ' :: before) ++ stray.2 :: after := by
            rw [declare, htarget, List.append_assoc, List.cons_append]
          refine .target rfl (by omega) ?_ hc ?_
          · rw [hlength, hline]
            simp
          · rw [hlength, hline, List.take_left, ← declare, drop_declare]
            exact hbefore

theorem refuses_of_addLine (h : addLine file p number line = .error e) :
    Refuses line number e := by
  cases hd : declaration? line with
  | none =>
    simp only [addLine, hd] at h
    split at h
    · cases h
      exact refuses_whole _
    · exact refuses_of_addMethod hd h
  | some kind =>
    simp only [addLine, hd] at h
    split at h
    · cases h
      exact refuses_whole _
    · split at h
      · cases h
        exact refuses_whole _
      · cases hr : readTarget kind line file number with
        | ok target =>
          rw [hr] at h
          cases h
        | error e' =>
          rw [hr] at h
          cases h
          exact refuses_of_readTarget hd hr

/-! ## The lines around it -/

theorem addLines_append {first : List (List Char)} (h : addLines file p number first = .ok q)
    (rest : List (List Char)) :
    addLines file p number (first ++ rest) = addLines file q (number + first.length) rest := by
  induction first generalizing p number with
  | nil =>
    cases h
    simp
  | cons line first ih =>
    rw [addLines] at h
    cases hline : addLine file p number line with
    | error e => simp [hline] at h
    | ok p' =>
      rw [hline] at h
      have hnumber : number + (line :: first).length = number + 1 + first.length := by
        rw [List.length_cons]
        omega
      rw [List.cons_append, addLines_cons hline, ih h, hnumber]

/-- Lines are refused for the first one of them that cannot be added. -/
theorem exists_refused (h : addLines file p number lines = .error e) :
    ∃ before line after q, lines = before ++ line :: after ∧
      addLines file p number before = .ok q ∧
      addLine file q (number + before.length) line = .error e := by
  induction lines generalizing p number with
  | nil => cases h
  | cons line lines ih =>
    rw [addLines] at h
    cases hline : addLine file p number line with
    | error e' =>
      rw [hline] at h
      cases h
      exact ⟨[], line, lines, p, rfl, rfl, by simpa using hline⟩
    | ok p' =>
      rw [hline] at h
      obtain ⟨before, refused, after, q, rfl, hbefore, hrefused⟩ := ih h
      refine ⟨line :: before, refused, after, q, rfl, ?_, ?_⟩
      · rw [addLines_cons hline, hbefore]
      · rw [List.length_cons]
        have hnumber : number + (before.length + 1 : Nat) = number + 1 + before.length := by omega
        rw [hnumber, hrefused]

/-- A line that can be added is not empty, and afterwards there is a method. -/
theorem Adds.ne_nil (h : Adds p line q) : line ≠ [] ∧ q.methods ≠ [] := by
  cases h with
  | method hline _ _ => exact ⟨hline.ne_nil, by simp⟩
  | @target kind _ _ hmethods _ => cases kind <;> exact ⟨by simp [declare], hmethods⟩

theorem ne_nil_of_addLines (h : addLines file p number lines = .ok q) :
    (∀ line ∈ lines, line ≠ []) ∧ (lines ≠ [] → q.methods ≠ []) := by
  induction lines generalizing p number with
  | nil => exact ⟨by simp, absurd rfl⟩
  | cons line lines ih =>
    rw [addLines] at h
    cases hline : addLine file p number line with
    | error e => simp [hline] at h
    | ok p' =>
      rw [hline] at h
      obtain ⟨hne, hmethods⟩ := (adds_of_addLine hline).ne_nil
      obtain ⟨hall, hlast⟩ := ih h
      refine ⟨List.forall_mem_cons.mpr ⟨hne, hall⟩, fun _ => ?_⟩
      by_cases hlines : lines = []
      · subst hlines
        cases h
        exact hmethods
      · exact hlast hlines

/-! ## The text -/

/-- The lines of a text without the empty ones at its end. -/
def textLines (text : String) : List (List Char) :=
  (text.toList.splitOn '\n').rdropWhile (· = [])

theorem textLines_eq (text : String) : textLines text = sourceLines text.toList :=
  (sourceLines_eq text.toList).symm

theorem not_mem_of_mem_textLines {text : String} (h : line ∈ textLines text) : '\n' ∉ line := by
  have hmem : line ∈ text.toList.splitOn '\n' := (List.rdropWhile_prefix _ _).subset h
  rw [← Text.splitAt_eq_splitOn] at hmem
  exact Text.not_mem_of_mem_splitAt hmem

/-- Lines that are not empty are those of the text that they are joined to. -/
theorem textLines_intercalate (hne : lines ≠ []) (hlines : ∀ line ∈ lines, line ≠ [])
    (hfeed : ∀ line ∈ lines, '\n' ∉ line) :
    textLines (String.ofList (List.intercalate ['\n'] lines)) = lines := by
  rw [textLines, String.toList_ofList, List.splitOn_intercalate _ hfeed hne,
    List.rdropWhile_eq_self_iff]
  intro hne
  simpa using hlines _ (List.getLast_mem hne)

/-- A text that has a line is refused with the error of its lines. -/
theorem parse_eq_error_iff {text : String} (hne : textLines text ≠ []) :
    parse text file = .error e ↔ addLines file {} 1 (textLines text) = .error e := by
  rw [parse, ← textLines_eq]
  cases hadd : addLines file {} 1 (textLines text) with
  | error e' => rfl
  | ok q => simp [(ne_nil_of_addLines hadd).2 hne]

/-- Lines that can be added make a text that can be read. -/
theorem parse_intercalate (hne : lines ≠ []) (hfeed : ∀ line ∈ lines, '\n' ∉ line)
    (h : addLines file {} 1 lines = .ok q) :
    parse (String.ofList (List.intercalate ['\n'] lines)) file = .ok q := by
  obtain ⟨hlines, hmethods⟩ := ne_nil_of_addLines h
  rw [parse, ← textLines_eq, textLines_intercalate hne hlines hfeed, h]
  exact if_neg (hmethods hne)

/-- What the error of a text tells: it is about line `n`, and so the same for every text that begins
with the same `n` lines, while the lines before it make a text that can be read. -/
structure FirstRefusal (text : String) (file : Option String) (e : ParseError) (n : Nat) :
    Prop where
  number : e.line = some (n : Int)
  pos : 1 ≤ n
  le : n ≤ (textLines text).length
  before : 1 < n →
    ∃ p, parse (String.ofList (List.intercalate ['\n'] ((textLines text).take (n - 1)))) file =
      .ok p
  only : ∀ text' file', (textLines text).take n <+: textLines text' →
    parse text' file' = .error (e.located file')
  column : ∀ column, e.column = some column →
    ∃ (line : List Char) (k : Nat), (textLines text)[n - 1]? = some line ∧ column = k ∧
      StrayAt line k e.reason

/-- A text with a line that is not empty is refused for the first line that cannot be added. -/
theorem exists_firstRefusal {text : String} (h : parse text file = .error e)
    (hline : ∃ line ∈ text.toList.splitOn '\n', line ≠ []) :
    ∃ n, FirstRefusal text file e n := by
  have hne : textLines text ≠ [] := by
    obtain ⟨line, hmem, hline⟩ := hline
    intro hnil
    exact hline (by simpa using List.rdropWhile_eq_nil_iff.mp hnil line hmem)
  obtain ⟨before, line, after, q, hlines, hbefore, hrefused⟩ :=
    exists_refused ((parse_eq_error_iff hne).mp h)
  have hrefuses := refuses_of_addLine hrefused
  have hplace : (textLines text)[before.length]? = some line := by rw [hlines]; simp
  have htake : (textLines text).take (before.length + 1) = before ++ [line] := by
    rw [hlines, List.append_cons, List.take_left' (by simp)]
  refine ⟨before.length + 1, ?_, by omega, ?_, fun hpos => ⟨q, ?_⟩,
    fun text' file' hprefix => ?_, fun column hcolumn => ?_⟩
  · rw [hrefuses.number]
    simp [Int.add_comm]
  · rw [hlines]
    simp
  · rw [Nat.add_sub_cancel, hlines, List.take_left]
    refine parse_intercalate (List.ne_nil_of_length_pos (by omega)) (fun line hmem => ?_) hbefore
    exact not_mem_of_mem_textLines (hlines ▸ List.mem_append_left _ hmem)
  · -- the other text has the line at fault behind the same lines
    obtain ⟨rest, hrest⟩ := htake ▸ hprefix
    have hsame : parse text' file = .error e := by
      rw [parse_eq_error_iff (by simp [← hrest]), ← hrest, List.append_assoc,
        addLines_append hbefore, List.singleton_append, addLines, hrefused]
    rw [parse_located text' file file', hsame]
    rfl
  · obtain ⟨k, hk, hstray⟩ := hrefuses.column column hcolumn
    exact ⟨line, k, hplace, hk, hstray⟩

/-- A blank in the name of a used file, with more that is wrong behind it. -/
theorem exists_firstRefusal_blank :
    let text := "'rd3*Z\nm\n;e base.vt\n;u li b.vt\n\n;e\n"
    let e : ParseError :=
      { reason := .targetCharacter ' ', file := some "main.vt", line := some 4, column := some 6 }
    parse text (some "main.vt") = .error e ∧
      (∃ line ∈ text.toList.splitOn '\n', line ≠ []) ∧ FirstRefusal text (some "main.vt") e 4 := by
  intro text e
  have hparse : parse text (some "main.vt") = .error e := by decide
  have hline : ∃ line ∈ text.toList.splitOn '\n', line ≠ [] :=
    ⟨"m".toList, by decide, by decide⟩
  obtain ⟨n, hn⟩ := exists_firstRefusal hparse hline
  have hnumber : (4 : Int) = n := Option.some.inj hn.number
  obtain rfl : n = 4 := by omega
  exact ⟨hparse, hline, hn⟩

end Program

end StackFront
