import StackFront.Program.Reader

/-!
# Errors of the grammar

A text is read in the same way whatever file it is said to come from; the file only stands in the
errors.
-/
namespace StackFront

namespace Program

variable {p : Program} {kind : LinkKind} {line : List Char} {number : Int}

theorem readTarget_located (file file' : Option String) :
    readTarget kind line file' number =
      (readTarget kind line file number).mapError (·.located file') := by
  unfold readTarget
  by_cases hempty : line.drop 3 = []
  · simp only [hempty, if_true]
    rfl
  · simp only [hempty, if_false]
    cases strayTargetChar? targetColumn (line.drop 3) <;> rfl

theorem addMethod_located (file file' : Option String) :
    addMethod p file' number line =
      (addMethod p file number line).mapError (·.located file') := by
  unfold addMethod
  split
  · rfl
  · split <;> rfl

theorem addLine_located (file file' : Option String) :
    addLine file' p number line = (addLine file p number line).mapError (·.located file') := by
  unfold addLine
  split
  · split
    · rfl
    · exact addMethod_located file file'
  next kind _ =>
    split
    · rfl
    · split
      · rfl
      · rw [readTarget_located file file']
        cases readTarget kind line file number <;> rfl

theorem addLines_located (file file' : Option String) (lines : List (List Char)) :
    addLines file' p number lines =
      (addLines file p number lines).mapError (·.located file') := by
  induction lines generalizing p number with
  | nil => rfl
  | cons line lines ih =>
    rw [addLines, addLines, addLine_located file file']
    cases addLine file p number line with
    | error e => rfl
    | ok q => exact ih

/-- The file that a text is read for makes no difference but for the file that errors show. -/
theorem parse_located (text : String) (file file' : Option String) :
    parse text file' = (parse text file).mapError (·.located file') := by
  rw [parse, parse, addLines_located file file']
  cases addLines file {} 1 (sourceLines text.toList) with
  | error e => rfl
  | ok q =>
    show (if q.methods = [] then _ else _) = Except.mapError _ (if q.methods = [] then _ else _)
    split <;> rfl

/-- An error shows the file that the text was read for. -/
theorem file_of_parse {text : String} {file : Option String} {e : ParseError}
    (h : parse text file = .error e) : e.file = file := by
  have hsame := parse_located text file file
  rw [h] at hsame
  exact congrArg ParseError.file (Except.error.inj hsame)

end Program

end StackFront
