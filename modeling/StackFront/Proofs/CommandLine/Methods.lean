import StackFront.Drawing.Dot
import StackFront.Proofs.CommandLine.Arguments
import StackFront.Proofs.CommandLine.Stages

/-!
# Runs that ask for a method

A run that is given a source and the index of a method ends in one of two ways. If all that the
source refers to can be read and its program has the method, then the run reports on the method,
with a line for each of its operations. Otherwise it prints nothing but the first fault that was
met, as an error. The numeral of the index must not be too long to be read.
-/
namespace StackFront.CommandLine

/-- The value of an operation as a report shows it. -/
def shownValue : Op → String
  | .opcode _ => ""
  | .literal n => " " ++ toString n.val

/-- The line of an operation at its place, with what is noted besides its category. -/
def opLine (place : Nat) (op : Op) (notes : Notes) : String :=
  s!"  {wide place} {op.name}{shownValue op} [{op.category.name}]" ++ noteText notes

/-- The text is a report on a method: it tells the root, the number of programs and the index, and
then has a line for each operation, in their order. -/
def Reports (root : Name) (count : Nat) (index : Int) (ops : List Op) (text : String) : Prop :=
  ∃ ls : List String, ls.length = ops.length ∧
    (∀ k (op : Op), ops[k]? = some op → ∃ notes, ls[k]? = some (opLine k op notes)) ∧
    text = lines ([s!"Root: {root} ({count} programs)", "",
      s!"Method {index} ({ops.length} instructions):"] ++ ls)

/-- What fails first when the method of a source is asked for. -/
inductive FirstFault (s : Session) (source : String) (index : Int) : Fault → Prop
  | unresolved {f : Fault} (h : (s.resolve source).1 = .error f) : FirstFault s source index f
  | missing {g : Graph} {loaded : Loaded} (hg : (s.resolve source).1 = .ok g)
      (hroot : g.get? g.root = some loaded)
      (hindex : ¬ (0 ≤ index ∧ index < loaded.program.methods.length)) :
      FirstFault s source index
        (MethodIndexError.mk (some g.root) index loaded.program.methods.length)

/-- How a run ends that asks for the method of a source. -/
inductive EndsWithMethod (tree : FileTree) (source : String) (index : Int) : Outcome → Prop
  | reported {g : Graph} {loaded : Loaded} {m : Method} {text : String}
      (hg : ((newSession tree).resolve source).1 = .ok g) (hroot : g.get? g.root = some loaded)
      (hm : loaded.program.method? index = some m)
      (htext : Reports g.root g.names.length index m.ops text) :
      EndsWithMethod tree source index ⟨.exit 0, text, "", tree⟩
  | failed {f : Fault} (h : FirstFault (newSession tree) source index f) :
      EndsWithMethod tree source index ⟨.exit 1, "", faultLine f, tree⟩

variable {g : Graph} {l : Listing} {m : Method} {i : Instruction} {op : Op} {place : Nat}
  {source : String} {n : Int} {tree : FileTree} {tools : Toolbox} {clock : String}

/-- The line of an instruction is that of the operation that it presents. -/
theorem instructionLine_of_presents (h : i.Presents place op) :
    instructionLine i = opLine place op i.notes := by
  have hname : i.name = op.name := by
    rw [Instruction.name, h.action]
    cases op <;> rfl
  have hvalue : (i.value?.map fun v => " " ++ v.spliced).getD "" = shownValue op := by
    rw [Instruction.value?, h.action]
    cases op with
    | opcode op => rfl
    | literal n => rfl
  rw [instructionLine, hname, hvalue, h.position, h.category]
  rfl

theorem reports_methodReport (index : Int) (hlength : l.instructions.length = m.ops.length)
    (hpresents : ∀ k (op : Op) (i : Instruction), m.ops[k]? = some op →
      l.instructions[k]? = some i → i.Presents k op) :
    Reports g.root g.names.length index m.ops (methodReport g index l) := by
  refine ⟨l.instructions.map instructionLine, by rw [List.length_map, hlength], ?_, ?_⟩
  · intro k op hop
    obtain ⟨hk, -⟩ := List.getElem?_eq_some_iff.mp hop
    obtain ⟨i, hi⟩ : ∃ i, l.instructions[k]? = some i :=
      ⟨_, List.getElem?_eq_getElem (hlength ▸ hk)⟩
    refine ⟨i.notes, ?_⟩
    rw [List.getElem?_map, hi, Option.map_some,
      instructionLine_of_presents (hpresents k op i hop hi)]
  · rw [methodReport, hlength, Graph.names, List.length_map]
    rfl

/-- How the method of a source is asked for. -/
theorem run_eq (hne : source ≠ "") (hdash : source.toList.head? ≠ some '-')
    (hfew : (Nat.toDigits 10 n.natAbs).length ≤ Text.maxDigits) (tools : Toolbox)
    (clock : String) (tree : FileTree) :
    run tools clock tree [source, "--method", toString n] =
      match (prepare (newSession tree) { source, method := some n }).1 with
      | .error f => failed tree "" f
      | .ok (g, index, l) => ⟨.exit 0, methodReport g index l, "", tree⟩ := by
  have hhash : ¬ ("" : String) ≠ "" := fun h => h rfl
  rw [run, parse_method hdash, if_pos hfew]
  simp only [runOptions, if_neg hhash, if_neg hne, runSource]
  rcases prepare (newSession tree) { source, method := some n } with ⟨f | ⟨g, index, l⟩, s⟩
  · rfl
  · rfl

theorem run_endsWithMethod (hne : source ≠ "") (hdash : source.toList.head? ≠ some '-')
    (hfew : (Nat.toDigits 10 n.natAbs).length ≤ Text.maxDigits) (tools : Toolbox)
    (clock : String) (tree : FileTree) :
    EndsWithMethod tree source n (run tools clock tree [source, "--method", toString n]) := by
  have hprepares := prepares tree { source, method := some n }
  rw [run_eq hne hdash hfew]
  generalize (prepare (newSession tree) { source, method := some n }).1 = result at hprepares ⊢
  cases hprepares with
  | unresolved h =>
    have hreported := isReported_of_isExpected (isExpected_resolve h)
    simp only [failed_of_isReported hreported, String.empty_append]
    exact .failed (.unresolved h)
  | unnumbered _ hmethod => cases hmethod
  | missing hg hmethod h =>
    cases hmethod
    cases h with
    | missing hroot hindex =>
      simp only [failed_of_isReported (isReported_methodIndex _), String.empty_append]
      exact .failed (.missing hg hroot hindex)
  | listed hg hmethod h =>
    cases hmethod
    cases h with
    | listed hroot hm hlength hpresents =>
      exact .reported hg hroot hm (reports_methodReport n hlength hpresents)

/-- Where something fails, there is no method. -/
theorem FirstFault.not_hasMethod {s : Session} {f : Fault} (h : FirstFault s source n f) :
    ¬ ∃ g loaded, (s.resolve source).1 = .ok g ∧ g.get? g.root = some loaded ∧ 0 ≤ n ∧
      n < loaded.program.methods.length := by
  rintro ⟨g, loaded, hg, hroot, hindex⟩
  cases h with
  | unresolved h =>
    rw [hg] at h
    cases h
  | missing hg' hroot' hindex' =>
    rw [hg] at hg'
    cases hg'
    rw [hroot] at hroot'
    cases hroot'
    exact hindex' hindex

/-- A run that asks for a method succeeds if and only if the source can be resolved and its program
has the method. It then reports on the method, and otherwise on the first fault alone. -/
theorem run_method (tools : Toolbox) (clock : String) (tree : FileTree) (hne : source ≠ "")
    (hdash : source.toList.head? ≠ some '-')
    (hfew : (Nat.toDigits 10 n.natAbs).length ≤ Text.maxDigits) :
    let s := newSession tree
    let r := run tools clock tree [source, "--method", toString n]
    (r.ending = .exit 0 ↔ ∃ g loaded, (s.resolve source).1 = .ok g ∧
      g.get? g.root = some loaded ∧ 0 ≤ n ∧ n < loaded.program.methods.length) ∧
    (r.ending = .exit 0 → ∃ g loaded m, (s.resolve source).1 = .ok g ∧
      g.Shows (Path.canonical source none) s (s.resolve source).2 ∧
      g.get? g.root = some loaded ∧ loaded.program.methods[n.toNat]? = some m ∧
      Reports (Path.canonical source none) g.names.length n m.ops r.out ∧
      r.err = "" ∧ r.tree = tree) ∧
    (r.ending ≠ .exit 0 → ∃ f, FirstFault s source n f ∧
      r = ⟨.exit 1, "", "✗ " ++ f.describe ++ "\n", tree⟩) := by
  intro s r
  have hends : EndsWithMethod tree source n r := run_endsWithMethod hne hdash hfew tools clock tree
  generalize r = r at hends
  cases hends with
  | reported hg hroot hm htext =>
    obtain ⟨hnonneg, hlt, hget⟩ := Program.method?_eq_some_iff.mp hm
    have hshows := Session.shows_of_resolve hg
    rw [hshows.root_eq] at htext
    refine ⟨⟨fun _ => ⟨_, _, hg, hroot, hnonneg, hlt⟩, fun _ => rfl⟩,
      fun _ => ⟨_, _, _, hg, hshows, hroot, hget, htext, rfl, rfl⟩, fun h => absurd rfl h⟩
  | failed h =>
    refine ⟨⟨fun hexit => ?_, fun hmethod => absurd hmethod h.not_hasMethod⟩, fun hexit => ?_,
      fun _ => ⟨_, h, rfl⟩⟩
    · cases hexit
    · cases hexit

/-- The second method of a program that uses a library, in a roundabout spelling. -/
theorem run_method_library :
    let tree : FileTree := { entries :=
      [(["main.vt".toList], .file (Text.encodeUtf8 "m\n3N\n;u lib.vt\n".toList)),
        (["lib.vt".toList], .file (Text.encodeUtf8 "N\n".toList))] }
    let r := run Dot.tools "" tree ["./main.vt", "--method", toString (1 : Int)]
    "./main.vt" ≠ "" ∧ "./main.vt".toList.head? ≠ some '-' ∧
      (Nat.toDigits 10 (1 : Int).natAbs).length ≤ Text.maxDigits ∧ r.ending = .exit 0 ∧
      r.err = "" ∧
      Reports "main.vt" 2 1 [.literal 3, .opcode .outputNumeric] r.out := by
  intro tree r
  let s := newSession tree
  let main : Program := ⟨[⟨[.opcode .callMethod], by simp⟩,
    ⟨[.literal 3, .opcode .outputNumeric], by simp⟩], [], ["lib.vt"]⟩
  let lib : Program := ⟨[⟨[.opcode .outputNumeric], by simp⟩], [], []⟩
  have hmainText : (s.store.read "main.vt").toOption = some "m\n3N\n;u lib.vt\n" := by
    decide +kernel
  have hlibText : (s.store.read "lib.vt").toOption = some "N\n" := by decide +kernel
  have hmain : s.content "main.vt" = .ok main := Session.content_of_text rfl hmainText rfl
  have hlib : s.content "lib.vt" = .ok lib := Session.content_of_text rfl hlibText rfl
  have hcanonical : Path.canonical "./main.vt" none = "main.vt" := by decide
  have hex : Explores s.content [] [Path.canonical "./main.vt" none]
      [(Path.canonical "./main.vt" none, main), ("lib.vt", lib)] none := by
    rw [hcanonical]
    exact .find (by decide) hmain (.find (by decide) hlib (.done _))
  have hne : "./main.vt" ≠ "" := by decide
  have hdash : "./main.vt".toList.head? ≠ some '-' := by decide
  have hfew : (Nat.toDigits 10 (1 : Int).natAbs).length ≤ Text.maxDigits := by decide
  obtain ⟨hexit, hreport, -⟩ := run_method Dot.tools "" tree hne hdash hfew
  obtain ⟨g, loaded, hg, hget, hprogram, hnames⟩ := Session.exists_root_of_explores hex
  have hzero : r.ending = .exit 0 :=
    hexit.mpr ⟨g, loaded, hg, hget, by decide, by rw [hprogram]; decide⟩
  obtain ⟨g', loaded', m, hg', -, hget', hm, htext, herr, -⟩ := hreport hzero
  cases hg.symm.trans hg'
  cases hget.symm.trans hget'
  rw [hprogram] at hm
  cases hm
  rw [hnames, hcanonical] at htext
  exact ⟨hne, hdash, hfew, hzero, herr, htext⟩

/-- A numeral that is too long is an error in the arguments. -/
theorem run_of_long (hdash : source.toList.head? ≠ some '-')
    (hlong : ¬ (Nat.toDigits 10 n.natAbs).length ≤ Text.maxDigits) (tools : Toolbox)
    (clock : String) (tree : FileTree) :
    run tools clock tree [source, "--method", toString n] = ⟨.exit 2, "",
      usage ++ s!"vt: error: {(UsageError.invalidNumber .method (toString n)).message}\n",
      tree⟩ := by
  rw [run, parse_method hdash, if_neg hlong]

/-- With one digit more than are read, the run ends with neither of the two codes. -/
theorem run_method_tooLong :
    let tree : FileTree := { entries :=
      [(["main.vt".toList], .file (Text.encodeUtf8 "m\n".toList))] }
    let r := run Dot.tools "" tree ["main.vt", "--method", toString ((10 ^ 4300 : Nat) : Int)]
    ¬ (r.ending = .exit 0 ∨ r.ending = .exit 1) := by
  intro tree r
  have hdash : "main.vt".toList.head? ≠ some '-' := by decide
  have hlong : ¬ (Nat.toDigits 10 ((10 ^ 4300 : Nat) : Int).natAbs).length ≤ Text.maxDigits := by
    rw [Int.natAbs_natCast, Json.length_toDigits_pow]
    decide
  have hrun : r = _ := run_of_long hdash hlong Dot.tools "" tree
  rw [hrun]
  rintro (h | h)
  · cases h
  · cases h

end StackFront.CommandLine
