import StackFront.Proofs.Path.Characters
import StackFront.Proofs.Path.Spelling
import StackFront.Proofs.Program.Errors
import StackFront.Proofs.Program.WrittenForm
import StackFront.Proofs.Session.Transparency
import StackFront.Proofs.Walk.Referrers

/-!
# Failures below the root

What a failed resolution says of a name other than its root. From a folder, whatever keeps a file
from being opened is reported with the references that led to it, and with a file; so is a grammar
error. Octets that are no text in the encoding of the folder are the exception: they are reported
as bare as they were raised. From texts in memory, the chain is added to the message that the name
has on its own if its text was found, whereas the message of a missing one gives way to another.
-/
namespace StackFront

/-- The sentence about a missing source is not shown any more once the source is known. -/
theorem StorageError.message_noSource_ne (name : Name) (file : String) :
    (noSource name).message (some file) ≠ (noSource name).message none := by
  have hnamed : ((noSource name).message (some file)).toList.head? = some '[' := by
    simp [message, noSource, toString]
  have hplain : ((noSource name).message none).toList.head? = some 'N' := by
    simp [message, noSource, toString]
  intro h
  rw [h, hplain] at hnamed
  cases hnamed

namespace Fault

/-- The chain of a fault as it is put behind a message. -/
def via (f : Fault) : String :=
  " (via " ++ " -> ".intercalate f.chain ++ ")"

theorem describe_of_chain {f : Fault} (h : 1 < f.chain.length) :
    f.describe = f.message ++ f.via := by
  rw [describe, if_pos h, via]
  simp only [String.append_assoc]

end Fault

namespace Folder

variable {folder : Folder} {refusal? : Name → Option (StorageError × Option String)} {name : Name}
  {text target : String} {base : Option String} {c : Char}

/-- The store of a folder in which the system refuses some files for reasons of its own, such as
missing permissions. A refusal need not say what file it is about. -/
def guarded (folder : Folder) (refusal? : Name → Option (StorageError × Option String)) :
    Store where
  read name :=
    match refusal? name with
    | some (e, file) => .error ⟨.storage e, file, []⟩
    | none => folder.store.read name
  finite := by
    obtain ⟨names, h⟩ := folder.store.finite
    refine ⟨names, fun name text hc hr => h name text hc ?_⟩
    split at hr
    · cases hr
    · exact hr

theorem read_of_guarded (h : (folder.guarded refusal?).read name = .ok text) :
    folder.store.read name = .ok text := by
  simp only [guarded] at h
  split at h
  · cases h
  · exact h

/-- A character that is not in the path of a program comes into the path of what the program refers
to only with the target. -/
theorem not_mem_pathOf_canonical (hslash : c ≠ '/') (hdot : c ≠ '.') (ht : c ∉ target.toList)
    (h : c ∉ pathOf base name) : c ∉ pathOf base (Path.canonical target (some name)) := by
  have hchars : ∀ n : Name, (c ∈ pathOf base n ↔ c ∈ n.toList ∨
      (Path.isAbsolute n.toList = false ∧ ∃ b ∈ base, c ∈ b.toList)) := by
    intro n
    cases base with
    | none => simp [pathOf, Path.mem_tidy_iff hslash hdot]
    | some b => simp [pathOf, Path.mem_tidyBelow_iff hslash hdot]
  rw [hchars, not_or] at h ⊢
  refine ⟨fun hmem => ?_, fun hbelow => ?_⟩
  · rcases Path.mem_canonical hmem with hc | hc | hc | ⟨_, ⟨⟩, hc⟩
    · exact hslash hc
    · exact hdot hc
    · exact ht hc
    · exact h.1 hc
  · -- a relative name was referred to from a relative one, which is below the same base
    obtain ⟨hrel, hbase⟩ := hbelow
    rw [Path.isAbsolute_canonical, Bool.or_eq_false_iff] at hrel
    exact h.2 ⟨hrel.2, hbase⟩

end Folder

namespace Session

variable {s t : Session} {folder : Folder} {refusal? : Name → Option (StorageError × Option String)}
  {sources : Sources} {spelled : String} {root name : Name} {f raised : Fault}

/-- The chain of the name at which a resolution failed is a route to it from the root. -/
theorem exists_route_of_error (h : (s.resolve spelled).1 = .error f) : ∃ name raised,
    (s.resolve spelled).2.asked.getLast? = some name ∧ s.content name = .error raised ∧
      f = Walk.trace (s.resolve spelled).2 (Path.canonical spelled none) name raised ∧
      IsRoute (s.resolve spelled).2.Declares (Path.canonical spelled none) name
        ((s.resolve spelled).2.chain name) := by
  obtain ⟨found, name, raised, hcourse, hload, hasked, hfault⟩ := exists_stop_of_error h
  obtain ⟨hgrown, hstop⟩ := grown_resolve hcourse
  exact ⟨name, raised, hasked, hload, hfault, isRoute_chain hgrown (hstop _ rfl)⟩

/-- What a resolution over a folder says of a name other than its root that it could not load. Its
chain is told together with a file, unless the octets of the file are no text, or unless the name
cannot stand for a file at all; the latter takes a program that was not read from the folder. -/
inductive Reports (s t : Session) (folder : Folder)
    (refusal? : Name → Option (StorageError × Option String)) (name : Name) : Fault → Prop
  | barred {e : StorageError} {file : Option String} (h : refusal? name = some (e, file)) :
      Reports s t folder refusal? name ⟨.storage e, some (file.getD name), t.chain name⟩
  | absent {r : Refusal} (hopen : refusal? name = none)
      (h : folder.tree.read (Folder.pathOf folder.base name) = .error r) :
      Reports s t folder refusal? name
        ⟨.storage (.refused r), some (String.ofList (Folder.pathOf folder.base name)), t.chain name⟩
  | ungrammatical {text : String} {e : ParseError}
      (hread : (folder.guarded refusal?).read name = .ok text)
      (h : Program.parse text (some name) = .error e) :
      Reports s t folder refusal? name ⟨.parse e, some name, t.chain name⟩
  | undecodable {octets : List UInt8} {e : Text.DecodeError} (hopen : refusal? name = none)
      (hread : folder.tree.read (Folder.pathOf folder.base name) = .ok octets)
      (h : folder.encoding.decode octets = .error e) :
      Reports s t folder refusal? name ⟨.decode e, none, []⟩
  | unnameable (hopen : refusal? name = none) (h : '\x00' ∈ Folder.pathOf folder.base name)
      (hs : ¬ s.IsFaithful) :
      Reports s t folder refusal? name ⟨.badValue .nulInPath, none, []⟩

/-- A name that was referred to stands for a file, if all that is known was read from the folder. -/
theorem no_nul_of_declares (hs : (s.withStore (folder.guarded refusal?)).IsFaithful)
    (hgrows : (s.withStore (folder.guarded refusal?)).Grows t) {source : Name}
    (h : t.Declares source name) : '\x00' ∉ Folder.pathOf folder.base name := by
  obtain ⟨loaded, hknown, hname⟩ := h
  have hcontent : (folder.guarded refusal?).content source = .ok loaded.program := by
    have hfaithful := congrFun hs source
    rw [← hgrows.content, content_of_known hknown] at hfaithful
    exact hfaithful.symm
  obtain ⟨text, hread, hparse⟩ := Store.content_eq_ok_iff.mp hcontent
  obtain ⟨target, ht, rfl⟩ := Program.exists_target hname
  refine Folder.not_mem_pathOf_canonical (by decide) (by decide)
    (Program.IsParsed.not_mem_target ⟨text, some source, hparse⟩ (by decide) ht) fun hnul => ?_
  have hfolder := Folder.read_of_guarded hread
  simp [Folder.store, Folder.readText, hnul] at hfolder

theorem reports_trace (hne : name ≠ root)
    (hload : (folder.guarded refusal?).content name = .error raised)
    (hnul : '\x00' ∈ Folder.pathOf folder.base name → ¬ s.IsFaithful) :
    Reports s t folder refusal? name (Walk.trace t root name raised) := by
  have traced : raised.isTraced = true →
      Walk.trace t root name raised = raised.mark name (t.chain name) := fun h => if_pos ⟨hne, h⟩
  have bare : raised.isTraced = false → Walk.trace t root name raised = raised := fun h =>
    if_neg fun hboth => by simp [h] at hboth
  rw [Store.content] at hload
  cases hread : (folder.guarded refusal?).read name with
  | ok text =>
    simp only [hread] at hload
    split at hload
    next e hparse =>
      cases hload
      have hfile : e.file = some name := Program.file_of_parse hparse
      have hmark : Fault.mark e name (t.chain name) = ⟨.parse e, some name, t.chain name⟩ := by
        simp [Fault.mark, Fault.ofCause, Cause.file?, hfile]
      rw [traced rfl, hmark]
      exact .ungrammatical hread hparse
    next => cases hload
  | error f =>
    simp only [hread, Except.error.injEq] at hload
    subst hload
    simp only [Folder.guarded] at hread
    split at hread
    next e file hbarred =>
      cases hread
      have hmark : Fault.mark ⟨.storage e, file, []⟩ name (t.chain name) =
          ⟨.storage e, some (file.getD name), t.chain name⟩ := by
        cases file <;> rfl
      rw [traced rfl, hmark]
      exact .barred hbarred
    next hopen =>
      simp only [Folder.store, Folder.readText] at hread
      split at hread
      next hmem =>
        cases hread
        exact (bare rfl).symm ▸ .unnameable hopen hmem (hnul hmem)
      next =>
        split at hread
        next r habsent =>
          cases hread
          exact (traced rfl).symm ▸ .absent hopen habsent
        next octets hfound =>
          split at hread
          next e hdecode =>
            cases hread
            exact (bare rfl).symm ▸ .undecodable hopen hfound hdecode
          next => cases hread

/-- A resolution over a folder that fails at a name other than its root tells how it came to that
name, and a file, if the file was refused or its text is ungrammatical, but not if its octets are
no text. -/
theorem resolve_reports (s : Session) (folder : Folder)
    (refusal? : Name → Option (StorageError × Option String)) (spelled : String) {f : Fault}
    (h : ((s.withStore (folder.guarded refusal?)).resolve spelled).1 = .error f) :
    let t := ((s.withStore (folder.guarded refusal?)).resolve spelled).2
    let root := Path.canonical spelled none
    ∃ name, t.asked.getLast? = some name ∧ IsRoute t.Declares root name (t.chain name) ∧
      (name ≠ root → Reports (s.withStore (folder.guarded refusal?)) t folder refusal? name f) := by
  intro t root
  obtain ⟨name, raised, hasked, hload, rfl, hroute⟩ := exists_route_of_error h
  refine ⟨name, hasked, hroute, fun hne => ?_⟩
  have hgrows : (s.withStore (folder.guarded refusal?)).Grows t := grows_resolve _ spelled
  rw [content_of_unknown (unknown_of_content hload)] at hload
  refine reports_trace hne hload fun hnul hfaithful => ?_
  obtain ⟨_, source, -, hdeclares⟩ := hroute.exists_last_step hne
  exact no_nul_of_declares hfaithful hgrows hdeclares hnul

/-- A library that may not be read, two references below the root. -/
theorem resolve_reports_barred :
    let folder : Folder := { tree := { entries :=
      [(["main.vt".toList], .file (Text.encodeUtf8 "m\n;e lib.vt\n".toList)),
        (["lib.vt".toList], .file (Text.encodeUtf8 "N\n;u secret.vt\n".toList))] } }
    let denied : StorageError := ⟨.denied, .numbered 13 "Permission denied"⟩
    let refusal? : Name → Option (StorageError × Option String) := fun name =>
      if name = "secret.vt" then some (denied, some "secret.vt") else none
    let s : Session := { store := folder.guarded refusal? }
    ∃ f, (s.resolve "main.vt").1 = .error f ∧ f.chain = ["main.vt", "lib.vt", "secret.vt"] ∧
      f.file = some "secret.vt" ∧
      ∃ name, (s.resolve "main.vt").2.asked.getLast? = some name ∧
        IsRoute (s.resolve "main.vt").2.Declares (Path.canonical "main.vt" none) name
          ((s.resolve "main.vt").2.chain name) ∧
        (name ≠ Path.canonical "main.vt" none →
          Reports s (s.resolve "main.vt").2 folder refusal? name f) := by
  intro folder denied refusal? s
  let main : Program := ⟨[⟨[.opcode .callMethod], by simp⟩], ["lib.vt"], []⟩
  let lib : Program := ⟨[⟨[.opcode .outputNumeric], by simp⟩], [], ["secret.vt"]⟩
  have hmainText : (s.store.read "main.vt").toOption = some "m\n;e lib.vt\n" := by decide +kernel
  have hlibText : (s.store.read "lib.vt").toOption = some "N\n;u secret.vt\n" := by decide +kernel
  have hmain : s.content "main.vt" = .ok main := content_of_text rfl hmainText rfl
  have hlib : s.content "lib.vt" = .ok lib := content_of_text rfl hlibText rfl
  have hex : Explores s.content [] [Path.canonical "main.vt" none]
      [("main.vt", main), ("lib.vt", lib)]
      (some ("secret.vt", ⟨.storage denied, some "secret.vt", []⟩)) :=
    .find (by decide) hmain (.find (by decide) hlib (.fail (by decide) rfl))
  have hchain : (s.resolve "main.vt").2.chain "secret.vt" = ["main.vt", "lib.vt", "secret.vt"] :=
    (chain_of_explores hex "secret.vt").trans (by decide)
  have hfails := resolve_of_stop hex
  have hfault : Walk.trace (s.resolve "main.vt").2 (Path.canonical "main.vt" none) "secret.vt"
      ⟨.storage denied, some "secret.vt", []⟩ =
        ⟨.storage denied, some "secret.vt", ["main.vt", "lib.vt", "secret.vt"]⟩ := by
    rw [Walk.trace, if_pos (by decide), hchain]
    rfl
  rw [hfault] at hfails
  exact ⟨_, hfails, rfl, rfl, resolve_reports s folder refusal? "main.vt" hfails⟩

/-- Octets that are no text: nothing says where they were found. -/
theorem resolve_undecodable :
    let folder : Folder := { tree := { entries :=
      [(["main.vt".toList], .file (Text.encodeUtf8 "m\n;u bad.vt\n".toList)),
        (["bad.vt".toList], .file [0xFF])] } }
    let s : Session := { store := folder.store }
    ∃ f, (s.resolve "main.vt").1 = .error f ∧
      (s.resolve "main.vt").2.asked.getLast? = some "bad.vt" ∧
      "bad.vt" ≠ Path.canonical "main.vt" none ∧ f.chain = [] ∧ f.file = none ∧
      (s.resolve "main.vt").2.chain "bad.vt" = ["main.vt", "bad.vt"] := by
  intro folder s
  let main : Program := ⟨[⟨[.opcode .callMethod], by simp⟩], [], ["bad.vt"]⟩
  let e : Text.DecodeError := ⟨"utf-8", 0, 0xFF, 1, .start⟩
  have hmainText : (s.store.read "main.vt").toOption = some "m\n;u bad.vt\n" := by decide +kernel
  have hmain : s.content "main.vt" = .ok main := content_of_text rfl hmainText rfl
  have hbad : s.content "bad.vt" = .error e := by
    have hnul : '\x00' ∉ Folder.pathOf none "bad.vt" := by decide
    have hfound : folder.tree.read (Folder.pathOf none "bad.vt") = .ok [0xFF] := by decide
    have hdecode : Text.Encoding.utf8.decode [0xFF] = .error e := by decide
    rw [content_of_unknown rfl]
    simp only [s, folder, Store.content, Folder.store, Folder.readText, if_neg hnul, hfound,
      hdecode]
  have hex : Explores s.content [] [Path.canonical "main.vt" none] [("main.vt", main)]
      (some ("bad.vt", e)) :=
    .find (by decide) hmain (.fail (by decide) hbad)
  have hchain : (s.resolve "main.vt").2.chain "bad.vt" = ["main.vt", "bad.vt"] :=
    (chain_of_explores hex "bad.vt").trans (by decide)
  have hasked : (s.resolve "main.vt").2.asked.getLast? = some "bad.vt" := by
    rw [asked_of_explores hex]
    rfl
  have hfails := resolve_of_stop hex
  have hbare : Walk.trace (s.resolve "main.vt").2 (Path.canonical "main.vt" none) "bad.vt" e = e :=
    if_neg (by decide)
  rw [hbare] at hfails
  exact ⟨_, hfails, hasked, by decide, rfl, rfl, hchain⟩

/-- A load fails with what keeps the name from being loaded. -/
theorem load_of_error (h : s.content name = .error raised) : (s.load name).1 = .error raised := by
  have hanswers := s.load_answers name
  rw [h] at hanswers
  cases hload : (s.load name).1 with
  | ok loaded =>
    rw [hload] at hanswers
    cases hanswers
  | error f =>
    rw [hload] at hanswers
    cases hanswers
    rfl

/-- How a resolution over texts in memory describes the fault `alone` of a name other than its root:
with its own message and the chain if the text of the name was found, and otherwise with a message
that says less. -/
structure Describes (sources : Sources) (t : Session) (root name : Name) (alone f : Fault) :
    Prop where
  route : IsRoute t.Declares root name f.chain
  kept_iff : f.describe = alone.message ++ f.via ↔ (sources.find? name).isSome
  missing : sources.find? name = none → alone.message = s!"No such source: {name}" ∧
    f.describe = s!"[Errno None] None: {Text.quote name}" ++ f.via

theorem describes_trace (hne : name ≠ root) (hroute : IsRoute t.Declares root name (t.chain name))
    (hload : sources.store.content name = .error raised) :
    Describes sources t root name raised (Walk.trace t root name raised) := by
  have hlength := hroute.one_lt_length hne
  cases hfind : sources.find? name with
  | some text =>
    simp only [Store.content, Sources.store, hfind] at hload
    split at hload
    next e hparse =>
      cases hload
      rw [Walk.trace, if_pos ⟨hne, rfl⟩]
      refine ⟨hroute, ?_, fun hnone => ?_⟩
      · rw [Fault.describe_of_chain hlength, hfind]
        exact ⟨fun _ => rfl, fun _ => rfl⟩
      · rw [hfind] at hnone
        cases hnone
    next => cases hload
  | none =>
    simp only [Store.content, Sources.store, hfind, Except.error.injEq] at hload
    subst hload
    rw [Walk.trace, if_pos ⟨hne, rfl⟩]
    have hdescribe : Fault.describe (Fault.mark (StorageError.noSource name) name (t.chain name)) =
        s!"[Errno None] None: {Text.quote name}" ++
          Fault.via (Fault.mark (StorageError.noSource name) name (t.chain name)) :=
      Fault.describe_of_chain hlength
    refine ⟨hroute, ?_, fun _ => ⟨rfl, hdescribe⟩⟩
    rw [hdescribe, hfind]
    refine ⟨fun h => ?_, by simp⟩
    exact absurd ((String.append_left_inj _).mp h) (StorageError.message_noSource_ne name name)

/-- A resolution over texts in memory that fails at a name other than its root keeps the message
that the name has on its own, before the resolution and after it, exactly if there is a text of
that name. -/
theorem resolve_describes (s : Session) (sources : Sources) (spelled : String) {f : Fault}
    (h : ((s.withStore sources.store).resolve spelled).1 = .error f) :
    let t := ((s.withStore sources.store).resolve spelled).2
    let root := Path.canonical spelled none
    ∃ name alone, t.asked.getLast? = some name ∧
      ((s.withStore sources.store).load name).1 = .error alone ∧ (t.load name).1 = .error alone ∧
      (name ≠ root → Describes sources t root name alone f) := by
  intro t root
  obtain ⟨name, raised, hasked, hload, rfl, hroute⟩ := exists_route_of_error h
  have hgrows : (s.withStore sources.store).Grows t := grows_resolve _ spelled
  have hafter : t.content name = .error raised := hgrows.content ▸ hload
  refine ⟨name, raised, hasked, load_of_error hload, load_of_error hafter, fun hne => ?_⟩
  rw [content_of_unknown (unknown_of_content hload)] at hload
  exact describes_trace hne hroute hload

/-- A method after a declaration, in a library of a library. -/
theorem resolve_describes_ungrammatical :
    let sources : Sources :=
      [("main.vt", "m\n;e lib.vt\n"), ("lib.vt", "N\n;u bad.vt\n"), ("bad.vt", "N\n;u lib.vt\nm\n")]
    let s : Session := { store := sources.store }
    ∃ f, (s.resolve "main.vt").1 = .error f ∧
      f.describe = "bad.vt:3: method body after a declaration (via main.vt -> lib.vt -> bad.vt)" ∧
      ∃ name alone, (s.resolve "main.vt").2.asked.getLast? = some name ∧
        (s.load name).1 = .error alone ∧ ((s.resolve "main.vt").2.load name).1 = .error alone ∧
        (name ≠ Path.canonical "main.vt" none →
          Describes sources (s.resolve "main.vt").2 (Path.canonical "main.vt" none) name alone
            f) := by
  intro sources s
  let main : Program := ⟨[⟨[.opcode .callMethod], by simp⟩], ["lib.vt"], []⟩
  let lib : Program := ⟨[⟨[.opcode .outputNumeric], by simp⟩], [], ["bad.vt"]⟩
  have hex : Explores s.content [] [Path.canonical "main.vt" none]
      [("main.vt", main), ("lib.vt", lib)]
      (some ("bad.vt", (⟨.methodAfterDeclaration, some "bad.vt", some 3, none⟩ : ParseError))) :=
    .find (by decide) rfl (.find (by decide) rfl (.fail (by decide) rfl))
  have hchain : (s.resolve "main.vt").2.chain "bad.vt" = ["main.vt", "lib.vt", "bad.vt"] :=
    (chain_of_explores hex "bad.vt").trans (by decide)
  have hfails := resolve_of_stop hex
  refine ⟨_, hfails, ?_, resolve_describes s sources "main.vt" hfails⟩
  rw [Walk.trace, if_pos (by decide), hchain]
  decide

/-- A missing source has lost its message. -/
theorem resolve_missing_message :
    let sources : Sources := [("main.vt", "m\n;u gone.vt\n")]
    let s : Session := { store := sources.store }
    ∃ f alone, (s.resolve "main.vt").1 = .error f ∧
      (s.resolve "main.vt").2.asked.getLast? = some "gone.vt" ∧
      "gone.vt" ≠ Path.canonical "main.vt" none ∧ f.chain = ["main.vt", "gone.vt"] ∧
      (s.load "gone.vt").1 = .error alone ∧ alone.message = "No such source: gone.vt" ∧
      f.describe ≠ alone.message ++ " (via main.vt -> gone.vt)" := by
  intro sources s
  let main : Program := ⟨[⟨[.opcode .callMethod], by simp⟩], [], ["gone.vt"]⟩
  have hex : Explores s.content [] [Path.canonical "main.vt" none] [("main.vt", main)]
      (some ("gone.vt", StorageError.noSource "gone.vt")) :=
    .find (by decide) rfl (.fail (by decide) rfl)
  have hasked : (s.resolve "main.vt").2.asked.getLast? = some "gone.vt" := by
    rw [asked_of_explores hex]
    rfl
  have hchain : (s.resolve "main.vt").2.chain "gone.vt" = ["main.vt", "gone.vt"] :=
    (chain_of_explores hex "gone.vt").trans (by decide)
  have hfails := resolve_of_stop hex
  rw [Walk.trace, if_pos (by decide), hchain] at hfails
  refine ⟨_, _, hfails, hasked, by decide, rfl, rfl, rfl, fun h => ?_⟩
  rw [Fault.describe_of_chain (by decide)] at h
  exact StorageError.message_noSource_ne "gone.vt" "gone.vt" ((String.append_left_inj _).mp h)

end Session

end StackFront
