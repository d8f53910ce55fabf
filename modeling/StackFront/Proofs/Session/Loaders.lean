import StackFront.Proofs.FileTree.Texts
import StackFront.Proofs.Session.Characters
import StackFront.Proofs.Walk.Renaming

/-!
# Folders and texts in memory

A session on a folder and one on the texts of its files, held in memory under their paths from the
folder, come to the same as long as they keep to the folder: to the same graph, or to a fault at the
same name. A file that is stored so deep that its path is too long and one that may not be read make
the only differences.
-/
namespace StackFront

/-- The same grammar error, or errors of the stores, along the same chain of references. -/
inductive Fault.SameKind : Fault → Fault → Prop
  | parse (e : ParseError) (file : Option Name) (chain : List Name) :
      SameKind ⟨.parse e, file, chain⟩ ⟨.parse e, file, chain⟩
  | storage (e e' : StorageError) (file file' : Option Name) (chain : List Name) :
      SameKind ⟨.storage e, file, chain⟩ ⟨.storage e', file', chain⟩

namespace Fault.SameKind

variable {f f' : Fault}

theorem isTraced_eq (h : SameKind f f') : f'.isTraced = f.isTraced := by
  cases h <;> rfl

theorem mark (h : SameKind f f') (name : Name) (chain : List Name) :
    SameKind (f.mark name chain) (f'.mark name chain) := by
  cases h with
  | parse e file _ => exact .parse e _ chain
  | storage e e' file file' _ => exact .storage e e' _ _ chain

end Fault.SameKind

namespace Session

/-- A session on a folder that has just begun. -/
def ofFolder (folder : Folder) : Session :=
  { store := folder.store }

variable {s s' : Session} {t : FileTree} {base : String} {place : Location} {name m n : Name}
  {text root : String} {D : Name → Prop}

/-- Names that have no program yet and the same text are answered for in the same way. -/
theorem answersAlike_of_text (hs : s.program? name = none) (hs' : s'.program? name = none)
    (h : s.store.read name = .ok text) (h' : s'.store.read name = .ok text) :
    AnswersAlike id Fault.SameKind name (s.content name) (s'.content (id name)) := by
  rw [id, content_of_unknown hs, content_of_unknown hs', Store.content, Store.content, h, h']
  cases hparse : Program.parse text (some name) with
  | error e =>
    simp only [hparse]
    exact .fault (.parse e e.file [])
  | ok p =>
    simp only [hparse]
    exact .program fun kind => (List.map_id _).symm

/-- So are names that both stores refuse. -/
theorem answersAlike_of_refused {f f' : Fault} (hs : s.program? name = none)
    (hs' : s'.program? name = none) (h : s.store.read name = .error f)
    (h' : s'.store.read name = .error f') (hf : f.SameKind f') :
    AnswersAlike id Fault.SameKind name (s.content name) (s'.content (id name)) := by
  rw [id, content_of_unknown hs, content_of_unknown hs', Store.content, Store.content, h, h']
  exact .fault hf

/-- A folder refuses a name whose path is too long. -/
theorem content_of_long (hnul : '\x00' ∉ Folder.pathOf (some base) name)
    (h : FileTree.pathLimit ≤ FileTree.octetCount (Folder.pathOf (some base) name)) :
    (ofFolder ⟨t, some base, .utf8⟩).content name =
      .error (.refused .nameTooLong (String.ofList (Folder.pathOf (some base) name))) := by
  rw [content_of_unknown rfl]
  simp only [ofFolder, Store.content, Folder.store, Folder.readText, if_neg hnul,
    FileTree.read_of_long h]

/-- From a root without NUL, no name with NUL is reached. -/
theorem KeepsTo.no_nul (h : s.KeepsTo root D) (hs : s.programs = [])
    (hroot : '\x00' ∉ root.toList) : s.KeepsTo root fun n => D n ∧ '\x00' ∉ n.toList := by
  have hparsed : s.OnlyParsed := onlyParsed_of_fresh hs
  have hrootName : '\x00' ∉ (Path.canonical root none).toList :=
    not_mem_canonical (by decide) hroot (by simp)
  obtain ⟨found, stop, hex, -⟩ := s.resolve_explores root
  obtain ⟨hfound, -⟩ := h.closed hex
  refine .of_explores hs hex ⟨h.root, hrootName⟩ fun q hq n hn => ⟨(hfound q hq).2.2 n hn, ?_⟩
  obtain ⟨m, hm, hreach⟩ := hex.found_reached q hq
  rw [List.mem_singleton] at hm
  subst hm
  exact hparsed.not_mem_of_refersTo (by decide) ⟨q.2, hex.found_eq q hq, hn⟩
    (hparsed.not_mem_of_reaches (by decide) hreach hrootName)

/-- Texts in memory answer as the folder does, for the names below it. -/
theorem imitates_textsBelow (hwf : t.IsWellFormed) (hbase : t.IsBase base.toList place)
    (htexts : t.HoldsTexts place) (hshallow : t.IsShallow base place)
    (hopens : t.OpensFiles place) :
    Imitates id Fault.SameKind (fun n => Path.IsBelow n ∧ '\x00' ∉ n.toList)
      (ofFolder ⟨t, some base, .utf8⟩) (ofSources (Sources.ofSpelled (t.textsBelow place))) where
  injective := Function.injective_id
  isTraced f f' h := h.isTraced_eq
  mark f f' name chain h := by
    rw [List.map_id]
    exact h.mark name chain
  alike name hname hc _ := by
    obtain ⟨parts, hparts, hproper, hup⟩ := hname.1.exists_parts hc
    have hdown : ∀ p ∈ parts, Path.IsProper p ∧ p ≠ Path.parent := fun p hp =>
      ⟨hproper p hp, fun e => hup (e ▸ hp)⟩
    have hmemory : ∀ text, (Sources.ofSpelled (t.textsBelow place)).store.read name = .ok text ↔
        ∃ octets, (place ++ parts, .file octets) ∈ t.entries ∧
          FileTree.textOf octets = some text := fun _ =>
      Sources.read_textsBelow_iff hwf hbase.isDirectory hparts hdown
    have hanswers := Folder.answers hwf hbase htexts hparts hdown hname.2
    generalize hread : (Folder.store ⟨t, some base, .utf8⟩).read name = answer at hanswers
    cases hanswers with
    | text hmem htext =>
      exact answersAlike_of_text rfl rfl hread ((hmemory _).mpr ⟨_, hmem, htext⟩)
    | refused r hnone =>
      refine answersAlike_of_refused rfl rfl hread (Sources.read_of_ne_ok fun text hfound => ?_)
        (.storage _ _ _ _ [])
      obtain ⟨octets, hmem, -⟩ := (hmemory text).mp hfound
      obtain ⟨hne, -⟩ := FileTree.parts_of_file hwf hbase.isDirectory hmem
      have hshort := hshallow (parts, octets) (FileTree.mem_filesBelow.mpr hmem)
      have hopen := hopens (parts, octets) (FileTree.mem_filesBelow.mpr hmem)
      rw [FileTree.pathFrom_eq hne hdown hparts] at hshort
      rcases hnone octets hmem with hlong | hclosed
      · omega
      · rw [hclosed] at hopen
        cases hopen

/-- Two resolutions come to the same: to graphs that agree, or to faults of one kind and with one
chain, which were raised at the name that both asked for last. -/
inductive ComesToTheSame : Except Fault Graph × Session → Except Fault Graph × Session → Prop
  | graph {g g' : Graph} {t t' : Session} (h : g.Agrees g') : ComesToTheSame (.ok g, t) (.ok g', t')
  | fault {f f' : Fault} {t t' : Session} {name : Name} (h : f.SameKind f')
      (hname : t.asked.getLast? = some name) (hname' : t'.asked.getLast? = some name) :
      ComesToTheSame (.error f, t) (.error f', t')

/-- Resolving from a folder and from the texts of its files in memory comes to the same, for every
root that keeps to the folder, if the paths of the files are not too long and all files may be
read. -/
theorem resolve_folder (hwf : t.IsWellFormed) (hbase : t.IsBase base.toList place)
    (htexts : t.HoldsTexts place) (hshallow : t.IsShallow base place)
    (hopens : t.OpensFiles place) (hroot : '\x00' ∉ root.toList)
    (hkeeps : (ofFolder ⟨t, some base, .utf8⟩).KeepsTo root Path.IsBelow) :
    ComesToTheSame ((ofFolder ⟨t, some base, .utf8⟩).resolve root)
      ((ofSources (Sources.ofSpelled (t.textsBelow place))).resolve root) := by
  have himitates := imitates_textsBelow hwf hbase htexts hshallow hopens
  have hnul := hkeeps.no_nul rfl hroot
  have hends := himitates.endsAlike_resolve hnul rfl
  obtain ⟨names, hasked, hasked'⟩ := himitates.asked_resolve hnul rfl
  rw [List.map_id] at hasked'
  generalize hfolder : (ofFolder ⟨t, some base, .utf8⟩).resolve root = r at hends hasked ⊢
  generalize (ofSources (Sources.ofSpelled (t.textsBelow place))).resolve root = r'
    at hends hasked' ⊢
  obtain ⟨result, u⟩ := r
  obtain ⟨result', u'⟩ := r'
  simp only at hends hasked hasked'
  cases hends with
  | graph h => exact .graph h.agrees
  | fault h =>
    obtain ⟨name, hname⟩ := exists_asked_of_error (congrArg Prod.fst hfolder)
    rw [hfolder] at hname
    refine .fault h hname ?_
    rw [hasked', ← hname, hasked]
    rfl

/-- A base that is reached by a detour, and two files whose lines end in different ways. -/
theorem resolve_folder_lineEnds :
    let pkg : Location := ["pkg".toList]
    let tree : FileTree := { entries :=
      [(["x".toList], .directory),
        (pkg ++ ["main.vt".toList], .file (Text.encodeUtf8 "m\r\n;e lib/../lib//b.vt\r\n".toList)),
        (pkg ++ ["lib".toList, "b.vt".toList], .file (Text.encodeUtf8 "N\r".toList))] }
    ∃ g g', ((ofFolder ⟨tree, some "x/../pkg", .utf8⟩).resolve "main.vt").1 = .ok g ∧
      ((ofSources (Sources.ofSpelled (tree.textsBelow pkg))).resolve "main.vt").1 = .ok g' ∧
      g.names = ["main.vt", "lib/b.vt"] ∧ g.Agrees g' := by
  intro pkg tree
  let folder : Folder := ⟨tree, some "x/../pkg", .utf8⟩
  let main : Program := ⟨[⟨[.opcode .callMethod], by simp⟩], ["lib/../lib//b.vt"], []⟩
  let b : Program := ⟨[⟨[.opcode .outputNumeric], by simp⟩], [], []⟩
  have hread : ∀ {name text}, (folder.store.read name).toOption = some text →
      folder.store.read name = .ok text := fun {name text} h => by
    cases hr : folder.store.read name with
    | error f => rw [hr] at h; cases h
    | ok found => rw [hr] at h; exact congrArg _ (Option.some.inj h)
  have hmain : (ofFolder folder).content "main.vt" = .ok main :=
    (content_of_unknown rfl).trans (Store.content_eq_ok_iff.mpr
      ⟨"m\n;e lib/../lib//b.vt\n", hread (by decide +kernel), rfl⟩)
  have hb : (ofFolder folder).content "lib/b.vt" = .ok b :=
    (content_of_unknown rfl).trans (Store.content_eq_ok_iff.mpr
      ⟨"N\n", hread (by decide +kernel), rfl⟩)
  have hex : Explores (ofFolder folder).content [] [Path.canonical "main.vt" none]
      [("main.vt", main), ("lib/b.vt", b)] none :=
    .find (by decide) hmain (.find (by decide) hb (.done _))
  have below : ∀ name ∈ ["main.vt", "lib/b.vt"], Path.IsBelow name := by
    have hall : ∀ name ∈ ["main.vt", "lib/b.vt"], Path.isAbsolute name.toList = false ∧
        (Text.splitAt '/' name.toList).head? ≠ some Path.parent := by decide
    exact fun name hname => ⟨(hall name hname).1, (hall name hname).2⟩
  have hkeeps : (ofFolder folder).KeepsTo "main.vt" Path.IsBelow := by
    have htargets : ∀ q ∈ [("main.vt", main), ("lib/b.vt", b)], ∀ n ∈ q.2.successors q.1,
        n ∈ ["main.vt", "lib/b.vt"] := by decide
    exact .of_explores rfl hex (below _ (by decide)) fun q hq n hn => below n (htargets q hq n hn)
  have hwf : tree.IsWellFormed := by decide
  have hbase : tree.IsBase "x/../pkg".toList pkg := ⟨by decide, by decide⟩
  have htexts : tree.HoldsTexts pkg := by
    unfold FileTree.HoldsTexts
    decide +kernel
  have hshallow : tree.IsShallow "x/../pkg" pkg := by
    unfold FileTree.IsShallow
    decide
  have hopens : tree.OpensFiles pkg := by
    unfold FileTree.OpensFiles
    decide
  have hsame := resolve_folder hwf hbase htexts hshallow hopens (by decide) hkeeps
  obtain ⟨g, hg, -, hfound, -⟩ := resolve_of_explores hex
  generalize (ofFolder folder).resolve "main.vt" = r at hsame hg ⊢
  generalize (ofSources (Sources.ofSpelled (tree.textsBelow pkg))).resolve "main.vt" = r'
    at hsame ⊢
  cases hsame with
  | graph h =>
    cases hg
    exact ⟨_, _, rfl, rfl, by rw [Graph.names_eq_content, hfound]; decide, h⟩
  | fault => cases hg

end Session

namespace FileTree

/-- Parts that go down and up again, over and over. -/
def detours (n : Nat) : List (List Char) :=
  (List.replicate n ["a".toList, Path.parent]).flatten

theorem detours_succ (n : Nat) : detours (n + 1) = ["a".toList, Path.parent] ++ detours n := by
  rw [detours, detours, List.replicate_succ, List.flatten_cons]

theorem isProper_detours (n : Nat) : ∀ p ∈ detours n, Path.IsProper p := by
  induction n with
  | zero => simp [detours]
  | succ n ih =>
    rw [detours_succ, List.forall_mem_append]
    refine ⟨?_, ih⟩
    intro p hp
    have hparts : ∀ p ∈ ["a".toList, Path.parent], p ≠ [] ∧ p ≠ Path.here ∧ '/' ∉ p := by decide
    exact hparts p hp

/-- They lead back. -/
theorem follow_detours {t : FileTree} {place : Location}
    (h : t.follow place ["a".toList, Path.parent] = .ok place) (n : Nat) :
    t.follow place (detours n) = .ok place := by
  induction n with
  | zero => rfl
  | succ n ih =>
    rw [detours_succ, follow_append, h]
    exact ih

theorem octetCount_detours (n : Nat) (last : List Char) :
    octetCount (Text.joinWith '/' (detours n ++ [last])) = 5 * n + octetCount last := by
  induction n with
  | zero => exact (Nat.zero_add _).symm
  | succ n ih =>
    have hpair : octetCount (Text.joinWith '/' ["a".toList, Path.parent] ++ ['/']) = 5 := by decide
    rw [detours_succ, List.append_assoc, Text.joinWith_append (by simp) (by simp),
      List.append_cons, octetCount_append, hpair, ih]
    omega

theorem detours_ne_nil (n : Nat) : detours (n + 1) ≠ [] := by
  rw [detours_succ]
  exact List.cons_ne_nil _ _

theorem octetCount_render_detours (n : Nat) :
    octetCount (Path.render [] (detours (n + 1))) + 1 = 5 * (n + 1) := by
  have hslash : octetCount ('/' :: Text.joinWith '/' [[]]) = 1 := by decide
  have hjoined := octetCount_detours (n + 1) []
  rw [Text.joinWith_append (detours_ne_nil n) (by simp), octetCount_append, hslash,
    ← Path.render_nil (detours_ne_nil n) (isProper_detours _)] at hjoined
  exact hjoined

/-- The working directory is a base by way of detours. -/
theorem isBase_detours {t : FileTree} (h : t.follow t.cwd ["a".toList, Path.parent] = .ok t.cwd)
    (hdirectory : t.lookup t.cwd = some .directory) (n : Nat) :
    t.IsBase (Path.render [] (detours (n + 1))) t.cwd := by
  refine ⟨?_, hdirectory⟩
  rw [partsOf_render (.inl rfl) (detours_ne_nil n) (isProper_detours _), start,
    Path.isAbsolute_render (.inl rfl) (isProper_detours _)]
  exact follow_detours h (n + 1)

end FileTree

/-- What lies in a base with detours is opened by way of them. -/
theorem Folder.pathOf_detours {name : Name} {parts : List (List Char)}
    (hname : name.toList = Path.render [] parts)
    (hdown : ∀ p ∈ parts, Path.IsProper p ∧ p ≠ Path.parent) (n : Nat) :
    pathOf (some (String.ofList (Path.render [] (FileTree.detours (n + 1))))) name =
      Text.joinWith '/' (FileTree.detours (n + 1) ++ parts) := by
  have hproper := FileTree.isProper_detours (n + 1)
  have hne : FileTree.detours (n + 1) ++ parts ≠ [] := by
    simp [FileTree.detours_ne_nil]
  rw [pathOf_below hname hdown, String.toList_ofList, Path.root_render (.inl rfl) hproper,
    Path.properParts_render (.inl rfl) hproper, Path.render_nil hne fun p hp => ?_]
  rcases List.mem_append.mp hp with hp | hp
  · exact hproper p hp
  · exact (hdown p hp).1

namespace Session

/-- A folder fails where the texts of its files in memory do not, although the root keeps to it. -/
structure FailsAlone (t : FileTree) (base : String) (place : Location) (root : String) : Prop where
  wellFormed : t.IsWellFormed
  isBase : t.IsBase base.toList place
  holdsTexts : t.HoldsTexts place
  no_nul : '\x00' ∉ root.toList
  keepsTo : (ofFolder ⟨t, some base, .utf8⟩).KeepsTo root Path.IsBelow
  fails : ∃ f, ((ofFolder ⟨t, some base, .utf8⟩).resolve root).1 = .error f
  succeeds : ∃ g, ((ofSources (Sources.ofSpelled (t.textsBelow place))).resolve root).1 = .ok g

/-- Then the two do not come to the same. -/
theorem FailsAlone.not_comesToTheSame (h : FailsAlone t base place root) :
    ¬ ComesToTheSame ((ofFolder ⟨t, some base, .utf8⟩).resolve root)
      ((ofSources (Sources.ofSpelled (t.textsBelow place))).resolve root) := by
  obtain ⟨f, hfails⟩ := h.fails
  obtain ⟨g, hsucceeds⟩ := h.succeeds
  generalize (ofFolder ⟨t, some base, .utf8⟩).resolve root = r at hfails ⊢
  generalize (ofSources (Sources.ofSpelled (t.textsBelow place))).resolve root = r'
    at hsucceeds ⊢
  rintro (hgraphs | ⟨hkind, -, -⟩)
  · cases hfails
  · cases hsucceeds

/-- A single program without declarations, at the place of a folder. -/
def singleTree (place : Location) : FileTree :=
  { entries := [(["a".toList], .directory),
      (place ++ ["main.vt".toList], .file (Text.encodeUtf8 "N\n".toList))] }

/-- If a folder refuses the root alone, it is the only one to fail. -/
theorem failsAlone_of_refused {f : Fault} (hwf : t.IsWellFormed)
    (hbase : t.IsBase base.toList place) (htexts : t.HoldsTexts place)
    (hrefused : (ofFolder ⟨t, some base, .utf8⟩).content "main.vt" = .error f)
    (htext : t.textsBelow place = [("main.vt", "N\n")]) : FailsAlone t base place "main.vt" := by
  have hcanonical : Path.canonical "main.vt" none = "main.vt" := by decide
  have hex : Explores (ofFolder ⟨t, some base, .utf8⟩).content []
      [Path.canonical "main.vt" none] [] (some ("main.vt", f)) := by
    rw [hcanonical]
    exact .fail (by decide) hrefused
  have hex' : Explores (ofSources (Sources.ofSpelled (t.textsBelow place))).content []
      [Path.canonical "main.vt" none]
      [("main.vt", ⟨[⟨[.opcode .outputNumeric], by simp⟩], [], []⟩)] none := by
    rw [hcanonical, htext]
    exact .find (by decide) rfl (.done _)
  obtain ⟨g, hg, -⟩ := resolve_of_explores hex'
  exact ⟨hwf, hbase, htexts, by decide, .of_explores rfl hex ⟨by decide, by decide⟩ (by simp),
    ⟨_, resolve_of_stop hex⟩, ⟨g, hg⟩⟩

/-- A base that is reached by many detours can be as long as a path may be; then a file in it is
refused. -/
theorem failsAlone_tooLong :
    let base := String.ofList (Path.render [] (FileTree.detours 818))
    FileTree.octetCount base.toList < FileTree.pathLimit ∧ (singleTree []).OpensFiles [] ∧
      FailsAlone (singleTree []) base [] "main.vt" := by
  intro base
  have hwf : (singleTree []).IsWellFormed := by decide
  have hbase : (singleTree []).IsBase base.toList [] := by
    rw [String.toList_ofList]
    exact FileTree.isBase_detours (t := singleTree []) (by decide) (by decide) 817
  have hname : "main.vt".toList = Path.render [] ["main.vt".toList] := by decide
  have hdown : ∀ p ∈ ["main.vt".toList], Path.IsProper p ∧ p ≠ Path.parent := by
    have hparts : ∀ p ∈ ["main.vt".toList],
        (p ≠ [] ∧ p ≠ Path.here ∧ '/' ∉ p) ∧ p ≠ Path.parent := by decide
    exact hparts
  have hpath : Folder.pathOf (some base) "main.vt" =
      Text.joinWith '/' (FileTree.detours 818 ++ ["main.vt".toList]) :=
    Folder.pathOf_detours hname hdown 817
  have hlong : FileTree.octetCount (Folder.pathOf (some base) "main.vt") = 4097 := by
    rw [hpath, FileTree.octetCount_detours]
    decide
  have hshort : FileTree.octetCount base.toList < FileTree.pathLimit := by
    have hcount : FileTree.octetCount (Path.render [] (FileTree.detours 818)) + 1 = 5 * 818 :=
      FileTree.octetCount_render_detours 817
    rw [String.toList_ofList, FileTree.pathLimit]
    omega
  have hrefused := content_of_long (t := singleTree [])
    (Folder.no_nul_pathOf hwf hbase hname hdown (by decide)) (hlong ▸ by decide)
  refine ⟨hshort, ?_, failsAlone_of_refused hwf hbase ?_ hrefused ?_⟩
  · unfold FileTree.OpensFiles
    decide
  · unfold FileTree.HoldsTexts
    decide
  · decide

/-- A file that may not be read is refused. -/
theorem failsAlone_forbidden :
    let tree := { singleTree ["a".toList] with
      forbidden := [(["a".toList, "main.vt".toList], .read)] }
    tree.IsShallow "a" ["a".toList] ∧ FailsAlone tree "a" ["a".toList] "main.vt" := by
  intro tree
  have hwf : tree.IsWellFormed := by decide
  have hrefused : (ofFolder ⟨tree, some "a", .utf8⟩).content "main.vt" =
      .error (.refused .denied "a/main.vt") := by
    rfl
  refine ⟨?_, failsAlone_of_refused hwf ⟨by decide, by decide⟩ ?_ hrefused ?_⟩
  · unfold FileTree.IsShallow
    decide
  · unfold FileTree.HoldsTexts
    decide
  · decide

/-- It does make a difference if a path is too long, and if a file may not be read: the folder then
fails alone. -/
theorem resolve_folder_refused :
    let base := String.ofList (Path.render [] (FileTree.detours 818))
    let deep := singleTree []
    let closed := { singleTree ["a".toList] with
      forbidden := [(["a".toList, "main.vt".toList], .read)] }
    (FileTree.octetCount base.toList < FileTree.pathLimit ∧ deep.OpensFiles [] ∧
      FailsAlone deep base [] "main.vt" ∧
      ¬ ComesToTheSame ((ofFolder ⟨deep, some base, .utf8⟩).resolve "main.vt")
        ((ofSources (Sources.ofSpelled (deep.textsBelow []))).resolve "main.vt")) ∧
    (closed.IsShallow "a" ["a".toList] ∧ FailsAlone closed "a" ["a".toList] "main.vt" ∧
      ¬ ComesToTheSame ((ofFolder ⟨closed, some "a", .utf8⟩).resolve "main.vt")
        ((ofSources (Sources.ofSpelled (closed.textsBelow ["a".toList]))).resolve "main.vt")) := by
  intro base deep closed
  obtain ⟨hshort, hopens, hdeep⟩ := failsAlone_tooLong
  obtain ⟨hshallow, hclosed⟩ := failsAlone_forbidden
  exact ⟨⟨hshort, hopens, hdeep, hdeep.not_comesToTheSame⟩, hshallow, hclosed,
    hclosed.not_comesToTheSame⟩

end Session

end StackFront
