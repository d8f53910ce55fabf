import StackFront.Proofs.FileTree.Following
import StackFront.Proofs.Lookup
import StackFront.Proofs.Path.Relocation

/-!
# Texts of files

The files below a directory can be held as texts in memory, each under its path from there. What is
read in the directory under a canonical name below it is then what is read in memory under that
name: the text of the file that stands at this place. Names that no file stands under, be it because
they lead to a directory, through a file or nowhere, are refused by both. Only paths have a limit
that names in memory do not have, and only files may be forbidden.
-/
namespace StackFront

namespace FileTree

/-- The files below a place, each under the parts that lead to it from there. -/
def filesBelow (t : FileTree) (place : Location) : List (Location × List UInt8) :=
  t.entries.filterMap fun e =>
    match e.2 with
    | .file octets => if place.isPrefixOf e.1 then some (e.1.drop place.length, octets) else none
    | .directory => none

/-- The path of parts that lead down. -/
def pathFrom (parts : Location) : String :=
  String.ofList (Text.joinWith '/' parts)

/-- The text of a file, with every line end as a line feed. -/
def textOf (octets : List UInt8) : Option String :=
  match Text.Encoding.utf8.decode octets with
  | .ok text => some (String.ofList (Text.unifyLineEnds text))
  | .error _ => none

/-- The texts of the files below a place under their paths from there. -/
def textsBelow (t : FileTree) (place : Location) : List (String × String) :=
  (t.filesBelow place).filterMap fun f => (textOf f.2).map (pathFrom f.1, ·)

variable {t : FileTree} {place parts : Location} {octets : List UInt8} {name text : String}

theorem mem_filesBelow :
    (parts, octets) ∈ t.filesBelow place ↔ (place ++ parts, .file octets) ∈ t.entries := by
  rw [filesBelow, List.mem_filterMap]
  constructor
  · rintro ⟨⟨p, entry⟩, hmem, h⟩
    cases entry with
    | directory => cases h
    | file found =>
      simp only [Option.ite_none_right_eq_some, Option.some.injEq, Prod.mk.injEq] at h
      obtain ⟨habove, rfl, rfl⟩ := h
      obtain ⟨rest, rfl⟩ := List.isPrefixOf_iff_prefix.mp habove
      rwa [List.drop_left]
  · intro hmem
    refine ⟨_, hmem, ?_⟩
    have habove : place.isPrefixOf (place ++ parts) = true :=
      List.isPrefixOf_iff_prefix.mpr (List.prefix_append place parts)
    simp only [habove, if_true, List.drop_left]

theorem mem_textsBelow : (name, text) ∈ t.textsBelow place ↔
    ∃ parts octets, (place ++ parts, .file octets) ∈ t.entries ∧ pathFrom parts = name ∧
      textOf octets = some text := by
  rw [textsBelow, List.mem_filterMap]
  constructor
  · rintro ⟨⟨parts, octets⟩, hmem, h⟩
    rw [Option.map_eq_some_iff] at h
    obtain ⟨found, hfound, heq⟩ := h
    cases heq
    exact ⟨parts, octets, mem_filesBelow.mp hmem, rfl, hfound⟩
  · rintro ⟨parts, octets, hmem, rfl, htext⟩
    exact ⟨(parts, octets), mem_filesBelow.mpr hmem, by rw [htext]; rfl⟩

/-- All files below a place hold texts. -/
def HoldsTexts (t : FileTree) (place : Location) : Prop :=
  ∀ f ∈ t.filesBelow place, (textOf f.2).isSome

/-- The paths of all files below a place are short enough, if they begin with the given base. -/
def IsShallow (t : FileTree) (base : String) (place : Location) : Prop :=
  ∀ f ∈ t.filesBelow place, octetCount (Folder.pathOf (some base) (pathFrom f.1)) < pathLimit

/-- All files below a place may be read from there. -/
def OpensFiles (t : FileTree) (place : Location) : Prop :=
  ∀ f ∈ t.filesBelow place, t.opens place f.1 = true

/-- Below a directory no file stands at the directory itself. -/
theorem parts_of_file (hwf : t.IsWellFormed) (hdirectory : t.lookup place = some .directory)
    (hmem : (place ++ parts, .file octets) ∈ t.entries) :
    parts ≠ [] ∧ ∀ p ∈ parts, Path.IsProper p ∧ p ≠ Path.parent := by
  constructor
  · rintro rfl
    rw [List.append_nil] at hmem
    have hlookup := hwf.lookup_of_mem hmem
    rw [hdirectory] at hlookup
    cases hlookup
  · intro p hp
    have hpart := hwf.entries _ hmem p (List.mem_append_right place hp)
    exact ⟨hpart.proper, hpart.ne_parent⟩

theorem toList_pathFrom (hne : parts ≠ [])
    (hdown : ∀ p ∈ parts, Path.IsProper p ∧ p ≠ Path.parent) :
    (pathFrom parts).toList = Path.render [] parts := by
  rw [pathFrom, String.toList_ofList, Path.render_nil hne fun p hp => (hdown p hp).1]

theorem pathFrom_eq (hne : parts ≠ []) (hdown : ∀ p ∈ parts, Path.IsProper p ∧ p ≠ Path.parent)
    (hname : name.toList = Path.render [] parts) : pathFrom parts = name :=
  String.toList_injective (by rw [toList_pathFrom hne hdown, hname])

theorem isCanonical_pathFrom (hne : parts ≠ [])
    (hdown : ∀ p ∈ parts, Path.IsProper p ∧ p ≠ Path.parent) :
    Path.IsCanonical (pathFrom parts) := by
  have hsettled : Path.Settled false parts.reverse := .of_names fun p hp =>
    hdown p (List.mem_reverse.mp hp)
  have hnormal : Path.IsNormal (Path.render [] parts) [] parts := ⟨rfl, .inl rfl, hsettled⟩
  refine ⟨pathFrom parts, none, String.toList_injective ?_⟩
  rw [Path.canonical, String.toList_ofList, Option.map_none, Path.canonicalChars,
    toList_pathFrom hne hdown, hnormal.normalize_eq]

end FileTree

/-- Any text of a name makes it readable. -/
theorem Sources.exists_read_ofSpelled {spelled : List (String × String)} {name : Name}
    {text : String} (hcanonical : ∀ s ∈ spelled, Path.IsCanonical s.1)
    (h : (name, text) ∈ spelled) : ∃ found, (ofSpelled spelled).store.read name = .ok found := by
  have hfind : (spelled.reverse.find? fun s => s.1 = name).isSome := by
    rw [List.find?_isSome]
    exact ⟨_, List.mem_reverse.mpr h, by simp⟩
  obtain ⟨s, hs⟩ := Option.isSome_iff_exists.mp hfind
  exact ⟨s.2, by simp only [store, ofSpelled_of_canonical hcanonical, find?, hs, Option.map_some]⟩

/-- What is not read is reported as missing. -/
theorem Sources.read_of_ne_ok {sources : Sources} {name : Name}
    (h : ∀ text, sources.store.read name ≠ .ok text) :
    sources.store.read name = .error (StorageError.noSource name) := by
  simp only [store] at h ⊢
  cases hfind : sources.find? name with
  | none => rfl
  | some text => exact absurd (by rw [hfind]) (h text)

section Read

variable {t : FileTree} {base : String} {place parts : Location} {octets : List UInt8}
  {name : Name} {text : String}

/-- In memory, a name has the text of the file that stands under it. -/
theorem Sources.read_textsBelow_iff (hwf : t.IsWellFormed)
    (hdirectory : t.lookup place = some .directory) (hname : name.toList = Path.render [] parts)
    (hdown : ∀ p ∈ parts, Path.IsProper p ∧ p ≠ Path.parent) :
    (ofSpelled (t.textsBelow place)).store.read name = .ok text ↔
      ∃ octets, (place ++ parts, .file octets) ∈ t.entries ∧
        FileTree.textOf octets = some text := by
  have hcanonical : ∀ s ∈ t.textsBelow place, Path.IsCanonical s.1 := by
    rintro ⟨key, found⟩ hs
    obtain ⟨ps, octets, hmem, rfl, -⟩ := FileTree.mem_textsBelow.mp hs
    obtain ⟨hne, hps⟩ := FileTree.parts_of_file hwf hdirectory hmem
    exact FileTree.isCanonical_pathFrom hne hps
  have hread : ∀ {found}, (ofSpelled (t.textsBelow place)).store.read name = .ok found →
      ∃ octets, (place ++ parts, .file octets) ∈ t.entries ∧
        FileTree.textOf octets = some found := by
    intro found hfound
    obtain ⟨ps, octets, hmem, hkey, htext⟩ :=
      FileTree.mem_textsBelow.mp (mem_of_read_ofSpelled hcanonical hfound)
    obtain ⟨hne, hps⟩ := FileTree.parts_of_file hwf hdirectory hmem
    have hsame : Path.render [] ps = Path.render [] parts := by
      rw [← FileTree.toList_pathFrom hne hps, hkey, hname]
    have hparts := congrArg Path.properParts hsame
    rw [Path.properParts_render (.inl rfl) fun p hp => (hps p hp).1,
      Path.properParts_render (.inl rfl) fun p hp => (hdown p hp).1] at hparts
    exact ⟨octets, hparts ▸ hmem, htext⟩
  refine ⟨hread, ?_⟩
  rintro ⟨octets, hmem, htext⟩
  obtain ⟨hne, -⟩ := FileTree.parts_of_file hwf hdirectory hmem
  have hkey : FileTree.pathFrom parts = name := FileTree.pathFrom_eq hne hdown hname
  obtain ⟨found, hfound⟩ := exists_read_ofSpelled hcanonical
    (FileTree.mem_textsBelow.mpr ⟨parts, octets, hmem, hkey, htext⟩)
  -- there is one file at that place
  obtain ⟨octets', hmem', htext'⟩ := hread hfound
  have hlookup := hwf.lookup_of_mem hmem
  rw [hwf.lookup_of_mem hmem', Option.some.injEq, Entry.file.injEq] at hlookup
  rw [hlookup, htext, Option.some.injEq] at htext'
  rw [hfound, htext']

theorem Folder.pathOf_below (hname : name.toList = Path.render [] parts)
    (hdown : ∀ p ∈ parts, Path.IsProper p ∧ p ≠ Path.parent) :
    pathOf (some base) name =
      Path.render (Path.root base.toList) (Path.properParts base.toList ++ parts) := by
  have hproper : ∀ p ∈ parts, Path.IsProper p := fun p hp => (hdown p hp).1
  have hrel : Path.isAbsolute (Path.render [] parts) = false := by
    rw [Path.isAbsolute_render (.inl rfl) hproper]
    rfl
  rw [pathOf, Path.tidyBelow, hname, hrel, if_neg Bool.false_ne_true,
    Path.properParts_render (.inl rfl) hproper]

/-- The path of a name in a folder can be written if the name can. -/
theorem Folder.no_nul_pathOf (hwf : t.IsWellFormed) (hbase : t.IsBase base.toList place)
    (hname : name.toList = Path.render [] parts)
    (hdown : ∀ p ∈ parts, Path.IsProper p ∧ p ≠ Path.parent) (hnul : '\x00' ∉ name.toList) :
    '\x00' ∉ pathOf (some base) name := by
  rw [pathOf_below hname hdown]
  intro hmem
  rcases Path.mem_render (Path.isRoot_root _) hmem with h | h | ⟨part, hpart, h⟩
  · exact absurd h (by decide)
  · exact absurd h (by decide)
  · rcases List.mem_append.mp hpart with hpart | hpart
    · rw [Path.properParts] at hpart
      exact hbase.no_nul hwf (Text.mem_of_mem_splitAt (List.mem_filter.mp hpart).1 h)
    · apply hnul
      have hne : parts ≠ [] := List.ne_nil_of_mem hpart
      rw [hname, Path.render_nil hne fun p hp => (hdown p hp).1]
      exact Text.mem_joinWith_of_mem hpart h

/-- What a folder answers for a name below it: the text of the file that stands under it, if its
path is not too long and it may be read, or else a refusal. -/
inductive Folder.Answers (t : FileTree) (base : String) (place parts : Location) (name : Name) :
    Except Fault String → Prop
  | text {octets : List UInt8} {text : String} (hmem : (place ++ parts, .file octets) ∈ t.entries)
      (htext : FileTree.textOf octets = some text) :
      Answers t base place parts name (.ok text)
  | refused (r : Refusal)
      (hnone : ∀ octets, (place ++ parts, .file octets) ∈ t.entries →
        FileTree.pathLimit ≤ FileTree.octetCount (pathOf (some base) name) ∨
          t.opens place parts = false) :
      Answers t base place parts name
        (.error (.refused r (String.ofList (pathOf (some base) name))))

theorem Folder.answers (hwf : t.IsWellFormed) (hbase : t.IsBase base.toList place)
    (htexts : t.HoldsTexts place) (hname : name.toList = Path.render [] parts)
    (hdown : ∀ p ∈ parts, Path.IsProper p ∧ p ≠ Path.parent) (hnul : '\x00' ∉ name.toList) :
    Answers t base place parts name ((store ⟨t, some base, .utf8⟩).read name) := by
  have hpath : pathOf (some base) name = _ := pathOf_below hname hdown
  simp only [store, readText, if_neg (no_nul_pathOf hwf hbase hname hdown hnul)]
  cases hread : t.read (pathOf (some base) name) with
  | error r =>
    refine .refused r fun octets hmem => ?_
    by_contra hfree
    rw [not_or, Nat.not_le, Bool.not_eq_false] at hfree
    rw [hpath] at hread hfree
    rw [(hbase.read_eq_ok_iff hwf hdown).mpr ⟨hfree.1, hmem, hfree.2⟩] at hread
    cases hread
  | ok octets =>
    rw [hpath, hbase.read_eq_ok_iff hwf hdown] at hread
    obtain ⟨text, htext⟩ := Option.isSome_iff_exists.mp
      (htexts (parts, octets) (FileTree.mem_filesBelow.mpr hread.2.1))
    have hdecode := htext
    rw [FileTree.textOf] at hdecode
    simp only
    split at hdecode
    next chars hchars =>
      rw [Option.some.injEq] at hdecode
      simp only [hchars, hdecode]
      exact .text hread.2.1 htext
    next => cases hdecode

end Read

end StackFront
