import StackFront.FileTree
import StackFront.Path.Normal

/-!
# Stores

A store holds source texts by name. It answers every name with a text or a fault, and it answers
only finitely many canonical names with a text: that is what makes every walk through it end. Two
kinds are provided, a list of texts and a directory of a file tree.
-/
namespace StackFront

/-- Whether a name is the canonical spelling of some reference. -/
def Path.IsCanonical (name : Name) : Prop :=
  ∃ target referrer, name = Path.canonical target referrer

/-- A holder of source texts. -/
structure Store where
  read : Name → Except Fault String
  finite : ∃ names : List Name, ∀ name text,
    Path.IsCanonical name → read name = .ok text → name ∈ names

namespace Store

/-- The canonical names that a store may hold a text for. -/
noncomputable def names (s : Store) : List Name :=
  s.finite.choose

theorem mem_names {s : Store} {name : Name} {text : String} (hc : Path.IsCanonical name)
    (h : s.read name = .ok text) : name ∈ s.names :=
  s.finite.choose_spec name text hc h

/-- The same store with a text under the canonical form of a name, in place of what was there. -/
def provide (s : Store) (spelled text : String) : Store where
  read name := if name = Path.canonical spelled none then .ok text else s.read name
  finite := by
    obtain ⟨names, h⟩ := s.finite
    refine ⟨Path.canonical spelled none :: names, fun name found hc hr => ?_⟩
    by_cases hn : name = Path.canonical spelled none
    · simp [hn]
    · rw [if_neg hn] at hr
      exact List.mem_cons_of_mem _ (h name found hc hr)

end Store

/-- Source texts under their canonical names; the first text of a name counts. -/
abbrev Sources := List (Name × String)

namespace Sources

/-- The text of a name. -/
def find? (sources : Sources) (name : Name) : Option String :=
  (List.find? (fun s => s.1 = name) sources).map (·.2)

/-- Adds a text under the canonical form of a name, in place of an earlier one. -/
def add (sources : Sources) (name text : String) : Sources :=
  (Path.canonical name none, text) :: sources

/-- The sources in a table of spelled names; of two spellings of one name the later one counts. -/
def ofSpelled (spelled : List (String × String)) : Sources :=
  spelled.foldl (fun sources s => sources.add s.1 s.2) []

/-- A store of texts in memory. -/
def store (sources : Sources) : Store where
  read name :=
    match sources.find? name with
    | some text => .ok text
    | none => .error (StorageError.noSource name)
  finite := by
    refine ⟨List.map Prod.fst sources, fun name text _ h => ?_⟩
    cases hf : sources.find? name with
    | none => simp [hf] at h
    | some found =>
      simp only [find?, Option.map_eq_some_iff] at hf
      obtain ⟨s, hs, -⟩ := hf
      have hname := List.find?_some hs
      exact List.mem_map.mpr ⟨s, List.mem_of_find?_eq_some hs, by simpa using hname⟩

end Sources

/-- A directory of a file tree, in which sources are stored in one encoding. -/
structure Folder where
  tree : FileTree
  base : Option String := none
  encoding : Text.Encoding := .utf8

namespace Folder

/-- The path at which the source of a name is kept. -/
def pathOf (base : Option String) (name : Name) : List Char :=
  match base with
  | none => Path.tidy name.toList
  | some base => Path.tidyBelow base.toList name.toList

/-- Reads the text file at a path, with every line end as a line feed. -/
def readText (tree : FileTree) (encoding : Text.Encoding) (path : List Char) :
    Except Fault String :=
  if '\x00' ∈ path then .error BadValue.nulInPath
  else
    match tree.read path with
    | .error r => .error (.refused r (String.ofList path))
    | .ok octets =>
      match encoding.decode octets with
      | .error e => .error e
      | .ok text => .ok (String.ofList (Text.unifyLineEnds text))

/-- Writes a text file, encoded as UTF-8. -/
def writeText (tree : FileTree) (path text : List Char) : Except Fault FileTree :=
  if '\x00' ∈ path then .error BadValue.nulInPath
  else
    (tree.write path (Text.encodeUtf8 text)).mapError fun r => .refused r (String.ofList path)

theorem length_le_octetCount (s : List Char) : s.length ≤ FileTree.octetCount s := by
  induction s with
  | nil => simp
  | cons c rest ih =>
    have := Char.utf8Size_pos c
    simp only [FileTree.octetCount, List.foldr_cons, List.length_cons] at ih ⊢
    omega

/-- A path that can be read is shorter than the limit. -/
theorem length_lt_of_readText {tree : FileTree} {encoding : Text.Encoding} {path : List Char}
    {text : String} (h : readText tree encoding path = .ok text) :
    path.length < FileTree.pathLimit := by
  have hcount := length_le_octetCount path
  by_cases hlong : FileTree.octetCount path ≥ FileTree.pathLimit
  · have hcheck : ∃ r, FileTree.checkPath path = .error r := by
      unfold FileTree.checkPath
      split
      · exact ⟨_, rfl⟩
      · exact ⟨_, rfl⟩
    obtain ⟨r, hr⟩ := hcheck
    simp only [readText, FileTree.read, FileTree.find, hr] at h
    split at h <;> cases h
  · omega

theorem length_le_pathOf {name : Name} (hc : Path.IsCanonical name) (base : Option String) :
    name.toList.length ≤ (pathOf base name).length + 1 := by
  obtain ⟨target, referrer, rfl⟩ := hc
  cases base with
  | none =>
    obtain ⟨r, parts, hn, hr, hp⟩ := Path.canonical_eq_render target referrer
    rw [pathOf, hn, Path.tidy_render hr hp]
    omega
  | some base =>
    rw [pathOf]
    have := Path.length_le_tidyBelow target referrer base.toList
    omega

/-- There are only finitely many texts up to a given length. -/
theorem exists_all_texts (n : Nat) :
    ∃ texts : List String, ∀ s : String, s.toList.length ≤ n → s ∈ texts := by
  have hchars : ∃ chars : List Char, ∀ c, c ∈ chars := by
    refine ⟨(List.range 0x110000).map Char.ofNat, fun c => List.mem_map.mpr ⟨c.toNat, ?_, ?_⟩⟩
    · exact List.mem_range.mpr (Text.toNat_lt c)
    · exact Char.ofNat_toNat c
  obtain ⟨chars, hchars⟩ := hchars
  have hlists : ∃ texts : List (List Char), ∀ s, s.length ≤ n → s ∈ texts := by
    induction n with
    | zero => exact ⟨[[]], fun s hs => by
        rw [List.length_eq_zero_iff.mp (Nat.le_zero.mp hs)]
        exact List.mem_singleton_self _⟩
    | succ n ih =>
      obtain ⟨texts, h⟩ := ih
      refine ⟨[] :: chars.flatMap fun c => texts.map (c :: ·), fun s hs => ?_⟩
      cases s with
      | nil => exact List.mem_cons_self ..
      | cons c rest =>
        refine List.mem_cons_of_mem _ (List.mem_flatMap.mpr ⟨c, hchars c, ?_⟩)
        exact List.mem_map.mpr ⟨rest, h rest (by simpa using hs), rfl⟩
  obtain ⟨texts, h⟩ := hlists
  exact ⟨texts.map String.ofList, fun s hs =>
    List.mem_map.mpr ⟨s.toList, h s.toList hs, String.ofList_toList⟩⟩

/-- The store of a folder. Since paths are limited in length, it holds finitely many canonical
names. -/
def store (f : Folder) : Store where
  read name := readText f.tree f.encoding (pathOf f.base name)
  finite := by
    obtain ⟨texts, h⟩ := exists_all_texts FileTree.pathLimit
    refine ⟨texts, fun name text hc hr => h name ?_⟩
    have hshort := length_lt_of_readText hr
    have hlong := length_le_pathOf hc f.base
    omega

end Folder

end StackFront
