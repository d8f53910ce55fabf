import StackFront.Proofs.Lookup
import StackFront.Proofs.Path.Characters

/-!
# Following paths

Parts that lead down are followed as far as there are directories that may be passed, and they lead
to the place that they spell. So a path below a directory can be read if and only if the tree has a
file at just that place, nothing on the way forbids it, and the path is not too long; it makes no
difference whether the directory itself was reached by detours.
-/
namespace StackFront.FileTree

theorem octetCount_append (s s' : List Char) :
    octetCount (s ++ s') = octetCount s + octetCount s' := by
  induction s with
  | nil => exact (Nat.zero_add _).symm
  | cons c s ih =>
    have hcons : ∀ s, octetCount (c :: s) = c.utf8Size + octetCount s := fun _ => rfl
    rw [List.cons_append, hcons, hcons, ih, Nat.add_assoc]

/-- A part that a file or a directory can be called. -/
structure IsPart (part : List Char) : Prop where
  proper : Path.IsProper part
  ne_parent : part ≠ Path.parent
  no_nul : '\x00' ∉ part
  length : octetCount part ≤ maxPart

instance (part : List Char) : Decidable (IsPart part) :=
  decidable_of_iff
    ((part ≠ [] ∧ part ≠ Path.here ∧ '/' ∉ part) ∧ part ≠ Path.parent ∧ '\x00' ∉ part ∧
      octetCount part ≤ maxPart)
    ⟨fun h => ⟨h.1, h.2.1, h.2.2.1, h.2.2.2⟩, fun h => ⟨h.1, h.2, h.3, h.4⟩⟩

/-- A tree as it is found on a disk: one entry at each place, nothing below a file, and parts that
can be written. -/
structure IsWellFormed (t : FileTree) : Prop where
  nodup : (t.entries.map Prod.fst).Nodup
  below : ∀ place octets rest entry, (place, .file octets) ∈ t.entries →
    (place ++ rest, entry) ∈ t.entries → rest = []
  entries : ∀ e ∈ t.entries, ∀ part ∈ e.1, IsPart part
  cwd : ∀ part ∈ t.cwd, IsPart part

/-- Whether a tree is as on a disk is told by comparing its entries. -/
instance (t : FileTree) : Decidable t.IsWellFormed :=
  decidable_of_iff
    ((t.entries.map Prod.fst).Nodup ∧
      (∀ e ∈ t.entries, ∀ e' ∈ t.entries, e.2 ≠ .directory → e.1 <+: e'.1 → e.1 = e'.1) ∧
      (∀ e ∈ t.entries, ∀ part ∈ e.1, IsPart part) ∧ ∀ part ∈ t.cwd, IsPart part) <| by
    constructor
    · rintro ⟨hnodup, hbelow, hentries, hcwd⟩
      refine ⟨hnodup, fun place octets rest entry hfile hrest => ?_, hentries, hcwd⟩
      have hsame := hbelow _ hfile _ hrest (by simp) (List.prefix_append place rest)
      exact List.append_right_eq_self.mp hsame.symm
    · intro h
      refine ⟨h.nodup, ?_, h.entries, h.cwd⟩
      rintro ⟨place, entry⟩ he ⟨p, entry'⟩ he' hfile ⟨rest, rfl⟩
      cases entry with
      | directory => exact absurd rfl hfile
      | file octets => rw [h.below _ _ _ _ he he', List.append_nil]

variable {t : FileTree} {place q : Location} {part : List Char} {parts rest : List (List Char)}
  {octets : List UInt8} {entry : Entry} {r : List Char}

/-- One part is followed from a directory that may be passed. -/
theorem follow_cons_eq_ok_iff : t.follow place (part :: parts) = .ok q ↔
    t.lookup place = some .directory ∧ t.allows place .pass = true ∧ octetCount part ≤ maxPart ∧
      t.follow (go place part) parts = .ok q := by
  rw [follow]
  cases t.lookup place with
  | none => simp
  | some entry =>
    cases entry with
    | file octets => simp
    | directory =>
      cases t.allows place .pass with
      | false => simp
      | true =>
        by_cases hlength : octetCount part ≤ maxPart
        · simp [hlength, Nat.not_lt.mpr hlength]
        · simp [hlength, Nat.not_le.mp hlength]

/-- A name leads to the place of that name. -/
theorem go_of_name (hproper : Path.IsProper part) (hparent : part ≠ Path.parent) :
    go place part = place ++ [part] := by
  rw [go, if_neg hproper.2.1, if_neg hparent]

/-- Parts that lead down from a place may be passed, and what they end with may be read. -/
def opens (t : FileTree) (place : Location) : List (List Char) → Bool
  | [] => t.allows place .read
  | part :: rest => t.allows place .pass && t.opens (place ++ [part]) rest

theorem mem_of_lookup_file (h : t.lookup place = some (.file octets)) :
    (place, .file octets) ∈ t.entries := by
  rw [lookup] at h
  split at h
  next e he =>
    have hplace : e.1 = place := by simpa using List.find?_some he
    rw [Option.some.injEq] at h
    rw [← hplace, ← h]
    exact List.mem_of_find?_eq_some he
  next =>
    split at h <;> cases h

namespace IsWellFormed

variable (h : t.IsWellFormed)
include h

theorem lookup_of_mem (hmem : (place, entry) ∈ t.entries) : t.lookup place = some entry := by
  have hfind : t.entries.find? (fun e => e.1 = place) = some (place, entry) :=
    find?_key h.nodup hmem
  simp only [lookup, hfind]

/-- What stands above an entry is a directory. -/
theorem lookup_above (hmem : (place ++ rest, entry) ∈ t.entries) (hne : rest ≠ []) :
    t.lookup place = some .directory := by
  rw [lookup]
  cases hfind : t.entries.find? fun e => e.1 = place with
  | some e =>
    have hplace : e.1 = place := by simpa using List.find?_some hfind
    have he := List.mem_of_find?_eq_some hfind
    obtain ⟨p, entry'⟩ := e
    subst hplace
    cases entry' with
    | directory => rfl
    | file octets => exact absurd (h.below _ _ _ _ he hmem) hne
  | none =>
    have hany : t.entries.any (fun e => place.isPrefixOf e.1) = true := by
      rw [List.any_eq_true]
      exact ⟨_, hmem, List.isPrefixOf_iff_prefix.mpr (List.prefix_append place rest)⟩
    simp only [hany, Bool.or_true, if_true]

/-- The parts that lead to an entry are followed to it, if nothing on the way forbids it. -/
theorem follow_of_mem (hmem : (place ++ parts, entry) ∈ t.entries)
    (hopens : t.opens place parts = true) : t.follow place parts = .ok (place ++ parts) := by
  induction parts generalizing place with
  | nil => rw [follow, List.append_nil]
  | cons part parts ih =>
    rw [opens, Bool.and_eq_true] at hopens
    obtain ⟨hproper, hparent, -, hlength⟩ := h.entries _ hmem part (by simp)
    have hassoc : place ++ part :: parts = place ++ [part] ++ parts := by simp
    refine follow_cons_eq_ok_iff.mpr ⟨h.lookup_above hmem (List.cons_ne_nil part parts), hopens.1,
      hlength, ?_⟩
    rw [go_of_name hproper hparent, hassoc]
    exact ih (hassoc ▸ hmem) hopens.2

/-- Wherever something stands, the parts that lead there can be written. -/
theorem isPart_of_lookup (hentry : t.lookup place = some entry) : ∀ part ∈ place, IsPart part := by
  rw [lookup] at hentry
  split at hentry
  next e he =>
    have hplace : e.1 = place := by simpa using List.find?_some he
    exact hplace ▸ h.entries e (List.mem_of_find?_eq_some he)
  next =>
    split at hentry
    next habove =>
      rw [Bool.or_eq_true, List.any_eq_true] at habove
      rcases habove with hcwd | ⟨e, he, habove⟩
      · exact fun part hpart =>
          h.cwd part ((List.isPrefixOf_iff_prefix.mp hcwd).subset hpart)
      · exact fun part hpart =>
          h.entries e he part ((List.isPrefixOf_iff_prefix.mp habove).subset hpart)
    next => cases hentry

end IsWellFormed

theorem follow_append : t.follow place (parts ++ rest) =
    match t.follow place parts with
    | .error r => .error r
    | .ok q => t.follow q rest := by
  induction parts generalizing place with
  | nil => rfl
  | cons part parts ih =>
    rw [List.cons_append, follow, follow]
    cases t.lookup place with
    | none => rfl
    | some entry =>
      cases entry with
      | file octets => rfl
      | directory =>
        simp only
        split_ifs
        · rfl
        · rfl
        · exact ih

/-- Parts that lead down lead to the place that they spell. If what is there may be read, then
nothing on the way forbids it. -/
theorem eq_of_follow (hdown : ∀ part ∈ parts, Path.IsProper part ∧ part ≠ Path.parent)
    (h : t.follow place parts = .ok q) :
    q = place ++ parts ∧ t.opens place parts = t.allows q .read := by
  induction parts generalizing place with
  | nil =>
    cases h
    exact ⟨(List.append_nil _).symm, rfl⟩
  | cons part parts ih =>
    rw [List.forall_mem_cons] at hdown
    obtain ⟨-, hpass, -, hnext⟩ := follow_cons_eq_ok_iff.mp h
    rw [go_of_name hdown.1.1 hdown.1.2] at hnext
    obtain ⟨rfl, hopens⟩ := ih hdown.2 hnext
    rw [opens, hpass, hopens, Bool.true_and]
    exact ⟨by simp, rfl⟩

/-- Parts that stand for the directory itself make no difference. -/
theorem follow_filter (h : t.follow place parts = .ok q) :
    t.follow place (parts.filter (· ≠ Path.here)) = .ok q := by
  induction parts generalizing place with
  | nil => exact h
  | cons part parts ih =>
    obtain ⟨hdirectory, hpass, hlength, hnext⟩ := follow_cons_eq_ok_iff.mp h
    by_cases hhere : part = Path.here
    · subst hhere
      rw [List.filter_cons_of_neg (by simp)]
      exact ih hnext
    · rw [List.filter_cons_of_pos (by simpa using hhere)]
      exact follow_cons_eq_ok_iff.mpr ⟨hdirectory, hpass, hlength, ih hnext⟩

/-- A way that ends in a directory begins in one, and all its parts can be written. -/
theorem isPart_of_follow (hwf : t.IsWellFormed) (h : t.follow place parts = .ok q)
    (hq : t.lookup q = some .directory) :
    t.lookup place = some .directory ∧
      ∀ part ∈ parts, part = Path.here ∨ part = Path.parent ∨ IsPart part := by
  induction parts generalizing place with
  | nil =>
    cases h
    exact ⟨hq, by simp⟩
  | cons part parts ih =>
    obtain ⟨hdirectory, -, -, hfollow⟩ := follow_cons_eq_ok_iff.mp h
    obtain ⟨hnext, hparts⟩ := ih hfollow
    refine ⟨hdirectory, List.forall_mem_cons.mpr ⟨?_, hparts⟩⟩
    by_cases hhere : part = Path.here
    · exact .inl hhere
    by_cases hparent : part = Path.parent
    · exact .inr (.inl hparent)
    rw [go, if_neg hhere, if_neg hparent] at hnext
    exact .inr (.inr (hwf.isPart_of_lookup hnext part (by simp)))

theorem properParts_eq_filter (path : List Char) :
    Path.properParts path = (partsOf path).filter (· ≠ Path.here) := by
  rw [Path.properParts, partsOf, List.filter_filter]
  congr 1
  funext part
  simp [Bool.and_comm]

/-- The parts of a path that is rendered from proper parts, of which there are some. -/
theorem partsOf_render (hr : Path.IsRoot r) (hne : parts ≠ [])
    (h : ∀ p ∈ parts, Path.IsProper p) : partsOf (Path.render r parts) = parts := by
  have hsplit : Text.splitAt '/' (Text.joinWith '/' parts) = parts :=
    Text.splitAt_joinWith hne fun p hp => (h p hp).2.2
  have hslash : ∀ s, Text.splitAt '/' ('/' :: s) = [] :: Text.splitAt '/' s := fun s => by
    simp [Text.splitAt]
  have hfilter : parts.filter (· ≠ []) = parts := by
    rw [List.filter_eq_self]
    intro p hp
    simpa using (h p hp).1
  rcases hr with rfl | rfl | rfl
  · rw [Path.render_nil hne h, partsOf, hsplit, hfilter]
  · rw [Path.render_cons, partsOf, List.cons_append, List.nil_append, hslash, hsplit,
      List.filter_cons_of_neg (by simp), hfilter]
  · rw [Path.render_cons, partsOf, List.cons_append, List.cons_append, List.nil_append, hslash,
      hslash, hsplit, List.filter_cons_of_neg (by simp), List.filter_cons_of_neg (by simp), hfilter]

/-- Such a path does not end with a slash. -/
theorem getLast?_render (hr : Path.IsRoot r) (hne : parts ≠ [])
    (h : ∀ p ∈ parts, Path.IsProper p) : (Path.render r parts).getLast? ≠ some '/' := by
  obtain ⟨front, last, rfl⟩ := (List.eq_nil_or_concat' parts).resolve_left hne
  obtain ⟨hlast, -, hslash⟩ := h last (by simp)
  have hjoin : ∃ s, Text.joinWith '/' (front ++ [last]) = s ++ last := by
    by_cases hfront : front = []
    · exact ⟨[], by rw [hfront]; rfl⟩
    · exact ⟨Text.joinWith '/' front ++ ['/'], by
        rw [Text.joinWith_append hfront (by simp), List.append_assoc]; rfl⟩
  have hrender : ∃ s, Path.render r (front ++ [last]) = s ++ last := by
    obtain ⟨s, hs⟩ := hjoin
    rcases hr with rfl | rfl | rfl
    · exact ⟨s, by rw [Path.render_nil hne h, hs]⟩
    · exact ⟨['/'] ++ s, by rw [Path.render_cons, hs, List.append_assoc]⟩
    · exact ⟨['/', '/'] ++ s, by rw [Path.render_cons, hs, List.append_assoc]⟩
  obtain ⟨s, hs⟩ := hrender
  rw [hs, List.getLast?_append_of_ne_nil _ hlast]
  exact fun hmem => hslash (List.mem_of_getLast? hmem)

/-- A file is read at a path that is not too long and leads to it, and that is not spelled like the
path of a directory. -/
theorem read_eq_ok_iff {path : List Char} (hpath : path ≠ []) :
    t.read path = .ok octets ↔ octetCount path < pathLimit ∧ path.getLast? ≠ some '/' ∧
      ∃ q, t.follow (t.start path) (partsOf path) = .ok q ∧
        t.lookup q = some (.file octets) ∧ t.allows q .read = true := by
  rw [read, find, checkPath, if_neg hpath]
  by_cases hlong : octetCount path ≥ pathLimit
  · simp [if_pos hlong, Nat.not_lt.mpr hlong]
  · rw [if_neg hlong]
    simp only [Nat.not_le.mp hlong, true_and]
    cases t.follow (t.start path) (partsOf path) with
    | error r => simp
    | ok q =>
      simp only [Except.ok.injEq, exists_eq_left']
      rcases t.lookup q with _ | (found | _)
      · simp
      · by_cases hslash : path.getLast? = some '/'
        · simp [hslash]
        · cases hread : t.allows q .read <;> simp [hslash, hread]
      · cases hread : t.allows q .read <;> simp [hread]

/-- A path that is too long is not followed. -/
theorem read_of_long {path : List Char} (h : pathLimit ≤ octetCount path) :
    t.read path = .error .nameTooLong := by
  have hne : path ≠ [] := by
    rintro rfl
    exact absurd h (by decide)
  rw [read, find, checkPath, if_neg hne, if_pos h]

/-- What is rendered is not empty. -/
theorem render_ne_nil : Path.render r parts ≠ [] := by
  unfold Path.render
  split
  · exact List.cons_ne_nil _ _
  next hne => exact fun h => hne h

/-- The base path leads to a directory. -/
structure IsBase (t : FileTree) (base : List Char) (place : Location) : Prop where
  follows : t.follow (t.start base) (partsOf base) = .ok place
  isDirectory : t.lookup place = some .directory

/-- Below a base, the files that can be read are those that stand there. -/
theorem IsBase.read_eq_ok_iff {base : List Char} (hbase : t.IsBase base place)
    (hwf : t.IsWellFormed) (hdown : ∀ p ∈ parts, Path.IsProper p ∧ p ≠ Path.parent) :
    t.read (Path.render (Path.root base) (Path.properParts base ++ parts)) = .ok octets ↔
      octetCount (Path.render (Path.root base) (Path.properParts base ++ parts)) < pathLimit ∧
        (place ++ parts, .file octets) ∈ t.entries ∧ t.opens place parts = true := by
  have hproper : ∀ p ∈ Path.properParts base ++ parts, Path.IsProper p := by
    intro p hp
    rcases List.mem_append.mp hp with hp | hp
    · exact Path.isProper_properParts base p hp
    · exact (hdown p hp).1
  have hroot := Path.isRoot_root base
  have hstart : t.start (Path.render (Path.root base) (Path.properParts base ++ parts)) =
      t.start base := by
    rw [start, start, Path.isAbsolute_render hroot hproper, ← Path.isAbsolute_eq_root]
  have hplace : t.follow (t.start base) (Path.properParts base) = .ok place := by
    rw [properParts_eq_filter]
    exact follow_filter hbase.follows
  rw [FileTree.read_eq_ok_iff render_ne_nil, hstart]
  refine and_congr_right fun _ => ⟨?_, fun ⟨hmem, hopens⟩ => ?_⟩
  · rintro ⟨-, q, hfollow, hlookup, hread⟩
    have hparts := follow_filter hfollow
    rw [← properParts_eq_filter, Path.properParts_render hroot hproper, follow_append,
      hplace] at hparts
    obtain ⟨rfl, hopens⟩ := eq_of_follow hdown hparts
    exact ⟨mem_of_lookup_file hlookup, hopens.trans hread⟩
  · have hne : Path.properParts base ++ parts ≠ [] := by
      intro hnil
      rw [(List.append_eq_nil_iff.mp hnil).2, List.append_nil] at hmem
      have hlookup := hwf.lookup_of_mem hmem
      rw [hbase.isDirectory] at hlookup
      cases hlookup
    have hfollow := hwf.follow_of_mem hmem hopens
    refine ⟨getLast?_render hroot hne hproper, place ++ parts, ?_, hwf.lookup_of_mem hmem,
      (eq_of_follow hdown hfollow).2.symm.trans hopens⟩
    rw [partsOf_render hroot hne hproper, follow_append, hplace]
    exact hfollow

/-- The path of a base can be written. -/
theorem IsBase.no_nul {base : List Char} (hbase : t.IsBase base place) (hwf : t.IsWellFormed) :
    '\x00' ∉ base := by
  intro hmem
  rw [← Text.joinWith_splitAt '/' base] at hmem
  rcases Text.mem_joinWith hmem with hslash | ⟨part, hpart, hnul⟩
  · exact absurd hslash (by decide)
  · have hparts : part ∈ partsOf base := by
      rw [partsOf, List.mem_filter]
      exact ⟨hpart, by simpa using List.ne_nil_of_mem hnul⟩
    rcases (isPart_of_follow hwf hbase.follows hbase.isDirectory).2 part hparts with rfl | rfl | h
    · exact absurd hnul (by decide)
    · exact absurd hnul (by decide)
    · exact h.no_nul hnul

end StackFront.FileTree
