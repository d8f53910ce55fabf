import StackFront.Proofs.Image.Payload

/-!
# Names of code points

Names are texts here, and texts hold scalar values. A name may elsewhere be any sequence of code
points, with halves of surrogate pairs among them. An image is written with such names in the same
way, but it does not tell them: two halves side by side are escaped just as the character is that
the pair stands for.
-/
namespace StackFront

/-- A code point: a scalar value or half of a surrogate pair. -/
abbrev Text.Point := Fin 0x110000

def Text.point (c : Char) : Point :=
  ⟨c.toNat, toNat_lt c⟩

/-- The code points of a text. -/
def Text.points (s : String) : List Point :=
  s.toList.map point

namespace Json

/-- A code point inside a JSON string. -/
def escapedPoint (n : Text.Point) : List Char :=
  if n.val.isValidChar then escapedChar (Char.ofNat n) else escapedUnit n

/-- A JSON string of code points with its quotes. -/
def printedPoints (s : List Text.Point) : List Char :=
  '\x22' :: s.flatMap escapedPoint ++ ['\x22']

theorem escapedPoint_point (c : Char) : escapedPoint (Text.point c) = escapedChar c := by
  have hvalid : (Text.point c).val.isValidChar := c.valid
  rw [escapedPoint, if_pos hvalid, Text.point, Char.ofNat_toNat]

theorem printedPoints_points (s : String) : printedPoints (Text.points s) = printedString s := by
  rw [printedPoints, Text.points, List.flatMap_map, printedString]
  simp only [escapedPoint_point]

end Json

namespace Image

open Text (Point)

/-- Members with keys of code points, without blanks. -/
def pointMembers : List (List Point × Json) → List Char
  | [] => []
  | [(key, v)] => Json.printedPoints key ++ ':' :: v.compact
  | (key, v) :: m :: rest =>
    Json.printedPoints key ++ ':' :: v.compact ++ ',' :: pointMembers (m :: rest)

/-- Members in the order of their keys. -/
def sortPointMembers (members : List (List Point × Json)) : List (List Point × Json) :=
  members.mergeSort fun m n => !(n.1 < m.1)

/-- The text that the digest of an image is taken of, if its names are sequences of code points. -/
def pointPayload (root : List Point) (entries : List (List Point × Json)) : List Char :=
  let programs := sortPointMembers (entries.map fun e => (e.1, sortKeys e.2))
  '\x7b' :: (Json.printedString programsKey ++
    ':' :: ('\x7b' :: pointMembers programs ++ ['\x7d']) ++
    ',' :: (Json.printedString rootKey ++ ':' :: Json.printedPoints root ++
      ',' :: (Json.printedString versionKey ++ ':' :: Json.printedString version))) ++ ['\x7d']

theorem points_lt_iff {s t : String} : Text.points s < Text.points t ↔ s < t := by
  rw [String.lt_iff, Text.points, Text.points]
  generalize s.toList = cs
  generalize t.toList = ds
  induction cs generalizing ds with
  | nil => cases ds <;> simp
  | cons c cs ih =>
    cases ds with
    | nil => simp
    | cons d ds =>
      have hlt : Text.point c < Text.point d ↔ c < d := Iff.rfl
      have heq : Text.point c = Text.point d ↔ c = d := by
        rw [Fin.ext_iff]
        exact Char.toNat_inj
      rw [List.map_cons, List.map_cons, List.cons_lt_cons_iff, List.cons_lt_cons_iff, hlt, heq, ih]

/-- The members of an object with their keys as code points. -/
def pointed (members : List (String × Json)) : List (List Point × Json) :=
  members.map fun m => (Text.points m.1, m.2)

theorem pointMembers_pointed (members : List (String × Json)) :
    pointMembers (pointed members) = Json.compactMembers members := by
  induction members with
  | nil => rfl
  | cons m members ih =>
    obtain ⟨key, v⟩ := m
    cases members with
    | nil => simp [pointed, pointMembers, Json.compactMembers, Json.printedPoints_points]
    | cons m members =>
      simp only [pointed, List.map_cons] at ih
      simp only [pointed, List.map_cons, pointMembers, Json.compactMembers,
        Json.printedPoints_points, ih]

theorem sortPointMembers_pointed (members : List (String × Json)) :
    sortPointMembers (pointed members) = pointed (sortMembers members) := by
  rw [sortPointMembers, pointed, pointed, sortMembers]
  refine (List.map_mergeSort fun m _ n _ => ?_).symm
  simp only [points_lt_iff]

theorem sorted_digested (root : Name) (entries : List (String × Json)) :
    sorted (digested root entries) = [(programsKey, .object (sorted entries)),
      (rootKey, .string root), (versionKey, .string version)] := by
  have hkeys : [programsKey, rootKey, versionKey].Pairwise fun a b => !(b < a) := by decide
  have hperm : (sortEach (digested root entries)).Perm
      [(programsKey, .object (sorted entries)), (rootKey, .string root),
        (versionKey, .string version)] := by
    simp only [digested, sortEach, sortKeys]
    exact List.reverse_perm [_, _, _]
  have hnodup : ((sortEach (digested root entries)).map Prod.fst).Nodup := by
    rw [fst_sortEach]
    exact nodup_digested root entries
  rw [sorted, sortMembers_congr hnodup hperm]
  exact List.mergeSort_of_pairwise (.of_map Prod.fst (fun _ _ h => h) hkeys)

/-- Names that are texts make no difference. -/
theorem payload_eq_pointPayload {g : Graph} {entries : List (String × Json)} (timestamp : String)
    (h : entriesOf g.nodes = .ok entries) : ∃ doc, ofGraph timestamp g = .ok doc ∧
      payload doc = .ok (pointPayload (Text.points g.root) (pointed entries)) := by
  obtain ⟨doc, hdoc, hpayload⟩ := payload_ofGraph timestamp h
  have hentries : (pointed entries).map (fun e => (e.1, sortKeys e.2)) =
      pointed (sortEach entries) := by
    rw [sortEach_eq, pointed, pointed, List.map_map, List.map_map]
    rfl
  refine ⟨doc, hdoc, ?_⟩
  rw [hpayload, sorted_digested, pointPayload, hentries, sortPointMembers_pointed,
    pointMembers_pointed, ← sorted, Json.printedPoints_points]
  simp only [Json.compact, Json.compactMembers]

/-- The text of a single program depends on how its name is escaped. -/
theorem pointPayload_congr {name name' : List Point} (value : Json)
    (h : Json.printedPoints name = Json.printedPoints name') :
    pointPayload name [(name, value)] = pointPayload name' [(name', value)] := by
  have hsingle : ∀ key : List Point, sortPointMembers [(key, sortKeys value)] =
      [(key, sortKeys value)] := fun key => List.mergeSort_singleton _
  simp only [pointPayload, List.map_cons, List.map_nil, hsingle, pointMembers, h]

/-- A character beyond the basic plane and the two halves of its pair: a program that is called by
the one and a program that is called by the other have the same text. -/
theorem payload_halves :
    let halves : List Point := [0xD835, 0xDD38]
    let entry : Json := .object [(methodsKey, .array [.string "m"]),
      (targetsKey .extend, .array []), (targetsKey .use, .array [])]
    ∃ g doc text, ((Session.ofSources [("𝔸", "m\n")]).resolve "𝔸").1 = .ok g ∧
      ofGraph "2024" g = .ok doc ∧ payload doc = .ok text ∧
      pointPayload (Text.points "𝔸") [(Text.points "𝔸", entry)] = text ∧
      pointPayload halves [(halves, entry)] = text ∧ Text.points "𝔸" ≠ halves := by
  intro halves entry
  let p : Program := ⟨[⟨[.opcode .callMethod], by simp⟩], [], []⟩
  have hp : (Session.ofSources [("𝔸", "m\n")]).content "𝔸" = .ok p := rfl
  have hroot : Path.canonical "𝔸" none = "𝔸" := by decide
  have hex : Explores (Session.ofSources [("𝔸", "m\n")]).content [] [Path.canonical "𝔸" none]
      [("𝔸", p)] none := by
    rw [hroot]
    exact .find (by decide) hp (.done _)
  obtain ⟨g, hg, hname, hnodes, -⟩ := Session.resolve_of_explores hex
  obtain ⟨n, hn, hcontent⟩ := List.map_eq_singleton_iff.mp hnodes
  obtain ⟨hnode, hprogram⟩ := Prod.mk.inj hcontent
  have hentries : entriesOf g.nodes = .ok [("𝔸", entry)] := by
    rw [hn, entriesOf, hprogram, hnode]
    rfl
  obtain ⟨doc, hdoc, hpayload⟩ := payload_eq_pointPayload "2024" hentries
  have hprinted : Json.printedPoints halves = Json.printedPoints (Text.points "𝔸") := by decide
  rw [hname, hroot] at hpayload
  exact ⟨g, doc, _, hg, hdoc, hpayload, rfl, pointPayload_congr entry hprinted, by decide⟩

end Image

end StackFront
