import StackFront.Image
import StackFront.Proofs.FileTree.Writing
import StackFront.Proofs.Image.Sameness
import StackFront.Proofs.Json.Indented

/-!
# Image files

A document that is written to a file is read from there as it was, with its keys in their order, and
so it has the digest that it had and the same graph is rebuilt from it. Only a document that holds
an integer with too many digits is not written to its end.
-/
namespace StackFront

namespace Folder

variable {tree tree' : FileTree} {path text : List Char}

theorem writeText_eq_ok_iff : writeText tree path text = .ok tree' ↔
    '\x00' ∉ path ∧ tree.write path (Text.encodeUtf8 text) = .ok tree' := by
  rw [writeText]
  split
  next hnul => simp [hnul]
  next hnul =>
    cases tree.write path (Text.encodeUtf8 text) with
    | error r => simp [Except.mapError]
    | ok t => simp [Except.mapError, hnul]

/-- Text files can be kept at a path: they can be written there and then be read. -/
def CanKeep (tree : FileTree) (path : List Char) : Prop :=
  ∃ octets tree', '\x00' ∉ path ∧ tree.write path octets = .ok tree' ∧
    tree'.read path = .ok octets

/-- Where some text can be kept, every text can be written. -/
theorem CanKeep.exists_writeText (h : CanKeep tree path) (text : List Char) :
    ∃ tree', writeText tree path text = .ok tree' := by
  obtain ⟨octets, tree', hnul, hwrite, -⟩ := h
  obtain ⟨place, part, htarget, -⟩ := FileTree.write_eq_ok_iff.mp hwrite
  exact ⟨_, writeText_eq_ok_iff.mpr
    ⟨hnul, FileTree.write_eq_ok_iff.mpr ⟨place, part, htarget, rfl⟩⟩⟩

/-- A plain text is read as it was written. -/
theorem CanKeep.readText_of_writeText (hkeep : CanKeep tree path)
    (hplain : ∀ c ∈ text, Text.IsPlain c) (h : writeText tree path text = .ok tree') :
    readText tree' .utf8 path = .ok (String.ofList text) := by
  obtain ⟨octets, tree'', -, hother, hread⟩ := hkeep
  obtain ⟨hnul, hwrite⟩ := writeText_eq_ok_iff.mp h
  rw [readText, if_neg hnul, FileTree.read_of_write hwrite hother hread]
  have hdecode : Text.Encoding.utf8.decode (Text.encodeUtf8 text) = .ok text :=
    Text.decodeUtf8_encodeUtf8 hplain 0
  simp only [hdecode, Text.unifyLineEnds_eq hplain]

end Folder

namespace Image
open Json

variable {tree tree' : FileTree} {path : String} {doc : Json} {parts : Parts}

theorem save_eq_ok_iff : save tree path doc = (tree', .ok ()) ↔
    doc.hasLong = false ∧ Folder.writeText tree path.toList (doc.indented 0) = .ok tree' := by
  rw [save, ← isSome_written? 0 doc]
  cases doc.written? 0 with
  | some part =>
    simp only [Option.getD_some, Option.isSome_some, if_true]
    split <;> simp
  | none =>
    simp only [Option.getD_none, Option.isSome_none, if_neg Bool.false_ne_true, true_and]
    split
    next hwrite => simp [hwrite]
    next hwrite => simp [hwrite]

/-- If a document with an integer that has too many digits could be written otherwise, a part of it
is written. -/
theorem exists_save_of_hasLong (hlong : doc.hasLong) (hpath : Folder.CanKeep tree path.toList) :
    ∃ part tree', doc.written? 0 = some part ∧
      Folder.writeText tree path.toList part = .ok tree' ∧
      save tree path doc = (tree', .error BadValue.longInteger) := by
  rw [← isSome_written? 0 doc] at hlong
  obtain ⟨part, hpart⟩ := Option.isSome_iff_exists.mp hlong
  obtain ⟨tree', hwrite⟩ := hpath.exists_writeText part
  refine ⟨part, tree', hpart, hwrite, ?_⟩
  simp only [save, hpart, Option.getD_some, hwrite, Option.isSome_some, if_true]

/-- A document without floats is loaded from the file that it was saved to as what its text is read
as. -/
theorem load_of_save (hpath : Folder.CanKeep tree path.toList) (hfloats : doc.HasNoFloats)
    (h : save tree path doc = (tree', .ok ())) :
    load tree' path = ofFileText (doc.indented 0) := by
  rw [load, hpath.readText_of_writeText (isPlain_indented hfloats 0) (save_eq_ok_iff.mp h).2]
  simp only [String.toList_ofList]

/-- A document is loaded from the file that it was saved to. -/
theorem exists_load_save (hkeys : doc.HasDistinctKeys) (hdigits : doc.HasFewDigits)
    (hfloats : doc.HasNoFloats) (hcheck : check doc = .ok parts)
    (hpath : Folder.CanKeep tree path.toList) :
    ∃ tree' text, save tree path doc = (tree', .ok ()) ∧ load tree' path = .ok doc ∧
      digest doc = .ok text ∧ (load tree' path).bind digest = .ok text ∧
      (load tree' path).bind rebuild = rebuild doc := by
  obtain ⟨tree', hwrite⟩ := hpath.exists_writeText (doc.indented 0)
  have hsave : save tree path doc = (tree', .ok ()) :=
    save_eq_ok_iff.mpr ⟨hdigits.hasLong_eq_false, hwrite⟩
  have hload : load tree' path = .ok doc := by
    rw [load_of_save hpath hfloats hsave, ofFileText, read_indented hkeys hdigits hfloats]
    simp only [hcheck, Except.map]
  obtain ⟨text, hdigest⟩ := exists_digest hcheck hdigits
  refine ⟨tree', text, hsave, hload, hdigest, ?_, ?_⟩
  · rw [hload]
    exact hdigest
  · rw [hload]
    rfl

/-- Empty and nested values, a negative number, and characters that are escaped or written as a pair
of surrogates, in keys as well. -/
theorem exists_load_save_escaped :
    let entry := object [("methods", array [string "\x22\\\r\n\x01\x7f\u2028"]),
      ("uses", array []), ("extends", object [])]
    let doc := object [("timestamp", null), ("vt_version", string "0.1"), ("root", string "𝔸"),
      ("programs", object [("𝔸", entry),
        ("", array [array [number (.integer (-10)), bool true]])])]
    ∃ tree', save {} "image.json" doc = (tree', .ok ()) ∧
      load tree' "image.json" = .ok doc := by
  intro entry doc
  have hkeys : doc.HasDistinctKeys := by
    simp [doc, entry, HasDistinctKeys, KeysDistinct]
  have hdigits : doc.HasFewDigits := by
    have hnumber : isLong (-10) = false := by decide
    simpa [doc, entry, HasFewDigits, DigitsFew] using hnumber
  have hfloats : doc.HasNoFloats := by
    simp [doc, entry, HasNoFloats, NotFloat]
  have hcheck : ∃ parts, check doc = .ok parts := ⟨_, rfl⟩
  obtain ⟨parts, hcheck⟩ := hcheck
  have hpath : Folder.CanKeep {} "image.json".toList := ⟨[], _, by decide, rfl, rfl⟩
  obtain ⟨tree', -, hsave, hload, -⟩ := exists_load_save hkeys hdigits hfloats hcheck hpath
  exact ⟨tree', hsave, hload⟩

/-- A text that ends where the value of its only member should begin is no JSON text. -/
theorem read_unfinished :
    Json.read "\x7b\n  \x22n\x22: ".toList = .error (.malformed .value 2 8 9) := by
  have hkey : readString ['\x22', 'n', '\x22', ':', ' '] ['n', '\x22', ':', ' '] =
      .ok (['n'], [':', ' ']) := by
    rw [readString, if_neg (by decide), if_neg (by decide), if_neg (by decide), readString,
      if_pos rfl]
    rfl
  have hmembers : readMembers 19 [] ['\x22', 'n', '\x22', ':', ' '] =
      .error (.malformed .value []) := by
    simp only [readMembers, hkey]
    rfl
  have hvalue : readValue 20 ['\x7b', '\n', ' ', ' ', '\x22', 'n', '\x22', ':', ' '] =
      .error (.malformed .value []) := by
    change (readMembers 19 [] ['\x22', 'n', '\x22', ':', ' ']).map _ = _
    rw [hmembers]
    rfl
  have hall : readAll "\x7b\n  \x22n\x22: ".toList = .error (.malformed .value []) := by
    have hfuel : readFuel "\x7b\n  \x22n\x22: ".toList = 20 := by decide
    have hblanks : skipBlanks "\x7b\n  \x22n\x22: ".toList =
        ['\x7b', '\n', ' ', ' ', '\x22', 'n', '\x22', ':', ' '] := by decide
    rw [readAll, if_neg (by decide), hfuel, hblanks, hvalue]
  rw [Json.read, hall]
  rfl

/-- An integer with one digit too many is not written. What has been written before it is no image
any more. -/
theorem exists_load_save_tooLong :
    let doc := object [("n", number (.integer (10 ^ Text.maxDigits))), ("vt_version", string "0.1"),
      ("root", string "a"), ("programs", object [("a", object [("methods", array [string "1"])])])]
    ∃ parts tree', doc.HasDistinctKeys ∧ doc.HasNoFloats ∧ check doc = .ok parts ∧
      Folder.CanKeep {} "image.json".toList ∧
      save {} "image.json" doc = (tree', .error BadValue.longInteger) ∧
      load tree' "image.json" = .error (ReadError.malformed .value 2 8 9) := by
  intro doc
  have hkeys : doc.HasDistinctKeys := by
    simp [doc, HasDistinctKeys, KeysDistinct]
  have hfloats : doc.HasNoFloats := by
    simp [doc, HasNoFloats, NotFloat]
  have hpath : Folder.CanKeep {} "image.json".toList := ⟨[], _, by decide, rfl, rfl⟩
  have hnumber : isLong (10 ^ Text.maxDigits) = true := isLong_pow
  have hlong : doc.hasLong := by
    simp only [doc, hasLong, hasLongMembers, hnumber, Bool.true_or]
  obtain ⟨part, tree', hpart, hwrite, hsave⟩ := exists_save_of_hasLong hlong hpath
  have hbegun : part = "\x7b\n  \x22n\x22: ".toList := by
    simp only [doc, written?, writtenMembers?, hnumber, if_true, Option.map_some,
      Option.some.injEq] at hpart
    exact hpart.symm
  have hplain : ∀ c ∈ part, Text.IsPlain c :=
    Text.isPlain_of_all (by rw [hbegun]; decide)
  refine ⟨_, tree', hkeys, hfloats, rfl, hpath, hsave, ?_⟩
  rw [load, hpath.readText_of_writeText hplain hwrite, hbegun]
  simp only [String.toList_ofList, ofFileText, read_unfinished]

end Image

end StackFront
