import StackFront.Proofs.Path.Relocation
import StackFront.Proofs.Program.Errors
import StackFront.Proofs.Walk.Renaming

/-!
# Relocated projects

A project that keeps to the directory it is in can be put into another directory. Resolving it
there comes to the same programs in the same order, under the names below that directory, and it
fails there just as it does in its own place.
-/
namespace StackFront

/-- The fault of a file that was put under a directory: the same error, about the file and the
references under that directory. -/
inductive Fault.Relocated (d : Name) : Fault → Fault → Prop
  | parse (e : ParseError) (file : Option Name) (chain : List Name) :
      Relocated d ⟨.parse e, file, chain⟩
        ⟨.parse (e.located (e.file.map (Path.under d))), file.map (Path.under d),
          chain.map (Path.under d)⟩
  | missing (name : Name) (file : Option Name) (chain : List Name) :
      Relocated d ⟨.storage (.noSource name), file, chain⟩
        ⟨.storage (.noSource (Path.under d name)), file.map (Path.under d),
          chain.map (Path.under d)⟩

namespace Fault.Relocated

variable {d : Name} {f f' : Fault}

theorem isTraced_eq (h : Relocated d f f') : f'.isTraced = f.isTraced := by
  cases h <;> rfl

theorem file_eq (h : Relocated d f f') : f'.file = f.file.map (Path.under d) := by
  cases h <;> rfl

theorem chain_eq (h : Relocated d f f') : f'.chain = f.chain.map (Path.under d) := by
  cases h <;> rfl

theorem mark (h : Relocated d f f') (name : Name) (chain : List Name) :
    Relocated d (f.mark name chain) (f'.mark (Path.under d name) (chain.map (Path.under d))) := by
  have hfile : ∀ file : Option Name, (file.map (Path.under d)).or (some (Path.under d name)) =
      (file.or (some name)).map (Path.under d) := by
    intro file
    cases file <;> rfl
  cases h with
  | parse e file chain' =>
    simp only [Fault.mark, hfile]
    exact .parse e _ chain
  | missing missing file chain' =>
    simp only [Fault.mark, hfile]
    exact .missing missing _ chain

end Fault.Relocated

namespace Sources

/-- Spelled sources under a directory. -/
def relocate (d : Name) (spelled : List (String × String)) : List (String × String) :=
  spelled.map fun s => (Path.under d s.1, s.2)

variable {d : Name} {spelled : List (String × String)}

theorem ofSpelled_relocate (hd : Path.IsDescent d)
    (hkeys : ∀ s ∈ spelled, Path.IsInside (Path.canonical s.1 none)) :
    ofSpelled (relocate d spelled) =
      (ofSpelled spelled).map fun s => (Path.under d s.1, s.2) := by
  rw [ofSpelled_eq, ofSpelled_eq, relocate, List.map_reverse, List.map_map, List.map_map]
  congr 1
  apply List.map_congr_left
  intro s hs
  rw [Function.comp_apply, Function.comp_apply, Path.canonical_under hd (hkeys s hs)]

/-- Each text is found under the directory, and no other text is. -/
theorem find?_relocate (hd : Path.IsDescent d)
    (hkeys : ∀ s ∈ spelled, Path.IsInside (Path.canonical s.1 none)) (name : Name) :
    (ofSpelled (relocate d spelled)).find? (Path.under d name) =
      (ofSpelled spelled).find? name := by
  simp only [ofSpelled_relocate hd hkeys, find?, List.find?_map, Function.comp_def,
    (Path.under_injective d).eq_iff, Option.map_map]

end Sources

/-- Within a directory, the targets of a program do not depend on where the directory is. -/
theorem Program.refersAlike_under {d name : Name} {p : Program} (hd : Path.IsDescent d)
    (hname : Path.IsInside name) (hc : Path.IsCanonical name)
    (htargets : ∀ n ∈ p.successors name, Path.IsInside n) : p.RefersAlike (Path.under d) name := by
  intro kind
  rw [linkNames, linkNames, List.map_map]
  apply List.map_congr_left
  intro target ht
  apply Path.canonical_under_some hd hname hc
  apply htargets
  rw [successors, List.mem_append]
  cases kind
  · exact .inl (List.mem_map_of_mem ht)
  · exact .inr (List.mem_map_of_mem ht)

namespace Session

variable {d : Name} {spelled : List (String × String)} {root : String}

/-- The sources under a directory answer as the sources themselves do. -/
theorem imitates_relocate (hd : Path.IsDescent d)
    (hkeys : ∀ s ∈ spelled, Path.IsInside (Path.canonical s.1 none)) :
    Imitates (Path.under d) (Fault.Relocated d) Path.IsInside
      (ofSources (Sources.ofSpelled spelled))
      (ofSources (Sources.ofSpelled (Sources.relocate d spelled))) where
  injective := Path.under_injective d
  isTraced f f' h := h.isTraced_eq
  mark f f' name chain h := h.mark name chain
  alike name hname hc htargets := by
    have hcontent : ∀ {sources : Sources}, (ofSources sources).content = sources.store.content :=
      fun {_} => funext fun _ => content_of_unknown rfl
    have hfind := Sources.find?_relocate hd hkeys name
    rw [hcontent] at htargets ⊢
    rw [hcontent]
    simp only [Store.content, Sources.store, hfind] at htargets ⊢
    cases hread : (Sources.ofSpelled spelled).find? name with
    | none => exact .fault (.missing name none [])
    | some text =>
      simp only [hread] at htargets ⊢
      rw [Program.parse_located text (some name) (some (Path.under d name))]
      cases hparse : Program.parse text (some name) with
      | error e =>
        have hfile := Program.file_of_parse hparse
        have hrelocated := Fault.Relocated.parse (d := d) e e.file []
        rw [hfile] at hrelocated
        refine .fault ?_
        rw [Fault.ofCause, Fault.ofCause, Cause.file?, Cause.file?, hfile]
        exact hrelocated
      | ok p =>
        rw [hparse] at htargets
        exact .program (Program.refersAlike_under hd hname hc (htargets p rfl))

/-- Whether it succeeds or fails, resolving a project that keeps to its directory comes to the same
when the project is put under another directory. -/
theorem resolve_relocate (hd : Path.IsDescent d)
    (hkeys : ∀ s ∈ spelled, Path.IsInside (Path.canonical s.1 none))
    (hkeeps : (ofSources (Sources.ofSpelled spelled)).KeepsTo root Path.IsInside) :
    EndsAlike (Path.under d) (Fault.Relocated d)
      ((ofSources (Sources.ofSpelled spelled)).resolve root).1
      ((ofSources (Sources.ofSpelled (Sources.relocate d spelled))).resolve
        (Path.under d root)).1 :=
  (imitates_relocate hd hkeys).endsAlike_resolve hkeeps (Path.canonical_under hd hkeeps.root)

/-- Detours within the directory, and a missing file that is reported with the chain of references
that led to it. -/
theorem resolve_relocate_missing :
    let spelled :=
      [("main.vt", "m\n;e lib/../lib//b.vt\n"), ("./lib/b.vt", "N\n;u ../x/./../c.vt\n")]
    let s := ofSources (Sources.ofSpelled spelled)
    let s' := ofSources (Sources.ofSpelled (Sources.relocate "pkg/sub" spelled))
    ∃ f f', (s.resolve "x/..//main.vt").1 = .error f ∧
      (s'.resolve "pkg/sub/x/..//main.vt").1 = .error f' ∧
      f.chain = ["main.vt", "lib/b.vt", "c.vt"] ∧ f.file = some "c.vt" ∧
      f'.chain = ["pkg/sub/main.vt", "pkg/sub/lib/b.vt", "pkg/sub/c.vt"] ∧
      f'.file = some "pkg/sub/c.vt" := by
  intro spelled s s'
  let main : Program := ⟨[⟨[.opcode .callMethod], by simp⟩], ["lib/../lib//b.vt"], []⟩
  let b : Program := ⟨[⟨[.opcode .outputNumeric], by simp⟩], [], ["../x/./../c.vt"]⟩
  have hex : Explores s.content [] [Path.canonical "x/..//main.vt" none]
      [("main.vt", main), ("lib/b.vt", b)] (some ("c.vt", StorageError.noSource "c.vt")) :=
    .find (by decide) rfl (.find (by decide) rfl (.fail (by decide) rfl))
  have hd : Path.IsDescent "pkg/sub" :=
    ⟨⟨"pkg/sub", none, by decide⟩, by decide, by decide, by decide⟩
  have inside : ∀ name ∈ ["main.vt", "lib/b.vt", "c.vt"], Path.IsInside name := by
    have hall : ∀ name ∈ ["main.vt", "lib/b.vt", "c.vt"], Path.isAbsolute name.toList = false ∧
        (Text.splitAt '/' name.toList).head? ≠ some Path.parent ∧ name ≠ "." := by decide
    exact fun name hname => ⟨⟨(hall name hname).1, (hall name hname).2.1⟩, (hall name hname).2.2⟩
  have hkeys : ∀ s ∈ spelled, Path.IsInside (Path.canonical s.1 none) := by
    have hnames : ∀ s ∈ spelled, Path.canonical s.1 none ∈ ["main.vt", "lib/b.vt", "c.vt"] := by
      decide
    exact fun s hs => inside _ (hnames s hs)
  have hkeeps : s.KeepsTo "x/..//main.vt" Path.IsInside := by
    have htargets : ∀ q ∈ [("main.vt", main), ("lib/b.vt", b)], ∀ n ∈ q.2.successors q.1,
        n ∈ ["main.vt", "lib/b.vt", "c.vt"] := by decide
    exact .of_explores rfl hex (inside _ (by decide)) fun q hq n hn => inside n (htargets q hq n hn)
  have hreferrers : (s.resolve "x/..//main.vt").2.referrers =
      [("main.vt", none), ("lib/b.vt", some "main.vt"), ("c.vt", some "lib/b.vt")] :=
    (resolve_referrers hex).trans (by decide)
  have hchain : (s.resolve "x/..//main.vt").2.chain "c.vt" = ["main.vt", "lib/b.vt", "c.vt"] :=
    chain_congr (t := { s with referrers := _ }) hreferrers "c.vt"
  have hfault : (s.resolve "x/..//main.vt").1 = .error
      (Fault.mark (StorageError.noSource "c.vt") "c.vt" ["main.vt", "lib/b.vt", "c.vt"]) := by
    rw [resolve_of_stop hex, Walk.trace, if_pos (by decide), hchain]
  have hend := resolve_relocate hd hkeys hkeeps
  rw [hfault] at hend
  generalize hresult : ((ofSources (Sources.ofSpelled (Sources.relocate "pkg/sub" spelled))).resolve
    (Path.under "pkg/sub" "x/..//main.vt")).1 = result at hend
  cases hend with
  | @fault _ f' h =>
    refine ⟨_, f', hfault, hresult, rfl, rfl, ?_, ?_⟩
    · rw [h.chain_eq]
      decide
    · rw [h.file_eq]
      decide

end Session

end StackFront
