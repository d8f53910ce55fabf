import StackFront.Proofs.Graph.Agreement
import StackFront.Proofs.Session.Growth

/-!
# Caches do not show

What a session knows is faithful as long as it is what the source texts say. Questions keep it so,
those that fail included, and so do new texts for names that are not known yet. A session with such
a history therefore resolves each root as a session would that has just begun and that has the
same texts: the graphs agree, or both fail with the same fault.
-/
namespace StackFront

namespace Sources

/-- The texts after a request. -/
def serve (sources : Sources) : Request → Sources
  | .provide spelled text => sources.add spelled text
  | _ => sources

/-- The texts after some requests. -/
def serveAll (sources : Sources) : List Request → Sources
  | [] => sources
  | r :: rest => (sources.serve r).serveAll rest

end Sources

theorem Store.read_provide_congr {s t : Store} (h : s.read = t.read) (spelled text : String) :
    (s.provide spelled text).read = (t.provide spelled text).read := by
  simp only [provide, h]

namespace Session

/-- The request does not meddle with what is known: it gives no program to a name, and a text only
to a name that is not known. -/
def Permits (s : Session) : Request → Prop
  | .provide spelled _ => s.program? (Path.canonical spelled none) = none
  | .seed .. => False
  | _ => True

/-- Each request of a history is permitted at its time. -/
def PermitsAll (s : Session) : List Request → Prop
  | [] => True
  | r :: rest => s.Permits r ∧ (s.perform r).2.PermitsAll rest

/-- What is known is what the texts say. -/
def IsFaithful (s : Session) : Prop :=
  s.content = s.store.content

namespace IsFaithful

variable {s t : Session} {r : Request}

theorem ofSources (sources : Sources) : (Session.ofSources sources).IsFaithful := rfl

theorem grows (hs : s.IsFaithful) (h : s.Grows t) : t.IsFaithful := by
  rw [IsFaithful, h.content, hs, h.store]

/-- A text for a name that is not known contradicts nothing that is known. -/
theorem provide (hs : s.IsFaithful) {spelled : String} (text : String)
    (hnew : s.program? (Path.canonical spelled none) = none) :
    (s.withStore (s.store.provide spelled text)).IsFaithful := by
  funext name
  cases h : s.program? name with
  | none => exact content_of_unknown h
  | some loaded =>
    have hne : name ≠ Path.canonical spelled none := by
      rintro rfl
      rw [hnew] at h
      cases h
    have hold : s.store.content name = .ok loaded.program := by
      rw [← hs, content_of_known h]
    have hsame : (s.store.provide spelled text).content name = s.store.content name := by
      simp only [Store.content, Store.provide, if_neg hne]
    have hknown : (s.withStore (s.store.provide spelled text)).content name =
        .ok loaded.program := content_of_known h
    exact hknown.trans (hsame.trans hold).symm

theorem perform (hs : s.IsFaithful) (h : s.Permits r) : (s.perform r).2.IsFaithful := by
  cases r with
  | provide spelled text => exact hs.provide text h
  | seed => exact h.elim
  | _ => exact hs.grows (s.grows_perform rfl)

theorem run {history : List Request} (hs : s.IsFaithful) (h : s.PermitsAll history) :
    (s.run history).IsFaithful := by
  induction history generalizing s with
  | nil => exact hs
  | cons r rest ih => exact ih (hs.perform h.1) h.2

end IsFaithful

/-- A request changes no text but the one that it brings along. -/
theorem read_perform {s : Session} {sources : Sources} (h : s.store.read = sources.store.read)
    (r : Request) : (s.perform r).2.store.read = (sources.serve r).store.read := by
  cases r with
  | provide spelled text =>
    rw [Sources.serve, Sources.read_add]
    exact Store.read_provide_congr h spelled text
  | seed spelled p => exact (congrArg Store.read (s.seed_store spelled p)).trans h
  | _ => exact (congrArg Store.read (s.grows_perform rfl).store).trans h

theorem read_run {s : Session} {sources : Sources} (h : s.store.read = sources.store.read)
    (history : List Request) :
    (s.run history).store.read = (sources.serveAll history).store.read := by
  induction history generalizing s sources with
  | nil => exact h
  | cons r rest ih => exact ih (read_perform h r)

/-- After any history of permitted requests, a root is resolved as it is in a session that has just
begun and that has the texts of this moment. -/
theorem resolve_run_same_outcome (sources : Sources) (history : List Request) (root : String)
    (h : (ofSources sources).PermitsAll history) :
    Graph.SameOutcome (((ofSources sources).run history).resolve root).1
      ((ofSources (sources.serveAll history)).resolve root).1 := by
  have hfaithful : ((ofSources sources).run history).IsFaithful :=
    (IsFaithful.ofSources sources).run h
  have htexts : ((ofSources sources).run history).store.content =
      (ofSources (sources.serveAll history)).store.content :=
    Store.content_congr (read_run rfl history)
  exact resolve_congr ((hfaithful.trans htexts).trans (IsFaithful.ofSources _).symm) root

/-- A missing library is provided after it was asked for in vain. -/
theorem resolve_provided_late :
    let sources : Sources := [("main.vt", "m\n;u lib.vt\n")]
    let history : List Request :=
      [.resolve "main.vt", .provide "./lib.vt" "3N\n;e main.vt\n", .method .standard "main.vt" 0]
    (ofSources sources).PermitsAll history ∧
      Graph.SameOutcome (((ofSources sources).run history).resolve "main.vt").1
        ((ofSources (sources.serveAll history)).resolve "main.vt").1 := by
  intro sources history
  let library : Name := Path.canonical "./lib.vt" none
  have hgrows := (ofSources sources).grows_resolve "main.vt"
  have hunknown : ((ofSources sources).resolve "main.vt").2.program? library = none := by
    have hmissing : ∃ f, (ofSources sources).content library = .error f := ⟨_, rfl⟩
    obtain ⟨f, hf⟩ := hmissing
    exact unknown_of_content (hgrows.content ▸ hf)
  have hpermits : (ofSources sources).PermitsAll history := ⟨trivial, hunknown, trivial, trivial⟩
  exact ⟨hpermits, resolve_run_same_outcome sources history "main.vt" hpermits⟩

end Session

end StackFront
