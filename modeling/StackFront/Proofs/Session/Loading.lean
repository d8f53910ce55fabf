import StackFront.Walk

/-!
# What loading answers

Every name stands for something in a session: the program that is known under it, or else what
its source text says, be it a program or a fault. A load answers just that and changes it for no
name, since the only program that it can add to the known ones is the one that the text of its own
name holds. What a session does to its cache is therefore growth: more programs are known, and no
name stands for anything else than before.
-/
namespace StackFront

/-- What each name stands for: a program, or the fault that keeps it from being loaded. -/
abbrev Contents := Name → Except Fault Program

/-- What the source texts alone say. -/
def Store.content (s : Store) : Contents := fun name =>
  match s.read name with
  | .error f => .error f
  | .ok text =>
    match Program.parse text (some name) with
    | .error e => .error e
    | .ok p => .ok p

theorem Store.content_eq_ok_iff {s : Store} {name : Name} {p : Program} :
    s.content name = .ok p ↔
      ∃ text, s.read name = .ok text ∧ Program.parse text (some name) = .ok p := by
  rw [content]
  cases s.read name with
  | error f => simp
  | ok text => cases h : Program.parse text (some name) <;> simp [h]

/-- What names stand for depends on nothing but the texts. -/
theorem Store.content_congr {s t : Store} (h : s.read = t.read) : s.content = t.content := by
  funext name
  simp only [content, h]

namespace Session

/-- A session that has just begun. -/
def ofSources (sources : Sources) : Session :=
  { store := sources.store }

theorem isSome_program? {s : Session} {name : Name} :
    (s.program? name).isSome ↔ name ∈ s.programs.map Prod.fst := by
  rw [program?, Option.isSome_map, List.find?_isSome, List.mem_map]
  simp

/-- What names stand for in a session, known programs first. -/
def content (s : Session) : Contents := fun name =>
  match s.program? name with
  | some loaded => .ok loaded.program
  | none => s.store.content name

theorem content_of_known {s : Session} {name : Name} {loaded : Loaded}
    (h : s.program? name = some loaded) : s.content name = .ok loaded.program := by
  simp only [content, h]

theorem content_of_unknown {s : Session} {name : Name} (h : s.program? name = none) :
    s.content name = s.store.content name := by
  simp only [content, h]

theorem content_of_text {s : Session} {name : Name} {text : String} {p : Program}
    (h : s.program? name = none) (hread : (s.store.read name).toOption = some text)
    (hparse : Program.parse text (some name) = .ok p) : s.content name = .ok p := by
  rw [content_of_unknown h, Store.content_eq_ok_iff]
  refine ⟨text, ?_, hparse⟩
  cases hr : s.store.read name with
  | error f => simp [hr, Except.toOption] at hread
  | ok found => simpa [hr, Except.toOption] using hread

/-- Nothing that cannot be loaded is known. -/
theorem unknown_of_content {s : Session} {name : Name} {f : Fault}
    (h : s.content name = .error f) : s.program? name = none := by
  cases hk : s.program? name with
  | none => rfl
  | some loaded =>
    rw [content_of_known hk] at h
    cases h

/-- A name can be loaded if it is known or if its text can be read and parsed. -/
def CanLoad (s : Session) (name : Name) : Prop :=
  (∃ loaded, s.program? name = some loaded) ∨
    ∃ text p, s.store.read name = .ok text ∧ Program.parse text (some name) = .ok p

theorem canLoad_iff {s : Session} {name : Name} :
    s.CanLoad name ↔ ∃ p, s.content name = .ok p := by
  rw [CanLoad]
  cases h : s.program? name with
  | some loaded =>
    rw [content_of_known h]
    exact ⟨fun _ => ⟨_, rfl⟩, fun _ => .inl ⟨_, rfl⟩⟩
  | none =>
    simp only [content_of_unknown h, Store.content_eq_ok_iff, reduceCtorEq, exists_false, false_or]
    exact exists_comm

theorem program?_congr {s t : Session} (h : s.programs = t.programs) :
    s.program? = t.program? := by
  funext name
  simp only [program?, h]

/-- All that the content depends on. -/
theorem content_congr {s t : Session} (hp : s.programs = t.programs) (hs : s.store = t.store) :
    s.content = t.content := by
  funext name
  simp only [content, program?_congr hp, hs]

/-- A kept program does not hide one that was known before. -/
theorem program?_keep (s : Session) (n : Name) (p : Program) (name : Name) :
    (s.keep n p).2.program? name =
      (s.program? name).or (if n = name then some ⟨s.nextSerial, p⟩ else none) := by
  simp only [program?, keep, List.find?_append, List.find?_singleton]
  cases s.programs.find? fun q => q.1 = name with
  | some q => rfl
  | none => by_cases h : n = name <;> simp [h]

theorem program?_keep_self {s : Session} {n : Name} (p : Program) (h : s.program? n = none) :
    (s.keep n p).2.program? n = some ⟨s.nextSerial, p⟩ := by
  simp [program?_keep, h]

/-- The three ways in which a load can go. -/
inductive Loads (s : Session) (name : Name) : Except Fault Loaded × Session → Prop
  | known (loaded : Loaded) (h : s.program? name = some loaded) :
      Loads s name (.ok loaded, s.note (.programKnown name))
  | refused (f : Fault) (h : s.program? name = none) (hc : s.store.content name = .error f) :
      Loads s name (.error f, s.note (.read name))
  | added (p : Program) (h : s.program? name = none) (hc : s.store.content name = .ok p) :
      Loads s name (.ok ⟨s.nextSerial, p⟩, ((s.note (.read name)).keep name p).2.note
        (.parsed name p.methods.length p.extendTargets.length p.useTargets.length))

theorem loads (s : Session) (name : Name) : Loads s name (s.load name) := by
  cases h : s.program? name with
  | some loaded =>
    simp only [load, h]
    exact .known loaded h
  | none =>
    simp only [load, h, ask]
    cases hr : s.store.read name with
    | error f => exact .refused f h (by simp only [Store.content, hr])
    | ok text =>
      cases hp : Program.parse text (some name) with
      | error e =>
        simp only [hp]
        exact .refused e h (by simp only [Store.content, hr, hp])
      | ok p =>
        simp only [hp]
        exact .added p h (by simp only [Store.content, hr, hp])

/-- A load answers what the name stands for. -/
theorem load_answers (s : Session) (name : Name) :
    (s.load name).1.map Loaded.program = s.content name := by
  have h := s.loads name
  generalize s.load name = r at h
  cases h with
  | known loaded h => rw [content_of_known h]; rfl
  | refused f h hc => rw [content_of_unknown h, hc]; rfl
  | added p h hc => rw [content_of_unknown h, hc]; rfl

/-- A loaded program is known from then on. -/
theorem program?_load {s s' : Session} {name : Name} {loaded : Loaded}
    (h : s.load name = (.ok loaded, s')) : s'.program? name = some loaded := by
  have hl := s.loads name
  rw [h] at hl
  cases hl with
  | known _ hk => exact hk
  | added p hk hc => exact program?_keep_self (s := s.note (.read name)) p hk

/-- A load has no part in the record of the latest walk. -/
@[simp] theorem load_record (s : Session) (name : Name) :
    (s.load name).2.visited = s.visited ∧ (s.load name).2.referrers = s.referrers := by
  have h := s.loads name
  generalize s.load name = r at h
  cases h <;> exact ⟨rfl, rfl⟩

/-- The second session knows what the first one knows, and no name stands for anything else. -/
structure Grows (s t : Session) : Prop where
  store : t.store = s.store
  known : ∀ name loaded, s.program? name = some loaded → t.program? name = some loaded
  content : t.content = s.content

namespace Grows

variable {s t u : Session}

theorem refl (s : Session) : Grows s s :=
  ⟨rfl, fun _ _ h => h, rfl⟩

theorem trans (h : Grows s t) (h' : Grows t u) : Grows s u :=
  ⟨h'.store.trans h.store, fun name loaded hk => h'.known name loaded (h.known name loaded hk),
    h'.content.trans h.content⟩

/-- Nothing but the store and the known programs matters. -/
theorem of_eq (hs : t.store = s.store) (hp : t.programs = s.programs) : Grows s t :=
  ⟨hs, fun name _ h => (congrFun (program?_congr hp) name).trans h, content_congr hp hs⟩

/-- It does no harm to keep the program that the text of an unknown name holds. -/
theorem keep {name : Name} {p : Program} (h : s.program? name = none)
    (hc : s.store.content name = .ok p) : Grows s (s.keep name p).2 := by
  refine ⟨rfl, fun n loaded hn => ?_, ?_⟩
  · rw [program?_keep, hn]
    rfl
  · funext n
    by_cases hne : name = n
    · subst hne
      rw [content_of_known (program?_keep_self p h), content_of_unknown h, hc]
    · have hsame : (s.keep name p).2.program? n = s.program? n := by
        rw [program?_keep, if_neg hne, Option.or_none]
      simp only [Session.content, hsame]
      rfl

end Grows

theorem grows_load (s : Session) (name : Name) : Grows s (s.load name).2 := by
  have h := s.loads name
  generalize s.load name = r at h
  cases h with
  | known loaded h => exact .of_eq rfl rfl
  | refused f h hc => exact .of_eq rfl rfl
  | added p h hc =>
    have hread : Grows s (s.note (.read name)) := .of_eq rfl rfl
    exact (hread.trans (.keep h hc)).trans (.of_eq rfl rfl)

end Session

end StackFront
