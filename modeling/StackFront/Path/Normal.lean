import StackFront.Path

/-!
# Paths in normal form

A path in normal form is a root with proper parts: parts that are not empty, not `.` and free of
slashes. Such a path is given back by `tidy`, and normalizing always leads to one.
-/
namespace StackFront.Path

/-- The leading slashes of paths in normal form. -/
def IsRoot (r : List Char) : Prop :=
  r = [] ∨ r = ['/'] ∨ r = ['/', '/']

/-- A part that leads somewhere. -/
def IsProper (part : List Char) : Prop :=
  part ≠ [] ∧ part ≠ here ∧ '/' ∉ part

theorem isRoot_root (path : List Char) : IsRoot (root path) := by
  unfold root IsRoot
  split <;> simp

theorem isProper_push {absolute : Bool} {parts : List (List Char)} {part : List Char}
    (hparts : ∀ p ∈ parts, IsProper p) (hpart : '/' ∉ part) :
    ∀ p ∈ push absolute parts part, IsProper p := by
  intro p hp
  unfold push at hp
  split at hp
  · exact hparts p hp
  next hne =>
    rw [not_or] at hne
    have hproper : IsProper part := ⟨hne.1, hne.2, hpart⟩
    split at hp
    · rcases List.mem_cons.mp hp with rfl | hp
      · exact hproper
      · exact hparts p hp
    · split at hp
      · split at hp
        · simp at hp
        · rw [List.mem_singleton] at hp
          exact hp ▸ hproper
      · split at hp
        · rcases List.mem_cons.mp hp with rfl | hp
          · exact hproper
          · exact hparts p hp
        · exact hparts p (List.mem_cons_of_mem _ hp)

theorem isProper_foldl_push {absolute : Bool} {given parts : List (List Char)}
    (hgiven : ∀ p ∈ given, '/' ∉ p) (hparts : ∀ p ∈ parts, IsProper p) :
    ∀ p ∈ given.foldl (push absolute) parts, IsProper p := by
  induction given generalizing parts with
  | nil => exact hparts
  | cons part given ih =>
    rw [List.forall_mem_cons] at hgiven
    exact ih hgiven.2 (isProper_push hparts hgiven.1)

theorem isProper_normalParts (path : List Char) : ∀ p ∈ normalParts path, IsProper p := by
  intro p hp
  rw [normalParts, List.mem_reverse] at hp
  exact isProper_foldl_push (fun p hp => Text.not_mem_of_mem_splitAt hp) (by simp) p hp

theorem isProper_properParts (path : List Char) : ∀ p ∈ properParts path, IsProper p := by
  intro p hp
  rw [properParts, List.mem_filter, Bool.and_eq_true, decide_eq_true_eq, decide_eq_true_eq] at hp
  exact ⟨hp.2.1, hp.2.2, Text.not_mem_of_mem_splitAt hp.1⟩

/-- A path made of proper parts begins with none of the slashes that separate them. -/
theorem joinWith_head {parts : List (List Char)} (hne : parts ≠ [])
    (h : ∀ p ∈ parts, IsProper p) :
    ∃ c rest, Text.joinWith '/' parts = c :: rest ∧ c ≠ '/' := by
  cases parts with
  | nil => exact absurd rfl hne
  | cons part parts =>
    obtain ⟨hpart, -, hslash⟩ := h part (List.mem_cons_self ..)
    cases part with
    | nil => exact absurd rfl hpart
    | cons c rest =>
      have hc : c ≠ '/' := fun e => hslash (e ▸ List.mem_cons_self ..)
      cases parts with
      | nil => exact ⟨c, rest, rfl, hc⟩
      | cons next parts => exact ⟨c, rest ++ '/' :: Text.joinWith '/' (next :: parts), rfl, hc⟩

theorem render_nil {parts : List (List Char)} (hne : parts ≠ [])
    (h : ∀ p ∈ parts, IsProper p) : render [] parts = Text.joinWith '/' parts := by
  obtain ⟨c, rest, hj, -⟩ := joinWith_head hne h
  simp [render, hj]

theorem render_cons (c : Char) (r : List Char) (parts : List (List Char)) :
    render (c :: r) parts = c :: r ++ Text.joinWith '/' parts := rfl

theorem root_render {r : List Char} {parts : List (List Char)} (hr : IsRoot r)
    (h : ∀ p ∈ parts, IsProper p) : root (render r parts) = r := by
  by_cases hne : parts = []
  · subst hne
    rcases hr with rfl | rfl | rfl <;> rfl
  · obtain ⟨c, rest, hj, hc⟩ := joinWith_head hne h
    rcases hr with rfl | rfl | rfl
    · rw [render_nil hne h, hj]
      unfold root
      split <;> simp_all
    · rw [render_cons, hj]
      unfold root
      split <;> simp_all
    · rw [render_cons, hj, List.cons_append, List.cons_append, List.nil_append]
      simp [root, hc]

theorem filter_proper {parts : List (List Char)} (h : ∀ p ∈ parts, IsProper p) :
    parts.filter (fun part => part ≠ [] && part ≠ here) = parts := by
  rw [List.filter_eq_self]
  intro p hp
  obtain ⟨h1, h2, -⟩ := h p hp
  simp [h1, h2]

theorem properParts_render {r : List Char} {parts : List (List Char)} (hr : IsRoot r)
    (h : ∀ p ∈ parts, IsProper p) : properParts (render r parts) = parts := by
  have hsplit : ∀ s, Text.splitAt '/' ('/' :: s) = [] :: Text.splitAt '/' s := fun s => by
    simp [Text.splitAt]
  by_cases hne : parts = []
  · subst hne
    rcases hr with rfl | rfl | rfl <;> rfl
  · have hj : Text.splitAt '/' (Text.joinWith '/' parts) = parts :=
      Text.splitAt_joinWith hne fun p hp => (h p hp).2.2
    have hf := filter_proper h
    rcases hr with rfl | rfl | rfl
    · rw [render_nil hne h, properParts, hj, hf]
    · rw [render_cons, properParts, List.cons_append, List.nil_append, hsplit, hj]
      simpa using hf
    · rw [render_cons, properParts, List.cons_append, List.cons_append, List.nil_append,
        hsplit, hsplit, hj]
      simpa using hf

/-- Nothing is dropped from a path in normal form. -/
theorem tidy_render {r : List Char} {parts : List (List Char)} (hr : IsRoot r)
    (h : ∀ p ∈ parts, IsProper p) : tidy (render r parts) = render r parts := by
  rw [tidy, root_render hr h, properParts_render hr h]

/-- Parts put before others do not make a path shorter. -/
theorem length_joinWith_append (first second : List (List Char)) :
    (Text.joinWith '/' second).length ≤ (Text.joinWith '/' (first ++ second)).length := by
  induction first with
  | nil => simp
  | cons part rest ih =>
    cases hrest : rest ++ second with
    | nil =>
      rw [hrest] at ih
      have hnil : (Text.joinWith '/' second).length ≤ 0 := by simpa [Text.joinWith] using ih
      omega
    | cons next parts =>
      rw [hrest] at ih
      rw [List.cons_append, hrest, Text.joinWith]
      simp only [List.length_append, List.length_cons]
      omega

/-- A canonical name is written with a root and proper parts. -/
theorem canonical_eq_render (target : String) (referrer : Option Name) :
    ∃ r parts, (canonical target referrer).toList = render r parts ∧ IsRoot r ∧
      ∀ p ∈ parts, IsProper p := by
  have hnormal : ∀ path, ∃ r parts, normalize path = render r parts ∧ IsRoot r ∧
      ∀ p ∈ parts, IsProper p := fun path =>
    ⟨root path, normalParts path, rfl, isRoot_root path, isProper_normalParts path⟩
  rw [canonical, String.toList_ofList]
  cases referrer with
  | none => exact hnormal _
  | some r => exact hnormal _

/-- A canonical name is not longer than its path below any directory, unless it is one character
long. -/
theorem length_le_tidyBelow (target : String) (referrer : Option Name) (base : List Char) :
    (canonical target referrer).toList.length ≤ 1 ∨
      (canonical target referrer).toList.length ≤
        (tidyBelow base (canonical target referrer).toList).length := by
  obtain ⟨r, parts, hn, hr, hp⟩ := canonical_eq_render target referrer
  rw [hn]
  unfold tidyBelow
  split
  · exact .inr (Nat.le_of_eq (congrArg List.length (tidy_render hr hp).symm))
  next habs =>
    by_cases hne : parts = []
    · subst hne
      rcases hr with rfl | rfl | rfl
      · exact .inl (by decide)
      · exact .inl (by decide)
      · simp [render, isAbsolute] at habs
    · rcases hr with rfl | rfl | rfl
      · refine .inr ?_
        rw [properParts_render (.inl rfl) hp, render_nil hne hp]
        have hlen := length_joinWith_append (properParts base) parts
        obtain ⟨c, rest, hj, -⟩ := joinWith_head hne hp
        have hpos : 0 < (Text.joinWith '/' parts).length := by simp [hj]
        unfold render
        split
        next hnil =>
          have := congrArg List.length hnil
          simp only [List.length_append, List.length_nil] at this
          omega
        · simp only [List.length_append]
          omega
      · simp [render, isAbsolute] at habs
      · simp [render, isAbsolute] at habs

end StackFront.Path
