import StackFront.Proofs.Image.RoundTrip
import StackFront.Proofs.Path.Characters
import StackFront.Proofs.Program.WrittenForm

/-!
# Characters of the names that are reached

Targets are made of certain characters only, slashes and dots among them, and these are all that a
canonical name may have in addition to the paths that it comes from. So references bring no other
character into the names that are reached from a root.
-/
namespace StackFront.Session

variable {s : Session} {m n : Name} {c : Char}

theorem onlyParsed_of_fresh (h : s.programs = []) : s.OnlyParsed := by
  intro name loaded hknown
  rw [program?, h] at hknown
  cases hknown

/-- A canonical name has no character but slashes, dots and those that it comes from. -/
theorem not_mem_canonical {target : String} {referrer : Option Name}
    (hc : Program.isTargetChar c = false) (ht : c ∉ target.toList)
    (hr : ∀ name ∈ referrer, c ∉ name.toList) :
    c ∉ (Path.canonical target referrer).toList := by
  intro hmem
  rcases Path.mem_canonical hmem with rfl | rfl | h | ⟨name, hname, h⟩
  · exact absurd hc (by decide)
  · exact absurd hc (by decide)
  · exact ht h
  · exact hr name hname h

namespace OnlyParsed

theorem not_mem_of_refersTo (hs : s.OnlyParsed) (hc : Program.isTargetChar c = false)
    (h : s.content.RefersTo m n) (hm : c ∉ m.toList) : c ∉ n.toList := by
  obtain ⟨p, hp, hn⟩ := h
  obtain ⟨target, ht, rfl⟩ := Program.exists_target hn
  refine not_mem_canonical hc ((hs.content hp).not_mem_target hc ht) fun name hname => ?_
  cases hname
  exact hm

theorem not_mem_of_reaches (hs : s.OnlyParsed) (hc : Program.isTargetChar c = false)
    (h : s.content.Reaches m n) (hm : c ∉ m.toList) : c ∉ n.toList := by
  induction h with
  | refl => exact hm
  | tail _ hstep ih => exact hs.not_mem_of_refersTo hc hstep ih

end OnlyParsed

end StackFront.Session
