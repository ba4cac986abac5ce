import Mathlib.Tactic

/-! Working through a set of instants in order. The instants done so far are the
first ones after the start, and one more may be done when its turn has come. -/

namespace PrimaryElection.Schedule

variable {α : Type*} [LinearOrder α] {S : Set α} {next : α → α}

/-- `next t` is the first instant after `t`. -/
def Successor (S : Set α) (next : α → α) : Prop := ∀ t, IsLeast {x | x ∈ S ∧ t < x} (next t)

/-- The instants `done` are the first ones after `start`, in order, and `pending` is
the first one that is left. -/
structure Progress (S : Set α) (start : α) (done : List α) (pending : α) : Prop where
  inOrder : done.Pairwise (· < ·)
  scheduled : ∀ x ∈ done, x ∈ S ∧ start < x
  before : ∀ x ∈ done, x < pending
  first : IsLeast {x | x ∈ S ∧ start < x ∧ x ∉ done} pending

theorem Progress.init (h : Successor S next) (start : α) : Progress S start [] (next start) :=
  ⟨List.Pairwise.nil, by simp, by simp, by simpa using h start⟩

theorem Progress.advance (h : Successor S next) {start pending : α} {done : List α}
    (hp : Progress S start done pending) :
    Progress S start (done ++ [pending]) (next pending) := by
  obtain ⟨⟨hS, hlt⟩, hleast⟩ := h pending
  obtain ⟨hin, hstart, hnot⟩ := hp.first.1
  refine ⟨?_, ?_, ?_, ?_, ?_⟩
  · refine List.pairwise_append.mpr ⟨hp.inOrder, List.pairwise_singleton _ _, ?_⟩
    intro x hx y hy
    rw [List.mem_singleton.mp hy]
    exact hp.before x hx
  · intro x hx
    rcases List.mem_append.mp hx with hx | hx
    · exact hp.scheduled x hx
    · rw [List.mem_singleton.mp hx]
      exact ⟨hin, hstart⟩
  · intro x hx
    rcases List.mem_append.mp hx with hx | hx
    · exact (hp.before x hx).trans hlt
    · rwa [List.mem_singleton.mp hx]
  · refine ⟨hS, hstart.trans hlt, fun hx => ?_⟩
    rcases List.mem_append.mp hx with hx | hx
    · exact (hp.before _ hx).not_gt hlt
    · exact hlt.ne' (List.mem_singleton.mp hx)
  · -- what is left after `pending` comes after it
    rintro x ⟨hx, hsx, hn⟩
    rw [List.mem_append, not_or, List.mem_singleton] at hn
    have hle : pending ≤ x := hp.first.2 ⟨hx, hsx, hn.1⟩
    exact hleast ⟨hx, lt_of_le_of_ne hle (Ne.symm hn.2)⟩

/-- What was done determines what is pending. -/
theorem Progress.unique {start p q : α} {done : List α} (hp : Progress S start done p)
    (hq : Progress S start done q) : p = q := hp.first.unique hq.first

end PrimaryElection.Schedule
