import PrimaryElection.Lib.Runs

/-! A list handed out in consecutive chunks. The state is what is still pending;
a step hands out the next chunk or drops everything. Whatever the chunk sizes,
what was handed out is a prefix of the list, each chunk is the next piece of it,
and nothing follows a drop. -/

namespace PrimaryElection.Chunks

open Runs

variable {α : Type*}

inductive Op where
  | hand (k : ℕ)
  | drop

/-- The pending list after a step, and the chunk handed out by it. -/
def step (q : List α) : Op → Option (List α × List α)
  | .hand k => some (q.drop k, q.take k)
  | .drop => some ([], [])

/-- `out` is the piece of `l` that follows a prefix of length `n`. -/
def NextChunk (l : List α) (n : ℕ) (out : List α) : Prop := out = (l.drop n).take out.length

/-- `given` was handed out of `l` and `q` is still pending. -/
structure Split (l given q : List α) : Prop where
  handed : given <+: l
  rest : q = [] ∨ l = given ++ q

theorem split_refl (l : List α) : Split l [] l := ⟨List.nil_prefix, .inr rfl⟩

theorem step_split {l given q q' out : List α} {op : Op} (h : Split l given q)
    (hs : step q op = some (q', out)) : Split l (given ++ out) q' := by
  cases op with
  | hand k =>
    cases hs
    rcases h.rest with rfl | rfl
    · exact ⟨by simpa using h.handed, .inl (by simp)⟩
    · refine ⟨?_, .inr (by simp)⟩
      exact (List.prefix_append_right_inj given).mpr (List.take_prefix k q)
  | drop =>
    cases hs
    exact ⟨by simpa using h.handed, .inl rfl⟩

theorem step_nextChunk {l given q q' out : List α} {op : Op} (h : Split l given q)
    (hs : step q op = some (q', out)) : NextChunk l given.length out := by
  cases op with
  | hand k =>
    cases hs
    rcases h.rest with rfl | rfl
    · simp [NextChunk]
    · rw [NextChunk, List.drop_left, List.length_take, List.take_eq_take_iff]
      omega
  | drop =>
    cases hs
    simp [NextChunk]

theorem step_sublist {q q' out : List α} {op : Op} (hs : step q op = some (q', out)) :
    (out ++ q').Sublist q := by
  cases op with
  | hand k =>
    cases hs
    rw [List.take_append_drop]
  | drop =>
    cases hs
    exact List.nil_sublist q

theorem run_split {l q q' : List α} {given : List α} {ops : List Op} {outs : List (List α)}
    (h : Split l given q) (hr : run step q ops = some (q', outs)) :
    Split l (given ++ outs.flatten) q' := by
  exact run_invariant (I := fun os q => Split l (given ++ os.flatten) q)
    (fun os s a s' o hs hstep => by
      simpa [List.append_assoc] using step_split hs hstep)
    (by simpa using h) hr

/-- What a run hands out is a prefix of what was pending. -/
theorem run_isPrefix {q q' : List α} {ops : List Op} {outs : List (List α)}
    (hr : run step q ops = some (q', outs)) : outs.flatten <+: q := by
  simpa using (run_split (split_refl q) hr).handed

theorem run_empty {q' : List α} {ops : List Op} {outs : List (List α)}
    (hr : run step [] ops = some (q', outs)) : ∀ out ∈ outs, out = [] := by
  have h := List.prefix_nil.mp (run_isPrefix hr)
  exact List.flatten_eq_nil_iff.mp h

end PrimaryElection.Chunks
