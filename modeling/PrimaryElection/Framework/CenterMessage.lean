import PrimaryElection.Lib.Memory
import PrimaryElection.Lib.Runs

/-! The stream of one message through `UC_CenterMessage`. `put_message` pushes the
message's node once for each task; a working thread pops the node, draws the next
index with a fetch-and-add, runs `process_task` on it, counts it as finished under
the node's lock, and runs `combine_task` if it was the last. The stores of the tasks
of different threads interleave in any order. -/

namespace PrimaryElection.Framework

open Memory

/-- Where a working thread is with respect to the node. -/
inductive Phase where
  | idle
  | popped
  | running (curCount : ℕ) (todo : List Store)
  | finishing
  | combined

/-- The calls of the processor that have returned. -/
inductive Call where
  | processTask (curCount : ℕ)
  | combineTask
  deriving DecidableEq

/-- The node, its copies not yet pushed and waiting, the threads and the handle's
memory; `aborted` after a failed assertion. -/
structure Stream (workingNum : ℕ) where
  unpushed : ℕ
  waiting : ℕ
  curCount : ℕ
  finCount : ℕ
  worker : Fin workingNum → Phase
  mem : Mem
  referFin : Bool
  aborted : Bool

inductive Act (workingNum : ℕ) where
  | push
  | pop (w : Fin workingNum)
  | fetch (w : Fin workingNum)
  | write (w : Fin workingNum)
  | finish (w : Fin workingNum)
  | combine (w : Fin workingNum)
  | publish (w : Fin workingNum)

/-- What a processor does with an accepted message: how many tasks there are, the
stores of each, and how the combination changes the memory unless it aborts. -/
structure Fan where
  allCount : ℕ
  task : ℕ → List Store
  combineTask : Mem → Option Mem

variable {W : ℕ}

/-- The node as `put_message` sets it up over the distributed message; it takes no
message without a task. -/
def Stream.init (fan : Fan) (m₀ : Mem) : Stream W where
  unpushed := fan.allCount
  waiting := 0
  curCount := 0
  finCount := 0
  worker := fun _ => .idle
  mem := m₀
  referFin := false
  aborted := false

namespace Stream

def move (s : Stream W) (w : Fin W) (p : Phase) : Stream W :=
  { s with worker := Function.update s.worker w p }

@[simp] theorem move_unpushed (s : Stream W) (w : Fin W) (p : Phase) : (s.move w p).unpushed = s.unpushed := rfl

@[simp] theorem move_waiting (s : Stream W) (w : Fin W) (p : Phase) : (s.move w p).waiting = s.waiting := rfl

@[simp] theorem move_curCount (s : Stream W) (w : Fin W) (p : Phase) : (s.move w p).curCount = s.curCount := rfl

@[simp] theorem move_finCount (s : Stream W) (w : Fin W) (p : Phase) : (s.move w p).finCount = s.finCount := rfl

@[simp] theorem move_mem (s : Stream W) (w : Fin W) (p : Phase) : (s.move w p).mem = s.mem := rfl

@[simp] theorem move_referFin (s : Stream W) (w : Fin W) (p : Phase) : (s.move w p).referFin = s.referFin := rfl

@[simp] theorem move_aborted (s : Stream W) (w : Fin W) (p : Phase) : (s.move w p).aborted = s.aborted := rfl

/-- One step of `put_message` or of `thread_process`. -/
def step (fan : Fan) (s : Stream W) (a : Act W) : Option (Stream W × Option Call) :=
  if s.aborted then none
  else match a with
  | .push =>
    if s.unpushed = 0 then none
    else some ({ s with unpushed := s.unpushed - 1, waiting := s.waiting + 1 }, none)
  | .pop w =>
    match s.worker w with
    | .idle =>
      if s.waiting = 0 then none
      else some ({ s with waiting := s.waiting - 1 }.move w .popped, none)
    | _ => none
  | .fetch w =>
    match s.worker w with
    | .popped =>
      some ({ s with curCount := s.curCount + 1 }.move w
        (.running s.curCount (fan.task s.curCount)), none)
    | _ => none
  | .write w =>
    match s.worker w with
    | .running k (x :: xs) => some ({ s with mem := x.apply s.mem }.move w (.running k xs), none)
    | _ => none
  | .finish w =>
    match s.worker w with
    | .running k [] =>
      let finishFlg := s.finCount + 1 = fan.allCount
      some ({ s with finCount := s.finCount + 1 }.move w (if finishFlg then .finishing else .idle),
        some (.processTask k))
    | _ => none
  | .combine w =>
    match s.worker w with
    | .finishing =>
      match fan.combineTask s.mem with
      | some m => some ({ s with mem := m }.move w .combined, some .combineTask)
      | none => some ({ s with aborted := true }.move w .idle, some .combineTask)
    | _ => none
  | .publish w =>
    match s.worker w with
    | .combined => some ({ s with referFin := true }.move w .idle, none)
    | _ => none

/-! ### The cases of a step -/

/-- What a step does, by the phase of the thread that takes it. -/
inductive Moves (fan : Fan) (s : Stream W) : Stream W → Option Call → Prop where
  | push (h : 0 < s.unpushed) :
    Moves fan s { s with unpushed := s.unpushed - 1, waiting := s.waiting + 1 } none
  | pop {w : Fin W} (h : s.worker w = .idle) (hw : 0 < s.waiting) :
    Moves fan s ({ s with waiting := s.waiting - 1 }.move w .popped) none
  | fetch {w : Fin W} (h : s.worker w = .popped) :
    Moves fan s ({ s with curCount := s.curCount + 1 }.move w
      (.running s.curCount (fan.task s.curCount))) none
  | write {w : Fin W} {k : ℕ} {x : Store} {xs : List Store} (h : s.worker w = .running k (x :: xs)) :
    Moves fan s ({ s with mem := x.apply s.mem }.move w (.running k xs)) none
  | finish {w : Fin W} {k : ℕ} (h : s.worker w = .running k []) :
    Moves fan s ({ s with finCount := s.finCount + 1 }.move w
      (if s.finCount + 1 = fan.allCount then .finishing else .idle)) (some (.processTask k))
  | combine {w : Fin W} {m : Mem} (h : s.worker w = .finishing) (hm : fan.combineTask s.mem = some m) :
    Moves fan s ({ s with mem := m }.move w .combined) (some .combineTask)
  | abort {w : Fin W} (h : s.worker w = .finishing) (hm : fan.combineTask s.mem = none) :
    Moves fan s ({ s with aborted := true }.move w .idle) (some .combineTask)
  | publish {w : Fin W} (h : s.worker w = .combined) :
    Moves fan s ({ s with referFin := true }.move w .idle) none

theorem step_moves {fan : Fan} {s s' : Stream W} {a : Act W} {c : Option Call}
    (h : step fan s a = some (s', c)) : s.aborted = false ∧ Moves fan s s' c := by
  have hab : s.aborted = false := by
    by_contra hc
    rw [step.eq_def, if_pos (by simpa using hc)] at h
    cases h
  refine ⟨hab, ?_⟩
  rw [step.eq_def, if_neg (by simp [hab])] at h
  cases a with
  | push =>
    simp only at h
    split_ifs at h with hu
    cases h
    exact .push (Nat.pos_of_ne_zero hu)
  | pop w =>
    simp only at h
    split at h
    · rename_i hw
      split_ifs at h with hn
      cases h
      exact .pop hw (Nat.pos_of_ne_zero hn)
    · cases h
  | fetch w =>
    simp only at h
    split at h
    · rename_i hw
      cases h
      exact .fetch hw
    · cases h
  | write w =>
    simp only at h
    split at h
    · rename_i hw
      cases h
      exact .write hw
    · cases h
  | finish w =>
    simp only at h
    split at h
    · rename_i hw
      cases h
      exact .finish hw
    · cases h
  | combine w =>
    simp only at h
    split at h
    · rename_i hw
      split at h
      · rename_i hm
        cases h
        exact .combine hw hm
      · rename_i hm
        cases h
        exact .abort hw hm
    · cases h
  | publish w =>
    simp only at h
    split at h
    · rename_i hw
      cases h
      exact .publish hw
    · cases h

/-- A thread that is not idle can take its step, as long as nothing was aborted. -/
theorem step_enabled {fan : Fan} {s : Stream W} (hab : s.aborted = false) {w : Fin W}
    (hw : s.worker w ≠ .idle) : ∃ a, step fan s a ≠ none := by
  cases hp : s.worker w with
  | idle => exact absurd hp hw
  | popped => exact ⟨.fetch w, by simp [step, hab, hp]⟩
  | running k todo =>
    cases todo with
    | nil => exact ⟨.finish w, by simp [step, hab, hp]⟩
    | cons x xs => exact ⟨.write w, by simp [step, hab, hp]⟩
  | finishing =>
    refine ⟨.combine w, ?_⟩
    cases hm : fan.combineTask s.mem <;> simp [step, hab, hp, hm]
  | combined => exact ⟨.publish w, by simp [step, hab, hp]⟩

/-! ### Counting threads -/

theorem running_move {s s' : Stream W} {w w' : Fin W} {p : Phase} {k : ℕ} {todo : List Store}
    (hs : s'.worker = Function.update s.worker w p) :
    s'.worker w' = .running k todo ↔
      (w' = w ∧ p = .running k todo) ∨ (w' ≠ w ∧ s.worker w' = .running k todo) := by
  rw [hs]
  by_cases h : w' = w
  · subst h; simp
  · simp [h]

/-- Where the thread that moved is not running now, the others are as before. -/
theorem running_of_move {s s' : Stream W} {w w' : Fin W} {p : Phase} {k : ℕ} {todo : List Store}
    (hs : s'.worker = Function.update s.worker w p) (hp : ∀ k todo, p ≠ .running k todo)
    (h : s'.worker w' = .running k todo) : w' ≠ w ∧ s.worker w' = .running k todo := by
  rcases (running_move hs).mp h with ⟨-, hr⟩ | hr
  · exact absurd hr (hp k todo)
  · exact hr

/-- The threads, counted with a weight for each phase. -/
def tally (s : Stream W) (f : Phase → ℕ) : ℕ := ∑ w, f (s.worker w)

theorem le_tally (s : Stream W) (f : Phase → ℕ) (w : Fin W) : f (s.worker w) ≤ s.tally f :=
  Finset.single_le_sum (f := fun v => f (s.worker v)) (fun _ _ => Nat.zero_le _) (Finset.mem_univ w)

theorem tally_move {s t : Stream W} {w : Fin W} {p : Phase}
    (hs : t.worker = Function.update s.worker w p) (f : Phase → ℕ) :
    t.tally f + f (s.worker w) = s.tally f + f p := by
  have h₁ := Finset.add_sum_erase Finset.univ (fun v => f (s.worker v)) (Finset.mem_univ w)
  have h₂ := Finset.add_sum_erase Finset.univ (fun v => f (t.worker v)) (Finset.mem_univ w)
  have h₃ : ∑ v ∈ Finset.univ.erase w, f (t.worker v) =
      ∑ v ∈ Finset.univ.erase w, f (s.worker v) := by
    refine Finset.sum_congr rfl fun v hv => ?_
    rw [hs, Function.update_of_ne (Finset.ne_of_mem_erase hv)]
  have h₄ : t.worker w = p := by rw [hs, Function.update_self]
  simp only [h₄] at h₂
  unfold tally
  omega

end Stream

end PrimaryElection.Framework
