import PrimaryElection.Lib.Runs

/-! A bounded buffer behind one lock with one condition variable. A thread that finds the
buffer full, or empty, sleeps until it is woken and looks again. All sleepers are woken
when the buffer stops being empty and when it stops being full, and at no other time, and
a sleeper may wake up without reason. No wake-up is lost, and what is taken out is what
was put in, in order. -/

namespace PrimaryElection.Monitor

open Runs

/-! ### Buffers -/

/-- What is put into and taken out of a buffer, unless it is full or empty, with the list
of what it holds. -/
structure Buffer (β α : Type) where
  capacity : ℕ
  size : β → ℕ
  put : β → α → Option β
  take : β → Option (α × β)
  contents : β → List α
  length_contents : ∀ b, (contents b).length = size b
  size_le : ∀ b, size b ≤ capacity
  put_none : ∀ b x, put b x = none → size b = capacity
  contents_put : ∀ b x b', put b x = some b' → contents b' = contents b ++ [x]
  take_none : ∀ b, take b = none → size b = 0
  contents_take : ∀ b x b', take b = some (x, b') → contents b = x :: contents b'

variable {β α T : Type}

namespace Buffer

variable {B : Buffer β α} {b b' : β} {x : α}

theorem size_put (h : B.put b x = some b') : B.size b' = B.size b + 1 := by
  rw [← B.length_contents, B.contents_put b x b' h, List.length_append, B.length_contents, List.length_singleton]

theorem size_take (h : B.take b = some (x, b')) : B.size b = B.size b' + 1 := by
  rw [← B.length_contents b, B.contents_take b x b' h, List.length_cons, B.length_contents]

/-- A buffer seen through another one. -/
def pull {γ : Type} (B : Buffer β α) (f : γ → β) (put : γ → α → Option γ) (take : γ → Option (α × γ))
    (hput : ∀ c x, (put c x).map f = B.put (f c) x)
    (htake : ∀ c, (take c).map (Prod.map id f) = B.take (f c)) : Buffer γ α where
  capacity := B.capacity
  size c := B.size (f c)
  put := put
  take := take
  contents c := B.contents (f c)
  length_contents c := B.length_contents (f c)
  size_le c := B.size_le (f c)
  put_none c x h := B.put_none (f c) x (by rw [← hput, h, Option.map_none])
  contents_put c x c' h := B.contents_put (f c) x (f c') (by rw [← hput, h, Option.map_some])
  take_none c h := B.take_none (f c) (by rw [← htake, h, Option.map_none])
  contents_take c x c' h := B.contents_take (f c) x (f c') (by rw [← htake, h, Option.map_some]; rfl)

end Buffer

/-! ### Threads -/

/-- Where a thread is: outside, before the lock with what it wants, or asleep. -/
inductive Phase (α : Type) where
  | out
  | pushing (x : α)
  | pushAsleep (x : α)
  | popping
  | popAsleep
  deriving DecidableEq

def Phase.wake : Phase α → Phase α
  | pushAsleep x => pushing x
  | popAsleep => popping
  | p => p

/-- The call that a thread is in, with what it puts in, if any. -/
def Phase.called : Phase α → Option (Option α)
  | out => none
  | pushing x => some (some x)
  | pushAsleep x => some (some x)
  | popping => some none
  | popAsleep => some none

structure State (β α T : Type) where
  buf : β
  phase : T → Phase α

/-- A thread calls, takes the lock, or wakes up without reason. -/
inductive Event (α T : Type) where
  | push (t : T) (x : α)
  | pop (t : T)
  | enter (t : T)
  | spurious (t : T)

inductive Observed (α T : Type) where
  | silent
  | pushed (t : T) (x : α)
  | popped (t : T) (x : α)

variable [DecidableEq T] (B : Buffer β α)

def State.move (s : State β α T) (t : T) (p : Phase α) : State β α T :=
  { s with phase := Function.update s.phase t p }

/-- A change of the buffer, after which all are woken or none, and the thread is done. -/
def State.leave (s : State β α T) (t : T) (buf : β) (broadcast : Prop) [Decidable broadcast] :
    State β α T where
  buf := buf
  phase := Function.update (if broadcast then fun u => (s.phase u).wake else s.phase) t .out

def step (s : State β α T) : Event α T → Option (State β α T × Observed α T)
  | .push t x => if s.phase t matches .out then some (s.move t (.pushing x), .silent) else none
  | .pop t => if s.phase t matches .out then some (s.move t .popping, .silent) else none
  | .enter t =>
    match s.phase t with
    | .pushing x =>
      match B.put s.buf x with
      | none => some (s.move t (.pushAsleep x), .silent)
      | some b => some (s.leave t b (B.size b = 1), .pushed t x)
    | .popping =>
      match B.take s.buf with
      | none => some (s.move t .popAsleep, .silent)
      | some (x, b) => some (s.leave t b (B.size b + 1 = B.capacity), .popped t x)
    | _ => none
  | .spurious t =>
    match s.phase t with
    | .pushAsleep x => some (s.move t (.pushing x), .silent)
    | .popAsleep => some (s.move t .popping, .silent)
    | _ => none

/-! ### What holds between the steps -/

/-- A thread sleeps only while it could not go on. -/
structure Awake (s : State β α T) : Prop where
  full : ∀ t x, s.phase t = .pushAsleep x → B.size s.buf = B.capacity
  empty : ∀ t, s.phase t = .popAsleep → B.size s.buf = 0

def pushed (os : List (Observed α T)) : List α :=
  os.filterMap fun | .pushed _ x => some x | _ => none

def popped (os : List (Observed α T)) : List α :=
  os.filterMap fun | .popped _ x => some x | _ => none

/-- No wake-up was lost, and the buffer holds what was put in and not yet taken out. -/
structure Inv (b₀ : β) (os : List (Observed α T)) (s : State β α T) : Prop where
  awake : Awake B s
  fifo : B.contents b₀ ++ pushed os = popped os ++ B.contents s.buf

variable {B}

theorem wake_ne_pushAsleep (p : Phase α) (x : α) : p.wake ≠ .pushAsleep x := by
  cases p <;> intro h <;> cases h

theorem wake_ne_popAsleep (p : Phase α) : p.wake ≠ .popAsleep := by
  cases p <;> intro h <;> cases h

@[simp] theorem State.buf_move (s : State β α T) (t : T) (p : Phase α) : (s.move t p).buf = s.buf := rfl

@[simp] theorem State.buf_leave (s : State β α T) (t : T) (b : β) (broadcast : Prop) [Decidable broadcast] :
    (s.leave t b broadcast).buf = b := rfl

theorem State.phase_move (s : State β α T) (t u : T) (p : Phase α) :
    (s.move t p).phase u = if u = t then p else s.phase u := Function.update_apply _ _ _ _

theorem State.phase_leave (s : State β α T) (t u : T) (b : β) (broadcast : Prop) [Decidable broadcast] :
    (s.leave t b broadcast).phase u =
      if u = t then .out else if broadcast then (s.phase u).wake else s.phase u := by
  rw [State.leave]
  dsimp only
  rw [Function.update_apply]
  split_ifs <;> rfl

theorem Awake.move {s : State β α T} (h : Awake B s) {t : T} {p : Phase α}
    (hfull : ∀ x, p = .pushAsleep x → B.size s.buf = B.capacity) (hempty : p = .popAsleep → B.size s.buf = 0) :
    Awake B (s.move t p) := by
  constructor
  · intro u x hu
    rw [State.phase_move] at hu
    split_ifs at hu
    · exact hfull x hu
    · exact h.full u x hu
  · intro u hu
    rw [State.phase_move] at hu
    split_ifs at hu
    · exact hempty hu
    · exact h.empty u hu

/-- The threads still asleep after a change slept before it, and nobody was woken. -/
theorem Awake.leave {s : State β α T} (h : Awake B s) {t : T} {b : β} {broadcast : Prop} [Decidable broadcast]
    (hfull : ¬ broadcast → B.size s.buf = B.capacity → B.size b = B.capacity)
    (hempty : ¬ broadcast → B.size s.buf = 0 → B.size b = 0) : Awake B (s.leave t b broadcast) := by
  constructor
  · intro u x hu
    rw [State.phase_leave] at hu
    split_ifs at hu with hut hb
    · exact absurd hu (wake_ne_pushAsleep _ x)
    · exact hfull hb (h.full u x hu)
  · intro u hu
    rw [State.phase_leave] at hu
    split_ifs at hu with hut hb
    · exact absurd hu (wake_ne_popAsleep _)
    · exact hempty hb (h.empty u hu)

/-- What becomes of a thread that takes the lock. -/
theorem enter_cases {s s' : State β α T} {t : T} {o : Observed α T} (h : step B s (.enter t) = some (s', o)) :
    (∃ x, s.phase t = .pushing x ∧
      (B.put s.buf x = none ∧ s' = s.move t (.pushAsleep x) ∧ o = .silent ∨
        ∃ b, B.put s.buf x = some b ∧ s' = s.leave t b (B.size b = 1) ∧ o = .pushed t x)) ∨
    (s.phase t = .popping ∧
      (B.take s.buf = none ∧ s' = s.move t .popAsleep ∧ o = .silent ∨
        ∃ x b, B.take s.buf = some (x, b) ∧ s' = s.leave t b (B.size b + 1 = B.capacity) ∧
          o = .popped t x)) := by
  simp only [step] at h
  split at h
  next x ht =>
    refine .inl ⟨x, ht, ?_⟩
    split at h
    next hput =>
      cases h
      exact .inl ⟨hput, rfl, rfl⟩
    next b hput =>
      cases h
      exact .inr ⟨b, hput, rfl, rfl⟩
  next ht =>
    refine .inr ⟨ht, ?_⟩
    split at h
    next htake =>
      cases h
      exact .inl ⟨htake, rfl, rfl⟩
    next x b htake =>
      cases h
      exact .inr ⟨x, b, htake, rfl, rfl⟩
  next => cases h

@[simp] theorem Phase.called_wake (p : Phase α) : p.wake.called = p.called := by cases p <;> rfl

theorem State.called_move (s : State β α T) (t u : T) (p : Phase α) :
    ((s.move t p).phase u).called = if u = t then p.called else (s.phase u).called := by
  rw [State.phase_move]
  split_ifs <;> rfl

theorem State.called_leave (s : State β α T) (t u : T) (b : β) (broadcast : Prop) [Decidable broadcast] :
    ((s.leave t b broadcast).phase u).called = if u = t then none else (s.phase u).called := by
  rw [State.phase_leave]
  split_ifs
  · rfl
  · exact Phase.called_wake _
  · rfl

/-- Taking the lock ends the thread's call or changes no call. -/
theorem called_enter {s s' : State β α T} {t : T} {o : Observed α T} (h : step B s (.enter t) = some (s', o)) :
    (o = .silent ∧ s'.buf = s.buf ∧ ∀ u, (s'.phase u).called = (s.phase u).called) ∨
    (∀ u, (s'.phase u).called = if u = t then none else (s.phase u).called) ∧
      ((∃ x, o = .pushed t x ∧ (s.phase t).called = some (some x) ∧ B.put s.buf x = some s'.buf) ∨
        ∃ x, o = .popped t x ∧ (s.phase t).called = some none ∧ B.take s.buf = some (x, s'.buf)) := by
  have hsleep : ∀ p : Phase α, (s.phase t).called = p.called →
      ∀ u, ((s.move t p).phase u).called = (s.phase u).called := by
    intro p hp u
    rw [State.called_move]
    split_ifs with hu
    · rw [hu, hp]
    · rfl
  rcases enter_cases h with ⟨x, ht, ⟨-, rfl, rfl⟩ | ⟨b, hput, rfl, rfl⟩⟩ | ⟨ht, ⟨-, rfl, rfl⟩ | ⟨x, b, htake, rfl, rfl⟩⟩
  · exact .inl ⟨rfl, rfl, hsleep _ (by rw [ht]; rfl)⟩
  · exact .inr ⟨fun u => State.called_leave s t u b _, .inl ⟨x, rfl, by rw [ht]; rfl, hput⟩⟩
  · exact .inl ⟨rfl, rfl, hsleep _ (by rw [ht]; rfl)⟩
  · exact .inr ⟨fun u => State.called_leave s t u b _, .inr ⟨x, rfl, by rw [ht]; rfl, htake⟩⟩

theorem out_of_called {p : Phase α} (h : p.called = none) : p = .out := by
  cases p with
  | out => rfl
  | _ => cases h

/-- A thread in a call that cannot take the lock is asleep. -/
theorem asleep_of_called {s : State β α T} {t : T} {x : Option α} (ht : (s.phase t).called = some x)
    (hnone : step B s (.enter t) = none) :
    x = none ∧ s.phase t = .popAsleep ∨ ∃ y, x = some y ∧ s.phase t = .pushAsleep y := by
  rw [step] at hnone
  cases hp : s.phase t with
  | out =>
    rw [hp] at ht
    cases ht
  | pushing y =>
    rw [hp] at hnone
    dsimp only at hnone
    split at hnone <;> cases hnone
  | pushAsleep y =>
    rw [hp] at ht
    exact .inr ⟨y, (Option.some.inj ht).symm, rfl⟩
  | popping =>
    rw [hp] at hnone
    dsimp only at hnone
    split at hnone <;> cases hnone
  | popAsleep =>
    rw [hp] at ht
    exact .inl ⟨(Option.some.inj ht).symm, rfl⟩

theorem push_of_called {s : State β α T} {t : T} (ht : (s.phase t).called = none) (x : α) :
    step B s (.push t x) ≠ none := by
  rw [step, out_of_called ht]
  exact Option.some_ne_none _

theorem pop_of_called {s : State β α T} {t : T} (ht : (s.phase t).called = none) : step B s (.pop t) ≠ none := by
  rw [step, out_of_called ht]
  exact Option.some_ne_none _

/-- A call begins. -/
theorem called_push {s s' : State β α T} {t : T} {x : α} {o : Observed α T} (h : step B s (.push t x) = some (s', o)) :
    s'.buf = s.buf ∧ ∀ u, (s'.phase u).called = if u = t then some (some x) else (s.phase u).called := by
  simp only [step] at h
  split_ifs at h
  cases h
  exact ⟨rfl, fun u => State.called_move s t u _⟩

theorem called_pop {s s' : State β α T} {t : T} {o : Observed α T} (h : step B s (.pop t) = some (s', o)) :
    s'.buf = s.buf ∧ ∀ u, (s'.phase u).called = if u = t then some none else (s.phase u).called := by
  simp only [step] at h
  split_ifs at h
  cases h
  exact ⟨rfl, fun u => State.called_move s t u _⟩

theorem called_spurious {s s' : State β α T} {t : T} {o : Observed α T} (h : step B s (.spurious t) = some (s', o)) :
    s'.buf = s.buf ∧ ∀ u, (s'.phase u).called = (s.phase u).called := by
  simp only [step] at h
  split at h
  next x ht =>
    cases h
    refine ⟨rfl, fun u => ?_⟩
    rw [State.called_move]
    split_ifs with hu
    · rw [hu, ht]
      rfl
    · rfl
  next ht =>
    cases h
    refine ⟨rfl, fun u => ?_⟩
    rw [State.called_move]
    split_ifs with hu
    · rw [hu, ht]
      rfl
    · rfl
  next => cases h

/-- What a step can do to the buffer and to the threads. -/
inductive Moves (B : Buffer β α) (s : State β α T) : State β α T → Observed α T → Prop where
  | move (t : T) (p : Phase α) (hfull : ∀ x, p = .pushAsleep x → B.size s.buf = B.capacity)
    (hempty : p = .popAsleep → B.size s.buf = 0) : Moves B s (s.move t p) .silent
  | push (t : T) (x : α) (b : β) (ht : s.phase t = .pushing x) (hput : B.put s.buf x = some b) :
    Moves B s (s.leave t b (B.size b = 1)) (.pushed t x)
  | pop (t : T) (x : α) (b : β) (ht : s.phase t = .popping) (htake : B.take s.buf = some (x, b)) :
    Moves B s (s.leave t b (B.size b + 1 = B.capacity)) (.popped t x)

theorem step_moves {s s' : State β α T} {e : Event α T} {o : Observed α T}
    (h : step B s e = some (s', o)) : Moves B s s' o := by
  cases e with
  | push t x =>
    simp only [step] at h
    split_ifs at h
    cases h
    exact .move t _ nofun nofun
  | pop t =>
    simp only [step] at h
    split_ifs at h
    cases h
    exact .move t _ nofun nofun
  | enter t =>
    obtain ⟨x, ht, ⟨hput, rfl, rfl⟩ | ⟨b, hput, rfl, rfl⟩⟩ | ⟨ht, ⟨htake, rfl, rfl⟩ | ⟨x, b, htake, rfl, rfl⟩⟩ :=
      enter_cases h
    · exact .move t _ (fun _ _ => B.put_none _ x hput) nofun
    · exact .push t x b ht hput
    · exact .move t _ nofun fun _ => B.take_none _ htake
    · exact .pop t x b ht htake
  | spurious t =>
    simp only [step] at h
    split at h
    next => cases h; exact .move t _ nofun nofun
    next => cases h; exact .move t _ nofun nofun
    next => cases h

/-- Nobody is left asleep by a step. -/
theorem Awake.step {s s' : State β α T} {e : Event α T} {o : Observed α T} (h : Awake B s)
    (hs : Monitor.step B s e = some (s', o)) : Awake B s' := by
  cases step_moves hs with
  | move t p hfull hempty => exact h.move hfull hempty
  | push t x b ht hput =>
    have hsize := B.size_put hput
    have hle := B.size_le b
    exact h.leave (fun _ hc => by omega) (fun hb hz => absurd (by rw [hsize, hz]) hb)
  | pop t x b ht htake =>
    have hsize := B.size_take htake
    exact h.leave (fun hb hc => absurd (by rw [← hsize, hc]) hb) (fun _ hz => by omega)

omit [DecidableEq T] in
theorem Awake.out (b : β) : Awake B (⟨b, fun _ => .out⟩ : State β α T) := by
  constructor
  · intro t x h
    cases h
  · intro t h
    cases h

omit [DecidableEq T] in
theorem Inv.init {s : State β α T} (h : Awake B s) : Inv B s.buf [] s := ⟨h, List.append_nil _⟩

theorem Inv.step {b₀ : β} {os : List (Observed α T)} {s s' : State β α T} {e : Event α T}
    {o : Observed α T} (h : Inv B b₀ os s) (hs : Monitor.step B s e = some (s', o)) :
    Inv B b₀ (os ++ [o]) s' := by
  refine ⟨h.awake.step hs, ?_⟩
  have hfifo := h.fifo
  cases step_moves hs with
  | move t p hfull hempty => simpa [pushed, popped] using hfifo
  | push t x b ht hput =>
    rw [State.buf_leave, B.contents_put s.buf x b hput]
    simpa [pushed, popped, ← List.append_assoc] using hfifo
  | pop t x b ht htake =>
    rw [B.contents_take s.buf x b htake] at hfifo
    simpa [pushed, popped] using hfifo

omit [DecidableEq T] in
/-- Of a thread that wants to put something in and one that wants to take something out,
one can take the lock. -/
theorem Awake.not_both_asleep (hB : 0 < B.capacity) {s : State β α T} (h : Awake B s) {t u : T} {x : α}
    (ht : s.phase t = .pushAsleep x) (hu : s.phase u = .popAsleep) : False := by
  have hfull := h.full t x ht
  have hempty := h.empty u hu
  omega

end PrimaryElection.Monitor
