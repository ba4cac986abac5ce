import PrimaryElection.Core.ModelOptions
import PrimaryElection.Lib.Runs

/-! Opening and closing of candidate databases, candidate_db.cpp. Every instance has a
FileWriter on the lock file of its work path. The lock of a file is exclusive, and goes
when its holder unlocks or closes the file. Opening stores the instance for the caller
as soon as it has the lock; a table that then fails to load leaves it there, locked. -/

namespace PrimaryElection.Core

open Runs

def kSingletonName : String := "/._candb_lock_"

/-- What the calls of one opening return; `lock` is returned where nobody else has the
lock. -/
structure Calls where
  create : Status
  lock : Status
  userLoad : Status
  itemLoad : Status
  deriving DecidableEq

/-- The lock files with the instances that hold them, the number of the next instance,
the caller's pointers, and the instances that successful openings returned and nobody
deleted. -/
structure World where
  locked : List (String × ℕ)
  next : ℕ
  dbptr : ℕ → Option ℕ
  handles : List ℕ

def World.initial (dbptr : ℕ → Option ℕ) : World := ⟨[], 0, dbptr, []⟩

namespace World

/-- `FileWriter::lock`. -/
def lockFile (w : World) (file : String) (id : ℕ) (s : Status) : Status × World :=
  if ∃ h ∈ w.locked, h.1 = file then (.ioError, w)
  else if s = .ok then (.ok, { w with locked := (file, id) :: w.locked })
  else (s, w)

/-- `CandidateDB::lock`. -/
def lock (w : World) (file : String) (id : ℕ) (c : Calls) : Status × World :=
  if c.create ≠ .ok then (c.create, w) else w.lockFile file id c.lock

/-- `CandidateDB::reload`. -/
def reload (c : Calls) : Status := if c.userLoad ≠ .ok then c.userLoad else c.itemLoad

/-- The destructor: `unlock` and `close` of the lock file. -/
def destroy (w : World) (id : ℕ) : World :=
  { w with locked := w.locked.filter fun h => h.2 ≠ id }

/-- `CandidateDB::openDB` into the pointer `var`, with the number of the new instance. -/
def openDB (w : World) (workPath : String) (var : ℕ) (c : Calls) : Status × ℕ × World :=
  let id := w.next
  let created := { w with next := w.next + 1 }
  let l := created.lock (workPath ++ kSingletonName) id c
  if l.1 ≠ .ok then (l.1, id, l.2.destroy id)
  else (reload c, id, { l.2 with dbptr := Function.update l.2.dbptr var (some id) })

end World

inductive Act where
  | openDB (workPath : String) (var : ℕ) (c : Calls)
  | delete (id : ℕ)
  deriving DecidableEq

/-- What a step shows: for an opening its status, the caller's pointer before and after
it, and whether the new instance holds a lock. -/
inductive Shown where
  | opened (status : Status) (before after : Option ℕ) (holds : Bool)
  | deleted
  deriving DecidableEq

/-- One opening, or the deletion of an instance that a successful opening returned. -/
def World.step (w : World) : Act → Option (World × Shown)
  | .openDB workPath var c =>
    let r := w.openDB workPath var c
    let handles := if r.1 = .ok then r.2.1 :: w.handles else w.handles
    some ({ r.2.2 with handles := handles },
      .opened r.1 (w.dbptr var) (r.2.2.dbptr var) (decide (∃ h ∈ r.2.2.locked, h.2 = r.2.1)))
  | .delete id =>
    if id ∈ w.handles then
      some ({ w.destroy id with handles := w.handles.filter (· ≠ id) }, .deleted)
    else none

/-! ### All or nothing -/

/-- An opening that fails leaves the caller's pointer as it was and holds no lock. -/
def Shown.AllOrNothing : Shown → Prop
  | .opened status before after holds => status ≠ .ok → after = before ∧ holds = false
  | .deleted => True

/-- No lock has two holders, and every holder is an instance that an opening returned
with success, so that no failed one stands in the way of another opening. -/
structure World.Sound (w : World) : Prop where
  exclusive : ∀ file i j, (file, i) ∈ w.locked → (file, j) ∈ w.locked → i = j
  held : ∀ h ∈ w.locked, h.2 ∈ w.handles

/-- The condition on a step: a table that fails to load meets no opening that got the
lock. -/
def World.LoadsIfLocked (w : World) : Act → Prop
  | .openDB workPath _ c =>
    c.create = .ok → (∀ h ∈ w.locked, h.1 ≠ workPath ++ kSingletonName) → c.lock = .ok →
      c.userLoad = .ok ∧ c.itemLoad = .ok
  | .delete _ => True

/-- What every state of a run has besides: instances are numbered below the next. -/
structure World.Inv (os : List Shown) (w : World) : Prop extends w.Sound where
  below : ∀ i ∈ w.handles, i < w.next
  shown : ∀ o ∈ os, o.AllOrNothing

theorem World.inv_initial (dbptr : ℕ → Option ℕ) : (World.initial dbptr).Inv [] where
  exclusive _ _ _ h _ := nomatch h
  held _ h := nomatch h
  below _ h := nomatch h
  shown _ h := nomatch h

theorem World.reload_ok_iff (c : Calls) :
    World.reload c = .ok ↔ c.userLoad = .ok ∧ c.itemLoad = .ok := by
  unfold World.reload
  split_ifs with h
  · exact ⟨fun he => absurd he h, fun he => absurd he.1 h⟩
  · exact ⟨fun he => ⟨not_not.mp h, he⟩, fun he => he.2⟩

/-- The lock can be taken: every call before it succeeds and nobody has it. -/
def World.Lockable (w : World) (file : String) (c : Calls) : Prop :=
  c.create = .ok ∧ (∀ h ∈ w.locked, h.1 ≠ file) ∧ c.lock = .ok

theorem World.lock_cases (w : World) (file : String) (id : ℕ) (c : Calls) :
    (¬ w.Lockable file c ∧ ∃ s, s ≠ .ok ∧ w.lock file id c = (s, w)) ∨
      (w.Lockable file c ∧
        w.lock file id c = (.ok, { w with locked := (file, id) :: w.locked })) := by
  unfold World.lock World.lockFile
  by_cases hc : c.create = .ok
  · rw [if_neg (not_not.mpr hc)]
    by_cases hf : ∃ h ∈ w.locked, h.1 = file
    · rw [if_pos hf]
      obtain ⟨h, hmem, hfile⟩ := hf
      exact .inl ⟨fun hn => hn.2.1 h hmem hfile, .ioError, by decide, rfl⟩
    · rw [if_neg hf]
      by_cases hl : c.lock = .ok
      · rw [if_pos hl]
        exact .inr ⟨⟨hc, fun h hmem hfile => hf ⟨h, hmem, hfile⟩, hl⟩, rfl⟩
      · rw [if_neg hl]
        exact .inl ⟨fun hn => hl hn.2.2, c.lock, hl, rfl⟩
  · rw [if_pos hc]
    exact .inl ⟨fun hn => hc hn.1, c.create, hc, rfl⟩

/-- What an opening does: it fails before it has the lock, or it gets the lock and its
status is that of the load. -/
theorem World.openDB_cases (w : World) (workPath : String) (var : ℕ) (c : Calls) :
    (¬ w.Lockable (workPath ++ kSingletonName) c ∧ ∃ s, s ≠ .ok ∧
      w.openDB workPath var c = (s, w.next, { w with
        next := w.next + 1
        locked := w.locked.filter fun h => h.2 ≠ w.next })) ∨
    (w.Lockable (workPath ++ kSingletonName) c ∧
      w.openDB workPath var c = (World.reload c, w.next, { w with
        next := w.next + 1
        locked := (workPath ++ kSingletonName, w.next) :: w.locked
        dbptr := Function.update w.dbptr var (some w.next) })) := by
  unfold World.openDB
  dsimp only
  obtain ⟨hn, s, hs, heq⟩ | ⟨hl, heq⟩ :=
    World.lock_cases { w with next := w.next + 1 } (workPath ++ kSingletonName) w.next c
  · refine .inl ⟨hn, s, hs, ?_⟩
    rw [heq, if_pos hs]
    rfl
  · refine .inr ⟨hl, ?_⟩
    rw [heq, if_neg (not_not.mpr rfl)]

/-- Locks held by instances that are below the next one are not the next one's. -/
theorem World.Inv.filter_next {os : List Shown} {w : World} (hi : w.Inv os) :
    (w.locked.filter fun h => h.2 ≠ w.next) = w.locked := by
  rw [List.filter_eq_self]
  intro h hmem
  have hlt := hi.below _ (hi.held h hmem)
  simpa using hlt.ne

theorem World.Inv.shown_concat {os : List Shown} {w : World} (hi : w.Inv os) {o : Shown}
    (ho : o.AllOrNothing) : ∀ o' ∈ os ++ [o], o'.AllOrNothing :=
  List.forall_mem_append.mpr ⟨hi.shown, List.forall_mem_singleton.mpr ho⟩

/-- An opening that did not get the lock only uses up a number. -/
theorem World.Inv.refused {os : List Shown} {w : World} (hi : w.Inv os) {o : Shown}
    (ho : o.AllOrNothing) : World.Inv (os ++ [o]) { w with next := w.next + 1 } where
  exclusive := hi.exclusive
  held := hi.held
  below i h := (hi.below i h).trans (Nat.lt_succ_self _)
  shown := hi.shown_concat ho

/-- An opening that got the lock and loaded the tables. -/
theorem World.Inv.opened {os : List Shown} {w : World} (hi : w.Inv os) {file : String}
    (hfile : ∀ h ∈ w.locked, h.1 ≠ file) (dbptr : ℕ → Option ℕ) {o : Shown} (ho : o.AllOrNothing) :
    World.Inv (os ++ [o]) ⟨(file, w.next) :: w.locked, w.next + 1, dbptr, w.next :: w.handles⟩ where
  exclusive f i j h₁ h₂ := by
    rcases List.mem_cons.mp h₁ with h₁ | h₁ <;> rcases List.mem_cons.mp h₂ with h₂ | h₂
    · rw [(Prod.mk.inj h₁).2, (Prod.mk.inj h₂).2]
    · exact absurd (Prod.mk.inj h₁).1 (hfile _ h₂)
    · exact absurd (Prod.mk.inj h₂).1 (hfile _ h₁)
    · exact hi.exclusive f i j h₁ h₂
  held h hmem := by
    rcases List.mem_cons.mp hmem with rfl | hmem
    · exact List.mem_cons_self
    · exact List.mem_cons_of_mem _ (hi.held h hmem)
  below i hmem := by
    rcases List.mem_cons.mp hmem with rfl | hmem
    · exact Nat.lt_succ_self _
    · exact (hi.below i hmem).trans (Nat.lt_succ_self _)
  shown := hi.shown_concat ho

/-- A deleted instance takes its lock along. -/
theorem World.Inv.deleted {os : List Shown} {w : World} (hi : w.Inv os) (id : ℕ) :
    World.Inv (os ++ [.deleted]) { w.destroy id with handles := w.handles.filter (· ≠ id) } where
  exclusive f i j h₁ h₂ := hi.exclusive f i j (List.mem_of_mem_filter h₁) (List.mem_of_mem_filter h₂)
  held h hmem := by
    obtain ⟨hmem, hne⟩ := List.mem_filter.mp hmem
    exact List.mem_filter.mpr ⟨hi.held h hmem, by simpa using hne⟩
  below i hmem := hi.below i (List.mem_of_mem_filter hmem)
  shown := hi.shown_concat trivial

theorem World.inv_step {os : List Shown} {w w' : World} {a : Act} {o : Shown} (hi : w.Inv os)
    (ha : w.LoadsIfLocked a) (hs : w.step a = some (w', o)) : w'.Inv (os ++ [o]) := by
  cases a with
  | openDB workPath var c =>
    simp only [World.step, Option.some.injEq, Prod.mk.injEq] at hs
    obtain ⟨rfl, rfl⟩ := hs
    obtain ⟨hn, s, hs, heq⟩ | ⟨hl, heq⟩ := w.openDB_cases workPath var c
    · rw [heq, hi.filter_next]
      simp only [if_neg hs]
      refine hi.refused fun _ => ⟨rfl, ?_⟩
      rw [decide_eq_false_iff_not]
      rintro ⟨h, hmem, hid⟩
      exact (hi.below _ (hi.held h hmem)).ne hid
    · have hok := (World.reload_ok_iff c).mpr (ha hl.1 hl.2.1 hl.2.2)
      rw [heq]
      simp only [if_pos hok]
      exact hi.opened hl.2.1 _ fun hne => absurd hok hne
  | delete id =>
    simp only [World.step] at hs
    split_ifs at hs
    cases hs
    exact hi.deleted id

/-- An opening that gets the lock and fails to load breaks the promise. -/
theorem World.step_breaks {w : World} {a : Act} (ha : ¬ w.LoadsIfLocked a) :
    ∃ w' o, w.step a = some (w', o) ∧ ¬ o.AllOrNothing := by
  cases a with
  | delete id => exact absurd trivial ha
  | openDB workPath var c =>
    have hnot : ¬ (w.Lockable (workPath ++ kSingletonName) c →
        c.userLoad = .ok ∧ c.itemLoad = .ok) := fun h =>
      ha fun h₁ h₂ h₃ => h ⟨h₁, h₂, h₃⟩
    obtain ⟨hl, hload⟩ := Classical.not_imp.mp hnot
    obtain ⟨hn, -⟩ | ⟨-, heq⟩ := w.openDB_cases workPath var c
    · exact absurd hl hn
    · refine ⟨_, _, rfl, ?_⟩
      rw [heq]
      intro hall
      have hstatus : World.reload c ≠ .ok := fun he => hload ((World.reload_ok_iff c).mp he)
      have hholds := (hall hstatus).2
      rw [decide_eq_false_iff_not] at hholds
      exact hholds ⟨_, List.mem_cons_self, rfl⟩

/-- Openings are all or nothing, with no lock held twice or by an instance that failed
to open, throughout a run exactly when every opening of the run that gets the lock
loads both tables. -/
theorem openDB_all_or_nothing_iff (dbptr : ℕ → Option ℕ) (as : List Act) :
    Always World.step (fun os w => w.Sound ∧ ∀ o ∈ os, o.AllOrNothing) (World.initial dbptr) as ↔
      Along World.step World.LoadsIfLocked (World.initial dbptr) as := by
  refine always_iff_along (I := fun os w => w.Inv os) (fun os w hi => ⟨hi.toSound, hi.shown⟩)
    (fun os w a w' o hi ha hs => World.inv_step hi ha hs) ?_ as (World.inv_initial dbptr)
  intro os w a _ ha
  obtain ⟨w', o, hs, ho⟩ := World.step_breaks ha
  exact ⟨w', o, hs, fun h => ho (h.2 o (List.mem_append_right _ List.mem_cons_self))⟩

/-- An opening whose user table fails to load, then one of the same path in which every
call would succeed. -/
def failedLoad : List Act :=
  [.openDB "db" 0 ⟨.ok, .ok, .ioError, .ok⟩, .openDB "db" 1 ⟨.ok, .ok, .ok, .ok⟩]

/-- The failed opening has changed the caller's pointer and keeps the lock; the second
one is refused. -/
theorem failed_load_keeps_lock :
    (run World.step (World.initial fun _ => none) failedLoad).map Prod.snd =
        some [.opened .ioError none (some 0) true, .opened .ioError none none false] ∧
      ¬ Always World.step (fun os w => w.Sound ∧ ∀ o ∈ os, o.AllOrNothing)
        (World.initial fun _ => none) failedLoad := by
  have hrun : (run World.step (World.initial fun _ => none) failedLoad).map Prod.snd =
      some [.opened .ioError none (some 0) true, .opened .ioError none none false] := by decide
  refine ⟨hrun, fun hall => ?_⟩
  obtain ⟨⟨w, os⟩, hw, hos⟩ := Option.map_eq_some_iff.mp hrun
  cases hos
  have hfirst := (hall failedLoad [] w _ (List.append_nil _).symm hw).2 _ List.mem_cons_self
  exact absurd (hfirst (by decide)).2 (by decide)

end PrimaryElection.Core
