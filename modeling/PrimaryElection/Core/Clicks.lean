import PrimaryElection.Core.ModelOptions
import PrimaryElection.Lib.Runs

/-! Updates of the candidate database, candidate_db.cpp. The user table and the item
table lie outside this repository; a table is the list of the updates it has
applied, and each of its updates succeeds or leaves it as it was. A click is written
to the user table first and then to the item table, with nothing to take the first
write back. -/

namespace PrimaryElection.Core

open Runs

inductive ActionType where
  | click
  | other (code : ℕ)
  deriving DecidableEq

structure Action where
  userId : UInt64
  itemId : UInt64
  action : ActionType
  deriving DecidableEq

/-- Messages of the updates that concern one table only. -/
structure Item where
  itemId : UInt64
  publishTime : ℤ
  deriving DecidableEq

structure Subscribe where
  userId : UInt64
  deriving DecidableEq

structure Feedback where
  userId : UInt64
  itemId : List UInt64
  deriving DecidableEq

inductive UserUpdate where
  | subscribe (s : Subscribe)
  | feedback (f : Feedback)
  | action (a : Action)
  deriving DecidableEq

inductive ItemUpdate where
  | add (i : Item)
  | action (a : Action)
  deriving DecidableEq

/-- The updates that each table has applied, latest last. -/
structure DB where
  user : List UserUpdate
  item : List ItemUpdate
  deriving DecidableEq

def DB.empty : DB := ⟨[], []⟩

def DB.userUpdate (db : DB) (u : UserUpdate) (s : Status) : DB :=
  if s = .ok then { db with user := db.user ++ [u] } else db

def DB.itemUpdate (db : DB) (i : ItemUpdate) (s : Status) : DB :=
  if s = .ok then { db with item := db.item ++ [i] } else db

def addItem (db : DB) (i : Item) (s : Status) : DB × Status := (db.itemUpdate (.add i) s, s)

def updateSubscribe (db : DB) (u : Subscribe) (s : Status) : DB × Status :=
  (db.userUpdate (.subscribe u) s, s)

def updateFeedback (db : DB) (f : Feedback) (s : Status) : DB × Status :=
  (db.userUpdate (.feedback f) s, s)

/-- What a call of `updateAction` leaves: the tables, the status, the action as the
user table updated it. -/
structure Updated where
  db : DB
  status : Status
  updated : Action
  deriving DecidableEq

/-- The user table answers with a status and the updated action, the item table, if
it is called, with a status. The caller's `action` and `updated` are separate objects, as
in service_glue.cpp: what the user table writes to `updated` does not change `action`. -/
def updateAction (db : DB) (a : Action) (userReply : Status × Action) (itemStatus : Status) :
    Updated :=
  let db := db.userUpdate (.action a) userReply.1
  if userReply.1 ≠ .ok then ⟨db, userReply.1, userReply.2⟩
  else if a.action ≠ .click then ⟨db, userReply.1, userReply.2⟩
  else ⟨db.itemUpdate (.action a) itemStatus, itemStatus, userReply.2⟩

inductive Call where
  | addItem (i : Item) (s : Status)
  | updateSubscribe (u : Subscribe) (s : Status)
  | updateFeedback (f : Feedback) (s : Status)
  | updateAction (a : Action) (userReply : Status × Action) (itemStatus : Status)

/-- A call on the database; the observation is the returned status. -/
def DB.call (db : DB) : Call → Option (DB × Status)
  | .addItem i s => some (Core.addItem db i s)
  | .updateSubscribe u s => some (Core.updateSubscribe db u s)
  | .updateFeedback f s => some (Core.updateFeedback db f s)
  | .updateAction a ur is =>
    some ((Core.updateAction db a ur is).db, (Core.updateAction db a ur is).status)

/-! ### One call -/

theorem userUpdate_eq_iff (db : DB) (u : UserUpdate) (s : Status) :
    (db.userUpdate u s).user = db.user ↔ s ≠ .ok := by
  unfold DB.userUpdate
  split_ifs with h <;> simp [h]

theorem itemUpdate_eq_iff (db : DB) (i : ItemUpdate) (s : Status) :
    (db.itemUpdate i s).item = db.item ↔ s ≠ .ok := by
  unfold DB.itemUpdate
  split_ifs with h <;> simp [h]

@[simp] theorem userUpdate_item (db : DB) (u : UserUpdate) (s : Status) :
    (db.userUpdate u s).item = db.item := by
  unfold DB.userUpdate
  split_ifs <;> rfl

@[simp] theorem itemUpdate_user (db : DB) (i : ItemUpdate) (s : Status) :
    (db.itemUpdate i s).user = db.user := by
  unfold DB.itemUpdate
  split_ifs <;> rfl

/-- A click that fails leaves the item table alone, and leaves the user table alone
exactly when it failed there. -/
theorem click_failed {db : DB} {a : Action} {ur : Status × Action} {is : Status}
    (ha : a.action = .click) (h : (updateAction db a ur is).status ≠ .ok) :
    (updateAction db a ur is).db.item = db.item ∧
      ((updateAction db a ur is).db.user = db.user ↔ ur.1 ≠ .ok) := by
  unfold updateAction at h ⊢
  by_cases hu : ur.1 = .ok
  · simp only [hu, ha, ne_eq, not_true_eq_false, if_false] at h ⊢
    refine ⟨?_, ?_⟩
    · rw [(itemUpdate_eq_iff _ _ _).mpr h, userUpdate_item]
    · rw [itemUpdate_user, userUpdate_eq_iff]
      simp
  · simp only [if_pos hu, userUpdate_item, userUpdate_eq_iff, true_and]

/-! ### Whole runs -/

def UserUpdate.click : UserUpdate → Option Action
  | .action a => if a.action = .click then some a else none
  | _ => none

def ItemUpdate.click : ItemUpdate → Option Action
  | .action a => if a.action = .click then some a else none
  | _ => none

def DB.userClicks (db : DB) : List Action := db.user.filterMap UserUpdate.click

def DB.itemClicks (db : DB) : List Action := db.item.filterMap ItemUpdate.click

def Call.recorded : Call → Option Action
  | .updateAction a ur _ => if ur.1 = .ok then UserUpdate.click (.action a) else none
  | _ => none

def Call.applied : Call → Option Action
  | .updateAction a ur is => if ur.1 = .ok ∧ is = .ok then ItemUpdate.click (.action a) else none
  | _ => none

theorem userUpdate_clicks (db : DB) (u : UserUpdate) (s : Status) :
    (db.userUpdate u s).userClicks = db.userClicks ++ (if s = .ok then u.click else none).toList ∧
      (db.userUpdate u s).itemClicks = db.itemClicks := by
  unfold DB.userUpdate DB.userClicks DB.itemClicks
  split_ifs
  · refine ⟨?_, rfl⟩
    rw [List.filterMap_append]
    cases hu : u.click <;> simp [hu]
  · simp

theorem itemUpdate_clicks (db : DB) (i : ItemUpdate) (s : Status) :
    (db.itemUpdate i s).itemClicks = db.itemClicks ++ (if s = .ok then i.click else none).toList ∧
      (db.itemUpdate i s).userClicks = db.userClicks := by
  unfold DB.itemUpdate DB.userClicks DB.itemClicks
  split_ifs
  · refine ⟨?_, rfl⟩
    rw [List.filterMap_append]
    cases hi : i.click <;> simp [hi]
  · simp

theorem updateAction_clicks (db : DB) (a : Action) (ur : Status × Action) (is : Status) :
    (updateAction db a ur is).db.userClicks =
        db.userClicks ++ (Call.recorded (.updateAction a ur is)).toList ∧
      (updateAction db a ur is).db.itemClicks =
        db.itemClicks ++ (Call.applied (.updateAction a ur is)).toList := by
  have hu := userUpdate_clicks db (.action a) ur.1
  have hi := itemUpdate_clicks (db.userUpdate (.action a) ur.1) (.action a) is
  unfold updateAction Call.recorded Call.applied
  by_cases hok : ur.1 = .ok
  · by_cases ha : a.action = .click
    · simp only [hok, ha, ne_eq, not_true_eq_false, if_false, if_true, true_and] at hu hi ⊢
      exact ⟨hi.2.trans hu.1, by rw [hi.1, hu.2]⟩
    · simp only [hok, ha, ne_eq, not_true_eq_false, not_false_eq_true, if_false, if_true,
        true_and] at hu ⊢
      exact ⟨hu.1, by rw [hu.2]; simp [ItemUpdate.click, ha]⟩
  · simp only [hok, ne_eq, not_false_eq_true, if_false, if_true, false_and] at hu ⊢
    exact ⟨hu.1, by rw [hu.2]; simp⟩

/-- One call appends to each table the click that it accepts. -/
theorem call_clicks {db db' : DB} {c : Call} {s : Status} (h : db.call c = some (db', s)) :
    db'.userClicks = db.userClicks ++ c.recorded.toList ∧
      db'.itemClicks = db.itemClicks ++ c.applied.toList := by
  cases c with
  | addItem i _ =>
    cases h
    have hi := itemUpdate_clicks db (.add i) s
    exact ⟨by rw [hi.2]; simp [Call.recorded], by rw [hi.1]; simp [Call.applied, ItemUpdate.click]⟩
  | updateSubscribe u _ =>
    cases h
    have hu := userUpdate_clicks db (.subscribe u) s
    exact ⟨by rw [hu.1]; simp [Call.recorded, UserUpdate.click], by rw [hu.2]; simp [Call.applied]⟩
  | updateFeedback f _ =>
    cases h
    have hu := userUpdate_clicks db (.feedback f) s
    exact ⟨by rw [hu.1]; simp [Call.recorded, UserUpdate.click], by rw [hu.2]; simp [Call.applied]⟩
  | updateAction a ur is =>
    cases h
    exact updateAction_clicks db a ur is

theorem filterMap_cons_toList {α β : Type} (f : α → Option β) (x : α) (xs : List α) :
    (x :: xs).filterMap f = (f x).toList ++ xs.filterMap f := by
  cases h : f x <;> simp [h]

theorem run_clicks {calls : List Call} {db db' : DB} {ss : List Status}
    (h : run DB.call db calls = some (db', ss)) :
    db'.userClicks = db.userClicks ++ calls.filterMap Call.recorded ∧
      db'.itemClicks = db.itemClicks ++ calls.filterMap Call.applied := by
  induction calls generalizing db ss with
  | nil => cases h; simp
  | cons c calls ih =>
    obtain ⟨db₁, s, ss', hc, hr, rfl⟩ := run_cons_iff.mp h
    obtain ⟨hu, hi⟩ := call_clicks hc
    obtain ⟨hu', hi'⟩ := ih hr
    constructor
    · rw [hu', hu, filterMap_cons_toList, List.append_assoc]
    · rw [hi', hi, filterMap_cons_toList, List.append_assoc]

theorem applied_sublist (calls : List Call) :
    (calls.filterMap Call.applied).Sublist (calls.filterMap Call.recorded) := by
  induction calls with
  | nil => exact List.Sublist.refl _
  | cons c calls ih =>
    have hc : c.applied.toList.Sublist c.recorded.toList := by
      cases c with
      | updateAction a ur is =>
        unfold Call.applied Call.recorded
        by_cases hu : ur.1 = .ok
        · by_cases hi : is = .ok
          · simp only [hu, hi, and_self, if_true]
            exact List.Sublist.refl _
          · simp [hi]
        · simp [hu]
      | _ => exact List.Sublist.refl _
    rw [filterMap_cons_toList, filterMap_cons_toList]
    exact hc.append ih

/-- After every run from empty tables, the user table holds exactly the clicks that it
accepted and the item table those of them that it accepted too. A click that then
fails leaves the item table as it was, and leaves the user table as it was exactly
when it failed there. -/
theorem clicks_of_run {calls : List Call} {db : DB} {ss : List Status}
    (h : run DB.call .empty calls = some (db, ss)) :
    db.userClicks = calls.filterMap Call.recorded ∧ db.itemClicks = calls.filterMap Call.applied ∧
      db.itemClicks.Sublist db.userClicks ∧
      ∀ a ur is, a.action = .click → (updateAction db a ur is).status ≠ .ok →
        (updateAction db a ur is).db.item = db.item ∧
          ((updateAction db a ur is).db.user = db.user ↔ ur.1 ≠ .ok) := by
  obtain ⟨hu, hi⟩ := run_clicks h
  simp only [DB.empty, DB.userClicks, DB.itemClicks, List.filterMap_nil, List.nil_append] at hu hi
  refine ⟨hu, hi, ?_, fun _ _ _ ha hf => click_failed ha hf⟩
  rw [DB.itemClicks, DB.userClicks, hu, hi]
  exact applied_sublist calls

theorem clicks_of_run_example :
    let a : Action := ⟨20, 21, .click⟩
    let db : DB := ⟨[.subscribe ⟨20⟩, .action a], [.add ⟨21, 1000⟩, .action a]⟩
    db.userClicks = [a] ∧ db.itemClicks = [a] ∧ db.itemClicks.Sublist db.userClicks ∧
      (updateAction db ⟨20, 22, .click⟩ (.ok, a) .notFound).db.item = db.item := by
  have hr : run DB.call .empty [.updateSubscribe ⟨20⟩ .ok, .addItem ⟨21, 1000⟩ .ok,
      .updateAction ⟨20, 21, .click⟩ (.ok, ⟨20, 21, .click⟩) .ok] = _ := rfl
  have h := clicks_of_run hr
  exact ⟨h.1, h.2.1, h.2.2.1, (h.2.2.2 ⟨20, 22, .click⟩ (.ok, ⟨20, 21, .click⟩) .notFound rfl (by decide)).1⟩

/-- A click on an item that the item table does not have is recorded for the user. -/
theorem failed_click_recorded :
    let a : Action := ⟨20, 21, .click⟩
    (updateAction .empty a (.ok, a) .notFound).status = .notFound ∧
      (updateAction .empty a (.ok, a) .notFound).db = ⟨[.action a], []⟩ ∧
      (updateAction .empty a (.ok, a) .notFound).db ≠ .empty := by
  decide

end PrimaryElection.Core
