import PrimaryElection.Framework.NumberText
import PrimaryElection.Lib.Runs

/-! The thread that updates the trained models, `thread_train` in CF_framework_module.h.
A version is the number that a folder's name begins with, and the path given to
`update_train` is built from the number, not from the name. -/

namespace PrimaryElection.Framework.Train

open CInt Runs
open JsonText (decimal)

structure Dirent where
  name : CStr
  isDir : Bool
  name_length : name.bytes.length < 256
  deriving DecidableEq

/-- The names that `cp_dir_travel_folder` copies to `folder`. -/
def folders (entries : List Dirent) : List (List UInt8) :=
  (entries.filter fun e => e.isDir ∧ e.name.bytes ≠ lit "." ∧ e.name.bytes ≠ lit "..").map
    fun e => e.name.bytes

/-- The loop over the folders, from `new_time_stamp = old_time_stamp`. -/
def newest (old : UInt64) (names : List (List UInt8)) : UInt64 :=
  names.foldl (fun new folder => if new < strtoul folder then strtoul folder else new) old

/-- `update_path`, an array of 256 bytes; a longer path overruns it. -/
def updatePath (trainPath : CStr) (version : UInt64) : Option (List UInt8) :=
  let path := trainPath.bytes ++ lit "/" ++ decimal version.toNat
  if path.length < 256 then some path else none

/-- The version in memory and the file `md_train_flag`, if it is there. -/
structure State where
  oldTimeStamp : UInt64
  flag : Option (List UInt8)
  deriving DecidableEq

/-- What one round finds: the entries of `md_train_path` if it can be opened, the result
of `update_train` if it is called, and whether the flag file can be opened for writing. -/
structure Round where
  entries : Option (List Dirent)
  result : I32
  opened : Bool
  deriving DecidableEq

structure Attempt where
  version : UInt64
  path : Option (List UInt8)
  deriving DecidableEq

structure Visit extends Round where
  attempt : Option Attempt
  deriving DecidableEq

/-- One round of the loop. Nothing is said of the update after a path that overruns its
array. -/
def step (trainPath : CStr) (s : State) (r : Round) : Option (State × Visit) :=
  match r.entries with
  | none => some (s, ⟨r, none⟩)
  | some entries =>
    let new := newest s.oldTimeStamp (folders entries)
    if new ≤ s.oldTimeStamp then some (s, ⟨r, none⟩)
    else
      match updatePath trainPath new with
      | none => some (s, ⟨r, some ⟨new, none⟩⟩)
      | some path =>
        if r.result.val ≠ 0 then some (s, ⟨r, some ⟨new, some path⟩⟩)
        else some (⟨new, if r.opened then some (decimal new.toNat) else s.flag⟩,
          ⟨r, some ⟨new, some path⟩⟩)

def Visit.trained (v : Visit) : Option UInt64 :=
  match v.attempt with
  | some ⟨version, some _⟩ => if v.result.val = 0 then some version else none
  | _ => none

/-- The last version updated to, `version` before the first one. -/
def lastVersion (version : UInt64) (vs : List Visit) : UInt64 :=
  vs.foldl (fun n v => v.trained.getD n) version

/-- What is tried after a scan: a version newer than the old one, the largest in whatever
order the folders are listed, with the path of one of these folders. -/
structure Attempt.Sound (trainPath : CStr) (old : UInt64) (entries : List Dirent) (a : Attempt) :
    Prop where
  newer : old < a.version
  unordered : ∀ entries', entries'.Perm entries → newest old (folders entries') = a.version
  present : ∃ name ∈ folders entries, a.path = some (trainPath.bytes ++ lit "/" ++ name)

/-- Every attempt of the rounds `vs` is sound after the last successful version. The
recorded version is that one, so a failed update leaves it, and these versions increase. -/
structure Advances (trainPath : CStr) (version : UInt64) (vs : List Visit) (s : State) : Prop where
  sound : ∀ us v ws, vs = us ++ v :: ws → ∀ a, v.attempt = some a →
    ∃ entries, v.entries = some entries ∧ a.Sound trainPath (lastVersion version us) entries
  recorded : s.oldTimeStamp = lastVersion version vs
  increasing : (version :: vs.filterMap Visit.trained).Pairwise (· < ·)

/-- The largest number of a scan, if it is newer, is also spelled plainly by a folder, and
its path fits. -/
def Spelled (trainPath : CStr) (s : State) (r : Round) : Prop :=
  ∀ entries, r.entries = some entries → ∀ name ∈ folders entries,
    s.oldTimeStamp < strtoul name → (∀ other ∈ folders entries, strtoul other ≤ strtoul name) →
    decimal (strtoul name).toNat ∈ folders entries ∧
      trainPath.bytes.length + 1 + (decimal (strtoul name).toNat).length < 256

/-! ### The scan -/

theorem newest_le_iff {old m : UInt64} {names : List (List UInt8)} :
    newest old names ≤ m ↔ old ≤ m ∧ ∀ name ∈ names, strtoul name ≤ m := by
  induction names generalizing old with
  | nil => simp [newest]
  | cons f names ih =>
    have hcons : newest old (f :: names) =
        newest (if old < strtoul f then strtoul f else old) names := rfl
    rw [hcons, ih, List.forall_mem_cons, ← and_assoc]
    refine and_congr_left fun _ => ?_
    split_ifs with h
    · exact ⟨fun hm => ⟨UInt64.le_trans (UInt64.le_of_lt h) hm, hm⟩, And.right⟩
    · exact ⟨fun hm => ⟨hm, UInt64.le_trans (UInt64.not_lt.mp h) hm⟩, And.left⟩

theorem newest_mem (old : UInt64) (names : List (List UInt8)) :
    newest old names = old ∨ ∃ name ∈ names, newest old names = strtoul name := by
  induction names generalizing old with
  | nil => exact .inl rfl
  | cons f names ih =>
    have hcons : newest old (f :: names) =
        newest (if old < strtoul f then strtoul f else old) names := rfl
    rw [hcons]
    obtain h | ⟨name, hmem, h⟩ := ih (if old < strtoul f then strtoul f else old)
    · rw [h]
      split_ifs
      · exact .inr ⟨f, by simp, rfl⟩
      · exact .inl rfl
    · exact .inr ⟨name, by simp [hmem], h⟩

/-- The order of the listing makes no difference. -/
theorem newest_perm (old : UInt64) {names names' : List (List UInt8)} (h : names.Perm names') :
    newest old names = newest old names' := by
  apply UInt64.le_antisymm
  · rw [newest_le_iff]
    obtain ⟨hold, hall⟩ := newest_le_iff.mp (UInt64.le_refl (newest old names'))
    exact ⟨hold, fun name hmem => hall name (h.subset hmem)⟩
  · rw [newest_le_iff]
    obtain ⟨hold, hall⟩ := newest_le_iff.mp (UInt64.le_refl (newest old names))
    exact ⟨hold, fun name hmem => hall name (h.symm.subset hmem)⟩

theorem folders_perm {entries entries' : List Dirent} (h : entries.Perm entries') :
    (folders entries).Perm (folders entries') := (h.filter _).map _

theorem newest_folder {old : UInt64} {names : List (List UInt8)} (h : old < newest old names) :
    ∃ name ∈ names, newest old names = strtoul name ∧ ∀ other ∈ names, strtoul other ≤ strtoul name := by
  obtain heq | ⟨name, hmem, heq⟩ := newest_mem old names
  · exact absurd h (by rw [heq]; exact UInt64.lt_irrefl _)
  · exact ⟨name, hmem, heq, heq ▸ (newest_le_iff.mp (UInt64.le_refl _)).2⟩

/-- The largest number above the old version is the newest version. -/
theorem newest_eq {old : UInt64} {names : List (List UInt8)} {name : List UInt8} (hmem : name ∈ names)
    (hold : old < strtoul name) (hmax : ∀ other ∈ names, strtoul other ≤ strtoul name) :
    newest old names = strtoul name :=
  UInt64.le_antisymm (newest_le_iff.mpr ⟨UInt64.le_of_lt hold, hmax⟩)
    ((newest_le_iff.mp (UInt64.le_refl (newest old names))).2 name hmem)

/-- The path of a version is that of the folder which spells it. -/
theorem updatePath_eq_some_iff {trainPath : CStr} {version : UInt64} {name : List UInt8} :
    updatePath trainPath version = some (trainPath.bytes ++ lit "/" ++ name) ↔
      name = decimal version.toNat ∧
        trainPath.bytes.length + 1 + (decimal version.toNat).length < 256 := by
  have hlen : (trainPath.bytes ++ lit "/" ++ decimal version.toNat).length =
      trainPath.bytes.length + 1 + (decimal version.toNat).length := by
    rw [List.length_append, List.length_append]
    rfl
  unfold updatePath
  dsimp only
  rw [hlen]
  split_ifs with h
  · rw [Option.some_inj, List.append_cancel_left_eq]
    exact ⟨fun heq => ⟨heq.symm, h⟩, fun heq => heq.1.symm⟩
  · simp only [h, and_false]

/-- What the round needs for its version, said of the version. -/
theorem spelled_iff {trainPath : CStr} {s : State} {r : Round} : Spelled trainPath s r ↔
    ∀ entries, r.entries = some entries → s.oldTimeStamp < newest s.oldTimeStamp (folders entries) →
      ∃ name ∈ folders entries, updatePath trainPath (newest s.oldTimeStamp (folders entries)) =
        some (trainPath.bytes ++ lit "/" ++ name) := by
  simp only [updatePath_eq_some_iff]
  constructor
  · intro h entries he hnew
    obtain ⟨name, hmem, heq, hmax⟩ := newest_folder hnew
    rw [heq] at hnew ⊢
    obtain ⟨hplain, hfits⟩ := h entries he name hmem hnew hmax
    exact ⟨_, hplain, rfl, hfits⟩
  · intro h entries he name hmem hold hmax
    have heq := newest_eq hmem hold hmax
    obtain ⟨plain, hplain, rfl, hfits⟩ := h entries he (by rwa [heq])
    rw [heq] at hplain hfits
    exact ⟨hplain, hfits⟩

/-! ### Runs -/

/-- What a round does: no folder is newer, the path overruns its array, the update fails,
or the update succeeds. -/
theorem step_cases {trainPath : CStr} {s s' : State} {r : Round} {v : Visit}
    (h : step trainPath s r = some (s', v)) :
    (s' = s ∧ v = ⟨r, none⟩) ∨
      ∃ entries, r.entries = some entries ∧
        s.oldTimeStamp < newest s.oldTimeStamp (folders entries) ∧
        v = ⟨r, some ⟨newest s.oldTimeStamp (folders entries),
          updatePath trainPath (newest s.oldTimeStamp (folders entries))⟩⟩ ∧
        ((v.trained = none ∧ s' = s) ∨
          v.trained = some (newest s.oldTimeStamp (folders entries)) ∧
            s' = ⟨newest s.oldTimeStamp (folders entries), if r.opened
              then some (decimal (newest s.oldTimeStamp (folders entries)).toNat) else s.flag⟩) := by
  unfold step at h
  split at h
  next => cases h; exact .inl ⟨rfl, rfl⟩
  next entries he =>
    dsimp only at h
    split at h
    next => cases h; exact .inl ⟨rfl, rfl⟩
    next hnew =>
      refine .inr ⟨entries, he, UInt64.not_le.mp hnew, ?_⟩
      split at h
      next hpath =>
        cases h
        exact ⟨by rw [hpath], .inl ⟨rfl, rfl⟩⟩
      next path hpath =>
        split at h
        next hr =>
          cases h
          exact ⟨by rw [hpath], .inl ⟨if_neg hr, rfl⟩⟩
        next hr =>
          cases h
          exact ⟨by rw [hpath], .inr ⟨if_pos (not_not.mp hr), rfl⟩⟩

/-- A round always ends, and a newer folder is tried. -/
theorem step_some (trainPath : CStr) (s : State) (r : Round) :
    ∃ s' v, step trainPath s r = some (s', v) ∧ v.toRound = r ∧
      ∀ entries, r.entries = some entries →
        s.oldTimeStamp < newest s.oldTimeStamp (folders entries) →
        v.attempt = some ⟨newest s.oldTimeStamp (folders entries),
          updatePath trainPath (newest s.oldTimeStamp (folders entries))⟩ := by
  unfold step
  split
  next he => exact ⟨_, _, rfl, rfl, fun entries h => by rw [he] at h; cases h⟩
  next entries he =>
    dsimp only
    split
    next hold =>
      refine ⟨_, _, rfl, rfl, fun entries' h hnew => ?_⟩
      cases he.symm.trans h
      exact absurd hnew (UInt64.not_lt.mpr hold)
    next =>
      split
      next hpath =>
        refine ⟨_, _, rfl, rfl, fun entries' h _ => ?_⟩
        cases he.symm.trans h
        rw [hpath]
      next path hpath =>
        split <;> refine ⟨_, _, rfl, rfl, fun entries' h _ => ?_⟩ <;> cases he.symm.trans h <;>
          rw [hpath]

/-- A flag file that can be written holds the recorded version for the next start. -/
theorem step_flag {trainPath : CStr} {s s' : State} {r : Round} {v : Visit}
    (h : readStamp s.flag = some s.oldTimeStamp) (hopened : r.opened = true)
    (hs : step trainPath s r = some (s', v)) : readStamp s'.flag = some s'.oldTimeStamp := by
  obtain ⟨rfl, -⟩ | ⟨entries, -, -, -, ⟨-, rfl⟩ | ⟨-, rfl⟩⟩ := step_cases hs
  · exact h
  · exact h
  · rw [if_pos hopened]
    exact readStamp_written _

theorem lastVersion_concat (version : UInt64) (vs : List Visit) (v : Visit) :
    lastVersion version (vs ++ [v]) = v.trained.getD (lastVersion version vs) := by
  unfold lastVersion
  rw [List.foldl_append, List.foldl_cons, List.foldl_nil]

/-- The versions updated to are at most the last one. -/
theorem trained_le {version : UInt64} {vs : List Visit}
    (h : (version :: vs.filterMap Visit.trained).Pairwise (· < ·)) :
    ∀ n ∈ version :: vs.filterMap Visit.trained, n ≤ lastVersion version vs := by
  induction vs using List.reverseRecOn with
  | nil => simp [lastVersion]
  | append_singleton vs v ih =>
    rw [List.filterMap_append, ← List.cons_append] at h ⊢
    obtain ⟨hvs, -, hlast⟩ := List.pairwise_append.mp h
    have hle := ih hvs
    rw [lastVersion_concat]
    intro n hn
    cases hv : v.trained with
    | none =>
      simp only [List.filterMap_cons, hv, List.filterMap_nil, List.append_nil] at hn
      exact hle n hn
    | some m =>
      simp only [List.filterMap_cons, hv, List.filterMap_nil] at hn hlast
      rcases List.mem_append.mp hn with hn | hn
      · exact UInt64.le_of_lt (hlast n hn m (by simp))
      · exact List.mem_singleton.mp hn ▸ UInt64.le_refl _

theorem filterMap_concat (vs : List Visit) (v : Visit) :
    (vs ++ [v]).filterMap Visit.trained = vs.filterMap Visit.trained ++ v.trained.toList := by
  rw [List.filterMap_append]
  cases h : v.trained <;> simp [h]

theorem Advances.init (trainPath : CStr) (s : State) : Advances trainPath s.oldTimeStamp [] s :=
  ⟨fun us v ws h => by simp at h, rfl, List.pairwise_singleton _ _⟩

/-- The attempt of a round is sound exactly when its path is that of a folder. -/
theorem sound_iff {trainPath : CStr} {old : UInt64} {entries : List Dirent}
    (hnew : old < newest old (folders entries)) :
    Attempt.Sound trainPath old entries ⟨newest old (folders entries),
        updatePath trainPath (newest old (folders entries))⟩ ↔
      ∃ name ∈ folders entries, updatePath trainPath (newest old (folders entries)) =
        some (trainPath.bytes ++ lit "/" ++ name) :=
  ⟨Attempt.Sound.present, fun h =>
    ⟨hnew, fun _ hperm => newest_perm old (folders_perm hperm), h⟩⟩

theorem Advances.step {trainPath : CStr} {version : UInt64} {vs : List Visit} {s s' : State}
    {r : Round} {v : Visit} (h : Advances trainPath version vs s) (hp : Spelled trainPath s r)
    (hs : step trainPath s r = some (s', v)) : Advances trainPath version (vs ++ [v]) s' := by
  obtain ⟨rfl, rfl⟩ | ⟨entries, he, hnew, rfl, hout⟩ := step_cases hs
  · have htrained : Visit.trained ⟨r, none⟩ = none := rfl
    refine ⟨forall_split_concat h.sound (fun a ha => nomatch ha), ?_, ?_⟩
    · rw [lastVersion_concat, htrained]
      exact h.recorded
    · rw [filterMap_concat, htrained, Option.toList_none, List.append_nil]
      exact h.increasing
  · have hpath := spelled_iff.mp hp entries he hnew
    refine ⟨forall_split_concat h.sound fun a ha => ⟨entries, he, ?_⟩, ?_, ?_⟩
    · cases ha
      rw [← h.recorded]
      exact (sound_iff hnew).mpr hpath
    · rw [lastVersion_concat]
      obtain ⟨ht, rfl⟩ | ⟨ht, rfl⟩ := hout
      · rw [ht]
        exact h.recorded
      · rw [ht]
        rfl
    · rw [filterMap_concat]
      obtain ⟨ht, -⟩ | ⟨ht, -⟩ := hout
      · rw [ht, Option.toList_none, List.append_nil]
        exact h.increasing
      · rw [ht, Option.toList_some, ← List.cons_append, List.pairwise_append]
        refine ⟨h.increasing, List.pairwise_singleton _ _, fun n hn m hm => ?_⟩
        have hle := trained_le h.increasing n hn
        rw [← h.recorded] at hle
        exact List.mem_singleton.mp hm ▸ UInt64.lt_of_le_of_lt hle hnew

theorem advances_broken {trainPath : CStr} {s : State} {r : Round} (hp : ¬ Spelled trainPath s r)
    (version : UInt64) (vs : List Visit) :
    ∃ s' v, Train.step trainPath s r = some (s', v) ∧ ¬ Advances trainPath version (vs ++ [v]) s' := by
  rw [spelled_iff] at hp
  push Not at hp
  obtain ⟨entries, he, hnew, hpath⟩ := hp
  obtain ⟨s', v, hs, hround, hattempt⟩ := step_some trainPath s r
  refine ⟨s', v, hs, fun hn => ?_⟩
  obtain ⟨entries', he', hsound⟩ := hn.sound vs v [] rfl _ (hattempt entries he hnew)
  rw [hround] at he'
  cases he.symm.trans he'
  obtain ⟨name, hmem, heq⟩ := hsound.present
  exact hpath name hmem heq

/-- Versions advance safely throughout a run exactly when in every scan the largest number,
if it is newer, is also spelled plainly by a folder. -/
theorem train_advances_iff (trainPath : CStr) (s : State) (rounds : List Round) :
    Always (step trainPath) (Advances trainPath s.oldTimeStamp) s rounds ↔
      Along (step trainPath) (Spelled trainPath) s rounds :=
  always_iff_along (fun _ _ h => h) (fun _ _ _ _ _ h hp hs => h.step hp hs)
    (fun _ _ _ _ hp => advances_broken hp _ _) rounds (.init trainPath s)

/-- The folder `007` of a scan has the path of a folder `7`. -/
theorem leadingZero_not_advances :
    ¬ Always (step (.ofLit "train")) (Advances (.ofLit "train") 0) ⟨0, none⟩
      [⟨some [⟨.ofLit "007", true, by decide⟩], ⟨0, by decide⟩, true⟩] := by
  intro h
  have hrun : run (step (.ofLit "train")) ⟨0, none⟩
      [⟨some [⟨.ofLit "007", true, by decide⟩], ⟨0, by decide⟩, true⟩] =
      some (⟨7, some (lit "7")⟩, [⟨⟨some [⟨.ofLit "007", true, by decide⟩], ⟨0, by decide⟩, true⟩,
        some ⟨7, some (lit "train/7")⟩⟩]) := by
    decide +kernel
  obtain ⟨entries, he, hsound⟩ := (h _ [] _ _ (List.append_nil _).symm hrun).sound [] _ [] rfl _ rfl
  cases he
  exact absurd hsound.present (by decide +kernel)

end PrimaryElection.Framework.Train
