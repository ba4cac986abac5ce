import PrimaryElection.Framework.Cache
import PrimaryElection.Util.Sort

/-! The refill of a user's cached list, `process_query(uid, log)` in
CF_framework_center.h: the pinned documents of the filter reply are moved to the
front, the powers of the filter service and of the algorithm machines are fused,
the rest is sorted and the last documents are taken. Floating-point arithmetic is
a parameter. -/

namespace PrimaryElection.Framework.Refill

open Util

/-- The `float` operations and conversions that the ranking uses. -/
structure Floats (F : Type*) where
  add : F → F → F
  mul : F → F → F
  div : F → F → F
  ofInt : ℤ → F
  ofU64 : UInt64 → F
  lt : F → F → Bool

/-- The factors and the count of CENTER_CONFIG that the refill reads. -/
structure Config (F : Type*) where
  filterFactor : F
  algorithmFactor : F
  timeFactor : F
  cacheSavecount : ℤ

/-- recommend_num(var_4), recommend_list(var_u8...), recommend_power(var_f4...),
recommend_time(var_4...), history_num(var_4), history_list(var_u8...). -/
structure FilterReply (F : Type*) where
  did : List DocId
  pwr : List F
  time : List ℤ
  history : List DocId
  pwr_length : pwr.length = did.length
  time_length : time.length = did.length

/-- power_num(var_4), power_list(var_f4...). -/
structure CalcReply (F : Type*) where
  num : ℤ
  pwr : List F

variable {F : Type*}

/-- The three arrays of the filter reply that the pinned loop exchanges. -/
structure Docs (F : Type*) where
  did : List DocId
  pwr : List F
  time : List ℤ

def Docs.swap (d : Docs F) (i j : ℕ) : Docs F :=
  ⟨swapAt d.did i j, swapAt d.pwr i j, swapAt d.time i j⟩

structure Scan (F : Type*) where
  docs : Docs F
  topPos : ℕ
  oneTime : UInt64

/-- One round: a pinned document goes to `top_pos`, the time of another is summed. -/
def Scan.round (s : Scan F) (i : ℕ) : Scan F :=
  match s.docs.time[i]? with
  | some t =>
    if t < 0 then ⟨s.docs.swap s.topPos i, s.topPos + 1, s.oneTime⟩
    else ⟨s.docs, s.topPos, s.oneTime + UInt64.ofNat t.toNat⟩
  | none => s

def pinnedLoop (calcNum : ℕ) (d : Docs F) : Scan F :=
  (List.range calcNum).foldl Scan.round ⟨d, 0, 0⟩

def finalPower (fl : Floats F) (k : Config F) (s : Scan F) (calcPwr p : F) (t : ℤ) (i : ℕ) : F :=
  let base := fl.add (fl.mul k.filterFactor p) calcPwr
  if s.topPos ≤ i then
    fl.add (fl.mul k.algorithmFactor base)
      (fl.div (fl.mul k.timeFactor (fl.ofInt t)) (fl.ofU64 s.oneTime))
  else base

def fuseRound (fl : Floats F) (k : Config F) (s : Scan F) (calcPwr : List F) (pwr : List F) (i : ℕ) :
    List F :=
  match pwr[i]?, calcPwr[i]?, s.docs.time[i]? with
  | some p, some q, some t => pwr.set i (finalPower fl k s q p t i)
  | _, _, _ => pwr

def fuseLoop (fl : Floats F) (k : Config F) (s : Scan F) (calcPwr : List F) (calcNum : ℕ) : List F :=
  (List.range calcNum).foldl (fuseRound fl k s calcPwr) s.docs.pwr

/-- The ids after the sort of the unpinned range. More powers than documents make
both loops leave the reply, which has no result; the source only asserts against it. -/
def rank (fl : Floats F) (k : Config F) (r : FilterReply F) (c : CalcReply F) :
    Option (List DocId) :=
  if c.num ≤ r.did.length ∧ c.num ≤ c.pwr.length then
    let s := pinnedLoop c.num.toNat ⟨r.did, r.pwr, r.time⟩
    let pwr := fuseLoop fl k s c.pwr c.num.toNat
    some (Qs.qsRecursion1k1p fl.lt r.did.length s.topPos (r.did.length - 1) ⟨pwr, s.docs.did⟩).vals
  else none

/-- `request_num` after the comparison with `recommend_num`. -/
def requestCount (savecount : ℤ) (recommendNum : ℕ) : ℤ :=
  if (recommendNum : ℤ) < savecount then recommendNum else savecount

/-- The size of the stack array `request_lst`. -/
def requestRoom : ℤ := 64

/-- `request_lst` and `request_num` as given to the cache. A count above the array
overruns the stack: no result. -/
def refillList (fl : Floats F) (k : Config F) (r : FilterReply F) (c : CalcReply F) :
    Option (List DocId × ℤ) := do
  let did ← rank fl k r c
  let n := requestCount k.cacheSavecount did.length
  if n ≤ requestRoom then some (did.reverse.take n.toNat, n) else none

/-- The end of `process_query(uid, log)`: an empty reply leaves the cache alone, the
list of another one is put. -/
def refill (fl : Floats F) (k : Config F) (cc : Cache.Config) (e : Cache.Env) (t : Cache.Table)
    (uid : Uid) (r : FilterReply F) (c : CalcReply F) : Option Cache.Table :=
  if r.did = [] then some t
  else do
    let q ← refillList fl k r c
    let p ← Cache.put cc e t uid q.1 q.2
    some p.1

/-! ### The list is a selection of the reply -/

theorem round_did (s : Scan F) (i : ℕ) : (s.round i).docs.did.Perm s.docs.did := by
  unfold Scan.round
  split
  · split
    · exact swapAt_perm _ _ _
    · exact List.Perm.refl _
  · exact List.Perm.refl _

theorem pinnedLoop_succ (n : ℕ) (d : Docs F) : pinnedLoop (n + 1) d = (pinnedLoop n d).round n :=
  Runs.foldl_range_succ _ _ _

theorem pinnedLoop_did (n : ℕ) (d : Docs F) : (pinnedLoop n d).docs.did.Perm d.did := by
  induction n with
  | zero => exact List.Perm.refl _
  | succ n ih =>
    rw [pinnedLoop_succ]
    exact (round_did _ n).trans ih

theorem rank_perm {fl : Floats F} {k : Config F} {r : FilterReply F} {c : CalcReply F}
    {did : List DocId} (h : rank fl k r c = some did) : did.Perm r.did := by
  unfold rank at h
  split at h
  · cases h
    exact (Qs.qsRecursion1k1p_vals _ _ _ _ _).trans (pinnedLoop_did _ _)
  · cases h

theorem requestCount_le (savecount : ℤ) (n : ℕ) :
    requestCount savecount n ≤ savecount ∧ requestCount savecount n ≤ n := by
  unfold requestCount
  split_ifs <;> omega

/-- The list is the end of a permutation of the reply's ids, read backwards. -/
theorem refillList_spec {fl : Floats F} {k : Config F} {r : FilterReply F} {c : CalcReply F}
    {lst : List DocId} {n : ℤ} (h : refillList fl k r c = some (lst, n)) :
    ∃ did : List DocId, did.Perm r.did ∧ lst = did.reverse.take n.toNat ∧
      n = requestCount k.cacheSavecount r.did.length ∧ n ≤ requestRoom := by
  simp only [refillList, Option.bind_eq_bind, Option.bind_eq_some_iff] at h
  obtain ⟨did, hr, h⟩ := h
  split at h
  next hn =>
    cases h
    have hp := rank_perm hr
    rw [hp.length_eq] at hn ⊢
    exact ⟨did, hp, rfl, rfl, hn⟩
  next => cases h

theorem refillList_sublist {fl : Floats F} {k : Config F} {r : FilterReply F} {c : CalcReply F}
    {lst : List DocId} {n : ℤ} (h : refillList fl k r c = some (lst, n)) :
    lst.Subperm r.did := by
  obtain ⟨did, hp, rfl, -⟩ := refillList_spec h
  exact (List.take_sublist _ _).subperm.trans
    (((List.reverse_perm did).trans hp).subperm)

theorem refillList_length {fl : Floats F} {k : Config F} {r : FilterReply F} {c : CalcReply F}
    {lst : List DocId} {n : ℤ} (h : refillList fl k r c = some (lst, n)) :
    lst.length = n.toNat := by
  obtain ⟨did, hp, rfl, hn, -⟩ := refillList_spec h
  have := (requestCount_le k.cacheSavecount r.did.length).2
  rw [List.length_take, List.length_reverse, hp.length_eq]
  omega

theorem refillList_nodup {fl : Floats F} {k : Config F} {r : FilterReply F} {c : CalcReply F}
    {lst : List DocId} {n : ℤ} (h : refillList fl k r c = some (lst, n)) (hd : r.did.Nodup) :
    lst.Nodup := by
  obtain ⟨did, hp, rfl, -⟩ := refillList_spec h
  exact (List.nodup_reverse.mpr (hp.nodup_iff.mpr hd)).sublist (List.take_sublist _ _)

theorem refillList_mem {fl : Floats F} {k : Config F} {r : FilterReply F} {c : CalcReply F}
    {lst : List DocId} {n : ℤ} (h : refillList fl k r c = some (lst, n)) {d : DocId}
    (hd : d ∈ lst) : d ∈ r.did := (refillList_sublist h).subset hd

end PrimaryElection.Framework.Refill
