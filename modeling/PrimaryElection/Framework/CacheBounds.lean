import PrimaryElection.Framework.CacheDelivery
import PrimaryElection.Framework.Refill

/-! The representation of cached lists under client queries and refills. Every
stored entry stays well formed whatever clients ask for. The counts of a `get` on
a fresh entry are in bounds exactly when the request is not negative: the client's
number is only capped from above. -/

namespace PrimaryElection.Framework.CacheBounds

open Runs Cache

variable {F : Type*}

/-- `request_num` of `process_query(TASK_NODE*)` after the cap. -/
def cappedRequest (requestNum : ℤ) : ℤ := if requestNum > 20 then 20 else requestNum

/-- What reaches the cache: the `get` of a client query, with the number as read from
the request, and the `put` of a refill with its two replies. -/
inductive Event (F : Type*) where
  | query (uid : Uid) (requestNum : ℤ) (e : Env)
  | refill (uid : Uid) (r : Refill.FilterReply F) (c : Refill.CalcReply F) (e : Env)

/-- The center's configuration: the cache is initialised with the saved count. -/
structure Config (F : Type*) where
  floats : Refill.Floats F
  refill : Refill.Config F
  flushCount : ℤ
  flushTime : ℤ

def Config.cache (k : Config F) : Cache.Config :=
  ⟨k.refill.cacheSavecount, k.flushCount, k.flushTime⟩

def step (k : Config F) (t : Table) : Event F → Option (Table × Reply)
  | .query uid requestNum e => get k.cache e t uid (cappedRequest requestNum)
  | .refill uid r c e =>
    (Refill.refill k.floats k.refill k.cache e t uid r c).map fun t' => (t', ⟨0, []⟩)

/-- The counts of a `get` on a fresh entry: the number handed out is between 0 and
the stored count, 6 and the request, both copies lie in the stored list, and what
remains is stored. -/
structure GetBounds (c : Cache.Config) (t : Table) (uid : Uid) (en : Entry) (reqNum : ℤ) (e : Env) :
    Prop where
  nonneg : 0 ≤ retNum e reqNum en.num
  le_num : retNum e reqNum en.num ≤ min en.num 6
  le_req : retNum e reqNum en.num ≤ max reqNum 0
  remain_nonneg : 0 ≤ en.num - retNum e reqNum en.num
  in_list : retNum e reqNum en.num + (en.num - retNum e reqNum en.num) ≤ en.lst.length
  stored : ∀ t' r, get c e t uid reqNum = some (t', r) → ∃ en', t' uid = some en' ∧
    en'.num = en.num - retNum e reqNum en.num ∧ (r.lst.length : ℤ) = retNum e reqNum en.num

def FindsFresh (c : Cache.Config) (t : Table) (uid : Uid) (e : Env) (en : Entry) : Prop :=
  t uid = some en ∧ Fresh c e en

/-- All entries are well formed and the event's `get`, if any, stays in bounds. -/
def StepBounds (k : Config F) (t : Table) (ev : Event F) : Prop :=
  t.Wf k.cache ∧ ∀ uid requestNum e, ev = .query uid requestNum e → ∀ en,
    FindsFresh k.cache t uid e en → GetBounds k.cache t uid en (cappedRequest requestNum) e

/-- No query with a negative number finds its entry fresh. -/
def NonNegative (k : Config F) (t : Table) (ev : Event F) : Prop :=
  ∀ uid requestNum e, ev = .query uid requestNum e → ∀ en,
    FindsFresh k.cache t uid e en → 0 ≤ requestNum

/-- The representation is sound in every state of the run and at its end. -/
def Sound (k : Config F) (t : Table) (evs : List (Event F)) : Prop :=
  Along (step k) (StepBounds k) t evs ∧ ∀ t' rs, run (step k) t evs = some (t', rs) → t'.Wf k.cache

/-! ### Entries stay well formed -/

theorem storeIds_length {room : ℕ} {count : ℤ} {scratch : ℕ → DocId} {ids stored : List DocId}
    (h : storeIds room count scratch ids = some stored) : (stored.length : ℤ) = count := by
  unfold storeIds at h
  split at h
  next hc =>
    cases h
    rw [List.length_map, List.length_range]
    omega
  next => cases h

theorem memcpyIds_length {src ids : List DocId} {n : ℤ} (h : memcpyIds src n = some ids) :
    0 ≤ n ∧ n ≤ src.length ∧ (ids.length : ℤ) = n := by
  unfold memcpyIds at h
  split at h
  next hn =>
    cases h
    rw [List.length_take]
    omega
  next => cases h

/-- What a `get` on a fresh entry stores and hands out, when its copies succeed. -/
theorem getFresh_counts {c : Cache.Config} {e : Env} {en en' : Entry} {reqNum : ℤ} {r : Reply}
    (h : getFresh c e en reqNum = some (en', r)) :
    en'.num = en.num - retNum e reqNum en.num ∧ 0 ≤ en'.num ∧
      (en'.lst.length : ℤ) = c.cacheCount ∧ (r.lst.length : ℤ) = retNum e reqNum en.num := by
  simp only [getFresh, Option.bind_eq_bind, Option.bind_eq_some_iff] at h
  obtain ⟨out, hout, rest, hrest, stored, hstored, h⟩ := h
  have h₁ := (memcpyIds_length hout).2.2
  have h₂ := (memcpyIds_length hrest).1
  have h₃ := storeIds_length hstored
  split at h
  · split at h <;> (cases h; exact ⟨rfl, h₂, h₃, h₁⟩)
  · cases h
    exact ⟨rfl, h₂, h₃, h₁⟩

theorem getExpired_wf {c : Cache.Config} {e : Env} {en en' : Entry} {r : Reply}
    (h : getExpired c e en = some (en', r)) : en'.Wf c := by
  simp only [getExpired, Option.bind_eq_bind, Option.bind_eq_some_iff] at h
  obtain ⟨stored, hstored, h⟩ := h
  have h₁ := storeIds_length hstored
  have h₀ : 0 ≤ c.cacheCount := by omega
  split at h <;> (cases h; exact ⟨le_rfl, h₀, h₁⟩)

/-- Whatever is asked for, an entry that a `get` writes back is well formed. -/
theorem get_wf {c : Cache.Config} {e : Env} {t t' : Table} {uid : Uid} {reqNum : ℤ} {r : Reply}
    (ht : t.Wf c) (h : get c e t uid reqNum = some (t', r)) : t'.Wf c := by
  unfold Cache.get at h
  split at h
  · cases h
    exact ht
  next en hu =>
    obtain ⟨⟨en', q⟩, hq, h⟩ := Option.map_eq_some_iff.mp h
    cases h
    split at hq
    next hf =>
      obtain ⟨hnum, h₀, hl, hr⟩ := getFresh_counts hq
      have hw := (ht uid en hu).num_le
      exact wf_update ht uid ⟨h₀, by dsimp only at hnum hr ⊢; omega, hl⟩
    next => exact wf_update ht uid (getExpired_wf hq)

theorem put_wf {c : Cache.Config} {e : Env} {t t' : Table} {uid : Uid} {lst : List DocId}
    {num ret : ℤ} (ht : t.Wf c) (hn : num ≤ c.cacheCount)
    (h : put c e t uid lst num = some (t', ret)) : t'.Wf c := by
  simp only [put, Option.bind_eq_bind, Option.bind_eq_some_iff] at h
  obtain ⟨ids, hids, stored, hstored, h⟩ := h
  cases h
  exact wf_update ht uid ⟨(memcpyIds_length hids).1, hn, storeIds_length hstored⟩

theorem refill_wf {k : Config F} {e : Env} {t t' : Table} {uid : Uid} {r : Refill.FilterReply F}
    {c : Refill.CalcReply F} (ht : t.Wf k.cache)
    (h : Refill.refill k.floats k.refill k.cache e t uid r c = some t') : t'.Wf k.cache := by
  unfold Refill.refill at h
  split at h
  · cases h
    exact ht
  · simp only [Option.bind_eq_bind, Option.bind_eq_some_iff] at h
    obtain ⟨⟨lst, n⟩, hl, ⟨t₁, ret⟩, hp, h⟩ := h
    cases h
    obtain ⟨-, -, -, hn, -⟩ := Refill.refillList_spec hl
    have hle := (Refill.requestCount_le k.refill.cacheSavecount r.did.length).1
    exact put_wf ht (hn ▸ hle) hp

theorem step_wf {k : Config F} {t t' : Table} {ev : Event F} {r : Reply} (ht : t.Wf k.cache)
    (h : step k t ev = some (t', r)) : t'.Wf k.cache := by
  cases ev with
  | query uid requestNum e => exact get_wf ht h
  | refill uid fr c e =>
    obtain ⟨t₁, h₁, h⟩ := Option.map_eq_some_iff.mp h
    cases h
    exact refill_wf ht h₁

/-! ### The counts -/

theorem cappedRequest_nonneg {requestNum : ℤ} : 0 ≤ cappedRequest requestNum ↔ 0 ≤ requestNum := by
  unfold cappedRequest
  split_ifs <;> omega

theorem getBounds {c : Cache.Config} {t : Table} {uid : Uid} {en : Entry} {e : Env} {reqNum : ℤ}
    (ht : t.Wf c) (hf : FindsFresh c t uid e en) (hr : 0 ≤ reqNum) :
    GetBounds c t uid en reqNum e := by
  obtain ⟨h₀, h₁, h₂⟩ := ht uid en hf.1
  have hn := retNum_le_num e reqNum en.num
  refine ⟨retNum_nonneg e hr h₀, le_min hn (retNum_le_six _ _ _),
    (retNum_le_req _ _ _).trans (le_max_left _ _), by omega, by omega, ?_⟩
  intro t' r hg
  simp only [Cache.get, hf.1, if_pos hf.2] at hg
  obtain ⟨⟨en', q⟩, hq, h⟩ := Option.map_eq_some_iff.mp hg
  cases h
  obtain ⟨hnum, -, -, hl⟩ := getFresh_counts hq
  exact ⟨en', Function.update_self _ _ _, hnum, hl⟩

/-- The counts are in bounds exactly for the requests that are not negative. -/
theorem stepBounds_iff {k : Config F} {t : Table} (ht : t.Wf k.cache) (ev : Event F) :
    StepBounds k t ev ↔ NonNegative k t ev := by
  constructor
  · rintro ⟨-, hb⟩ uid requestNum e rfl en hf
    have hn := (hb uid requestNum e rfl en hf).nonneg
    exact cappedRequest_nonneg.mp (hn.trans (retNum_le_req _ _ _))
  · intro h
    exact ⟨ht, fun uid requestNum e he en hf =>
      getBounds ht hf (cappedRequest_nonneg.mpr (h uid requestNum e he en hf))⟩

/-- The cache representation is sound along a run of client queries and refills
exactly when no negative request finds its entry fresh. -/
theorem sound_iff_nonNegative (k : Config F) {t : Table} (ht : t.Wf k.cache)
    (evs : List (Event F)) : Sound k t evs ↔ Along (step k) (NonNegative k) t evs := by
  have hi : Along (step k) (StepBounds k) t evs ↔ Along (step k) (NonNegative k) t evs :=
    along_iff (I := Table.Wf k.cache) (fun _ _ _ _ hs _ h => step_wf hs h)
      (fun _ ev hs => stepBounds_iff hs ev) evs ht
  constructor
  · exact fun h => hi.mp h.1
  · intro h
    refine ⟨hi.mpr h, fun t' rs hr => ?_⟩
    exact run_invariant (I := fun _ t => t.Wf k.cache) (fun _ _ _ _ _ hs h => step_wf hs h) ht hr

/-- Arithmetic on the integers in place of `float`, for runs on fixed inputs. -/
def intFloats : Refill.Floats ℤ := ⟨(· + ·), (· * ·), (· / ·), id, fun v => v.toNat, fun x y => x < y⟩

def smallConfig : Config ℤ := ⟨intFloats, ⟨1, 1, 1, 4⟩, 1, 3600⟩

def twoDocs : Refill.FilterReply ℤ := ⟨[31, 32], [1, 2], [5, 5], [], rfl, rfl⟩

theorem sound_iff_nonNegative_example :
    Sound smallConfig (fun _ => none) [.refill 7 twoDocs ⟨0, []⟩ ⟨1000, 0, fun _ => 0, 0⟩,
      .query 7 50 ⟨1060, 0, fun _ => 0, 0⟩] :=
  (sound_iff_nonNegative smallConfig (empty_wf _) _).mpr
    ⟨(fun _ _ _ h => nomatch h), fun _ _ _ =>
      ⟨(fun _ _ _ h _ _ => by cases h; decide), fun _ _ _ => trivial⟩⟩

/-- After a refill, a request for -1 documents hands out -1 ids. -/
theorem negative_request_unsound :
    ¬ Sound smallConfig (fun _ => none) [.refill 7 twoDocs ⟨0, []⟩ ⟨1000, 0, fun _ => 0, 0⟩,
      .query 7 (-1) ⟨1060, 0, fun _ => 0, 0⟩] := by
  rintro ⟨⟨-, h⟩, -⟩
  have hput : step smallConfig (fun _ => none) (.refill 7 twoDocs ⟨0, []⟩ ⟨1000, 0, fun _ => 0, 0⟩) =
      some (Function.update (fun _ => none) 7 (some ⟨0, 1000, 2, [32, 31, 0, 0]⟩), ⟨0, []⟩) := by
    rfl
  obtain ⟨⟨-, hb⟩, -⟩ := h _ _ hput
  have hn := (hb 7 (-1) _ rfl ⟨0, 1000, 2, [32, 31, 0, 0]⟩ ⟨by simp, by decide⟩).nonneg
  revert hn
  decide

end PrimaryElection.Framework.CacheBounds
