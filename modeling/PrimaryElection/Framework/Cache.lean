import PrimaryElection.Lib.Chunks
import PrimaryElection.Lib.CInt

/-! The recommendation cache of the center, CF_framework_cache.h. An entry holds
the search time, the update time, the remaining count and the stored ids of one
user. `get` hands out the head of a fresh list through a scratch buffer and
writes the shortened entry back; an expired entry is emptied. The `m_cache` table
is taken to work as documented: `pop_value` finds what the last `add` stored. -/

namespace PrimaryElection.Framework

open CInt

abbrev Uid := UInt64

abbrev DocId := UInt64

namespace Cache

/-- sendTime(4), updateTime(4), num(4), id(8) * N. -/
structure Entry where
  stm : ℤ
  utm : ℤ
  num : ℤ
  lst : List DocId
  deriving DecidableEq

/-- The members that `init` sets from the configuration. -/
structure Config where
  cacheCount : ℤ
  flushCount : ℤ
  flushTime : ℤ

/-- What one call reads from outside: `time(NULL)`, `rand()`, the stale contents
of the scratch buffer and the value an unassigned `is_flush` happens to have. -/
structure Env where
  now : ℤ
  rand : ℕ
  scratch : ℕ → DocId := fun _ => 0
  stale : ℤ := 0

abbrev Table := Uid → Option Entry

/-- The return code of `get` and the ids copied to `ret_lst`. -/
structure Reply where
  ret : ℤ
  lst : List DocId
  deriving DecidableEq

def returnCount : ℕ := 4

/-- `m_return_value`, filled by `init` with `i + 3`. -/
def returnValue (i : ℕ) : ℤ := i + 3

/-- The ids that fit into the 2048-byte buffer of `get` after the 12-byte header. -/
def getRoom : ℕ := 254

/-- The ids that fit into the 1024-byte buffer of `put`. -/
def putRoom : ℕ := 126

/-- `memcpy` of `n` ids. A negative count is a huge size and a count past the end
reads other memory: neither has a result. -/
def memcpyIds (src : List DocId) (n : ℤ) : Option (List DocId) :=
  if 0 ≤ n ∧ n ≤ src.length then some (src.take n.toNat) else none

/-- The ids that `m_cache.add` copies out of a scratch buffer with room for `room`
ids, of which the first ones were overwritten by `ids`. -/
def storeIds (room : ℕ) (count : ℤ) (scratch : ℕ → DocId) (ids : List DocId) :
    Option (List DocId) :=
  if ids.length ≤ room ∧ 0 ≤ count ∧ count ≤ room then
    some ((List.range count.toNat).map fun i => (ids[i]?).getD (scratch i))
  else none

def retNum (e : Env) (reqNum num : ℤ) : ℤ :=
  let randNum := returnValue (e.rand % returnCount)
  let ret := if randNum < reqNum then randNum else reqNum
  if num < ret then num else ret

/-- The test of `get` that the list is not older than the flush time. -/
def Fresh (c : Config) (e : Env) (en : Entry) : Prop :=
  toInt32 (toInt32 e.now - en.utm) < c.flushTime

instance (c : Config) (e : Env) (en : Entry) : Decidable (Fresh c e en) :=
  inferInstanceAs (Decidable (_ < _))

/-- More than 60 seconds since the last refill request. -/
def Quiet (e : Env) (en : Entry) : Prop := toInt32 (toInt32 e.now - en.stm) > 60

instance (e : Env) (en : Entry) : Decidable (Quiet e en) := inferInstanceAs (Decidable (_ < _))

def getFresh (c : Config) (e : Env) (en : Entry) (reqNum : ℤ) : Option (Entry × Reply) := do
  let n := retNum e reqNum en.num
  let out ← memcpyIds en.lst n
  let remain := en.num - n
  let rest ← memcpyIds (en.lst.drop n.toNat) remain
  let stored ← storeIds getRoom c.cacheCount e.scratch rest
  if remain ≤ c.flushCount then
    if Quiet e en then some (⟨toInt32 e.now, en.utm, remain, stored⟩, ⟨1, out⟩)
    -- no branch of the source assigns is_flush here
    else some (⟨en.stm, en.utm, remain, stored⟩, ⟨e.stale, out⟩)
  else some (⟨en.stm, en.utm, remain, stored⟩, ⟨2, out⟩)

def getExpired (c : Config) (e : Env) (en : Entry) : Option (Entry × Reply) := do
  let stored ← storeIds getRoom c.cacheCount e.scratch []
  if Quiet e en then some (⟨toInt32 e.now, 0, 0, stored⟩, ⟨3, []⟩)
  else some (⟨en.stm, 0, 0, stored⟩, ⟨4, []⟩)

def get (c : Config) (e : Env) (t : Table) (uid : Uid) (reqNum : ℤ) : Option (Table × Reply) :=
  match t uid with
  | none => some (t, ⟨-1, []⟩)
  | some en =>
    (if Fresh c e en then getFresh c e en reqNum else getExpired c e en).map fun r =>
      (Function.update t uid (some r.1), r.2)

/-- `num` ids starting at `lst`. The result is -1 also when an entry was overwritten. -/
def put (c : Config) (e : Env) (t : Table) (uid : Uid) (lst : List DocId) (num : ℤ) :
    Option (Table × ℤ) := do
  let ids ← memcpyIds lst num
  let stored ← storeIds putRoom c.cacheCount e.scratch ids
  some (Function.update t uid (some ⟨0, toInt32 e.now, num, stored⟩),
    if (t uid).isSome then -1 else 0)

/-! ### Well-formed entries -/

structure Entry.Wf (c : Config) (en : Entry) : Prop where
  num_nonneg : 0 ≤ en.num
  num_le : en.num ≤ c.cacheCount
  length : (en.lst.length : ℤ) = c.cacheCount

def Table.Wf (c : Config) (t : Table) : Prop := ∀ uid en, t uid = some en → en.Wf c

structure Config.Sized (c : Config) : Prop where
  nonneg : 0 ≤ c.cacheCount
  le : c.cacheCount ≤ putRoom

/-- The ids of an entry that were not handed out yet. -/
def Entry.pending (en : Entry) : List DocId := en.lst.take en.num.toNat

def Table.pending (t : Table) (uid : Uid) : List DocId := ((t uid).map Entry.pending).getD []

theorem Entry.Wf.pending_length {c : Config} {en : Entry} (h : en.Wf c) : (en.pending.length : ℤ) = en.num := by
  have hnum := h.num_nonneg
  have hle := h.num_le
  have hlen := h.length
  rw [Entry.pending, List.length_take]
  omega

theorem empty_wf (c : Config) : Table.Wf c (fun _ => none) := fun _ _ h => nomatch h

theorem pending_some {t : Table} {uid : Uid} {en : Entry} (h : t uid = some en) :
    t.pending uid = en.pending := by
  simp [Table.pending, h]

@[simp] theorem pending_update (t : Table) (uid : Uid) (en : Entry) :
    Table.pending (Function.update t uid (some en)) uid = en.pending := by
  simp [Table.pending]

theorem wf_update {c : Config} {t : Table} (ht : t.Wf c) (uid : Uid) {en : Entry} (h : en.Wf c) :
    Table.Wf c (Function.update t uid (some en)) := by
  intro v en' hv
  by_cases hu : v = uid
  · subst hu
    rw [Function.update_self] at hv
    cases hv
    exact h
  · rw [Function.update_of_ne hu] at hv
    exact ht v en' hv

/-! ### The copies -/

theorem memcpyIds_some {src : List DocId} {n : ℤ} (h₀ : 0 ≤ n) (h₁ : n ≤ src.length) :
    memcpyIds src n = some (src.take n.toNat) := if_pos ⟨h₀, h₁⟩

theorem memcpyIds_neg {src : List DocId} {n : ℤ} (h : n < 0) : memcpyIds src n = none :=
  if_neg (by omega)

theorem storeIds_some {c : Config} (hc : c.Sized) (room : ℕ) (hroom : putRoom ≤ room)
    (scratch : ℕ → DocId) (ids : List DocId) (h : (ids.length : ℤ) ≤ c.cacheCount) :
    ∃ stored, storeIds room c.cacheCount scratch ids = some stored ∧
      (stored.length : ℤ) = c.cacheCount ∧ stored.take ids.length = ids := by
  have h₀ := hc.nonneg
  have h₁ := hc.le
  refine ⟨_, if_pos ⟨by omega, h₀, by omega⟩, by simp [h₀], ?_⟩
  apply List.ext_getElem
  · simp
    omega
  · intro i hi hj
    simp [List.getElem_take, hj]

/-! ### The count handed out -/

theorem retNum_le_num (e : Env) (reqNum num : ℤ) : retNum e reqNum num ≤ num := by
  unfold retNum
  dsimp only
  split_ifs <;> omega

theorem retNum_le_req (e : Env) (reqNum num : ℤ) : retNum e reqNum num ≤ reqNum := by
  unfold retNum
  dsimp only
  split_ifs <;> omega

theorem returnValue_range (e : Env) :
    3 ≤ returnValue (e.rand % returnCount) ∧ returnValue (e.rand % returnCount) ≤ 6 := by
  have := Nat.mod_lt e.rand (show 0 < returnCount by decide)
  unfold returnValue
  unfold returnCount at *
  omega

theorem retNum_le_six (e : Env) (reqNum num : ℤ) : retNum e reqNum num ≤ 6 := by
  have := (returnValue_range e).2
  unfold retNum
  dsimp only
  split_ifs <;> omega

theorem retNum_nonneg (e : Env) {reqNum num : ℤ} (hr : 0 ≤ reqNum) (hn : 0 ≤ num) :
    0 ≤ retNum e reqNum num := by
  have := (returnValue_range e).1
  unfold retNum
  dsimp only
  split_ifs <;> omega

/-! ### What the calls do -/

theorem get_absent (c : Config) (e : Env) {t : Table} {uid : Uid} (reqNum : ℤ)
    (h : t uid = none) : get c e t uid reqNum = some (t, ⟨-1, []⟩) := by
  simp [get, h]

/-- A fresh entry hands out its next `retNum` ids and keeps the others. -/
theorem get_fresh {c : Config} (hc : c.Sized) {e : Env} {t : Table} {uid : Uid} {en : Entry}
    (ht : t uid = some en) (hw : en.Wf c) (hf : Fresh c e en) {reqNum : ℤ} (hr : 0 ≤ reqNum) :
    ∃ en' ret, get c e t uid reqNum = some (Function.update t uid (some en'),
        ⟨ret, en.pending.take (retNum e reqNum en.num).toNat⟩) ∧
      en'.Wf c ∧ en'.num = en.num - retNum e reqNum en.num ∧
      en'.pending = en.pending.drop (retNum e reqNum en.num).toNat := by
  obtain ⟨h₀, h₁, h₂⟩ := hw
  have hn := retNum_nonneg e hr h₀
  have hle := retNum_le_num e reqNum en.num
  set n := retNum e reqNum en.num with hdef
  have hout : memcpyIds en.lst n = some (en.lst.take n.toNat) := memcpyIds_some hn (by omega)
  have hrest : memcpyIds (en.lst.drop n.toNat) (en.num - n) =
      some ((en.lst.drop n.toNat).take (en.num - n).toNat) :=
    memcpyIds_some (by omega) (by rw [List.length_drop]; omega)
  have hlen : ((en.lst.drop n.toNat).take (en.num - n).toNat).length = (en.num - n).toNat := by
    rw [List.length_take, List.length_drop]
    omega
  obtain ⟨stored, hstored, hsl, hst⟩ := storeIds_some hc getRoom (by decide) e.scratch
    ((en.lst.drop n.toNat).take (en.num - n).toNat) (by omega)
  rw [hlen] at hst
  have hpend : (en.lst.drop n.toNat).take (en.num - n).toNat = en.pending.drop n.toNat := by
    rw [Entry.pending, List.drop_take]
    congr 1
    omega
  have htake : en.lst.take n.toNat = en.pending.take n.toNat := by
    rw [Entry.pending, List.take_take, min_eq_left (by omega)]
  have hfresh : ∃ stm ret, getFresh c e en reqNum =
      some (⟨stm, en.utm, en.num - n, stored⟩, ⟨ret, en.pending.take n.toNat⟩) := by
    simp only [getFresh, ← hdef, hout, hrest, hstored, Option.bind_eq_bind, Option.bind_some, htake]
    split_ifs <;> exact ⟨_, _, rfl⟩
  obtain ⟨stm, ret, hg⟩ := hfresh
  refine ⟨⟨stm, en.utm, en.num - n, stored⟩, ret, ?_, ⟨by simp; omega, by simp; omega, hsl⟩, rfl, ?_⟩
  · simp [get, ht, if_pos hf, hg]
  · rw [Entry.pending, hst, hpend]

/-- An expired entry hands out nothing and is emptied. -/
theorem get_expired {c : Config} (hc : c.Sized) {e : Env} {t : Table} {uid : Uid} {en : Entry}
    (ht : t uid = some en) (hf : ¬ Fresh c e en) (reqNum : ℤ) :
    ∃ en' ret, get c e t uid reqNum = some (Function.update t uid (some en'), ⟨ret, []⟩) ∧
      en'.Wf c ∧ en'.pending = [] := by
  obtain ⟨stored, hstored, hsl, -⟩ := storeIds_some hc getRoom (by decide) e.scratch
    [] (by simpa using hc.nonneg)
  have hexp : ∃ stm ret, getExpired c e en = some (⟨stm, 0, 0, stored⟩, ⟨ret, []⟩) := by
    simp only [getExpired, hstored, Option.bind_eq_bind, Option.bind_some]
    split_ifs <;> exact ⟨_, _, rfl⟩
  obtain ⟨stm, ret, hg⟩ := hexp
  refine ⟨⟨stm, 0, 0, stored⟩, ret, ?_, ⟨le_rfl, hc.nonneg, hsl⟩, ?_⟩
  · simp [get, ht, if_neg hf, hg]
  · simp [Entry.pending]

/-- With a negative request a fresh entry makes `get` copy a negative count. -/
theorem get_negative {c : Config} {e : Env} {t : Table} {uid : Uid} {en : Entry}
    (ht : t uid = some en) (hf : Fresh c e en) {reqNum : ℤ} (hr : reqNum < 0) :
    get c e t uid reqNum = none := by
  have hn : retNum e reqNum en.num < 0 := lt_of_le_of_lt (retNum_le_req _ _ _) hr
  simp [get, ht, if_pos hf, getFresh, memcpyIds_neg hn]

/-- `put` replaces the entry by the given list. -/
theorem put_some {c : Config} (hc : c.Sized) (e : Env) (t : Table) (uid : Uid) {lst : List DocId}
    {num : ℤ} (h₀ : 0 ≤ num) (h₁ : num ≤ lst.length) (h₂ : num ≤ c.cacheCount) :
    ∃ en ret, put c e t uid lst num = some (Function.update t uid (some en), ret) ∧
      en.Wf c ∧ en.num = num ∧ en.pending = lst.take num.toNat := by
  have hids : memcpyIds lst num = some (lst.take num.toNat) := memcpyIds_some h₀ h₁
  have hlen : (lst.take num.toNat).length = num.toNat := by
    rw [List.length_take]
    omega
  obtain ⟨stored, hstored, hsl, hst⟩ := storeIds_some hc putRoom le_rfl e.scratch
    (lst.take num.toNat) (by omega)
  rw [hlen] at hst
  refine ⟨⟨0, toInt32 e.now, num, stored⟩, if (t uid).isSome then -1 else 0, ?_,
    ⟨h₀, h₂, hsl⟩, rfl, hst⟩
  simp only [put, hids, hstored, Option.bind_eq_bind, Option.bind_some]

/-- Calls for one user leave the entries of the others alone. -/
theorem get_frame {c : Config} {e : Env} {t t' : Table} {uid v : Uid} {reqNum : ℤ} {r : Reply}
    (h : get c e t uid reqNum = some (t', r)) (hv : v ≠ uid) : t' v = t v := by
  unfold get at h
  split at h
  · cases h
    rfl
  · obtain ⟨q, -, hq⟩ := Option.map_eq_some_iff.mp h
    cases hq
    rw [Function.update_of_ne hv]

theorem put_frame {c : Config} {e : Env} {t t' : Table} {uid v : Uid} {lst : List DocId}
    {num ret : ℤ} (h : put c e t uid lst num = some (t', ret)) (hv : v ≠ uid) : t' v = t v := by
  simp only [put, Option.bind_eq_bind, Option.bind_eq_some_iff] at h
  obtain ⟨ids, -, stored, -, hq⟩ := h
  cases hq
  rw [Function.update_of_ne hv]

end Cache

end PrimaryElection.Framework
