import PrimaryElection.Framework.CacheDelivery
import PrimaryElection.Util.HashTableRecovery

/-! The cache on its files. Each entry is stored as the bytes of its four fields in a
persistent table that `thcan_trim` trims, and the center may die and be started again.
`get` reads an entry and adds the new one later, with no lock between; the center makes
the calls of a user under the user's flag, so that two of them do not overlap. What
clients are handed is what the cache of the calls whose record is whole hands out. -/

namespace PrimaryElection.Framework.CacheStore

open CInt Bytes Runs Journal Util Cache

/-! ### Entries as bytes -/

structure Store (c : Config) where
  capacity : ℕ
  pos : 0 < capacity
  sized : c.Sized

variable {c : Config} (k : Store c)

namespace Store

/-- `m_cache.init` with 12 + (m_cache_count << 3) bytes for each user. -/
def sizes : HashTable.Sizes where
  tableSize := k.capacity
  maxKeyNum := k.capacity
  storeSize := 12 + 8 * c.cacheCount.toNat
  table_pos := k.pos
  store_lt := by
    have := k.sized.le
    unfold putRoom at this
    omega

end Store

def bytes (en : Entry) : List UInt8 := int4 en.stm ++ int4 en.utm ++ int4 en.num ++ words8 en.lst

/-- The `m_store_size` bytes that `m_cache.add` copies. -/
def pack (en : Entry) : Option (HashTable.Value k.sizes) :=
  if h : (bytes en).length = k.sizes.storeSize then some ⟨bytes en, h⟩ else none

/-- The reads of `get` through its `ref`. -/
def unpack (v : HashTable.Value k.sizes) : Entry where
  stm := int4Val (v.val.take 4)
  utm := int4Val ((v.val.drop 4).take 4)
  num := int4Val ((v.val.drop 8).take 4)
  lst := words8Val c.cacheCount.toNat (v.val.drop 12)

def read (m : HashTable.Map k.sizes) : Table := fun uid => (m uid).map (unpack k)

structure Fits (en : Entry) : Prop where
  stm : -2147483648 ≤ en.stm ∧ en.stm < 2147483648
  utm : -2147483648 ≤ en.utm ∧ en.utm < 2147483648

theorem pack_wf {en : Entry} (h : en.Wf c) : ∃ v, pack k en = some v ∧ v.val = bytes en := by
  have hlen : (bytes en).length = k.sizes.storeSize := by
    have := h.length
    simp only [bytes, List.length_append, int4_length, words8_length, Store.sizes]
    omega
  exact ⟨⟨bytes en, hlen⟩, dif_pos hlen, rfl⟩

/-- An entry is read back as it was stored. -/
theorem unpack_bytes {en : Entry} (h : en.Wf c) (hf : Fits en) {v : HashTable.Value k.sizes}
    (hv : v.val = bytes en) : unpack k v = en := by
  obtain ⟨stm, utm, num, lst⟩ := en
  obtain ⟨h₀, h₁, h₂⟩ := h
  obtain ⟨⟨hs₁, hs₂⟩, ⟨hu₁, hu₂⟩⟩ := hf
  have hsize := k.sized.le
  unfold putRoom at hsize
  dsimp only at h₀ h₁ h₂ hs₁ hs₂ hu₁ hu₂
  have hn : c.cacheCount.toNat = lst.length := by omega
  have h8 : (int4 stm ++ (int4 utm ++ (int4 num ++ words8 lst))).drop 8 = int4 num ++ words8 lst := by
    rw [show 8 = 4 + 4 from rfl, ← List.drop_drop, drop_int4_append, drop_int4_append]
  have h12 : (int4 stm ++ (int4 utm ++ (int4 num ++ words8 lst))).drop 12 = words8 lst ++ [] := by
    rw [show 12 = 8 + 4 from rfl, ← List.drop_drop, h8, drop_int4_append, List.append_nil]
  rw [unpack, hv]
  simp only [bytes, List.append_assoc, h8, h12, take_int4_append, drop_int4_append, hn,
    words8Val_words8, int4Val_int4 hs₁ hs₂, int4Val_int4 hu₁ hu₂]
  rw [int4Val_int4 (by omega) (by omega)]

theorem get_fits {e : Env} {t t' : Table} {uid : Uid} {reqNum : ℤ} {r : Reply}
    (h : get c e t uid reqNum = some (t', r)) (hf : ∀ u en, t u = some en → Fits en) :
    ∀ u en, t' u = some en → Fits en := by
  have hnow := toInt32_range e.now
  cases ht : t uid with
  | none =>
    rw [get_absent c e reqNum ht] at h
    cases h
    exact hf
  | some en =>
    have hen := hf uid en ht
    rw [Cache.get, ht] at h
    obtain ⟨⟨en', r'⟩, hget, hr⟩ := Option.map_eq_some_iff.mp h
    cases hr
    have hen' : Fits en' := by
      by_cases hfresh : Fresh c e en
      · simp only [if_pos hfresh, getFresh, Option.bind_eq_bind, Option.bind_eq_some_iff] at hget
        obtain ⟨out, -, rest, -, stored, -, hret⟩ := hget
        split_ifs at hret <;> cases hret
        · exact ⟨hnow, hen.utm⟩
        · exact ⟨hen.stm, hen.utm⟩
        · exact ⟨hen.stm, hen.utm⟩
      · simp only [if_neg hfresh, getExpired, Option.bind_eq_bind, Option.bind_eq_some_iff] at hget
        obtain ⟨stored, -, hret⟩ := hget
        split_ifs at hret <;> cases hret
        · exact ⟨hnow, by norm_num⟩
        · exact ⟨hen.stm, by norm_num⟩
    intro u en'' hu
    rw [Function.update_apply] at hu
    split_ifs at hu
    · cases hu
      exact hen'
    · exact hf u en'' hu

theorem put_fits {e : Env} {t t' : Table} {uid : Uid} {lst : List DocId} {num ret : ℤ}
    (h : put c e t uid lst num = some (t', ret)) (hf : ∀ u en, t u = some en → Fits en) :
    ∀ u en, t' u = some en → Fits en := by
  simp only [put, Option.bind_eq_bind, Option.bind_eq_some_iff] at h
  obtain ⟨ids, -, stored, -, hret⟩ := h
  cases hret
  intro u en hu
  rw [Function.update_apply] at hu
  split_ifs at hu
  · cases hu
    exact ⟨by norm_num, toInt32_range e.now⟩
  · exact hf u en hu

/-! ### Steps -/

/-- A call up to its `add`, the `add`, a death before its record is whole, or a step of the
table that is none of these: the cache adds and overwrites only. -/
inductive Event where
  | begin (uid : Uid) (a : Cache.Call)
  | add (uid : Uid)
  | dieAdd (uid : Uid) (n : ℕ)
  | table (e : HashTable.Event k.sizes)

/-- What `thcan_trim` and the rest of the process do to the table. -/
def Quiet : HashTable.Event k.sizes → Bool
  | .restart | .finish _ | .countOff | .trim | .die | .dieRestart _ | .dieTrim _ _ => true
  | .call _ | .dieCall _ _ | .clear | .dieClear _ => false

/-- A call whose record is whole, or that adds nothing, with its reply. -/
structure Done where
  uid : Uid
  call : Cache.Call
  reply : Reply

/-- A call before its `add`: the entry in its buffer, and its reply. -/
structure Begun where
  call : Cache.Call
  value : HashTable.Value k.sizes
  reply : Reply

/-- The table with its files, and the calls under way. -/
structure State where
  table : HashTable.State k.sizes
  begun : Uid → Option (Begun k)

def State.new : State k := ⟨HashTable.State.new, fun _ => none⟩

/-- `get` of a user without an entry adds nothing. -/
def writes (t : Table) (uid : Uid) : Cache.Call → Bool
  | .get _ _ => (t uid).isSome
  | .put _ _ => true

/-- What a call is to add to the table, and its reply. That of a `put` is known beforehand: no
other call adds or deletes the key meanwhile. -/
def prepare (p : HashTable.Running k.sizes) (uid : Uid) (a : Cache.Call) :
    Option (Option (HashTable.Value k.sizes) × Reply) :=
  (Cache.step c uid (read k p.table.lookup) a).bind fun r =>
    if writes (read k p.table.lookup) uid a then
      ((r.1 uid).bind (pack k)).map fun v => (some v, r.2)
    else some (none, r.2)

/-- `pop_value` waits for any `add` that has the bucket; a `put` only for one of its own user,
whose flag is still set. -/
def canBegin (p : HashTable.Running k.sizes) (uid : Uid) : Cache.Call → Bool
  | .get _ _ => (p.pend (k.sizes.index uid)).isNone
  | .put _ _ => (p.pend (k.sizes.index uid)).all fun op => op.key ≠ uid

/-- A process that is gone takes the calls under way with it. -/
def keepBegun (s : State k) (t : HashTable.State k.sizes) : Uid → Option (Begun k) :=
  if t.proc.isSome then s.begun else fun _ => none

/-- Two calls for one user do not overlap: the user's flag is set meanwhile. -/
def step (s : State k) (e : Event k) : Option (State k × HashTable.Observed k.sizes × Option Done) :=
  match e with
  | .begin uid a => s.table.proc.bind fun p =>
    if (s.begun uid).isSome ∨ ¬ canBegin k p uid a then none
    else (prepare k p uid a).map fun r =>
      match r.1 with
      | none => (s, .silent, some ⟨uid, a, r.2⟩)
      | some v => (⟨s.table, Function.update s.begun uid (some ⟨a, v, r.2⟩)⟩, .silent, none)
  | .add uid => (s.begun uid).bind fun g =>
    (HashTable.step s.table (.call (.add uid g.value true))).map fun q =>
      (⟨q.1, Function.update s.begun uid none⟩, q.2, some ⟨uid, g.call, g.reply⟩)
  | .dieAdd uid n => (s.begun uid).bind fun g =>
    (HashTable.step s.table (.dieCall (.add uid g.value true) n)).map fun q =>
      (⟨q.1, fun _ => none⟩, q.2, none)
  | .table e =>
    if Quiet k e then
      (HashTable.step s.table e).map fun q => (⟨q.1, keepBegun k s q.1⟩, q.2, none)
    else none

def callStep (c : Config) (t : Table) (a : Uid × Cache.Call) : Option (Table × Reply) :=
  Cache.step c a.1 t a.2

variable {k}

def done (os : List (HashTable.Observed k.sizes × Option Done)) : List Done := os.filterMap Prod.snd

/-- The replies are those of the cache with the calls whose record is whole, and a restart
would find its entries. -/
def Survives (os : List (HashTable.Observed k.sizes × Option Done)) (s : State k) : Prop :=
  ∃ t, run (callStep c) (fun _ => none) ((done os).map fun d => (d.uid, d.call)) =
      some (t, (done os).map Done.reply) ∧
    (∃ d tab pos, HashTable.restore s.table.disk = some (d, tab, pos) ∧ read k tab.lookup = t) ∧
    ∀ p, s.table.proc = some p → read k p.view = t

/-! ### One call -/

theorem step_fits {t t' : Table} {uid : Uid} {a : Cache.Call} {r : Reply}
    (h : Cache.step c uid t a = some (t', r)) (hf : ∀ u en, t u = some en → Fits en) :
    ∀ u en, t' u = some en → Fits en := by
  cases a with
  | get reqNum e => exact get_fits h hf
  | put lst e =>
    obtain ⟨⟨t₁, ret⟩, hput, hr⟩ := Option.map_eq_some_iff.mp h
    cases hr
    exact put_fits hput hf

/-- A call reads and changes the entry of its user only. -/
theorem step_local {t₁ t₂ t₁' : Table} {uid : Uid} (ht : t₁ uid = t₂ uid) {a : Cache.Call} {r : Reply}
    (h : Cache.step c uid t₁ a = some (t₁', r)) :
    Cache.step c uid t₂ a = some (Function.update t₂ uid (t₁' uid), r) := by
  cases a with
  | get reqNum e =>
    change Cache.get c e t₁ uid reqNum = _ at h
    change Cache.get c e t₂ uid reqNum = _
    rw [Cache.get, ht] at h
    rw [Cache.get]
    cases hu : t₂ uid with
    | none =>
      rw [hu] at h
      cases h
      rw [ht, Function.update_eq_self]
    | some en =>
      rw [hu] at h
      obtain ⟨q, hq, hr⟩ := Option.map_eq_some_iff.mp h
      cases hr
      dsimp only
      rw [hq, Option.map_some, Function.update_self]
  | put lst e =>
    obtain ⟨⟨t', ret⟩, hput, hr⟩ := Option.map_eq_some_iff.mp h
    cases hr
    simp only [put, Option.bind_eq_bind, Option.bind_eq_some_iff] at hput
    obtain ⟨ids, hids, stored, hstored, hret⟩ := hput
    cases hret
    simp only [Cache.step, put, hids, hstored, Option.bind_eq_bind, Option.bind_some, Option.map_some, ht,
      Function.update_self]

/-- A call that adds nothing changes nothing. -/
theorem step_unwritten {t t' : Table} {uid : Uid} {a : Cache.Call} {r : Reply}
    (h : Cache.step c uid t a = some (t', r)) (hw : writes t uid a = false) : t' = t := by
  cases a with
  | get reqNum e =>
    have hnone : t uid = none := Option.not_isSome_iff_eq_none.mp (by rw [show (t uid).isSome = false from hw]; simp)
    change Cache.get c e t uid reqNum = _ at h
    rw [get_absent c e reqNum hnone] at h
    cases h
    rfl
  | put lst e => cases hw

theorem read_update (m : HashTable.Map k.sizes) (uid : Uid) (v : HashTable.Value k.sizes) :
    read k (Function.update m uid (some v)) = Function.update (read k m) uid (some (unpack k v)) := by
  funext u
  by_cases hu : u = uid
  · subst hu
    simp [read]
  · simp [read, Function.update_of_ne hu]

/-- A call that begins finds what the calls before have made of its entry. -/
theorem view_of_canBegin {p : HashTable.Running k.sizes} {uid : Uid} {a : Cache.Call}
    (h : canBegin k p uid a = true) : p.view uid = p.table.lookup uid := by
  cases hp : p.pend (k.sizes.index uid) with
  | none => exact HashTable.Running.view_of_free hp
  | some op =>
    cases a with
    | get reqNum e =>
      rw [canBegin, hp] at h
      cases h
    | put lst e =>
      rw [canBegin, hp, Option.all_some, decide_eq_true_eq] at h
      rw [HashTable.Running.view, hp]
      exact HashTable.Call.effect_of_ne (Ne.symm h) _

/-! ### The users of the table -/

/-- All keys and all calls under way are overwriting adds for users of `U`. -/
structure Tame (U : Finset Uid) (p : HashTable.Running k.sizes) : Prop where
  keys : p.table.keys ⊆ U
  pend : ∀ i op, p.pend i = some op → ∃ uid v, op = .add uid v true ∧ uid ∈ U
  uncounted : p.uncounted = 0

section

variable {U : Finset Uid} {p : HashTable.Running k.sizes} {s s' : HashTable.State k.sizes}
  {o : HashTable.Observed k.sizes}

theorem Tame.viewKeys (h : Tame U p) : p.viewKeys ⊆ U := by
  intro u hu
  rw [HashTable.Running.mem_viewKeys] at hu
  cases hp : p.pend (k.sizes.index u) with
  | none =>
    rw [HashTable.Running.view_of_free hp] at hu
    exact h.keys ((p.table.mem_keys u).mpr hu)
  | some op =>
    obtain ⟨uid, v, rfl, huid⟩ := h.pend _ _ hp
    by_cases hne : u = uid
    · rwa [hne]
    · rw [HashTable.Running.view, hp] at hu
      dsimp only at hu
      rw [HashTable.Call.effect_of_ne hne] at hu
      exact h.keys ((p.table.mem_keys u).mpr hu)

/-- Users that fit into the table find room in it. -/
theorem Tame.safe_call (h : Tame U p) (hU : U.card ≤ k.capacity) (hs : s.proc = some p) {uid : Uid}
    (huid : uid ∈ U) (v : HashTable.Value k.sizes) : HashTable.Safe s (.call (.add uid v true)) := by
  obtain ⟨d, proc⟩ := s
  cases hs
  intro _
  cases hv : p.view uid with
  | none =>
    have hnot : uid ∉ p.viewKeys := by
      rw [HashTable.Running.mem_viewKeys, hv]
      simp
    exact (Finset.card_lt_card (Finset.ssubset_iff_of_subset h.viewKeys |>.mpr ⟨uid, huid, hnot⟩)).trans_le hU
  | some w => exact .inl rfl

theorem Tame.safe_finish (h : Tame U p) (hU : U.card ≤ k.capacity) (hs : s.proc = some p)
    (i : Fin k.sizes.tableSize) : HashTable.Safe s (.finish i) := by
  obtain ⟨d, proc⟩ := s
  cases hs
  cases hi : p.pend i with
  | none =>
    simp only [HashTable.Safe, hi]
  | some op =>
    obtain ⟨uid, v, rfl, huid⟩ := h.pend _ _ hi
    simp only [HashTable.Safe, hi]
    intro hk
    have hnot : uid ∉ p.table.keys := by
      rw [HashTable.Table.mem_keys, hk]
      simp
    rw [h.uncounted, HashTable.Table.nowKeyNum_eq]
    exact (Finset.card_lt_card (Finset.ssubset_iff_of_subset h.keys |>.mpr ⟨uid, huid, hnot⟩)).trans_le hU

theorem keys_add {z : HashTable.Sizes} (t : HashTable.Table z) (key : HashTable.Key)
    (v : HashTable.Value z) (isOverwrite : Bool) : (t.add key v isOverwrite).1.keys ⊆ insert key t.keys := by
  intro u hu
  rw [Finset.mem_insert]
  by_cases hne : u = key
  · exact .inl hne
  · refine .inr ?_
    cases hk : t.lookup key with
    | none =>
      by_cases hroom : t.keys.card < z.maxKeyNum
      · rw [HashTable.Table.mem_keys, (t.add_absent v isOverwrite hk hroom).2, Function.update_of_ne hne] at hu
        exact (t.mem_keys u).mpr hu
      · rwa [t.add_full v isOverwrite hk (not_lt.mp hroom)] at hu
    | some w =>
      rw [HashTable.Table.mem_keys, (t.add_present v isOverwrite (by rw [hk]; rfl)).2] at hu
      split_ifs at hu
      · rw [Function.update_of_ne hne] at hu
        exact (t.mem_keys u).mpr hu
      · exact (t.mem_keys u).mpr hu

theorem Tame.start {t : HashTable.Table k.sizes} (h : t.keys ⊆ U) (pos : ℕ) :
    Tame U (HashTable.Running.start t pos) := ⟨h, by simp [HashTable.Running.start], rfl⟩

theorem Tame.log (h : Tame U p) {uid : Uid} (huid : uid ∈ U) (v : HashTable.Value k.sizes) :
    Tame U (p.log (.add uid v true)) := by
  refine ⟨h.keys, fun i op hi => ?_, h.uncounted⟩
  rw [HashTable.Running.log_pend] at hi
  split_ifs at hi
  · cases hi
    exact ⟨uid, v, rfl, huid⟩
  · exact h.pend i op hi

theorem Tame.finish (h : Tame U p) {i : Fin k.sizes.tableSize} {op : HashTable.Call k.sizes}
    (hi : p.pend i = some op) : Tame U (p.finish i op) := by
  obtain ⟨uid, v, rfl, huid⟩ := h.pend i op hi
  have hsettle : ∀ t : HashTable.Table k.sizes, t.keys ⊆ U → Tame U (p.settle i t p.uncounted) := by
    refine fun t ht => ⟨ht, fun j op hj => ?_, h.uncounted⟩
    rw [HashTable.Running.settle_pend] at hj
    split_ifs at hj
    exact h.pend j op hj
  rw [HashTable.Running.finish]
  split_ifs
  · exact hsettle _ h.keys
  · exact hsettle _ ((keys_add _ _ _ _).trans (Finset.insert_subset huid h.keys))

/-- The other steps are safe, are not seen and leave the users. -/
theorem quiet_step {ts : List (HashTable.Observed k.sizes)} {e : HashTable.Event k.sizes}
    (he : Quiet k e = true) (hU : U.card ≤ k.capacity) (hsound : HashTable.Sound ts s)
    (hts : ∀ u, (HashTable.meaning ts u).isSome → u ∈ U) (hp : ∀ p, s.proc = some p → Tame U p)
    (h : HashTable.step s e = some (s', o)) :
    HashTable.Safe s e ∧ o = .silent ∧ ∀ p, s'.proc = some p → Tame U p := by
  obtain ⟨d, proc⟩ := s
  cases proc with
  | none =>
    cases e with
    | restart =>
      obtain ⟨d', t, rs, pos, hr, -, ht⟩ := HashTable.restore_shape hsound
      simp only [HashTable.step, hr] at h
      cases h
      refine ⟨trivial, rfl, fun q hq => ?_⟩
      cases hq
      refine .start (fun u hu => hts u ?_) pos
      rwa [← ht, ← HashTable.Table.mem_keys]
    | dieRestart n =>
      cases h
      exact ⟨trivial, rfl, by simp⟩
    | call | finish | countOff | trim | clear | die | dieCall | dieTrim | dieClear => cases h
  | some p =>
    have htame := hp p rfl
    cases e with
    | restart | dieRestart => cases h
    | call | dieCall | clear | dieClear => cases he
    | finish i =>
      obtain ⟨op, hi, hq⟩ := Option.map_eq_some_iff.mp h
      cases hq
      refine ⟨htame.safe_finish hU rfl i, rfl, fun q hq => ?_⟩
      cases hq
      exact htame.finish hi
    | countOff =>
      simp only [HashTable.step, htame.uncounted] at h
      cases h
    | trim =>
      simp only [HashTable.step] at h
      split_ifs at h
      cases h
      refine ⟨trivial, rfl, fun q hq => ?_⟩
      cases hq
      exact .start htame.keys 0
    | die =>
      cases h
      exact ⟨trivial, rfl, by simp⟩
    | dieTrim n q =>
      simp only [HashTable.step] at h
      split_ifs at h
      cases h
      exact ⟨trivial, rfl, by simp⟩

/-! ### Calls under way -/

/-- What a call under way is going to do to the cache. -/
structure Begun.Due (U : Finset Uid) (m : HashTable.Map k.sizes) (uid : Uid) (g : Begun k) : Prop where
  user : uid ∈ U
  wf : (unpack k g.value).Wf c
  fits : Fits (unpack k g.value)
  call : callStep c (read k m) (uid, g.call) =
    some (read k (Function.update m uid (some g.value)), g.reply)

theorem Begun.Due.congr {m m' : HashTable.Map k.sizes} {uid : Uid} {g : Begun k} (h : g.Due U m uid)
    (hm : m' uid = m uid) : g.Due U m' uid := by
  refine ⟨h.user, h.wf, h.fits, ?_⟩
  have hentry : read k m uid = read k m' uid := by rw [read, read, hm]
  have hlocal := step_local hentry h.call
  rw [read_update, Function.update_self] at hlocal
  rw [read_update]
  exact hlocal

/-! ### Runs -/

/-- The callers' arguments are admissible, and lists are put for users of `U`. -/
def Event.Ok (U : Finset Uid) : Event k → Prop
  | .begin uid a => a.Admissible c ∧ ∀ lst e, a = .put lst e → uid ∈ U
  | .add _ | .dieAdd _ _ | .table _ => True

/-- The table means what the calls whose record is whole have made of the empty cache, only
users of `U` are in it, and the calls under way are due. -/
structure Kept (U : Finset Uid) (os : List (HashTable.Observed k.sizes × Option Done))
    (s : State k) : Prop where
  sound : HashTable.Sound (os.map Prod.fst) s.table
  runs : run (callStep c) (fun _ => none) ((done os).map fun d => (d.uid, d.call)) =
    some (read k (HashTable.meaning (os.map Prod.fst)), (done os).map Done.reply)
  wf : Table.Wf c (read k (HashTable.meaning (os.map Prod.fst)))
  fits : ∀ u en, read k (HashTable.meaning (os.map Prod.fst)) u = some en → Fits en
  users : ∀ u, (HashTable.meaning (os.map Prod.fst) u).isSome → u ∈ U
  proc : ∀ p, s.table.proc = some p → Tame U p
  begun : ∀ uid g, s.begun uid = some g → g.Due U (HashTable.meaning (os.map Prod.fst)) uid

namespace Kept

variable {os : List (HashTable.Observed k.sizes × Option Done)} {s s' : State k}

theorem survives (h : Kept U os s) : Survives os s := by
  rcases h.sound.recovers with ⟨⟨d, tab, pos, hr, ht⟩, hp⟩
  exact ⟨_, h.runs, ⟨d, tab, pos, hr, by rw [ht]⟩, fun p hs => by rw [hp p hs]⟩

theorem new : Kept U [] (State.new k) :=
  ⟨.new, rfl, empty_wf c, fun _ _ h => (nomatch h), fun _ h => (nomatch h), fun _ h => (nomatch h),
    fun _ _ h => (nomatch h)⟩

theorem silent (h : Kept U os s) (hsound : HashTable.Sound (os.map Prod.fst ++ [.silent]) s'.table)
    (hp : ∀ p, s'.table.proc = some p → Tame U p)
    (hb : ∀ uid g, s'.begun uid = some g → g.Due U (HashTable.meaning (os.map Prod.fst)) uid) :
    Kept U (os ++ [(.silent, none)]) s' := by
  have hdone : done (os ++ [((.silent : HashTable.Observed k.sizes), none)]) = done os := by simp [done]
  have hm : HashTable.meaning ((os ++ [((.silent : HashTable.Observed k.sizes), none)]).map Prod.fst) =
      HashTable.meaning (os.map Prod.fst) := by
    rw [List.map_append]
    exact HashTable.meaning_silent _
  refine ⟨by rwa [List.map_append], ?_, ?_, ?_, ?_, hp, ?_⟩
  · rw [hdone, hm]
    exact h.runs
  · rw [hm]
    exact h.wf
  · rw [hm]
    exact h.fits
  · rw [hm]
    exact h.users
  · rw [hm]
    exact hb

/-- What a call is going to do to the cache that the table means. -/
theorem prepare_eq (h : Kept U os s) {p : HashTable.Running k.sizes} (hs : s.table.proc = some p) {uid : Uid}
    {a : Cache.Call} (hcan : canBegin k p uid a = true) (ha : a.Admissible c)
    (hput : ∀ lst e, a = .put lst e → uid ∈ U) {o : Option (HashTable.Value k.sizes)} {r : Reply}
    (hprep : prepare k p uid a = some (o, r)) :
    (o = none ∧ callStep c (read k (HashTable.meaning (os.map Prod.fst))) (uid, a) =
        some (read k (HashTable.meaning (os.map Prod.fst)), r)) ∨
      ∃ v, o = some v ∧ (⟨a, v, r⟩ : Begun k).Due U (HashTable.meaning (os.map Prod.fst)) uid := by
  set t := read k (HashTable.meaning (os.map Prod.fst)) with ht
  have hentry : read k p.table.lookup uid = t uid := by
    rcases h.sound.recovers with ⟨-, hview⟩
    rw [ht, ← hview p hs, read, read, view_of_canBegin hcan]
  rcases Option.bind_eq_some_iff.mp hprep with ⟨⟨t', r'⟩, hstep, hprep⟩
  have hlocal := step_local hentry hstep
  split_ifs at hprep with hw
  · rcases Option.map_eq_some_iff.mp hprep with ⟨v, hv, hr⟩
    cases hr
    rcases Option.bind_eq_some_iff.mp hv with ⟨en, hen, hpack⟩
    dsimp only at hen
    rw [hen] at hlocal
    rcases @Cache.step_some _ k.sized uid _ h.wf _ ha with ⟨t₂, r₂, hstep₂, hwf⟩
    cases hlocal.symm.trans hstep₂
    have henwf : en.Wf c := hwf uid en (Function.update_self _ _ _)
    have henfits : Fits en := step_fits hlocal h.fits uid en (Function.update_self _ _ _)
    rcases pack_wf k henwf with ⟨v', hv', hbytes⟩
    cases hpack.symm.trans hv'
    have hunpack : unpack k v = en := unpack_bytes k henwf henfits hbytes
    refine .inr ⟨v, rfl, ?_, by rwa [hunpack], by rwa [hunpack], ?_⟩
    · cases a with
      | get reqNum e =>
        refine h.users uid ?_
        have hsome : (t uid).isSome := by
          rw [← hentry]
          exact hw
        rw [ht, read, Option.isSome_map] at hsome
        exact hsome
      | put lst e => exact hput lst e rfl
    · rw [read_update, hunpack]
      exact hlocal
  · cases hprep
    refine .inl ⟨rfl, ?_⟩
    have hsame := step_unwritten hstep (Bool.eq_false_iff.mpr hw)
    rw [hsame, hentry, Function.update_eq_self] at hlocal
    exact hlocal

theorem returned (h : Kept U os s) {uid : Uid} {a : Cache.Call} {r : Reply} {m : HashTable.Map k.sizes}
    {o : HashTable.Observed k.sizes} (hm : HashTable.meaning (os.map Prod.fst ++ [o]) = m)
    (hcall : callStep c (read k (HashTable.meaning (os.map Prod.fst))) (uid, a) = some (read k m, r))
    (hwf : Table.Wf c (read k m)) (hfits : ∀ u en, read k m u = some en → Fits en)
    (husers : ∀ u, (m u).isSome → u ∈ U) (hsound : HashTable.Sound (os.map Prod.fst ++ [o]) s'.table)
    (hp : ∀ p, s'.table.proc = some p → Tame U p) (hb : ∀ u g, s'.begun u = some g → g.Due U m u) :
    Kept U (os ++ [(o, some ⟨uid, a, r⟩)]) s' := by
  have hdone : done (os ++ [(o, some ⟨uid, a, r⟩)]) = done os ++ [⟨uid, a, r⟩] := by simp [done]
  have hmap : (os ++ [(o, some (⟨uid, a, r⟩ : Done))]).map Prod.fst = os.map Prod.fst ++ [o] := by simp
  refine ⟨by rwa [hmap], ?_, ?_, ?_, ?_, hp, ?_⟩
  · rw [hdone, hmap, hm, List.map_append, List.map_append]
    exact run_append_iff.mpr ⟨_, _, _, h.runs, run_singleton_iff.mpr ⟨r, hcall, rfl⟩, rfl⟩
  · rwa [hmap, hm]
  · rwa [hmap, hm]
  · rwa [hmap, hm]
  · rwa [hmap, hm]

theorem added (hU : U.card ≤ k.capacity) (h : Kept U os s) {uid : Uid} {g : Begun k}
    (hg : s.begun uid = some g) {t : HashTable.State k.sizes} {o : HashTable.Observed k.sizes}
    (hstep : HashTable.step s.table (.call (.add uid g.value true)) = some (t, o)) :
    Kept U (os ++ [(o, some ⟨uid, g.call, g.reply⟩)]) ⟨t, Function.update s.begun uid none⟩ := by
  have hdue := h.begun uid g hg
  cases hs : s.table.proc with
  | none =>
    simp only [HashTable.step, hs] at hstep
    cases hstep
  | some p =>
    have htame := h.proc p hs
    have hsound := h.sound.kept (htame.safe_call hU hs hdue.user g.value) hstep
    simp only [HashTable.step, hs, HashTable.Call.logs, if_true] at hstep
    split_ifs at hstep
    cases hstep
    have hm : HashTable.meaning (os.map Prod.fst ++ [.called (.add uid g.value true)]) =
        Function.update (HashTable.meaning (os.map Prod.fst)) uid (some g.value) := by
      rw [HashTable.meaning_concat]
      exact HashTable.Call.apply_add _ fun _ _ => .inl rfl
    refine h.returned hm hdue.call ?_ ?_ ?_ hsound ?_ ?_
    · rw [read_update]
      exact wf_update h.wf uid hdue.wf
    · intro u en hu
      rw [read_update, Function.update_apply] at hu
      split_ifs at hu
      · rw [← Option.some.inj hu]
        exact hdue.fits
      · exact h.fits u en hu
    · intro u hu
      rw [Function.update_apply] at hu
      split_ifs at hu with hne
      · rw [hne]
        exact hdue.user
      · exact h.users u hu
    · intro q hq
      cases hq
      exact htame.log hdue.user g.value
    · intro u g' hg'
      dsimp only at hg'
      have hne : u ≠ uid := by
        rintro rfl
        rw [Function.update_self] at hg'
        cases hg'
      rw [Function.update_of_ne hne] at hg'
      exact (h.begun u g' hg').congr (Function.update_of_ne hne _ _)

theorem step (hU : U.card ≤ k.capacity) (h : Kept U os s) {e : Event k} (he : e.Ok U)
    {q : HashTable.Observed k.sizes × Option Done} (hs : CacheStore.step k s e = some (s', q)) :
    Kept U (os ++ [q]) s' := by
  cases e with
  | begin uid a =>
    rcases he with ⟨ha, hput⟩
    rcases Option.bind_eq_some_iff.mp hs with ⟨p, hp, hs⟩
    split_ifs at hs with hbusy
    have hcan : canBegin k p uid a = true := not_not.mp (not_or.mp hbusy).2
    rcases Option.map_eq_some_iff.mp hs with ⟨⟨o, r⟩, hprep, hq⟩
    have hquiet := h.sound.congr (HashTable.meaning_silent (os.map Prod.fst))
    rcases h.prepare_eq hp hcan ha hput hprep with ⟨rfl, hcall⟩ | ⟨v, rfl, hdue⟩
    · cases hq
      exact h.returned (HashTable.meaning_silent _) hcall h.wf h.fits h.users hquiet h.proc h.begun
    · cases hq
      refine h.silent hquiet h.proc fun u g hg => ?_
      dsimp only at hg
      rw [Function.update_apply] at hg
      split_ifs at hg with hu
      · cases hg
        rw [hu]
        exact hdue
      · exact h.begun u g hg
  | add uid =>
    rcases Option.bind_eq_some_iff.mp hs with ⟨g, hg, hs⟩
    rcases Option.map_eq_some_iff.mp hs with ⟨⟨t, o⟩, hstep, hq⟩
    cases hq
    exact h.added hU hg hstep
  | dieAdd uid n =>
    rcases Option.bind_eq_some_iff.mp hs with ⟨g, hg, hs⟩
    rcases Option.map_eq_some_iff.mp hs with ⟨⟨t, o⟩, hstep, hq⟩
    cases hq
    have hsafe : HashTable.Safe s.table (.dieCall (.add uid g.value true) n) := by
      unfold HashTable.Safe
      cases s.table.proc <;> trivial
    have hsound := h.sound.kept hsafe hstep
    cases hp : s.table.proc with
    | none =>
      simp only [HashTable.step, hp] at hstep
      cases hstep
    | some p =>
      simp only [HashTable.step, hp] at hstep
      split_ifs at hstep
      cases hstep
      refine h.silent hsound (fun _ hproc => ?_) fun _ _ hbegun => ?_
      · cases hproc
      · cases hbegun
  | table e =>
    change (if Quiet k e then _ else _) = _ at hs
    split_ifs at hs with hquiet
    rcases Option.map_eq_some_iff.mp hs with ⟨⟨t, o⟩, hstep, hq⟩
    cases hq
    rcases quiet_step hquiet hU h.sound h.users h.proc hstep with ⟨hsafe, rfl, hp⟩
    refine h.silent (h.sound.kept hsafe hstep) hp fun u g hg => h.begun u g ?_
    simp only [keepBegun] at hg
    split_ifs at hg
    exact hg

end Kept

end

/-- Whatever thcans, trims, deaths and restarts there are, the clients are answered as by
the cache of the calls whose record is whole, while the users fit into the table. -/
theorem cache_survives {U : Finset Uid} (hU : U.card ≤ k.capacity) {es : List (Event k)}
    (hes : ∀ e ∈ es, e.Ok U) : Always (step k) Survives (State.new k) es :=
  always_of_invariant (I := Kept U) (fun _ _ h => h.survives)
    (fun _ _ _ _ _ h he hs => h.step hU he hs) hes .new

def twoIds : Store ⟨2, 1, 3600⟩ := ⟨3, by decide, ⟨by decide, by decide⟩⟩

def second (now : ℤ) : Env := ⟨now, 0, fun _ => 0, 0⟩

/-- A list is put for user 8 while user 7 is at a `get`; the process dies in the record of
the second `get`, whose user asks again. -/
def tornGet : List (Event twoIds) :=
  [.table .restart, .begin 7 (.put [31, 32] (second 1000)), .add 7, .table (.finish ⟨1, by decide⟩),
    .begin 7 (.get 1 (second 1060)), .begin 8 (.put [33] (second 1060)), .add 8, .add 7,
    .table (.finish ⟨2, by decide⟩), .table (.finish ⟨1, by decide⟩),
    .begin 7 (.get 1 (second 1125)), .dieAdd 7 20, .table .restart, .begin 7 (.get 1 (second 1126)), .add 7]

theorem cache_survives_example : Always (step twoIds) Survives (State.new twoIds) tornGet :=
  cache_survives (U := {7, 8}) (by decide) (by
    intro e he
    fin_cases he
    · trivial
    · exact ⟨le_rfl, fun _ _ _ => by decide⟩
    · trivial
    · trivial
    · exact ⟨zero_le_one, fun _ _ h => nomatch h⟩
    · exact ⟨one_le_two, fun _ _ _ => by decide⟩
    · trivial
    · trivial
    · trivial
    · trivial
    · exact ⟨zero_le_one, fun _ _ h => nomatch h⟩
    · trivial
    · trivial
    · exact ⟨zero_le_one, fun _ _ h => nomatch h⟩
    · trivial)

example : ((run (step twoIds) (State.new twoIds) tornGet).map fun r => (done r.2).map Done.reply) =
    some [⟨0, []⟩, ⟨0, []⟩, ⟨1, [31]⟩, ⟨1, [32]⟩] := by decide +kernel

end PrimaryElection.Framework.CacheStore
