import PrimaryElection.Util.HashTableRuns

/-! When a persistent table survives. Each record written extends the log the files hold,
and each step of a thread leaves the table that its record stands for, so a restart finds
the map that the calls have made. What breaks it is an `add` that is refused after its
record was written, an `add` that keeps the old value, and a `del` written over more of a
torn record than its own length. -/

namespace PrimaryElection.Util.HashTable

open CInt Bytes Journal Runs

variable {z : Sizes}

/-! ### Room -/

namespace Table

theorem add_le (t : Table z) (key : Key) (value : Value z) (isOverwrite : Bool)
    (h : t.keys.card ≤ z.maxKeyNum) : (t.add key value isOverwrite).1.keys.card ≤ z.maxKeyNum := by
  rw [← nowKeyNum_eq] at h ⊢
  rw [add]
  split_ifs with h₁ h₂ h₃
  · exact h
  · exact h
  · exact h
  · exact not_le.mp h₃

theorem del_le (t : Table z) (key : Key) (h : t.keys.card ≤ z.maxKeyNum) :
    (t.del key).1.keys.card ≤ z.maxKeyNum := by
  rw [← nowKeyNum_eq] at h ⊢
  rw [del]
  split_ifs
  · exact (Nat.sub_le _ _).trans h
  · exact h

theorem replayOp_le {t u : Table z} {o : Op z} (h : t.replayOp o = some u) (ht : t.keys.card ≤ z.maxKeyNum) :
    u.keys.card ≤ z.maxKeyNum := by
  cases o with
  | add key value =>
    rw [replayOp] at h
    split_ifs at h
    cases h
    exact t.add_le key value true ht
  | del key =>
    rw [replayOp] at h
    split_ifs at h
    cases h
    exact t.del_le key ht

theorem loadEntries_le {n : ℕ} {t u : Table z} {bs : List UInt8} (h : loadEntries n t bs = some u)
    (ht : t.keys.card ≤ z.maxKeyNum) : u.keys.card ≤ z.maxKeyNum := by
  induction n generalizing t bs with
  | zero =>
    cases h
    exact ht
  | succ n ih =>
    rw [loadEntries] at h
    split_ifs at h
    dsimp only at h
    split_ifs at h
    exact ih h (t.add_le _ _ _ ht)

end Table

theorem loadSto_le {d : Disk Name} {t : Table z} (h : loadSto d = some t) : t.keys.card ≤ z.maxKeyNum := by
  have hempty : (Table.empty : Table z).keys.card ≤ z.maxKeyNum := by simp
  cases hs : d .sto with
  | none =>
    rw [loadSto_none hs] at h
    cases h
    exact hempty
  | some file =>
    rw [loadSto_some _ hs, Table.load] at h
    split_ifs at h
    exact Table.loadEntries_le h hempty

theorem Logged.le {d : Disk Name} {rs : List (Op z)} {pos : ℕ} {t : Table z} (h : Logged d rs pos t) :
    t.keys.card ≤ z.maxKeyNum := by
  obtain ⟨t₀, hload, hreplay⟩ := h.base
  have h₀ := loadSto_le hload
  clear hload h
  induction rs generalizing t₀ with
  | nil =>
    cases hreplay
    exact h₀
  | cons o rs ih =>
    rw [List.foldlM_cons] at hreplay
    obtain ⟨t₁, h₁, hr⟩ := Option.bind_eq_some_iff.mp hreplay
    exact ih t₁ hr (Table.replayOp_le h₁ h₀)

/-! ### What a step does to the table -/

namespace Table

variable (t : Table z)

theorem lookup_add {key : Key} (value : Value z) (isOverwrite : Bool)
    (h : t.lookup key = none → t.keys.card < z.maxKeyNum) :
    (t.add key value isOverwrite).1.lookup = (Call.add key value isOverwrite).apply t.lookup := by
  cases hk : t.lookup key with
  | none =>
    rw [(t.add_absent value isOverwrite hk (h hk)).2, Call.apply_add]
    intro v hv
    cases hk.symm.trans hv
  | some v =>
    rw [(t.add_present value isOverwrite (by rw [hk]; rfl)).2]
    cases isOverwrite with
    | true => exact (Call.apply_add _ fun _ _ => .inl rfl).symm
    | false =>
      funext k
      by_cases hkey : k = key
      · subst hkey
        simp [Call.apply, Call.effect, hk]
      · exact (Call.effect_of_ne (c := .add key value false) hkey _).symm

theorem lookup_del (key : Key) : (t.del key).1.lookup = (Call.del key : Call z).apply t.lookup := by
  rw [Call.apply_del]
  cases hk : t.lookup key with
  | none => rw [t.del_absent hk, ← hk, Function.update_eq_self]
  | some v => exact (t.del_present (by rw [hk]; rfl)).2

theorem card_add (key : Key) (value : Value z) (isOverwrite : Bool) :
    (t.add key value isOverwrite).1.keys.card = t.keys.card ∨
      t.lookup key = none ∧ (t.add key value isOverwrite).1.keys.card = t.keys.card + 1 := by
  rw [← nowKeyNum_eq, ← nowKeyNum_eq, ← Option.not_isSome_iff_eq_none, ← mem_chain_iff, add]
  split_ifs with h₁ h₂ h₃
  · exact .inl rfl
  · exact .inl rfl
  · exact .inl rfl
  · exact .inr ⟨h₁, rfl⟩

theorem card_del (key : Key) :
    (t.del key).1.keys.card + (if (t.del key).2 = 0 then 1 else 0) = t.keys.card := by
  rw [← nowKeyNum_eq, ← nowKeyNum_eq, del]
  split_ifs with h₁ h₂ h₂
  · have hpos : 0 < t.keys.card := Finset.card_pos.mpr ⟨key, by rwa [mem_keys, ← mem_chain_iff]⟩
    rw [← nowKeyNum_eq] at hpos
    exact Nat.sub_add_cancel hpos
  · exact absurd rfl h₂
  · exact absurd h₂ one_ne_zero
  · rfl

end Table

/-! ### Writes to the log -/

section

variable {d : Disk Name} {rs : List (Op z)} {pos : ℕ} {t u : Table z}

theorem writeInc_of_ne {bs : List UInt8} {n : Name} (h : n ≠ .inc) : writeInc d pos bs n = d n :=
  Function.update_of_ne h _ _

theorem Logged.holds (h : Logged d rs pos t) : Holds Op.format rs ((d .inc).getD []) pos := by
  obtain ⟨file, hinc, hholds⟩ := h.inc
  rw [hinc]
  exact hholds

theorem Logged.update (h : Logged d rs pos t) {rs' : List (Op z)} {pos' : ℕ} {bs : List UInt8}
    (hf : Holds Op.format rs' (writeAt ((d .inc).getD []) pos bs) pos')
    (hr : ∀ t₀ : Table z, rs.foldlM Table.replayOp t₀ = some t → rs'.foldlM Table.replayOp t₀ = some u) :
    Logged (writeInc d pos bs) rs' pos' u := by
  obtain ⟨t₀, hload, hreplay⟩ := h.base
  refine ⟨?_, ?_, ⟨_, Function.update_self _ _ _, hf⟩, ⟨t₀, ?_, hr t₀ hreplay⟩⟩
  · rw [writeInc_of_ne (by decide), h.flg]
  · rw [writeInc_of_ne (by decide), h.new]
  · rw [loadSto_congr _ (writeInc_of_ne (by decide)), hload]

/-- A record written behind the log. -/
theorem Logged.write (h : Logged d rs pos t) {o : Op z} (ho : t.replayOp o = some u)
    (ht : (Op.format (z := z)).Torn ((incRest d pos).drop o.encode.length)) :
    Logged (writeInc d pos o.encode) (rs ++ [o]) (pos + o.encode.length) u :=
  h.update (h.holds.write ht) fun _ hr => foldlM_concat hr ho

theorem Logged.tear (h : Logged d rs pos t) {bs : List UInt8}
    (ht : (Op.format (z := z)).Torn (bs ++ (incRest d pos).drop bs.length)) :
    Logged (writeInc d pos bs) rs pos t :=
  h.update (h.holds.tear ht) fun _ hr => hr

theorem Logged.torn (h : Logged d rs pos t) : (Op.format (z := z)).Torn (incRest d pos) := h.holds.torn

/-- A restart after any write behind the log replays what was written. -/
theorem Logged.restore_writeInc (h : Logged d rs pos t) {bs : List UInt8} {d' : Disk Name} {pos' : ℕ}
    (hr : restore (writeInc d pos bs) = some (d', u, pos')) : ∃ n rest, bs.length ≤ n ∧
      Op.format.replay Table.replayOp n t (bs ++ (incRest d pos).drop bs.length) = some (u, rest) := by
  have hflg : writeInc d pos bs .flg = none := by rw [writeInc_of_ne (by decide), h.flg]
  have hnew : writeInc d pos bs .new = none := by rw [writeInc_of_ne (by decide), h.new]
  have hm : mended (writeInc d pos bs) = writeInc d pos bs := by
    simp [mended, finishClear, finishTrim, hflg, hnew]
  obtain ⟨t₀, hload, hreplay⟩ := h.base
  obtain ⟨n, hn, heq⟩ := h.holds.replay_writeAt Table.replayOp t₀ bs
  rw [restore, hm, loadSto_congr _ (writeInc_of_ne (by decide)), hload, Option.bind_some, replayInc] at hr
  have hinc : writeInc d pos bs .inc = some (writeAt ((d .inc).getD []) pos bs) :=
    Function.update_self _ _ _
  rw [hinc] at hr
  dsimp only at hr
  rw [heq, hreplay, Option.bind_some, Option.map_map, Option.map_eq_some_iff] at hr
  obtain ⟨⟨u', rest⟩, hrun, hu⟩ := hr
  cases hu
  exact ⟨n, rest, hn, hrun⟩

end

/-! ### What a restart reads behind a log -/

/-- Bytes that are too few for an `add` hold no `add`. -/
theorem Op.head_short {bs : List UInt8} (h : bs.length < 16 + z.storeSize) :
    Op.format.head bs = (.torn : Head (Op z)) ∨
      (∃ key, Op.format.head bs = (.record (.del key) (bs.drop 16) : Head (Op z))) ∨
      Op.format.head bs = (.bad : Head (Op z)) := by
  change Op.head bs = _ ∨ (∃ key, Op.head bs = _) ∨ Op.head bs = _
  rw [Op.head]
  split_ifs with h₁ h₂ h₃ h₄
  · exact .inl rfl
  · omega
  · exact .inl rfl
  · exact .inr (.inl ⟨_, rfl⟩)
  · exact .inr (.inr rfl)

namespace Table

theorem replayOp_del_iff {t u : Table z} {key : Key} : t.replayOp (.del key) = some u ↔
    (t.lookup key).isSome ∧ u = (t.del key).1 := by
  rw [replayOp]
  cases hk : t.lookup key with
  | none => simp [t.del_absent hk]
  | some v =>
    rw [(t.del_present (by rw [hk]; rfl)).1]
    simp [eq_comm]

/-- No key comes back from them. -/
theorem replay_short {n : ℕ} {t u : Table z} {bs rest : List UInt8} (hlen : bs.length < 16 + z.storeSize)
    (h : Op.format.replay replayOp n t bs = some (u, rest)) {key : Key} (hkey : t.lookup key = none) :
    u.lookup key = none := by
  induction n generalizing t bs with
  | zero =>
    cases h
    exact hkey
  | succ n ih =>
    rw [Format.replay] at h
    by_cases hnil : bs = []
    · rw [if_pos hnil] at h
      cases h
      exact hkey
    · rw [if_neg hnil] at h
      rcases Op.head_short hlen with htorn | ⟨k, hdel⟩ | hbad
      · rw [htorn] at h
        cases h
        exact hkey
      · rw [hdel] at h
        obtain ⟨v, hv, hr⟩ := Option.bind_eq_some_iff.mp h
        obtain ⟨-, rfl⟩ := replayOp_del_iff.mp hv
        refine ih (by rw [List.length_drop]; omega) hr ?_
        rw [lookup_del, Call.apply_del, Function.update_apply, hkey, ite_self]
      · rw [hbad] at h
        cases h

/-- If they are not torn, they end the replay or take a key from the table. -/
theorem replay_untorn {n : ℕ} {t u : Table z} {bs rest : List UInt8} (hn : 0 < n)
    (hlen : bs.length < 16 + z.storeSize) (hbs : ¬ (Op.format (z := z)).Torn bs)
    (h : Op.format.replay replayOp n t bs = some (u, rest)) : u.lookup ≠ t.lookup := by
  obtain ⟨n, rfl⟩ : ∃ m, n = m + 1 := ⟨n - 1, by omega⟩
  have hnil : bs ≠ [] := by
    rintro rfl
    exact hbs Op.format.torn_nil
  rw [Format.replay, if_neg hnil] at h
  rcases Op.head_short hlen with htorn | ⟨k, hdel⟩ | hbad
  · exact absurd htorn hbs
  · rw [hdel] at h
    obtain ⟨v, hv, hr⟩ := Option.bind_eq_some_iff.mp h
    obtain ⟨hk, rfl⟩ := replayOp_del_iff.mp hv
    have hgone : u.lookup k = none := by
      refine replay_short (by rw [List.length_drop]; omega) hr ?_
      rw [lookup_del, Call.apply_del, Function.update_self]
    intro heq
    rw [← heq, hgone] at hk
    cases hk
  · rw [hbad] at h
    cases h

end Table

/-! ### What holds between the steps -/

/-- The log of a running process means what the calls have made, and so does its table once
the calls under way are done. -/
structure Live (os : List (Observed z)) (d : Disk Name) (p : Running z) : Prop where
  log : ∃ rs t, Logged d rs p.pos t ∧ t.lookup = meaning os
  view : p.view = meaning os
  room : p.table.keys.card + p.uncounted ≤ z.maxKeyNum

def Sound (os : List (Observed z)) (s : State z) : Prop :=
  match s.proc with
  | none => Shape s.disk (meaning os)
  | some p => Live os s.disk p

theorem Live.congr {os os' : List (Observed z)} {d : Disk Name} {p : Running z} (h : Live os d p)
    (hm : meaning os' = meaning os) : Live os' d p :=
  ⟨by rw [hm]; exact h.log, by rw [hm]; exact h.view, h.room⟩

theorem Sound.congr {os os' : List (Observed z)} {s : State z} (h : Sound os s)
    (hm : meaning os' = meaning os) : Sound os' s := by
  obtain ⟨d, proc⟩ := s
  cases proc with
  | none =>
    change Shape d (meaning os')
    rw [hm]
    exact h
  | some p => exact Live.congr h hm

theorem Live.shape {os : List (Observed z)} {d : Disk Name} {p : Running z} (h : Live os d p) :
    Shape d (meaning os) := by
  obtain ⟨rs, t, hlog, ht⟩ := h.log
  rw [← ht]
  exact .logged hlog

theorem Sound.recovers {os : List (Observed z)} {s : State z} (h : Sound os s) : Recovers os s := by
  obtain ⟨d, proc⟩ := s
  cases proc with
  | none =>
    obtain ⟨d', t, rs, pos, hr, -, ht⟩ := restore_shape h
    exact ⟨⟨d', t, pos, hr, ht⟩, fun p hp => nomatch hp⟩
  | some p =>
    have h : Live os d p := h
    obtain ⟨d', t, rs, pos, hr, -, ht⟩ := restore_shape h.shape
    refine ⟨⟨d', t, pos, hr, ht⟩, fun q hq => ?_⟩
    cases hq
    exact h.view

namespace Live

variable {os : List (Observed z)} {d : Disk Name} {p : Running z}

theorem start {rs : List (Op z)} {pos : ℕ} {t : Table z} (h : Logged d rs pos t) (ht : t.lookup = meaning os) :
    Live os d (.start t pos) :=
  ⟨⟨rs, t, h, ht⟩, ht, h.le⟩

/-- What is logged has the keys of the view. -/
theorem viewKeys_eq {t : Table z} (h : Live os d p) (ht : t.lookup = meaning os) : p.viewKeys = t.keys :=
  Running.viewKeys_eq (ht.trans h.view.symm)

/-- The record of a safe `add` is replayed as the call. -/
theorem call_add (h : Live os d p) {key : Key} {value : Value z} {isOverwrite : Bool}
    (hfree : p.pend (z.index key) = none) (hs : Safe ⟨d, some p⟩ (.call (.add key value isOverwrite))) :
    ∃ rs t u, Logged d rs p.pos t ∧ t.replayOp (.add key value) = some u ∧
      u.lookup = (Call.add key value isOverwrite).apply (meaning os) := by
  obtain ⟨rs, t, hlog, ht⟩ := h.log
  have hs := hs hfree
  rw [h.view] at hs
  have hroom : (t.lookup key).isSome ∨ t.keys.card < z.maxKeyNum := by
    rw [ht]
    cases hk : meaning os key with
    | none =>
      rw [hk] at hs
      exact .inr (by rwa [h.viewKeys_eq ht] at hs)
    | some v => exact .inl rfl
  obtain ⟨u, hu, hlook⟩ := t.replayOp_add key value hroom
  refine ⟨rs, t, u, hlog, hu, ?_⟩
  rw [hlook, ht, Call.apply_add]
  intro v hv
  rw [hv] at hs
  exact hs

theorem call_del (h : Live os d p) {key : Key} (hfree : p.pend (z.index key) = none)
    (hkey : (p.table.lookup key).isSome) : ∃ rs t u, Logged d rs p.pos t ∧
      t.replayOp (.del key) = some u ∧ u.lookup = (Call.del key : Call z).apply (meaning os) := by
  obtain ⟨rs, t, hlog, ht⟩ := h.log
  have hk : (t.lookup key).isSome := by
    rwa [ht, ← h.view, Running.view_of_free hfree]
  obtain ⟨u, hu, hlook⟩ := t.replayOp_del hk
  exact ⟨rs, t, u, hlog, hu, by rw [hlook, ht, Call.apply_del]⟩

theorem call (h : Live os d p) {c : Call z} (hfree : p.pend c.bucket = none) (hlogs : c.logs p.table)
    (hs : Safe ⟨d, some p⟩ (.call c)) :
    Live (os ++ [.called c]) (writeInc d p.pos c.op.encode) (p.log c) := by
  have hview : (p.log c).view = meaning (os ++ [.called c]) := by
    rw [Running.view_log hfree, h.view, meaning_concat]
    rfl
  cases c with
  | add key value isOverwrite =>
    obtain ⟨rs, t, u, hlog, hu, hlook⟩ := h.call_add hfree hs
    have ht : (Op.format (z := z)).Torn ((incRest d p.pos).drop (Op.add key value).encode.length) := by
      rw [Op.drop_add key value hlog.torn]
      exact Op.format.torn_nil
    exact ⟨⟨_, u, hlog.write hu ht, by rw [hlook, meaning_concat]; rfl⟩, hview, h.room⟩
  | del key =>
    obtain ⟨rs, t, u, hlog, hu, hlook⟩ := h.call_del hfree hlogs
    have ht : (Op.format (z := z)).Torn ((incRest d p.pos).drop (Op.del key : Op z).encode.length) := by
      rw [Op.length_encode_del]
      exact hs hfree hlogs
    exact ⟨⟨_, u, hlog.write hu ht, by rw [hlook, meaning_concat]; rfl⟩, hview, h.room⟩

theorem finish (h : Live os d p) {i : Fin z.tableSize} {c : Call z} (hi : p.pend i = some c)
    (hs : Safe ⟨d, some p⟩ (.finish i)) : Live os d (p.finish i c) := by
  have hroom := h.room
  cases c with
  | add key value isOverwrite =>
    have hs : p.table.lookup key = none → p.table.nowKeyNum + p.uncounted < z.maxKeyNum := by
      simp only [Safe, hi] at hs
      exact hs
    rw [p.table.nowKeyNum_eq] at hs
    have hfin : p.finish i (.add key value isOverwrite) =
        p.settle i (p.table.add key value isOverwrite).1 p.uncounted := by
      rw [Running.finish, if_neg]
      rintro ⟨hk, hfull⟩
      have := hs hk
      rw [p.table.nowKeyNum_eq] at hfull
      omega
    rw [hfin]
    refine ⟨h.log, ?_, ?_⟩
    · rw [Running.view_settle hi, h.view]
      exact p.table.lookup_add value isOverwrite fun hk => by have := hs hk; omega
    · change (p.table.add key value isOverwrite).1.keys.card + p.uncounted ≤ z.maxKeyNum
      rcases p.table.card_add key value isOverwrite with hc | ⟨hk, hc⟩
      · omega
      · have := hs hk
        omega
  | del key =>
    refine ⟨h.log, ?_, ?_⟩
    · rw [Running.finish, Running.view_settle hi, h.view]
      exact p.table.lookup_del key
    · change (p.table.del key).1.keys.card + (p.uncounted + _) ≤ z.maxKeyNum
      have := p.table.card_del key
      omega

theorem dieCall (h : Live os d p) {c : Call z} {k : ℕ} (hfree : p.pend c.bucket = none)
    (hlogs : c.logs p.table) (hk : k < c.op.encode.length) (hs : Safe ⟨d, some p⟩ (.dieCall c k)) :
    Shape (writeInc d p.pos (c.op.encode.take k)) (meaning os) := by
  obtain ⟨rs, t, hlog, ht⟩ := h.log
  rw [← ht]
  refine .logged (hlog.tear ?_)
  rw [List.length_take, min_eq_left hk.le]
  cases c with
  | add key value isOverwrite =>
    rw [Call.op, Op.length_encode_add] at hk
    exact Op.torn_add key value hlog.torn hk
  | del key =>
    rw [Call.op, Op.length_encode_del] at hk
    exact hs hfree hlogs hk

end Live

/-! ### Steps -/

variable {os : List (Observed z)} {s s' : State z} {e : Event z} {o : Observed z}

theorem meaning_silent (os : List (Observed z)) : meaning (os ++ [.silent]) = meaning os := meaning_concat os .silent

theorem meaning_cleared (os : List (Observed z)) : meaning (os ++ [.cleared]) = fun _ => none :=
  meaning_concat os .cleared

/-- A safe step keeps the files restorable and the table true. -/
theorem Sound.kept (h : Sound os s) (hs : Safe s e) (hstep : step s e = some (s', o)) :
    Sound (os ++ [o]) s' := by
  obtain ⟨d, proc⟩ := s
  cases proc with
  | none =>
    have h : Shape d (meaning os) := h
    cases e with
    | restart =>
      obtain ⟨d', t, rs, pos, hr, hlog, ht⟩ := restore_shape h
      simp only [step, hr] at hstep
      cases hstep
      exact Live.start hlog (by rw [ht, meaning_silent])
    | dieRestart k =>
      cases hstep
      change Shape _ (meaning (os ++ [.silent]))
      rw [meaning_silent]
      exact cut_restore h k
    | call | finish | countOff | trim | clear | die | dieCall | dieTrim | dieClear => cases hstep
  | some p =>
    have h : Live os d p := h
    have hsilent : ∀ {d' : Disk Name} {q : Running z}, Live os d' q → Live (os ++ [.silent]) d' q :=
      fun hl => hl.congr (meaning_silent _)
    obtain ⟨rs, t, hlog, ht⟩ := h.log
    cases e with
    | restart | dieRestart => cases hstep
    | call c =>
      simp only [step] at hstep
      split_ifs at hstep with hfree hlogs
      · cases hstep
        exact h.call (Option.not_isSome_iff_eq_none.mp hfree) hlogs hs
      · cases hstep
        exact hsilent h
    | finish i =>
      obtain ⟨c, hi, hc⟩ := Option.map_eq_some_iff.mp hstep
      cases hc
      exact hsilent (h.finish hi hs)
    | countOff =>
      simp only [step] at hstep
      split_ifs at hstep
      cases hstep
      exact hsilent ⟨h.log, h.view, (Nat.add_le_add_left (Nat.sub_le _ _) _).trans h.room⟩
    | trim =>
      simp only [step] at hstep
      split_ifs at hstep with hidle
      cases hstep
      have hle : p.table.keys.card ≤ z.maxKeyNum := (Nat.le_add_right _ _).trans h.room
      obtain ⟨v, hv, hlook⟩ := hlog.trim hle
      have htable : p.table.lookup = meaning os := by rw [← Running.view_of_idle hidle, h.view]
      exact hsilent ⟨⟨[], v, hv, hlook.trans htable⟩, htable, hle⟩
    | clear =>
      simp only [step] at hstep
      split_ifs at hstep
      cases hstep
      refine ⟨⟨[], _, hlog.clear, ?_⟩, ?_, ?_⟩
      · rw [meaning_cleared]
        rfl
      · rw [meaning_cleared]
        rfl
      · simp [Running.start]
    | die =>
      cases hstep
      change Shape d (meaning (os ++ [.silent]))
      rw [meaning_silent]
      exact h.shape
    | dieCall c k =>
      simp only [step] at hstep
      split_ifs at hstep with hc
      cases hstep
      obtain ⟨hfree, hlogs, hk⟩ := not_or.mp hc |>.imp_right not_or.mp
      change Shape _ (meaning (os ++ [.silent]))
      rw [meaning_silent]
      exact h.dieCall (Option.not_isSome_iff_eq_none.mp hfree) (not_not.mp hlogs) (not_le.mp hk) hs
    | dieTrim k q =>
      simp only [step] at hstep
      split_ifs at hstep with hidle
      cases hstep
      have htable : p.table.lookup = meaning os := by rw [← Running.view_of_idle hidle, h.view]
      change Shape _ (meaning (os ++ [.silent]))
      rw [meaning_silent, ← htable]
      exact hlog.cut_trim (ht.trans htable.symm) ((Nat.le_add_right _ _).trans h.room) k q
    | dieClear k =>
      simp only [step] at hstep
      split_ifs at hstep with hidle hk
      · cases hstep
        change Shape _ (meaning (os ++ [.silent]))
        have := hlog.cut_clear k
        rwa [if_pos hk, ht, ← meaning_silent os] at this
      · cases hstep
        change Shape _ (meaning (os ++ [.cleared]))
        have := hlog.cut_clear k
        rwa [if_neg hk, ← meaning_cleared os] at this

/-! ### What breaks -/

/-- The record of an `add` that is not safe is replayed with another result, or not at all. -/
theorem Live.broken_add {d : Disk Name} {p : Running z} (h : Live os d p) {key : Key} {value : Value z}
    {isOverwrite : Bool} (hs : ¬ Safe ⟨d, some p⟩ (.call (.add key value isOverwrite)))
    {q : Option (Running z)} : ¬ Recovers (os ++ [.called (.add key value isOverwrite)])
      ⟨writeInc d p.pos (Op.add key value).encode, q⟩ := by
  intro hr
  obtain ⟨rs, t, hlog, ht⟩ := h.log
  obtain ⟨d', u, pos, hrestore, hu⟩ := hr.disk
  rw [meaning_concat] at hu
  simp only [Safe, Classical.not_imp, h.view] at hs
  obtain ⟨-, hs⟩ := hs
  cases hk : meaning os key with
  | none =>
    rw [hk] at hs
    dsimp only at hs
    rw [not_lt, h.viewKeys_eq ht] at hs
    obtain ⟨n, rest, hn, hreplay⟩ := hlog.restore_writeInc hrestore
    rw [Op.length_encode_add] at hn
    obtain ⟨n, rfl⟩ : ∃ m, n = m + 1 := ⟨n - 1, by omega⟩
    rw [← Op.format_encode, Format.replay_encode, t.replayOp_add_full value (ht ▸ hk) hs] at hreplay
    cases hreplay
  | some v =>
    rw [hk, not_or] at hs
    have htorn : (Op.format (z := z)).Torn ((incRest d p.pos).drop (Op.add key value).encode.length) := by
      rw [Op.drop_add key value hlog.torn]
      exact Op.format.torn_nil
    obtain ⟨w, hw, hlook⟩ := t.replayOp_add key value (.inl (by rw [ht, hk]; rfl))
    obtain ⟨d₂, t₂, rs₂, pos₂, hrestore₂, -, ht₂⟩ := restore_shape (.logged (hlog.write hw htorn))
    cases hrestore.symm.trans hrestore₂
    have hv : u.lookup key = some value := by rw [ht₂, hlook, Function.update_self]
    rw [hu] at hv
    simp only [Observed.apply, Call.apply, Call.effect, hk, true_and, reduceCtorEq, or_false] at hv
    rw [if_neg hs.1] at hv
    exact hs.2 (Option.some.inj hv)

/-- A torn `del` that leaves more than a torn rest behind the log is read as another one. -/
theorem Logged.broken {d d' : Disk Name} {rs : List (Op z)} {pos pos' : ℕ} {t u : Table z}
    (h : Logged d rs pos t) {bs : List UInt8} (hlen : bs.length < 16)
    (hbs : ¬ (Op.format (z := z)).Torn (bs ++ (incRest d pos).drop bs.length))
    (hr : restore (writeInc d pos bs) = some (d', u, pos')) : u.lookup ≠ t.lookup := by
  obtain ⟨n, rest, hn, hreplay⟩ := h.restore_writeInc hr
  have hpos : 0 < bs.length := by
    rw [List.length_pos_iff]
    rintro rfl
    exact hbs h.torn
  refine Table.replay_untorn (by omega) ?_ hbs hreplay
  have hshort : (incRest d pos).length < 16 + z.storeSize := by
    rcases Op.torn_iff.mp h.torn with hc | ⟨hc, -⟩ <;> omega
  rw [List.length_append, List.length_drop]
  omega

/-- A `del` that leaves more than a torn rest behind its record is followed by another one. -/
theorem Logged.broken_del {d d' : Disk Name} {rs : List (Op z)} {pos pos' : ℕ} {t u : Table z}
    (h : Logged d rs pos t) {key : Key} (hbs : ¬ (Op.format (z := z)).Torn ((incRest d pos).drop 16))
    (hr : restore (writeInc d pos (Op.del key : Op z).encode) = some (d', u, pos')) :
    u.lookup ≠ (Call.del key : Call z).apply t.lookup := by
  obtain ⟨n, rest, hn, hreplay⟩ := h.restore_writeInc hr
  rw [Op.length_encode_del] at hn hreplay
  obtain ⟨n, rfl⟩ : ∃ m, n = m + 1 := ⟨n - 1, by omega⟩
  rw [← Op.format_encode, Format.replay_encode] at hreplay
  obtain ⟨v, hv, hreplay⟩ := Option.bind_eq_some_iff.mp hreplay
  obtain ⟨-, rfl⟩ := Table.replayOp_del_iff.mp hv
  rw [← t.lookup_del]
  refine Table.replay_untorn (by omega) ?_ hbs hreplay
  have hshort : (incRest d pos).length < 16 + z.storeSize := by
    rcases Op.torn_iff.mp h.torn with hc | ⟨hc, -⟩ <;> omega
  rw [List.length_drop]
  omega

/-- A refused `add` leaves the table without the key that its record has. -/
theorem Running.broken_finish {p : Running z} {i : Fin z.tableSize}
    {key : Key} {value : Value z} {isOverwrite : Bool} (hi : p.pend i = some (.add key value isOverwrite))
    (hk : p.table.lookup key = none) (hfull : z.maxKeyNum ≤ p.table.nowKeyNum + p.uncounted) :
    (p.finish i (.add key value isOverwrite)).view ≠ p.view := by
  intro heq
  have hindex : z.index key = i := p.own i _ hi
  have hafter : (p.finish i (.add key value isOverwrite)).view key = none := by
    rw [Running.finish, if_pos ⟨hk, hfull⟩, Running.view_of_free]
    · exact hk
    · rw [Running.settle_pend, if_pos hindex]
  have hbefore : p.view key = some value := by
    rw [Running.view, hindex, hi, hk]
    simp [Call.effect]
  rw [heq, hbefore] at hafter
  cases hafter

/-- A step that is not safe is possible, and the map is lost. -/
theorem Sound.broken (h : Sound os s) (hs : ¬ Safe s e) :
    ∃ s' o, step s e = some (s', o) ∧ ¬ Recovers (os ++ [o]) s' := by
  obtain ⟨d, proc⟩ := s
  cases proc with
  | none =>
    have hsafe : Safe ⟨d, none⟩ e := by
      cases e with
      | call c | dieCall c => cases c <;> exact trivial
      | restart | dieRestart | countOff | trim | clear | die | dieTrim | dieClear | finish => exact trivial
    exact absurd hsafe hs
  | some p =>
    have h : Live os d p := h
    obtain ⟨rs, t, hlog, ht⟩ := h.log
    cases e with
    | restart | dieRestart | countOff | trim | clear | die | dieTrim | dieClear => exact absurd trivial hs
    | call c =>
      cases c with
      | add key value isOverwrite =>
        have hfree : p.pend (z.index key) = none := by
          simp only [Safe, Classical.not_imp] at hs
          exact hs.1
        refine ⟨⟨_, some (p.log (.add key value isOverwrite))⟩, _, ?_, h.broken_add hs⟩
        simp only [step, Call.bucket, Call.key, hfree]
        rfl
      | del key =>
        have hs' := hs
        simp only [Safe, Classical.not_imp] at hs'
        obtain ⟨hfree, hkey, hbs⟩ := hs'
        refine ⟨⟨writeInc d p.pos (Op.del key : Op z).encode, some (p.log (.del key))⟩,
          .called (.del key), ?_, fun hr => ?_⟩
        · simp only [step, Call.bucket, Call.key, hfree, Call.logs, hkey]
          rfl
        · obtain ⟨d', u, pos, hrestore, hu⟩ := hr.disk
          refine hlog.broken_del hbs hrestore ?_
          rw [hu, meaning_concat, ht]
          rfl
    | dieCall c k =>
      cases c with
      | add key value isOverwrite => exact absurd trivial hs
      | del key =>
        have hs' := hs
        simp only [Safe, Classical.not_imp] at hs'
        obtain ⟨hfree, hkey, hk, hbs⟩ := hs'
        refine ⟨⟨writeInc d p.pos ((Op.del key : Op z).encode.take k), none⟩, .silent, ?_, fun hr => ?_⟩
        · simp only [step, Call.bucket, Call.key, hfree, Call.logs, hkey, Call.op,
            Op.length_encode_del]
          rw [if_neg (by simpa using hk)]
        · obtain ⟨d', u, pos, hrestore, hu⟩ := hr.disk
          have hlen : ((Op.del key : Op z).encode.take k).length = k := by
            rw [List.length_take, Op.length_encode_del]
            omega
          refine hlog.broken (by rw [hlen]; exact hk) (by rw [hlen]; exact hbs) hrestore ?_
          rw [hu, meaning_silent, ht]
    | finish i =>
      cases hi : p.pend i with
      | none =>
        simp only [Safe, hi] at hs
        exact absurd trivial hs
      | some c =>
        refine ⟨⟨d, some (p.finish i c)⟩, .silent, by simp [step, hi], fun hr => ?_⟩
        cases c with
        | add key value isOverwrite =>
          simp only [Safe, hi, Classical.not_imp, not_lt] at hs
          refine p.broken_finish hi hs.1 hs.2 ?_
          rw [hr.proc _ rfl, meaning_silent, h.view]
        | del key =>
          simp only [Safe, hi] at hs
          exact absurd trivial hs

/-- A directory without the files, and no process. -/
def State.new : State z := ⟨fun _ => none, none⟩

theorem Sound.new : Sound [] (State.new : State z) :=
  Shape.fresh (t := .empty) rfl rfl rfl (loadSto_none rfl)

/-- Throughout a run a restart finds what the calls have made exactly when every step is
safe. -/
theorem recovers_iff (es : List (Event z)) :
    Always step Recovers State.new es ↔ Along step Safe State.new es :=
  always_iff_along (I := Sound) (fun _ _ h => h.recovers) (fun _ _ _ _ _ h hs hstep => h.kept hs hstep)
    (fun _ _ _ h hs => h.broken hs) es .new

end PrimaryElection.Util.HashTable
