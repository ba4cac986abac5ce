import PrimaryElection.Framework.CacheBounds

/-! The result codes of `get` and the refill requests among them. The search time
of an entry is the time of the last request, so requests are spaced. A low entry
that is read again within the minute has no code of its own. -/

namespace PrimaryElection.Framework.Cache

open CInt Runs

/-- The entries of a table are as `put` and `get` store them: well formed, and of a
size that fits the buffer they came from. -/
def Table.Stored (c : Config) (t : Table) : Prop :=
  ∀ uid en, t uid = some en → en.Wf c ∧ c.Sized

/-- What is left of a fresh entry is at most the flush count. -/
def Low (c : Config) (e : Env) (en : Entry) (reqNum : ℤ) : Prop :=
  en.num - retNum e reqNum en.num ≤ c.flushCount

instance (c : Config) (e : Env) (en : Entry) (reqNum : ℤ) : Decidable (Low c e en reqNum) :=
  inferInstanceAs (Decidable (_ ≤ _))

/-- The code of a `get` that a low entry does not meet again within the minute. -/
def code (c : Config) (e : Env) (en : Entry) (reqNum : ℤ) : ℤ :=
  if Fresh c e en then if Low c e en reqNum then 1 else 2
  else if Quiet e en then 3 else 4

/-- The codes that ask for a refill. -/
def Asks (ret : ℤ) : Prop := ret = 1 ∨ ret = 3

instance (ret : ℤ) : Decidable (Asks ret) := inferInstanceAs (Decidable (_ ∨ _))

/-- `get` has a code that the entry, the clock and the draw determine, 3 or 4 for an
expired entry and 1 or 2 for another, 1 only for a low one. -/
def HasCode (c : Config) (uid : Uid) (t : Table) (g : ℤ × Env) : Prop :=
  ∀ en, t uid = some en → ∃ ret,
    (∀ e : Env, e.now = g.2.now → e.rand = g.2.rand →
      ∃ t' lst, get c e t uid g.1 = some (t', ⟨ret, lst⟩)) ∧
    (¬ Fresh c g.2 en → ret = 3 ∨ ret = 4) ∧
    (Fresh c g.2 en → (ret = 1 ∨ ret = 2) ∧ (ret = 1 → Low c g.2 en g.1))

/-- A fresh entry is not asked for a negative number and, where it is or becomes low,
not read within a minute of the last refill request. -/
def NotReread (c : Config) (uid : Uid) (t : Table) (g : ℤ × Env) : Prop :=
  ∀ en, t uid = some en → Fresh c g.2 en → 0 ≤ g.1 ∧ (Low c g.2 en g.1 → Quiet g.2 en)

instance (c : Config) (uid : Uid) (t : Table) (g : ℤ × Env) : Decidable (NotReread c uid t g) :=
  match h : t uid with
  | none => isTrue fun _ hu => nomatch h.symm.trans hu
  | some en =>
    decidable_of_iff (Fresh c g.2 en → 0 ≤ g.1 ∧ (Low c g.2 en g.1 → Quiet g.2 en))
      ⟨fun hp _ hu => by cases h.symm.trans hu; exact hp, fun hp => hp en h⟩

def getStep (c : Config) (uid : Uid) (t : Table) (g : ℤ × Env) : Option (Table × Reply) :=
  get c g.2 t uid g.1

/-- Any two refill requests are more than a minute apart. -/
def Spaced (gets : List (ℤ × Env)) (replies : List Reply) : Prop :=
  (gets.zip replies).Pairwise fun a b => Asks a.2.ret → Asks b.2.ret → a.1.2.now + 60 < b.1.2.now

def Throttled (c : Config) (uid : Uid) (t : Table) (gets : List (ℤ × Env)) : Prop :=
  Along (getStep c uid) (HasCode c uid) t gets ∧
    ∀ t' rs, run (getStep c uid) t gets = some (t', rs) → Spaced gets rs

/-! ### One call -/

/-- The code and the search time of a fresh entry, where the copies succeed. -/
theorem getFresh_code {c : Config} {e : Env} {en en' : Entry} {reqNum : ℤ} {r : Reply}
    (hf : Fresh c e en) (hq : Low c e en reqNum → Quiet e en)
    (h : getFresh c e en reqNum = some (en', r)) :
    r.ret = code c e en reqNum ∧ en'.stm = if Asks r.ret then toInt32 e.now else en.stm := by
  simp only [getFresh, Option.bind_eq_bind, Option.bind_eq_some_iff] at h
  obtain ⟨out, -, rest, -, stored, -, h⟩ := h
  rw [code, if_pos hf]
  split at h
  next hlow =>
    rw [if_pos (hq hlow)] at h
    cases h
    exact ⟨(if_pos hlow).symm, (if_pos (.inl rfl)).symm⟩
  next hlow =>
    cases h
    exact ⟨(if_neg hlow).symm, (if_neg (by simp [Asks])).symm⟩

theorem getExpired_code {c : Config} {e : Env} {en en' : Entry} {r : Reply} (reqNum : ℤ)
    (hf : ¬ Fresh c e en) (h : getExpired c e en = some (en', r)) :
    r.ret = code c e en reqNum ∧ en'.stm = if Asks r.ret then toInt32 e.now else en.stm := by
  simp only [getExpired, Option.bind_eq_bind, Option.bind_eq_some_iff] at h
  obtain ⟨stored, -, h⟩ := h
  rw [code, if_neg hf]
  split at h
  next hq =>
    cases h
    exact ⟨(if_pos hq).symm, (if_pos (.inr rfl)).symm⟩
  next hq =>
    cases h
    exact ⟨(if_neg hq).symm, (if_neg (by simp [Asks])).symm⟩

/-- What a `get` on a present entry writes back and returns. -/
theorem get_code {c : Config} {uid : Uid} {t : Table} (ht : t.Stored c) {en : Entry}
    (hu : t uid = some en) {reqNum : ℤ} {e : Env} (h : NotReread c uid t (reqNum, e)) :
    ∃ en' lst, get c e t uid reqNum = some (Function.update t uid (some en'),
        ⟨code c e en reqNum, lst⟩) ∧
      en'.stm = if Asks (code c e en reqNum) then toInt32 e.now else en.stm := by
  obtain ⟨hw, hc⟩ := ht uid en hu
  have hget : ∃ p, (if Fresh c e en then getFresh c e en reqNum else getExpired c e en) = some p ∧
      get c e t uid reqNum = some (Function.update t uid (some p.1), p.2) := by
    have hsome : ∃ q, get c e t uid reqNum = some q := by
      by_cases hf : Fresh c e en
      · obtain ⟨en', ret, hg, -⟩ := get_fresh hc hu hw hf (h en hu hf).1
        exact ⟨_, hg⟩
      · obtain ⟨en', ret, hg, -⟩ := get_expired hc hu hf reqNum
        exact ⟨_, hg⟩
    obtain ⟨q, hq⟩ := hsome
    simp only [get, hu] at hq ⊢
    obtain ⟨p, hp, -⟩ := Option.map_eq_some_iff.mp hq
    exact ⟨p, hp, by rw [hp, Option.map_some]⟩
  obtain ⟨⟨en', r⟩, hp, hg⟩ := hget
  have hcode : r.ret = code c e en reqNum ∧
      en'.stm = if Asks r.ret then toInt32 e.now else en.stm := by
    split at hp
    next hf => exact getFresh_code hf (h en hu hf).2 hp
    next hf => exact getExpired_code reqNum hf hp
  obtain ⟨hret, hstm⟩ := hcode
  rw [hret] at hstm
  exact ⟨en', r.lst, by rw [hg, ← hret], hstm⟩

theorem code_fresh {c : Config} {e : Env} {en : Entry} {reqNum : ℤ} (hf : Fresh c e en) :
    (code c e en reqNum = 1 ∨ code c e en reqNum = 2) ∧
      (code c e en reqNum = 1 → Low c e en reqNum) := by
  rw [code, if_pos hf]
  split_ifs with hlow <;> simp [hlow]

theorem code_expired {c : Config} {e : Env} {en : Entry} {reqNum : ℤ} (hf : ¬ Fresh c e en) :
    code c e en reqNum = 3 ∨ code c e en reqNum = 4 := by
  rw [code, if_neg hf]
  split_ifs <;> simp

/-- A request is made more than a minute after the search time of the entry. -/
theorem quiet_of_asks {c : Config} {uid : Uid} {t : Table} {en : Entry} (hu : t uid = some en)
    {reqNum : ℤ} {e : Env} (h : NotReread c uid t (reqNum, e)) (ha : Asks (code c e en reqNum)) :
    Quiet e en := by
  by_cases hf : Fresh c e en
  · have hcode : code c e en reqNum = 1 ∨ code c e en reqNum = 2 := (code_fresh hf).1
    rcases hcode with h₁ | h₂
    · exact (h en hu hf).2 ((code_fresh hf).2 h₁)
    · rw [h₂] at ha
      exact absurd ha (by decide)
  · by_contra hq
    rw [code, if_neg hf, if_neg hq] at ha
    exact absurd ha (by decide)

/-- A low entry that is read again within the minute gets the value that the
unassigned `is_flush` has. -/
theorem get_stale {c : Config} {e : Env} {uid : Uid} {t t' : Table} {en : Entry} {reqNum : ℤ}
    {r : Reply} (hu : t uid = some en) (hf : Fresh c e en) (hlow : Low c e en reqNum)
    (hq : ¬ Quiet e en) (h : get c e t uid reqNum = some (t', r)) : r.ret = e.stale := by
  simp only [get, hu, if_pos hf, Option.map_eq_some_iff, getFresh, Option.bind_eq_bind,
    Option.bind_eq_some_iff] at h
  obtain ⟨p, ⟨out, -, rest, -, stored, -, hp⟩, h⟩ := h
  have hle : en.num - retNum e reqNum en.num ≤ c.flushCount := hlow
  rw [if_pos hle, if_neg hq] at hp
  cases hp
  cases h
  rfl

theorem hasCode_iff {c : Config} {uid : Uid} {t : Table} (ht : t.Stored c) (g : ℤ × Env) :
    HasCode c uid t g ↔ NotReread c uid t g := by
  obtain ⟨reqNum, e⟩ := g
  constructor
  · intro h en hu hf
    obtain ⟨ret, hall, -⟩ := h en hu
    obtain ⟨t', lst, hg⟩ := hall e rfl rfl
    have hr : 0 ≤ reqNum := by
      by_contra hn
      rw [get_negative hu hf (not_le.mp hn)] at hg
      cases hg
    refine ⟨hr, fun hlow => ?_⟩
    by_contra hq
    -- with another stale value the code is another one
    obtain ⟨t₂, lst₂, hg₂⟩ := hall { e with stale := ret + 1 } rfl rfl
    have hstale : ret = ret + 1 :=
      get_stale (e := { e with stale := ret + 1 }) hu hf hlow hq hg₂
    omega
  · intro h en hu
    refine ⟨code c e en reqNum, fun e' hnow hrand => ?_, code_expired, code_fresh⟩
    have hret : retNum e' reqNum en.num = retNum e reqNum en.num := by
      unfold retNum
      rw [hrand]
    have hfresh : Fresh c e' en ↔ Fresh c e en := by
      unfold Fresh
      rw [hnow]
    have hquiet : Quiet e' en ↔ Quiet e en := by
      unfold Quiet
      rw [hnow]
    have hlow : Low c e' en reqNum ↔ Low c e en reqNum := by
      unfold Low
      rw [hret]
    have hcode : code c e' en reqNum = code c e en reqNum := by
      unfold code
      simp only [hfresh, hquiet, hlow]
    have h' : NotReread c uid t (reqNum, e') := by
      intro en' hu' hf'
      rw [hu] at hu'
      cases hu'
      obtain ⟨hr, hq⟩ := h en hu (hfresh.mp hf')
      exact ⟨hr, fun hl => hquiet.mpr (hq (hlow.mp hl))⟩
    obtain ⟨en', lst, hg, -⟩ := get_code ht hu h'
    rw [hcode] at hg
    exact ⟨_, lst, hg⟩

/-! ### Stored entries -/

theorem Table.Stored.wf {c : Config} {t : Table} (h : t.Stored c) : t.Wf c :=
  fun uid en hu => (h uid en hu).1

theorem stored_get {c : Config} {e : Env} {uid : Uid} {t t' : Table} {reqNum : ℤ} {r : Reply}
    (ht : t.Stored c) (h : get c e t uid reqNum = some (t', r)) : t'.Stored c := by
  intro v en' hv
  refine ⟨CacheBounds.get_wf ht.wf h v en' hv, ?_⟩
  cases hu : t uid with
  | none =>
    rw [get_absent c e reqNum hu] at h
    cases h
    exact (ht v en' hv).2
  | some en => exact (ht uid en hu).2

theorem stored_put {c : Config} {e : Env} {uid : Uid} {t t' : Table} {lst : List DocId}
    {num ret : ℤ} (ht : t.Stored c) (hn : num ≤ c.cacheCount)
    (h : put c e t uid lst num = some (t', ret)) : t'.Stored c := by
  intro v en' hv
  refine ⟨CacheBounds.put_wf ht.wf hn h v en' hv, ?_⟩
  simp only [put, Option.bind_eq_bind, Option.bind_eq_some_iff] at h
  obtain ⟨ids, -, stored, hstored, -⟩ := h
  unfold storeIds at hstored
  split at hstored
  next hroom => exact ⟨hroom.2.1, hroom.2.2⟩
  next => cases hstored

/-- What the queries and refills of the center leave in an empty table is stored. -/
theorem stored_of_run {F : Type*} {k : CacheBounds.Config F} {t : Table}
    {evs : List (CacheBounds.Event F)} {rs : List Reply}
    (h : run (CacheBounds.step k) (fun _ => none) evs = some (t, rs)) : t.Stored k.cache := by
  refine run_invariant (I := fun _ t => Table.Stored k.cache t) ?_ (by intro uid en hu; cases hu) h
  intro _ s ev s' r hs hstep
  cases ev with
  | query uid requestNum e => exact stored_get hs hstep
  | refill uid fr cr e =>
    obtain ⟨t₁, h₁, heq⟩ := Option.map_eq_some_iff.mp hstep
    cases heq
    unfold Refill.refill at h₁
    split at h₁
    · cases h₁
      exact hs
    · simp only [Option.bind_eq_bind, Option.bind_eq_some_iff] at h₁
      obtain ⟨⟨lst, n⟩, hl, ⟨t₂, ret⟩, hp, h₁⟩ := h₁
      cases h₁
      obtain ⟨-, -, -, hn, -⟩ := Refill.refillList_spec hl
      exact stored_put hs (hn ▸ (Refill.requestCount_le _ _).1) hp

/-! ### Runs -/

/-- Readings of a clock that does not go back, none before `now`. -/
def Later (now : ℤ) (gets : List (ℤ × Env)) : Prop := ∀ g ∈ gets, now ≤ g.2.now

/-- After a request at `now` the others come more than a minute later. -/
theorem asks_later {c : Config} {uid : Uid} {t t' : Table} {gets : List (ℤ × Env)}
    {rs : List Reply} (ht : t.Stored c) {en : Entry} (hu : t uid = some en) {now : ℤ}
    (hstm : en.stm = toInt32 now) (hlater : Later now gets)
    (hclock : gets.Pairwise fun g g' => g.2.now ≤ g'.2.now)
    (halong : Along (getStep c uid) (NotReread c uid) t gets)
    (h : run (getStep c uid) t gets = some (t', rs)) :
    ∀ p ∈ gets.zip rs, Asks p.2.ret → now + 60 < p.1.2.now := by
  induction gets generalizing t rs en with
  | nil => simp
  | cons g gets ih =>
    obtain ⟨t₁, r, rs, hs, hr, rfl⟩ := run_cons_iff.mp h
    obtain ⟨reqNum, e⟩ := g
    obtain ⟨en₁, lst, hg, hstm₁⟩ := get_code ht hu halong.1
    cases hs.symm.trans hg
    have hnow : now ≤ e.now := hlater (reqNum, e) (by simp)
    have hclock' := List.pairwise_cons.mp hclock
    have hfirst : Asks (code c e en reqNum) → now + 60 < e.now := by
      intro ha
      have hq : toInt32 (toInt32 e.now - en.stm) > 60 := quiet_of_asks hu halong.1 ha
      rw [hstm] at hq
      by_contra hn
      have hd : toInt32 (toInt32 e.now - toInt32 now) = e.now - now := by
        rw [toInt32_sub_toInt32]
        exact toInt32_eq (by omega) (by omega)
      omega
    intro p hp
    rw [List.zip_cons_cons, List.mem_cons] at hp
    rcases hp with rfl | hp
    · exact hfirst
    · by_cases ha : Asks (code c e en reqNum)
      · -- the request comes first and all others are not earlier
        intro _
        have := hfirst ha
        have hle : e.now ≤ p.1.2.now := hclock'.1 p.1 (List.of_mem_zip hp).1
        omega
      · rw [if_neg ha, hstm] at hstm₁
        exact ih (stored_get ht hs) (Function.update_self _ _ _) hstm₁
          (fun g hg => hlater g (by simp [hg])) hclock'.2 (halong.2 _ _ hs) hr p hp

theorem spaced {c : Config} {uid : Uid} {t t' : Table} {gets : List (ℤ × Env)} {rs : List Reply}
    (ht : t.Stored c) (hclock : gets.Pairwise fun g g' => g.2.now ≤ g'.2.now)
    (halong : Along (getStep c uid) (NotReread c uid) t gets)
    (h : run (getStep c uid) t gets = some (t', rs)) : Spaced gets rs := by
  induction gets generalizing t rs with
  | nil => simp [Spaced]
  | cons g gets ih =>
    obtain ⟨t₁, r, rs, hs, hr, rfl⟩ := run_cons_iff.mp h
    obtain ⟨reqNum, e⟩ := g
    have hclock' := List.pairwise_cons.mp hclock
    refine List.pairwise_cons.mpr ⟨?_, ih (stored_get ht hs) hclock'.2 (halong.2 _ _ hs) hr⟩
    intro p hp ha
    cases hu : t uid with
    | none =>
      have hg : getStep c uid t (reqNum, e) = some (t, ⟨-1, []⟩) := get_absent c e reqNum hu
      cases hs.symm.trans hg
      exact absurd ha (by simp [Asks])
    | some en =>
      obtain ⟨en₁, lst, hg, hstm⟩ := get_code ht hu halong.1
      cases hs.symm.trans hg
      rw [if_pos ha] at hstm
      exact asks_later (stored_get ht hs) (Function.update_self _ _ _) hstm
        (fun g hg => hclock'.1 g hg) hclock'.2 (halong.2 _ _ hs) hr p hp

/-- Under a clock that does not go back, every `get` of a run has its code and the
refill requests are spaced exactly when no `get` asks for a negative number or reads
a low entry again within the minute. -/
theorem throttled_iff {c : Config} {uid : Uid} {t : Table} (ht : t.Stored c)
    {gets : List (ℤ × Env)} (hclock : gets.Pairwise fun g g' => g.2.now ≤ g'.2.now) :
    Throttled c uid t gets ↔ Along (getStep c uid) (NotReread c uid) t gets := by
  have hcodes : Along (getStep c uid) (HasCode c uid) t gets ↔
      Along (getStep c uid) (NotReread c uid) t gets :=
    along_iff (I := Table.Stored c) (fun _ _ _ _ hs _ h => stored_get hs h)
      (fun _ g hs => hasCode_iff hs g) gets ht
  constructor
  · exact fun h => hcodes.mp h.1
  · exact fun h => ⟨hcodes.mpr h, fun _ _ hr => spaced ht hclock h hr⟩

/-- Room for four ids, of which user 7 has three left since second 1000; at most five
are low. -/
def lowConfig : Config := ⟨4, 5, 3600⟩

def lowTable : Table := Function.update (fun _ => none) 7 (some ⟨0, 1000, 3, [31, 32, 33, 0]⟩)

theorem lowTable_stored : lowTable.Stored lowConfig := by
  intro uid en hu
  unfold lowTable at hu
  by_cases h : uid = 7
  · subst h
    rw [Function.update_self] at hu
    cases hu
    exact ⟨⟨by decide, by decide, by decide⟩, ⟨by decide, by decide⟩⟩
  · rw [Function.update_of_ne h] at hu
    cases hu

/-- Two requests, 70 seconds apart, and a third one when the entry has expired. -/
theorem throttled_iff_example :
    Throttled lowConfig 7 lowTable [(1, ⟨1060, 0, fun _ => 0, 0⟩), (1, ⟨1130, 0, fun _ => 0, 0⟩),
      (1, ⟨5000, 0, fun _ => 0, 0⟩), (1, ⟨5010, 0, fun _ => 0, 0⟩)] :=
  (throttled_iff lowTable_stored (by decide)).mpr (by decide)

/-- A second `get` after 30 seconds returns whatever `is_flush` was before. -/
theorem reread_not_throttled :
    ¬ Throttled lowConfig 7 lowTable
      [(1, ⟨1060, 0, fun _ => 0, 0⟩), (1, ⟨1090, 0, fun _ => 0, 0⟩)] := by
  rintro ⟨⟨-, h⟩, -⟩
  have hfirst : getStep lowConfig 7 lowTable (1, ⟨1060, 0, fun _ => 0, 0⟩) =
      some (Function.update lowTable 7 (some ⟨1060, 1000, 2, [32, 33, 0, 0]⟩), ⟨1, [31]⟩) := by
    rfl
  have hu : Function.update lowTable 7 (some ⟨1060, 1000, 2, [32, 33, 0, 0]⟩) 7 =
      some (⟨1060, 1000, 2, [32, 33, 0, 0]⟩ : Entry) := Function.update_self _ _ _
  obtain ⟨ret, hall, -⟩ := (h _ _ hfirst).1 _ hu
  obtain ⟨t', lst, hg⟩ := hall ⟨1090, 0, fun _ => 0, ret + 1⟩ rfl rfl
  have hfresh : Fresh lowConfig ⟨1090, 0, fun _ => 0, ret + 1⟩ ⟨1060, 1000, 2, [32, 33, 0, 0]⟩ :=
    (by decide : toInt32 (toInt32 1090 - 1000) < 3600)
  have hlow : Low lowConfig ⟨1090, 0, fun _ => 0, ret + 1⟩ ⟨1060, 1000, 2, [32, 33, 0, 0]⟩ 1 :=
    (by decide : 2 - retNum ⟨1090, 0, fun _ => 0, 0⟩ 1 2 ≤ 5)
  have hquiet : ¬ Quiet ⟨1090, 0, fun _ => 0, ret + 1⟩ ⟨1060, 1000, 2, [32, 33, 0, 0]⟩ :=
    (by decide : ¬ toInt32 (toInt32 1090 - 1060) > 60)
  have hstale : ret = ret + 1 := get_stale hu hfresh hlow hquiet hg
  omega

end PrimaryElection.Framework.Cache
