import PrimaryElection.Framework.Cache

/-! Delivery from the cached list of one user. Between two `put` calls the `get`
calls refine a list handed out in chunks: a fresh entry hands out its next chunk,
an expired entry drops what is left. -/

namespace PrimaryElection.Framework.Cache

open Runs

/-- A call on the cache. `put` is given a list and its length. -/
inductive Call where
  | get (reqNum : ℤ) (e : Env)
  | put (lst : List DocId) (e : Env)

/-- The arguments the callers may pass: a request that is not negative, a list not
longer than the saved count. -/
def Call.Admissible (c : Config) : Call → Prop
  | .get reqNum _ => 0 ≤ reqNum
  | .put lst _ => (lst.length : ℤ) ≤ c.cacheCount

/-- One call for `uid`. A `put` copies no ids out. -/
def step (c : Config) (uid : Uid) (t : Table) : Call → Option (Table × Reply)
  | .get reqNum e => get c e t uid reqNum
  | .put lst e => (put c e t uid lst lst.length).map fun r => (r.1, ⟨r.2, []⟩)

def getCall (g : ℤ × Env) : Call := .get g.1 g.2

def FindsExpired (c : Config) (uid : Uid) (t : Table) (e : Env) : Prop :=
  ∃ en, t uid = some en ∧ ¬ Fresh c e en

/-- A `get` that does not find the entry expired hands out `retNum` of the ids that are left and
keeps the others. -/
def Counted (c : Config) (uid : Uid) (t t' : Table) (g : ℤ × Env) (r : Reply) : Prop :=
  ¬ FindsExpired c uid t g.2 →
    (r.lst.length : ℤ) = retNum g.2 g.1 (t.pending uid).length ∧
      t.pending uid = r.lst ++ t'.pending uid

/-- One `get` is one step of the queue of pending ids. -/
theorem get_refines {c : Config} (hc : c.Sized) (uid : Uid) {t : Table} (ht : t.Wf c) {reqNum : ℤ}
    (hr : 0 ≤ reqNum) (e : Env) :
    ∃ t' r op, get c e t uid reqNum = some (t', r) ∧ t'.Wf c ∧
      Chunks.step (t.pending uid) op = some (t'.pending uid, r.lst) ∧
      (FindsExpired c uid t e → t'.pending uid = [] ∧ r.lst = []) ∧ Counted c uid t t' (reqNum, e) r := by
  cases hu : t uid with
  | none =>
    have hnil : t.pending uid = [] := by simp [Table.pending, hu]
    refine ⟨t, ⟨-1, []⟩, .hand 0, get_absent c e reqNum hu, ht, rfl, ?_, fun _ => ?_⟩
    · rintro ⟨en, hen, -⟩
      rw [hu] at hen
      cases hen
    · have hle := retNum_le_num e reqNum 0
      have hpos := retNum_nonneg e hr le_rfl
      rw [hnil]
      exact ⟨le_antisymm hpos hle, rfl⟩
  | some en =>
    by_cases hf : Fresh c e en
    · obtain ⟨en', ret, hg, hw, -, hp⟩ := get_fresh hc hu (ht uid en hu) hf hr
      refine ⟨_, _, .hand (retNum e reqNum en.num).toNat, hg, wf_update ht uid hw, ?_, ?_, fun _ => ?_⟩
      · rw [Chunks.step, pending_update, hp, pending_some hu]
      · rintro ⟨en₁, hen, hx⟩
        rw [hu] at hen
        cases hen
        exact absurd hf hx
      · have hlen := (ht uid en hu).pending_length
        have hle := retNum_le_num e reqNum en.num
        have hpos := retNum_nonneg e hr (ht uid en hu).num_nonneg
        rw [pending_update, hp, pending_some hu, List.take_append_drop, List.length_take, hlen]
        dsimp only
        exact ⟨by omega, rfl⟩
    · obtain ⟨en', ret, hg, hw, hp⟩ := get_expired hc hu hf reqNum
      refine ⟨_, _, .drop, hg, wf_update ht uid hw, ?_, fun _ => ⟨?_, rfl⟩, fun hx => absurd ⟨en, hu, hf⟩ hx⟩
      · rw [Chunks.step, pending_update, hp]
      · rw [pending_update, hp]

theorem put_refines {c : Config} (hc : c.Sized) (uid : Uid) {t : Table} (ht : t.Wf c)
    {lst : List DocId} (hl : (lst.length : ℤ) ≤ c.cacheCount) (e : Env) :
    ∃ t' ret, put c e t uid lst lst.length = some (t', ret) ∧ t'.Wf c ∧ t'.pending uid = lst := by
  obtain ⟨en, ret, hp, hw, -, hpend⟩ := put_some hc e t uid (Int.natCast_nonneg _) le_rfl hl
  refine ⟨_, ret, hp, wf_update ht uid hw, ?_⟩
  rw [pending_update, hpend, Int.toNat_natCast, List.take_length]

theorem step_some {c : Config} (hc : c.Sized) {uid : Uid} {t : Table} (ht : t.Wf c) {a : Call}
    (ha : a.Admissible c) : ∃ t' r, step c uid t a = some (t', r) ∧ t'.Wf c := by
  cases a with
  | get reqNum e =>
    obtain ⟨t', r, op, hg, hw, -⟩ := get_refines hc uid ht ha e
    exact ⟨t', r, hg, hw⟩
  | put lst e =>
    obtain ⟨t', ret, hp, hw, -⟩ := put_refines hc uid ht ha e
    exact ⟨t', ⟨ret, []⟩, by simp [step, hp], hw⟩

theorem along_of_admissible {c : Config} {uid : Uid} {calls : List Call}
    (h : ∀ a ∈ calls, a.Admissible c) (t : Table) :
    Along (step c uid) (fun _ a => a.Admissible c) t calls := by
  induction calls generalizing t with
  | nil => trivial
  | cons a as ih =>
    exact ⟨h a (by simp), fun t' _ _ => ih (fun b hb => h b (by simp [hb])) t'⟩

theorem run_some {c : Config} (hc : c.Sized) (uid : Uid) {t : Table} (ht : t.Wf c)
    (calls : List Call) (h : ∀ a ∈ calls, a.Admissible c) :
    ∃ t' rs, run (step c uid) t calls = some (t', rs) ∧ t'.Wf c :=
  run_some_along (I := Table.Wf c) (fun _ _ hs ha => step_some hc hs ha)
    (along_of_admissible h t) ht

/-- A run of `get` calls is a run of the queue of pending ids, with the same lists
handed out. -/
theorem gets_refine {c : Config} (hc : c.Sized) {uid : Uid} {t t' : Table} (ht : t.Wf c)
    {gets : List (ℤ × Env)} (hg : ∀ g ∈ gets, 0 ≤ g.1) {rs : List Reply}
    (h : run (step c uid) t (gets.map getCall) = some (t', rs)) :
    ∃ ops, run Chunks.step (t.pending uid) ops = some (t'.pending uid, rs.map Reply.lst) := by
  induction gets generalizing t rs with
  | nil => cases h; exact ⟨[], rfl⟩
  | cons g gets ih =>
    obtain ⟨u, r, rs', hs, hr, rfl⟩ := run_cons_iff.mp h
    obtain ⟨u', r', op, hg', hw, hop, -, -⟩ := get_refines hc uid ht (hg g (by simp)) g.2
    cases hs.symm.trans hg'
    obtain ⟨ops, hops⟩ := ih hw (fun q hq => hg q (by simp [hq])) hr
    exact ⟨op :: ops, run_cons_iff.mpr ⟨_, _, _, hop, hops, rfl⟩⟩

/-- The replies to `gets` hand out `lst` in order: their lists form a prefix of it,
each is the piece that follows the ones before it, of as many ids as the draw, the request
and what is left allow, and nothing is handed out from an expired entry on. -/
structure InOrder (c : Config) (uid : Uid) (lst : List DocId) (t : Table)
    (gets : List (ℤ × Env)) (replies : List Reply) : Prop where
  handed : replies.flatMap Reply.lst <+: lst
  chunk : ∀ gs₁ g gs₂, gets = gs₁ ++ g :: gs₂ → ∃ t' rs₁ t'' r rs₂, replies = rs₁ ++ r :: rs₂ ∧
    run (step c uid) t (gs₁.map getCall) = some (t', rs₁) ∧ get c g.2 t' uid g.1 = some (t'', r) ∧
    Chunks.NextChunk lst (rs₁.flatMap Reply.lst).length r.lst ∧ Counted c uid t' t'' g r ∧
    (FindsExpired c uid t' g.2 → r.lst = [] ∧ ∀ q ∈ rs₂, q.lst = [])

theorem flatMap_lst (rs : List Reply) : rs.flatMap Reply.lst = (rs.map Reply.lst).flatten :=
  List.flatMap_def

theorem gets_inOrder {c : Config} (hc : c.Sized) {uid : Uid} {t t' : Table} (ht : t.Wf c)
    {gets : List (ℤ × Env)} (hg : ∀ g ∈ gets, 0 ≤ g.1) {rs : List Reply}
    (h : run (step c uid) t (gets.map getCall) = some (t', rs)) :
    InOrder c uid (t.pending uid) t gets rs := by
  constructor
  · obtain ⟨ops, hops⟩ := gets_refine hc ht hg h
    rw [flatMap_lst]
    exact Chunks.run_isPrefix hops
  · rintro gs₁ g gs₂ rfl
    rw [List.map_append, List.map_cons, run_append_iff] at h
    obtain ⟨t₁, rs₁, q, h₁, h₂, rfl⟩ := h
    obtain ⟨t₂, r, rs₂, hs, hr, rfl⟩ := run_cons_iff.mp h₂
    have hg₁ : ∀ q ∈ gs₁, 0 ≤ q.1 := fun q hq => hg q (by simp [hq])
    have hg₂ : ∀ q ∈ gs₂, 0 ≤ q.1 := fun q hq => hg q (by simp [hq])
    -- the entries stay well formed up to the call in question
    obtain ⟨t₁', rs₁', hrun, hw₁⟩ := run_some hc uid ht (gs₁.map getCall) (by
      intro a ha
      obtain ⟨q, hq, rfl⟩ := List.mem_map.mp ha
      exact hg₁ q hq)
    cases h₁.symm.trans hrun
    obtain ⟨ops₁, hops₁⟩ := gets_refine hc ht hg₁ h₁
    obtain ⟨t₂', r', op, hget, hw₂, hop, hexp, hcount⟩ :=
      get_refines hc uid hw₁ (hg g (by simp)) g.2
    cases hs.symm.trans hget
    have hsplit := Chunks.run_split (Chunks.split_refl _) hops₁
    rw [List.nil_append] at hsplit
    refine ⟨t₁, rs₁, t₂, r, rs₂, rfl, h₁, hget, ?_, hcount, ?_⟩
    · rw [flatMap_lst]
      exact Chunks.step_nextChunk hsplit hop
    · intro hx
      obtain ⟨hp, hl⟩ := hexp hx
      refine ⟨hl, ?_⟩
      obtain ⟨ops₂, hops₂⟩ := gets_refine hc hw₂ hg₂ hr
      rw [hp] at hops₂
      intro q hq
      exact Chunks.run_empty hops₂ q.lst (List.mem_map_of_mem hq)

/-- In every run of calls for one user, the `get` calls after a `put` and before
the next one hand out the list of that `put` in order. No call of the run copies
outside its list. -/
theorem delivery_in_order {c : Config} (hc : c.Sized) (uid : Uid) {t : Table} (ht : t.Wf c)
    {before : List Call} (hb : ∀ a ∈ before, a.Admissible c) {lst : List DocId}
    (hl : (lst.length : ℤ) ≤ c.cacheCount) (e : Env) {gets : List (ℤ × Env)}
    (hg : ∀ g ∈ gets, 0 ≤ g.1) :
    ∃ t₁ rs₁ t₂ rs₂, run (step c uid) t (before ++ [.put lst e]) = some (t₁, rs₁) ∧
      run (step c uid) t₁ (gets.map getCall) = some (t₂, rs₂) ∧
      InOrder c uid lst t₁ gets rs₂ := by
  obtain ⟨t₀, rs₀, hrun, hw₀⟩ := run_some hc uid ht before hb
  obtain ⟨t₁, ret, hput, hw₁, hpend⟩ := put_refines hc uid hw₀ hl e
  obtain ⟨t₂, rs₂, hgets, -⟩ := run_some hc uid hw₁ (gets.map getCall) (by
    intro a ha
    obtain ⟨q, hq, rfl⟩ := List.mem_map.mp ha
    exact hg q hq)
  refine ⟨t₁, rs₀ ++ [⟨ret, []⟩], t₂, rs₂, run_append_iff.mpr ⟨t₀, rs₀, [⟨ret, []⟩], hrun, ?_, rfl⟩,
    hgets, ?_⟩
  · exact run_singleton_iff.mpr ⟨⟨ret, []⟩, by simp [step, hput], rfl⟩
  · have h := gets_inOrder hc hw₁ hg hgets
    rwa [hpend] at h

/-- Three ids are put and handed out by a first `get`; the second one, a week
later, finds the entry expired. -/
theorem delivery_in_order_example :
    ∃ t₁ rs₁ t₂ rs₂,
      run (step ⟨10, 5, 3600⟩ 7) (fun _ => none) ([] ++ [.put [31, 32, 33] ⟨1000, 0, fun _ => 0, 0⟩]) =
        some (t₁, rs₁) ∧
      run (step ⟨10, 5, 3600⟩ 7) t₁ ([(2, ⟨1060, 1, fun _ => 0, 0⟩),
        (2, ⟨605800, 1, fun _ => 0, 0⟩)].map getCall) = some (t₂, rs₂) ∧
      InOrder ⟨10, 5, 3600⟩ 7 [31, 32, 33] t₁ [(2, ⟨1060, 1, fun _ => 0, 0⟩),
        (2, ⟨605800, 1, fun _ => 0, 0⟩)] rs₂ :=
  delivery_in_order (c := ⟨10, 5, 3600⟩) ⟨by decide, by decide⟩ 7 (empty_wf _) (by simp)
    (by decide) _ (by simp)

end PrimaryElection.Framework.Cache
