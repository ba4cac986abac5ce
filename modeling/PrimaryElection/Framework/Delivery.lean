import PrimaryElection.Framework.CacheBounds

/-! Deliveries to one user under any interleaving of client queries, process_query
of a task, and refills, process_query(uid, log) of the flush workers. A query holds
the user's flag from its `get` to the end of its feedback. A refill asks the filter
service without the flag and takes the flag only to put its list, so queries may
hand out ids in between. -/

namespace PrimaryElection.Framework.Delivery

open Runs Cache CacheBounds

variable {F : Type*}

/-- Who holds the user's flag and how far it has come. -/
inductive Holder where
  | free
  | asking (requestNum : ℤ)
  | answering (r : Reply)
  | fed (ret : ℤ)
  | refilling (w : ℕ)
  | leaving

/-- A flush worker: idle, with a user to refill, with a reply of the filter service,
with a list to put. `acked` are the ids acknowledged when it asked the service. -/
inductive Job (F : Type*) where
  | idle
  | popped
  | replied (acked : List DocId) (r : Refill.FilterReply F)
  | ranked (acked : List DocId) (lst : List DocId) (num : ℤ)

/-- The cache, the user's entries in m_flushCache, the ids whose feedback the filter
service has acknowledged, and the ids delivered so far. -/
structure Sys (F : Type*) where
  table : Table
  flush : ℕ
  acked : List DocId
  delivered : List DocId
  holder : Holder
  jobs : ℕ → Job F

def Sys.start (t : Table) (acked : List DocId) : Sys F :=
  ⟨t, 0, acked, [], .free, fun _ => .idle⟩

inductive Label (F : Type*) where
  | add (requestNum : ℤ)
  | get (e : Env)
  | feedback
  | push
  | pop (w : ℕ)
  | filter (w : ℕ) (r : Refill.FilterReply F)
  | rank (w : ℕ) (c : Refill.CalcReply F)
  | abandon (w : ℕ)
  | addRefill (w : ℕ)
  | put (w : ℕ) (e : Env)
  | del

def answered (r : Reply) : List DocId := if r.ret = 1 ∨ r.ret = 2 then r.lst else []

/-- The codes of `get` that ask for a refill. -/
def isCacheFlush (ret : ℤ) : Bool := ret < 0 ∨ ret = 1 ∨ ret = 3

/-- One atomic operation of a query or of a flush worker. The observation is what
it delivers. -/
def step (k : CacheBounds.Config F) (uid : Uid) (s : Sys F) :
    Label F → Option (Sys F × List DocId)
  | .add requestNum =>
    match s.holder with
    | .free => some ({ s with holder := .asking (cappedRequest requestNum) }, [])
    | _ => none
  | .get e =>
    match s.holder with
    | .asking reqNum => (Cache.get k.cache e s.table uid reqNum).map fun g =>
        ({ s with
          table := g.1
          delivered := s.delivered ++ answered g.2
          holder := .answering g.2 }, answered g.2)
    | _ => none
  | .feedback =>
    match s.holder with
    | .answering r => some ({ s with acked := s.acked ++ r.lst, holder := .fed r.ret }, [])
    | _ => none
  | .push =>
    match s.holder with
    | .fed ret =>
      some ({ s with flush := s.flush + (isCacheFlush ret).toNat, holder := .leaving }, [])
    | _ => none
  | .pop w =>
    match s.jobs w with
    | .idle =>
      if s.flush = 0 then none
      else some ({ s with flush := s.flush - 1, jobs := Function.update s.jobs w .popped }, [])
    | _ => none
  | .filter w r =>
    match s.jobs w with
    | .popped => some ({ s with jobs := Function.update s.jobs w (.replied s.acked r) }, [])
    | _ => none
  | .rank w c =>
    match s.jobs w with
    | .replied acked r =>
      if r.did = [] then none
      else (Refill.refillList k.floats k.refill r c).map fun q =>
        ({ s with jobs := Function.update s.jobs w (.ranked acked q.1 q.2) }, [])
    | _ => none
  -- an empty reply and a failure of the algorithm machines end the refill
  | .abandon w =>
    match s.jobs w with
    | .replied _ _ => some ({ s with jobs := Function.update s.jobs w .idle }, [])
    | _ => none
  | .addRefill w =>
    match s.holder, s.jobs w with
    | .free, .ranked _ _ _ => some ({ s with holder := .refilling w }, [])
    | _, _ => none
  | .put w e =>
    match s.holder, s.jobs w with
    | .refilling v, .ranked _ lst num =>
      if v = w then (Cache.put k.cache e s.table uid lst num).map fun p =>
        ({ s with table := p.1, holder := .leaving, jobs := Function.update s.jobs w .idle }, [])
      else none
    | _, _ => none
  | .del =>
    match s.holder with
    | .leaving => some ({ s with holder := .free }, [])
    | _ => none

/-- What is assumed of clients and of the filter service: requests are not negative,
and a reply repeats no id and contains none that is acknowledged. -/
def Assumed (s : Sys F) : Label F → Prop
  | .add requestNum => 0 ≤ requestNum
  | .filter _ r => r.did.Nodup ∧ ∀ d ∈ r.did, d ∉ s.acked
  | _ => True

/-- A list that is put contains no id that was delivered but not yet acknowledged
when the refill asked the filter service, or delivered since then. -/
def Current (s : Sys F) : Label F → Prop
  | .put w _ =>
    match s.jobs w with
    | .ranked acked lst _ => ∀ d ∈ lst, d ∈ s.delivered → d ∈ acked
    | _ => True
  | _ => True

instance (s : Sys F) (l : Label F) : Decidable (Assumed s l) :=
  match l with
  | .add requestNum => inferInstanceAs (Decidable (0 ≤ requestNum))
  | .filter _ r =>
    have := List.decidableBAll (fun d => d ∉ s.acked) r.did
    inferInstanceAs (Decidable (r.did.Nodup ∧ ∀ d ∈ r.did, d ∉ s.acked))
  | .get _ | .feedback | .push | .pop _ | .rank _ _ | .abandon _ | .addRefill _ | .put _ _ | .del =>
    isTrue trivial

instance (s : Sys F) (l : Label F) : Decidable (Current s l) :=
  match l with
  | .put w _ =>
    match h : s.jobs w with
    | .ranked acked lst _ =>
      have := List.decidableBAll (fun d => d ∈ s.delivered → d ∈ acked) lst
      decidable_of_iff (∀ d ∈ lst, d ∈ s.delivered → d ∈ acked) (by simp only [Current, h])
    | .idle | .popped | .replied _ _ => isTrue (by simp only [Current, h])
  | .get _ | .feedback | .push | .pop _ | .rank _ _ | .abandon _ | .addRefill _ | .filter _ _
  | .add _ | .del => isTrue trivial

/-! ### The invariant -/

/-- What a worker carries: ids without repetition, none acknowledged before it asked. -/
def Job.Ok (c : Cache.Config) : Job F → Prop
  | .replied acked r => r.did.Nodup ∧ ∀ d ∈ r.did, d ∉ acked
  | .ranked acked lst num =>
    lst.Nodup ∧ (∀ d ∈ lst, d ∉ acked) ∧ num = lst.length ∧ num ≤ c.cacheCount
  | _ => True

/-- No id is delivered or pending twice, and the request in progress is not negative. -/
structure Inv (k : CacheBounds.Config F) (uid : Uid) (s : Sys F) : Prop where
  wf : s.table.Wf k.cache
  nodup : (s.delivered ++ s.table.pending uid).Nodup
  jobs : ∀ w, (s.jobs w).Ok k.cache
  request : ∀ reqNum, s.holder = .asking reqNum → 0 ≤ reqNum

theorem inv_start {k : CacheBounds.Config F} {uid : Uid} {t : Table} (ht : t.Wf k.cache)
    (hn : (t.pending uid).Nodup) (acked : List DocId) : Inv k uid (Sys.start t acked : Sys F) :=
  ⟨ht, by simpa [Sys.start] using hn, fun _ => trivial, fun _ h => nomatch h⟩

theorem jobs_update {c : Cache.Config} {jobs : ℕ → Job F} (h : ∀ v, (jobs v).Ok c) (w : ℕ) {j : Job F}
    (hj : j.Ok c) (v : ℕ) : (Function.update jobs w j v).Ok c := by
  by_cases hv : v = w
  · subst hv
    rwa [Function.update_self]
  · rw [Function.update_of_ne hv]
    exact h v

/-- A `get` moves ids from pending to handed out, or drops what is pending. -/
theorem get_pending {c : Cache.Config} (hc : c.Sized) (uid : Uid) {t t' : Table} (ht : t.Wf c)
    {reqNum : ℤ} (hr : 0 ≤ reqNum) {e : Env} {r : Reply}
    (h : Cache.get c e t uid reqNum = some (t', r)) :
    t'.Wf c ∧ (r.lst ++ t'.pending uid).Sublist (t.pending uid) := by
  obtain ⟨t₁, r₁, op, hg, hw, hop, -⟩ := get_refines hc uid ht hr e
  cases h.symm.trans hg
  exact ⟨hw, Chunks.step_sublist hop⟩

theorem answered_sublist (r : Reply) : (answered r).Sublist r.lst := by
  unfold answered
  split_ifs
  · exact List.Sublist.refl _
  · exact List.nil_sublist _

theorem inv_get {k : CacheBounds.Config F} (hc : k.cache.Sized) {uid : Uid} {s s' : Sys F} {e : Env}
    {out : List DocId} (h : Inv k uid s) (hs : step k uid s (.get e) = some (s', out)) :
    Inv k uid s' ∧ s'.delivered = s.delivered ++ out := by
  cases hh : s.holder with
  | asking reqNum =>
    simp only [step, hh, Option.map_eq_some_iff] at hs
    obtain ⟨⟨t', r⟩, hg, heq⟩ := hs
    cases heq
    obtain ⟨hw, hsub⟩ := get_pending hc uid h.wf (h.request reqNum hh) hg
    refine ⟨⟨hw, ?_, h.jobs, fun _ hn => nomatch hn⟩, rfl⟩
    rw [List.append_assoc]
    have hans := ((answered_sublist r).append_right (t'.pending uid)).trans hsub
    exact h.nodup.sublist (hans.append_left s.delivered)
  | _ => simp [step, hh] at hs

theorem inv_put {k : CacheBounds.Config F} (hc : k.cache.Sized) {uid : Uid} {s s' : Sys F} {w : ℕ}
    {e : Env} {out : List DocId} (h : Inv k uid s) (hcur : Current s (.put w e))
    (hs : step k uid s (.put w e) = some (s', out)) :
    Inv k uid s' ∧ s'.delivered = s.delivered ++ out := by
  cases hh : s.holder with
  | refilling v =>
    cases hj : s.jobs w with
    | ranked acked lst num =>
      simp only [step, hh, hj] at hs
      split at hs
      · obtain ⟨⟨t', ret⟩, hp, heq⟩ := Option.map_eq_some_iff.mp hs
        cases heq
        have hok := h.jobs w
        rw [hj] at hok
        simp only [Current, hj] at hcur
        obtain ⟨hnd, hack, rfl, hle⟩ := hok
        obtain ⟨t₁, ret₁, hp₁, hw, hpend⟩ := put_refines hc uid h.wf hle e
        cases hp.symm.trans hp₁
        refine ⟨⟨hw, ?_, ?_, fun _ hn => nomatch hn⟩, by simp⟩
        · rw [hpend, List.nodup_append']
          refine ⟨h.nodup.of_append_left, hnd, fun d hd hl => ?_⟩
          exact hack d hl (hcur d hl hd)
        · exact jobs_update h.jobs w trivial
      · cases hs
    | _ => simp [step, hh, hj] at hs
  | _ => simp [step, hh] at hs

theorem inv_rank {k : CacheBounds.Config F} {uid : Uid} {s s' : Sys F} {w : ℕ}
    {c : Refill.CalcReply F} {out : List DocId} (hc : k.cache.Sized) (h : Inv k uid s)
    (hs : step k uid s (.rank w c) = some (s', out)) :
    Inv k uid s' ∧ s'.delivered = s.delivered ++ out := by
  cases hj : s.jobs w with
  | replied acked r =>
    simp only [step, hj] at hs
    split at hs
    · cases hs
    · obtain ⟨⟨lst, num⟩, hl, heq⟩ := Option.map_eq_some_iff.mp hs
      cases heq
      have hok := h.jobs w
      rw [hj] at hok
      have hlen := Refill.refillList_length hl
      obtain ⟨-, -, -, hnum, -⟩ := Refill.refillList_spec hl
      have hle := (Refill.requestCount_le k.refill.cacheSavecount r.did.length).1
      have hpos : 0 ≤ num := by
        have := hc.nonneg
        rw [hnum, Refill.requestCount]
        split_ifs
        · omega
        · exact this
      have hcount : num = lst.length := by omega
      refine ⟨⟨h.wf, h.nodup, jobs_update h.jobs w ?_, h.request⟩, by simp⟩
      exact ⟨Refill.refillList_nodup hl hok.1, fun d hd => hok.2 d (Refill.refillList_mem hl hd),
        hcount, by rw [hnum]; exact hle⟩
  | _ => simp [step, hj] at hs

theorem inv_step {k : CacheBounds.Config F} (hc : k.cache.Sized) {uid : Uid} {s s' : Sys F}
    {l : Label F} {out : List DocId} (h : Inv k uid s) (ha : Assumed s l) (hcur : Current s l)
    (hs : step k uid s l = some (s', out)) :
    Inv k uid s' ∧ s'.delivered = s.delivered ++ out := by
  cases l with
  | get e => exact inv_get hc h hs
  | put w e => exact inv_put hc h hcur hs
  | rank w c => exact inv_rank hc h hs
  | add requestNum =>
    simp only [step] at hs
    split at hs
    · cases hs
      refine ⟨⟨h.wf, h.nodup, h.jobs, fun reqNum hn => ?_⟩, by simp⟩
      cases hn
      exact cappedRequest_nonneg.mpr ha
    · cases hs
  -- these change who holds the flag, not the cache
  | feedback | push | del | addRefill w =>
    simp only [step] at hs
    split at hs
    · cases hs
      exact ⟨⟨h.wf, h.nodup, h.jobs, fun _ hn => nomatch hn⟩, by simp⟩
    · cases hs
  -- these change what a worker carries
  | pop w =>
    simp only [step] at hs
    split at hs
    · split at hs
      · cases hs
      · cases hs
        exact ⟨⟨h.wf, h.nodup, jobs_update h.jobs w trivial, h.request⟩, by simp⟩
    · cases hs
  | filter w r =>
    simp only [step] at hs
    split at hs
    · cases hs
      exact ⟨⟨h.wf, h.nodup, jobs_update h.jobs w ha, h.request⟩, by simp⟩
    · cases hs
  | abandon w =>
    simp only [step] at hs
    split at hs
    · cases hs
      exact ⟨⟨h.wf, h.nodup, jobs_update h.jobs w trivial, h.request⟩, by simp⟩
    · cases hs

/-- In every interleaving whose refills put current lists only, no id is delivered
twice. -/
theorem delivered_once {k : CacheBounds.Config F} (hc : k.cache.Sized) (uid : Uid) {t : Table}
    (ht : t.Wf k.cache) (hn : (t.pending uid).Nodup) (acked : List DocId) {ls : List (Label F)}
    (ha : Along (step k uid) Assumed (Sys.start t acked) ls)
    (hcur : Along (step k uid) Current (Sys.start t acked) ls) {s : Sys F}
    {outs : List (List DocId)} (hr : run (step k uid) (Sys.start t acked) ls = some (s, outs)) :
    outs.flatten.Nodup := by
  have hi : Inv k uid s ∧ s.delivered = outs.flatten :=
    run_invariant_along (P := fun s l => Assumed s l ∧ Current s l)
      (I := fun outs s => Inv k uid s ∧ s.delivered = outs.flatten)
      (fun os s l s' out hi hp hs => by
        obtain ⟨hi', hd⟩ := inv_step hc hi.1 hp.1 hp.2 hs
        exact ⟨hi', by rw [hd, hi.2, List.flatten_append]; simp⟩)
      (ha.and hcur) ⟨inv_start ht hn acked, rfl⟩ hr
  rw [← hi.2]
  exact hi.1.nodup.of_append_left

/-! ### Runs on fixed inputs -/

def compute (w : ℕ) : List (Label ℤ) := [.pop w, .filter w twoDocs, .rank w ⟨2, [0, 0]⟩]

def putAt (w : ℕ) (now : ℤ) : List (Label ℤ) :=
  [.addRefill w, .put w ⟨now, 0, fun _ => 0, 0⟩, .del]

def queryAt (now : ℤ) : List (Label ℤ) :=
  [.add 3, .get ⟨now, 0, fun _ => 0, 0⟩, .feedback, .push, .del]

/-- A query, the refill it asks for, and a query that delivers its list. -/
theorem delivered_once_sequential : ∃ s outs,
    run (step smallConfig 7) (Sys.start (fun _ => none) [])
      (queryAt 1000 ++ compute 0 ++ putAt 0 1010 ++ queryAt 1020) = some (s, outs) ∧
    outs.flatten = [32, 31] ∧ outs.flatten.Nodup := by
  refine ⟨_, _, rfl, rfl, ?_⟩
  have hr : run (step smallConfig 7) (Sys.start (fun _ => none) [])
      (queryAt 1000 ++ compute 0 ++ putAt 0 1010 ++ queryAt 1020) = _ := rfl
  exact delivered_once (k := smallConfig) ⟨by decide, by decide⟩ 7 (empty_wf _) (by decide) []
    (by decide) (by decide) hr

/-- Two queries find no entry and ask for a refill each; both workers ask the filter
service before the first list is put. The list of the second one brings back what
was delivered from the first. -/
theorem overlapping_refills_deliver_twice : ∃ s outs,
    run (step smallConfig 7) (Sys.start (fun _ => none) [])
      (queryAt 1000 ++ queryAt 1001 ++ compute 0 ++ compute 1 ++ putAt 0 1010 ++
        queryAt 1020 ++ putAt 1 1030 ++ queryAt 1040) = some (s, outs) ∧
    Along (step smallConfig 7) Assumed (Sys.start (fun _ => none) [])
      (queryAt 1000 ++ queryAt 1001 ++ compute 0 ++ compute 1 ++ putAt 0 1010 ++
        queryAt 1020 ++ putAt 1 1030 ++ queryAt 1040) ∧
    outs.flatten = [32, 31, 32, 31] ∧ ¬ outs.flatten.Nodup :=
  ⟨_, _, rfl, by decide, rfl, by decide⟩

end PrimaryElection.Framework.Delivery
