import PrimaryElection.Framework.FanOutRuns

/-! The bytes that `combine_task` of the query processor reads and writes, with its
assertion compiled out. The acceptance test is on 32-bit words, so a count of 2^30
more than the length allows passes it, and nothing compares the counts with each
other or with the result. -/

namespace PrimaryElection.Framework.QueryProcessor

open CInt Bytes Memory

/-- The state of the combination with the bytes of the receive buffers it has read, by
machine, and those of the result it has written. -/
structure Combining where
  firstFlg : Bool
  mem : Mem
  reads : List (ℕ × Span)
  writes : List Span

variable (ops : FloatOps) (c : CalcConfig)

/-- What an accepted reply does: the first one sets the count, each adds its powers. -/
def addReply (st : Combining) (i : ℕ) (num : ℤ) : Combining :=
  let orgBuf := c.slotBuf head i
  let resNum := c.resultBuf head + 4
  let m := if st.firstFlg then (storeInt resNum num).apply st.mem else st.mem
  { firstFlg := false
    mem := addPower ops (resNum + 4) (orgBuf + 8) (c.fwCalcFactor i) num.toNat m
    reads := st.reads ++ (List.range num.toNat).map fun j : ℕ => (i, ⟨orgBuf + 8 + 4 * j, 4⟩)
    writes := st.writes ++ ((if st.firstFlg then [⟨resNum, 4⟩] else []) ++
      (List.range num.toNat).map fun j : ℕ => ⟨resNum + 4 + 4 * j, 4⟩) }

/-- One machine of the combination, without the assertion. -/
def ndebugMachine (st : Combining) (i : ℕ) : Combining :=
  let orgBuf := c.slotBuf head i
  let len := loadInt st.mem orgBuf
  let st := { st with reads := st.reads ++ [(i, ⟨orgBuf, 4⟩)] }
  if len = -1 then st
  else if len = 0 then st
  else if len.tmod 4 ≠ 0 then st
  else
    let num := loadInt st.mem (orgBuf + 4)
    let st := { st with reads := st.reads ++ [(i, ⟨orgBuf + 4, 4⟩)] }
    if toInt32 (toInt32 (num + 1) * 4) ≠ len then st else addReply ops c st i num

/-- `combine_task` in the default build, without the log. -/
def ndebugTask (m : Mem) : Combining :=
  let resBuf := c.resultBuf head
  let resNum := resBuf + 4
  let zeros : Store := ⟨resBuf, List.replicate (toSize (4 + c.fwCalcResultSize)) 0⟩
  let st := (List.range c.machines).foldl (ndebugMachine ops c)
    ⟨true, zeros.apply m, [], [⟨resBuf, toSize (4 + c.fwCalcResultSize)⟩]⟩
  let st := if st.firstFlg then
      { st with mem := (storeInt resNum 0).apply st.mem, writes := st.writes ++ [⟨resNum, 4⟩] }
    else st
  { st with mem := (storeInt resBuf (toInt32 (toInt32 (loadInt st.mem resNum + 1) * 4))).apply st.mem
            writes := st.writes ++ [⟨resBuf, 4⟩] }

variable {ops c}

/-! ### The memory below the result -/

/-- Adding powers leaves everything below the result powers alone. -/
theorem addPower_below (ops : FloatOps) (resPwd pwr : ℤ) (factor : UInt32) (num : ℕ) (m : Mem)
    {y : ℤ} (h : y < resPwd) : addPower ops resPwd pwr factor num m y = m y := by
  unfold addPower
  induction num with
  | zero => rfl
  | succ n ih =>
    rw [Runs.foldl_range_succ, Store.apply_of_notMem, ih]
    rintro ⟨h₁, -⟩
    simp only [storeWord_addr] at h₁
    omega

theorem addReply_below (st : Combining) (i : ℕ) (num : ℤ) {y : ℤ} (h : y < c.resultBuf head) :
    (addReply ops c st i num).mem y = st.mem y := by
  refine (addPower_below ops _ _ _ _ _ (by omega)).trans ?_
  split
  · rw [Store.apply_of_notMem]
    rintro ⟨h₁, -⟩
    simp only [storeInt_addr] at h₁
    omega
  · rfl

/-! ### What one machine accesses -/

def readsOf (c : CalcConfig) (x : ℕ → Exchange) (i : ℕ) : List (ℕ × Span) :=
  (i, ⟨c.slotBuf head i, 4⟩) ::
    match (x i).payload with
    | none => []
    | some p =>
      if p.length = 0 ∨ p.length % 4 ≠ 0 then []
      else (i, ⟨c.slotBuf head i + 4, 4⟩) ::
        if Accepts p then (List.range (replyNum p).toNat).map fun j : ℕ =>
          (i, ⟨c.slotBuf head i + 8 + 4 * j, 4⟩)
        else []

def writesOf (c : CalcConfig) (x : ℕ → Exchange) (first : Bool) (i : ℕ) : List Span :=
  match accepted (x i) with
  | none => []
  | some p => (if first then [⟨c.resultBuf head + 4, 4⟩] else []) ++
      (List.range (replyNum p).toNat).map fun j : ℕ => ⟨c.resultBuf head + 4 + 4 + 4 * j, 4⟩

theorem readsOf_none {x : ℕ → Exchange} {i : ℕ} (hp : (x i).payload = none) :
    readsOf c x i = [(i, ⟨c.slotBuf head i, 4⟩)] := by
  rw [readsOf, hp]

theorem readsOf_short {x : ℕ → Exchange} {i : ℕ} {p : List UInt8} (hp : (x i).payload = some p)
    (h : p.length = 0 ∨ p.length % 4 ≠ 0) : readsOf c x i = [(i, ⟨c.slotBuf head i, 4⟩)] := by
  rw [readsOf, hp]
  simp only [if_pos h]

theorem readsOf_rejected {x : ℕ → Exchange} {i : ℕ} {p : List UInt8} (hp : (x i).payload = some p)
    (h : ¬ (p.length = 0 ∨ p.length % 4 ≠ 0)) (ha : ¬ Accepts p) :
    readsOf c x i = [(i, ⟨c.slotBuf head i, 4⟩), (i, ⟨c.slotBuf head i + 4, 4⟩)] := by
  rw [readsOf, hp]
  simp only [if_neg h, if_neg ha]

theorem readsOf_accepted {x : ℕ → Exchange} {i : ℕ} {p : List UInt8} (h : accepted (x i) = some p) :
    readsOf c x i = (i, ⟨c.slotBuf head i, 4⟩) :: (i, ⟨c.slotBuf head i + 4, 4⟩) ::
      (List.range (replyNum p).toNat).map fun j : ℕ => (i, ⟨c.slotBuf head i + 8 + 4 * j, 4⟩) := by
  obtain ⟨hp, ha⟩ := accepted_eq_some.mp h
  rw [readsOf, hp]
  simp only [if_neg ha.length_ok, if_pos ha]

theorem writesOf_none {x : ℕ → Exchange} {i : ℕ} (first : Bool) (h : accepted (x i) = none) :
    writesOf c x first i = [] := by
  rw [writesOf, h]

/-- What one machine does: it reads and writes what its reply asks for, the first accepted
reply clears the flag, and nothing below the result changes. -/
structure Adds (c : CalcConfig) (x : ℕ → Exchange) (i : ℕ) (st st' : Combining) : Prop where
  reads : st'.reads = st.reads ++ readsOf c x i
  writes : st'.writes = st.writes ++ writesOf c x st.firstFlg i
  first : st'.firstFlg = (st.firstFlg && (accepted (x i)).isNone)
  below : ∀ y < c.resultBuf head, st'.mem y = st.mem y

/-- A machine that is passed over only reads. -/
theorem adds_skip {x : ℕ → Exchange} {i : ℕ} {st : Combining} {rs : List (ℕ × Span)}
    (hacc : accepted (x i) = none) (hreads : readsOf c x i = rs) :
    Adds c x i st { st with reads := st.reads ++ rs } where
  reads := by rw [hreads]
  writes := by rw [writesOf_none _ hacc, List.append_nil]
  first := by rw [hacc, Option.isNone_none, Bool.and_true]
  below _ _ := rfl

theorem adds_addReply (ops : FloatOps) {x : ℕ → Exchange} {i : ℕ} {st : Combining} {p : List UInt8}
    (hacc : accepted (x i) = some p) :
    Adds c x i st (addReply ops c { st with
      reads := st.reads ++ [(i, ⟨c.slotBuf head i, 4⟩)] ++ [(i, ⟨c.slotBuf head i + 4, 4⟩)] } i
        (replyNum p)) where
  reads := by
    rw [readsOf_accepted hacc]
    simp only [addReply, List.append_assoc, List.cons_append, List.nil_append]
  writes := by
    rw [writesOf, hacc]
    rfl
  first := by
    rw [hacc, Option.isNone_some, Bool.and_false]
    rfl
  below _ hy := addReply_below _ i _ hy

theorem ndebugMachine_adds (ops : FloatOps) {x : ℕ → Exchange} {st : Combining} {i : ℕ}
    (h : Received c head (-1) x st.mem i) : Adds c x i st (ndebugMachine ops c st i) := by
  cases hp : (x i).payload with
  | none =>
    have hsize : loadInt st.mem (c.slotBuf head i) = -1 := by rw [h.size, hp]; rfl
    simp only [ndebugMachine, hsize, if_true]
    exact adds_skip (accepted_of_missing hp) (readsOf_none hp)
  | some p =>
    have hsize : loadInt st.mem (c.slotBuf head i) = p.length := by rw [h.size, hp]; rfl
    simp only [ndebugMachine, hsize, tmod_length]
    rw [if_neg (by omega)]
    by_cases hlen : p.length = 0 ∨ p.length % 4 ≠ 0
    · have hskip : Adds c x i st { st with reads := st.reads ++ [(i, ⟨c.slotBuf head i, 4⟩)] } :=
        adds_skip (accepted_of_not hp fun ha => ha.length_ok hlen) (readsOf_short hp hlen)
      rcases hlen with h₀ | h₄
      · rw [if_pos (by omega)]
        exact hskip
      · rw [if_pos h₄, ite_self]
        exact hskip
    have h₄ : p.length % 4 = 0 := by omega
    rw [if_neg (by omega), if_neg (not_not.mpr h₄), received_num h hp (by omega)]
    by_cases ha : Accepts p
    · rw [if_neg (not_not.mpr ha.2.2)]
      exact adds_addReply ops (accepted_eq_some.mpr ⟨hp, ha⟩)
    · rw [if_pos fun he => ha ⟨by omega, h₄, he⟩, List.append_assoc]
      exact adds_skip (accepted_of_not hp ha) (readsOf_rejected hp hlen ha)

/-! ### All machines -/

/-- The bytes that an accepted count makes a machine write. -/
def Writes (c : CalcConfig) (x : ℕ → Exchange) (i : ℕ) (w : Span) : Prop :=
  ∃ p, accepted (x i) = some p ∧
    ∃ j < (replyNum p).toNat, w = ⟨c.resultBuf head + 4 + 4 + 4 * (j : ℕ), 4⟩

/-- The combination after the machines `is`. -/
structure Logged (c : CalcConfig) (x : ℕ → Exchange) (m : Mem) (is : List ℕ) (st : Combining) :
    Prop where
  reads : st.reads = is.flatMap (readsOf c x)
  first : st.firstFlg = true ↔ ∀ i ∈ is, accepted (x i) = none
  below : ∀ y < c.resultBuf head, st.mem y = m y
  writes : ∀ w, w ∈ st.writes ↔ w = ⟨c.resultBuf head, toSize (4 + c.fwCalcResultSize)⟩ ∨
    (w = ⟨c.resultBuf head + 4, 4⟩ ∧ st.firstFlg = false) ∨ ∃ i ∈ is, Writes c x i w

theorem mem_writesOf {x : ℕ → Exchange} {first : Bool} {i : ℕ} {w : Span} :
    w ∈ writesOf c x first i ↔
      (w = ⟨c.resultBuf head + 4, 4⟩ ∧ first = true ∧ accepted (x i) ≠ none) ∨ Writes c x i w := by
  unfold writesOf Writes
  cases h : accepted (x i) with
  | none =>
    constructor
    · exact fun hw => absurd hw (List.not_mem_nil)
    · rintro (⟨-, -, hn⟩ | ⟨p, hp, -⟩)
      · exact absurd rfl hn
      · cases hp
  | some p =>
    rw [List.mem_append, List.mem_map]
    refine or_congr ?_ ⟨?_, ?_⟩
    · cases first
      · exact ⟨fun hw => absurd hw (List.not_mem_nil), fun hw => absurd hw.2.1 Bool.false_ne_true⟩
      · exact ⟨fun hw => ⟨List.mem_singleton.mp hw, rfl, Option.some_ne_none p⟩,
          fun hw => List.mem_singleton.mpr hw.1⟩
    · rintro ⟨j, hj, rfl⟩
      exact ⟨p, rfl, j, List.mem_range.mp hj, rfl⟩
    · rintro ⟨q, hq, j, hj, rfl⟩
      cases hq
      exact ⟨j, List.mem_range.mpr hj, rfl⟩

/-- What is written for one more reply: its count is, if it is the first accepted one. -/
theorem written_iff {zeros count old new : Prop} {first : Bool} {r : Option (List UInt8)} :
    (zeros ∨ (count ∧ first = false) ∨ old) ∨ (count ∧ first = true ∧ r ≠ none) ∨ new ↔
      zeros ∨ (count ∧ (first && r.isNone) = false) ∨ (old ∨ new) := by
  cases first <;> cases r <;> simp <;> tauto

theorem Logged.step {x : ℕ → Exchange} {m : Mem} {is : List ℕ} {st : Combining} {i : ℕ}
    (h : Logged c x m is st) (hrec : Received c head (-1) x st.mem i) :
    Logged c x m (is ++ [i]) (ndebugMachine ops c st i) := by
  have ha := ndebugMachine_adds ops hrec
  refine ⟨?_, ?_, fun y hy => (ha.below y hy).trans (h.below y hy), fun w => ?_⟩
  · rw [ha.reads, h.reads, List.flatMap_append, List.flatMap_singleton]
  · rw [ha.first, Bool.and_eq_true, h.first]
    simp [or_imp, forall_and]
  · have hlast : (∃ k ∈ is ++ [i], Writes c x k w) ↔ (∃ k ∈ is, Writes c x k w) ∨ Writes c x i w := by
      simp [or_and_right, exists_or]
    rw [ha.writes, List.mem_append, h.writes, mem_writesOf, ha.first, hlast]
    exact written_iff

/-- After the first machines, whose receive buffers are as received. -/
theorem Logged.machines (ops : FloatOps) {x : ℕ → Exchange} {m m₁ : Mem} {k : ℕ} (hk : k ≤ c.machines)
    (h : c.Fits head) (hx : ∀ k < c.machines, (x k).Within c)
    (hrec : ∀ i < c.machines, Received c head (-1) x m i)
    (hm : ∀ y < c.resultBuf head, m₁ y = m y) :
    Logged c x m (List.range k) ((List.range k).foldl (ndebugMachine ops c)
      ⟨true, m₁, [], [⟨c.resultBuf head, toSize (4 + c.fwCalcResultSize)⟩]⟩) := by
  induction k with
  | zero =>
    refine ⟨rfl, ⟨fun _ i hi => absurd hi (List.not_mem_nil), fun _ => rfl⟩, hm, fun w => ?_⟩
    simp [Writes]
  | succ k ih =>
    have hold := ih (by omega)
    have hlast := received_congr (hrec k hk) hold.below (h.slot_result (by decide) hk)
      h.recv.le fun p hp => Exchange.payload_length (hx k hk) hp
    rw [Runs.foldl_range_succ, List.range_succ]
    exact hold.step hlast

end PrimaryElection.Framework.QueryProcessor
