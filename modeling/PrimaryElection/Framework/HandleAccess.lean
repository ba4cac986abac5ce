import PrimaryElection.Framework.CombineBounds

/-! What the calls of the two processors touch of a handle: the bytes of the message they
put there, those that the combination reads and writes, and those of the result. A call
whose accesses are inside the block of the handle changes nothing outside of it. -/

namespace PrimaryElection.Framework

open CInt Bytes Memory
open Encoder (Outcome)

/-- `extract_result` reads the size and, where the result fits, that many bytes. -/
def extractSpans (resBuf : ℤ) (m : Mem) (resultLen : ℤ) : List Span :=
  ⟨resBuf, 4⟩ :: if loadInt m resBuf > resultLen then [] else [⟨resBuf + 4, toSize (loadInt m resBuf)⟩]

theorem memcpy_inside {dst : ℤ} {src : List UInt8} {count : ℤ} {w : Store} {n k : ℕ}
    (h : memcpy dst src count = .ok w) (hk : src.length ≤ k) (hin : Span.Inside ⟨dst, k⟩ 0 n) :
    w.span.Inside 0 n := by
  rcases memcpy_ok h with ⟨-, rfl⟩
  rcases hin with ⟨hlo, hhi⟩
  refine ⟨hlo, ?_⟩
  have hlen : (src.take (toSize count)).length ≤ src.length := List.length_take_le' _ _
  change dst + ((src.take (toSize count)).length : ℤ) ≤ n
  change dst + (k : ℤ) ≤ n at hhi
  omega

theorem storeInt_span (a x : ℤ) : (storeInt a x).span = ⟨a, 4⟩ := by
  rw [Store.span, storeInt_addr, storeInt_length]

theorem storeWord_span (a : ℤ) (v : UInt32) : (storeWord a v).span = ⟨a, 4⟩ := by
  rw [Store.span, storeWord_addr, storeWord_length]

/-! ### Update messages -/

namespace UpdateProcessor

variable {c : CalcConfig}

/-- The size and the message. -/
def distributeSpans (messageBuf : List UInt8) : List Span := [⟨0, 4⟩, ⟨4, messageBuf.length⟩]

/-- The size of each reply, the code of those of 4 bytes, and the result. -/
def combineSpans (c : CalcConfig) (m : Mem) : List Span :=
  ((List.range c.machines).flatMap fun i =>
    let buf := c.slotBuf head i
    ⟨buf, 4⟩ :: if loadInt m buf = 4 then [⟨buf + 4, 4⟩] else []) ++
  [⟨c.resultBuf head, 4⟩, ⟨c.resultBuf head + 4, 4⟩]

theorem distribute_outside {n : ℕ} {m m' : Mem} {messageBuf : List UInt8}
    (h : distributeTask c m messageBuf = .ok m') (hin : ∀ a ∈ distributeSpans messageBuf, a.Inside 0 n) :
    Outside n m m' := by
  unfold distributeTask at h
  dsimp only at h
  split_ifs at h
  rcases Outcome.bind_eq_ok_iff.mp h with ⟨body, hbody, h⟩
  cases h
  refine Outside.stores (fun w hw => ?_) m
  simp only [List.mem_cons, List.not_mem_nil, or_false] at hw
  rcases hw with rfl | rfl
  · exact hin ⟨0, 4⟩ (by simp [distributeSpans])
  · exact memcpy_inside hbody le_rfl (hin ⟨4, messageBuf.length⟩ (by simp [distributeSpans]))

theorem combine_outside {n : ℕ} {m m' : Mem} (h : combineTask c m = some m')
    (hin : ∀ a ∈ combineSpans c m, a.Inside 0 n) : Outside n m m' := by
  unfold combineTask at h
  cases h
  refine Outside.stores (fun w hw => ?_) m
  simp only [List.mem_cons, List.not_mem_nil, or_false] at hw
  rcases hw with rfl | rfl
  · exact hin ⟨c.resultBuf head, 4⟩ (by simp [combineSpans])
  · exact hin ⟨c.resultBuf head + 4, 4⟩ (by simp [combineSpans])

end UpdateProcessor

/-! ### Query messages -/

namespace QueryProcessor

variable {ops : FloatOps} {c : CalcConfig}

/-- The pointer of the log file, the size and the body. -/
def distributeSpans (messageBuf : List UInt8) : List Span := [⟨0, 8⟩, ⟨8, 4⟩, ⟨12, messageBuf.length - 8⟩]

/-- The bytes of the replies that are read and those of the result that are written; what is
read of the result was written before. -/
def combineSpans (ops : FloatOps) (c : CalcConfig) (m : Mem) : List Span :=
  (ndebugTask ops c m).reads.map Prod.snd ++ (ndebugTask ops c m).writes

theorem distribute_outside {n : ℕ} {m m' : Mem} {messageBuf : List UInt8}
    (h : distributeTask c m messageBuf = .ok m') (hin : ∀ a ∈ distributeSpans messageBuf, a.Inside 0 n) :
    Outside n m m' := by
  unfold distributeTask at h
  dsimp only at h
  split_ifs at h
  rcases Outcome.bind_eq_ok_iff.mp h with ⟨logFile, hlog, h⟩
  rcases Outcome.bind_eq_ok_iff.mp h with ⟨body, hbody, h⟩
  cases h
  refine Outside.stores (fun w hw => ?_) m
  simp only [List.mem_cons, List.not_mem_nil, or_false] at hw
  rcases hw with rfl | rfl | rfl
  · rcases memcpy_ok hlog with ⟨hlen, rfl⟩
    have hin₀ := hin ⟨0, 8⟩ (by simp [distributeSpans])
    have hs8 : toSize 8 = 8 := by decide
    refine ⟨hin₀.1, ?_⟩
    change 0 + ((messageBuf.take (toSize 8)).length : ℤ) ≤ n
    rw [hs8] at hlen ⊢
    rw [List.length_take_of_le hlen]
    exact hin₀.2
  · exact hin ⟨8, 4⟩ (by simp [distributeSpans])
  · exact memcpy_inside hbody (List.length_drop).le
      (hin ⟨12, messageBuf.length - 8⟩ (by simp [distributeSpans]))

/-- The combination changes only what it has noted as written. -/
def Noted (n : ℕ) (m : Mem) (st : Combining) : Prop := (∀ w ∈ st.writes, w.Inside 0 n) → Outside n m st.mem

theorem addPower_outside (ops : FloatOps) {resPwd pwr : ℤ} (factor : UInt32) {num n : ℕ} (m : Mem)
    (h : ∀ j < num, Span.Inside ⟨resPwd + 4 * (j : ℕ), 4⟩ 0 n) :
    Outside n m (addPower ops resPwd pwr factor num m) := by
  unfold addPower
  induction num with
  | zero => exact .refl n m
  | succ k ih =>
    rw [Runs.foldl_range_succ]
    have hfirst := ih fun j hj => h j (Nat.lt_succ_of_lt hj)
    refine hfirst.trans (.store ?_ _)
    rw [storeWord_span]
    exact h k (Nat.lt_succ_self k)

theorem addReply_noted {n : ℕ} {m : Mem} {st : Combining} (h : Noted n m st) (i : ℕ) (num : ℤ) :
    Noted n m (addReply ops c st i num) := by
  intro hin
  have hold := h fun w hw => hin w (List.mem_append_left _ hw)
  have hnew : ∀ w ∈ (if st.firstFlg then [⟨c.resultBuf head + 4, 4⟩] else []) ++
      (List.range num.toNat).map fun j : ℕ => (⟨c.resultBuf head + 4 + 4 + 4 * j, 4⟩ : Span), w.Inside 0 n :=
    fun w hw => hin w (List.mem_append_right st.writes hw)
  have hcount : Outside n st.mem
      (if st.firstFlg then (storeInt (c.resultBuf head + 4) num).apply st.mem else st.mem) := by
    split_ifs with hfirst
    · rw [if_pos hfirst] at hnew
      refine .store ?_ _
      rw [storeInt_span]
      exact hnew _ (List.mem_append_left _ (List.mem_singleton_self _))
    · exact .refl n _
  refine hold.trans (hcount.trans (addPower_outside ops _ _ fun j hj => ?_))
  exact hnew _ (List.mem_append_right _ (List.mem_map.mpr ⟨j, List.mem_range.mpr hj, rfl⟩))

theorem ndebugMachine_noted {n : ℕ} {m : Mem} {st : Combining} (h : Noted n m st) (i : ℕ) :
    Noted n m (ndebugMachine ops c st i) := by
  unfold ndebugMachine
  dsimp only
  split_ifs
  · exact h
  · exact h
  · exact h
  · exact h
  · refine addReply_noted ?_ i _
    exact h

theorem zeros_noted (n : ℕ) (m : Mem) (a : ℤ) (k : ℕ) :
    Noted n m ⟨true, Store.apply ⟨a, List.replicate k 0⟩ m, [], [⟨a, k⟩]⟩ := by
  intro hin
  have hspan : Span.Inside ⟨a, k⟩ 0 n := hin _ (List.mem_singleton_self _)
  refine .store ?_ m
  rwa [Store.span, List.length_replicate]

theorem ndebugTask_noted (ops : FloatOps) (c : CalcConfig) (n : ℕ) (m : Mem) : Noted n m (ndebugTask ops c m) := by
  have hmachines : ∀ (is : List ℕ) (st : Combining), Noted n m st → Noted n m (is.foldl (ndebugMachine ops c) st) := by
    intro is st h
    induction is generalizing st with
    | nil => exact h
    | cons i is ih =>
      rw [List.foldl_cons]
      exact ih _ (ndebugMachine_noted h i)
  have hall := hmachines (List.range c.machines) _
    (zeros_noted n m (c.resultBuf head) (toSize (4 + c.fwCalcResultSize)))
  unfold ndebugTask
  dsimp only
  generalize (List.range c.machines).foldl (ndebugMachine ops c) _ = st at hall
  intro hin
  have hsize : ∀ x, (storeInt (c.resultBuf head) x).span.Inside 0 n := by
    intro x
    rw [storeInt_span]
    exact hin ⟨c.resultBuf head, 4⟩ (List.mem_append_right _ (List.mem_singleton_self _))
  have hrest : ∀ w ∈ (if st.firstFlg then
      { st with mem := (storeInt (c.resultBuf head + 4) 0).apply st.mem,
                writes := st.writes ++ [⟨c.resultBuf head + 4, 4⟩] }
      else st).writes, w.Inside 0 n := fun w hw => hin w (List.mem_append_left _ hw)
  split_ifs at hrest ⊢ with hfirst
  · have hold := hall fun w hw => hrest w (List.mem_append_left _ hw)
    have hnum : (storeInt (c.resultBuf head + 4) 0).span.Inside 0 n := by
      rw [storeInt_span]
      exact hrest _ (List.mem_append_right _ (List.mem_singleton_self _))
    exact hold.trans ((Outside.store hnum _).trans (.store (hsize _) _))
  · exact (hall hrest).trans (.store (hsize _) _)

/-! ### The assertion -/

theorem addReply_mem (st : Combining) (i : ℕ) (num : ℤ) : (addReply ops c st i num).mem =
    addPower ops (c.resultBuf head + 4 + 4) (c.slotBuf head i + 8) (c.fwCalcFactor i) num.toNat
      (if st.firstFlg then (storeInt (c.resultBuf head + 4) num).apply st.mem else st.mem) := rfl

/-- Where the assertion holds, the default build combines as the other one. -/
theorem ndebugMachine_eq {st : Combining} {i : ℕ} {first : Bool} {m' : Mem}
    (h : combineMachine ops c (st.firstFlg, st.mem) i = some (first, m')) :
    (ndebugMachine ops c st i).firstFlg = first ∧ (ndebugMachine ops c st i).mem = m' := by
  rw [combineMachine] at h
  rw [ndebugMachine]
  dsimp only at h ⊢
  split_ifs at h ⊢ with h₁ h₂ h₃ h₄ h₅
  all_goals simp only [Option.some.injEq, Prod.mk.injEq] at h
  · exact h
  · exact h
  · exact h
  · exact h
  · rw [addReply_mem]
    dsimp only
    rw [if_pos h₅]
    exact h
  · rw [addReply_mem]
    dsimp only
    rw [if_neg h₅]
    exact h

theorem ndebugMachines_eq {is : List ℕ} (st : Combining) {first : Bool} {m' : Mem}
    (h : is.foldlM (combineMachine ops c) (st.firstFlg, st.mem) = some (first, m')) :
    (is.foldl (ndebugMachine ops c) st).firstFlg = first ∧ (is.foldl (ndebugMachine ops c) st).mem = m' := by
  induction is generalizing st with
  | nil =>
    cases h
    exact ⟨rfl, rfl⟩
  | cons i is ih =>
    rw [List.foldlM_cons] at h
    rcases Option.bind_eq_some_iff.mp h with ⟨⟨first', m''⟩, hone, hrest⟩
    rcases ndebugMachine_eq hone with ⟨hfirst, hmem⟩
    rw [List.foldl_cons]
    refine ih _ ?_
    rw [hfirst, hmem]
    exact hrest

theorem ndebugTask_mem {m m' : Mem} (h : combineTask ops c m = some m') : (ndebugTask ops c m).mem = m' := by
  unfold combineTask at h
  rcases Option.map_eq_some_iff.mp h with ⟨⟨first, m''⟩, hall, rfl⟩
  rcases ndebugMachines_eq ⟨true, Store.apply ⟨c.resultBuf head,
    List.replicate (toSize (4 + c.fwCalcResultSize)) 0⟩ m, [],
    [⟨c.resultBuf head, toSize (4 + c.fwCalcResultSize)⟩]⟩ hall with ⟨hfirst, hmem⟩
  unfold ndebugTask
  dsimp only at hfirst hmem ⊢
  rw [hfirst]
  split_ifs
  · rw [hmem]
  · rw [hmem]

theorem combine_outside {n : ℕ} {m m' : Mem} (h : combineTask ops c m = some m')
    (hin : ∀ a ∈ combineSpans ops c m, a.Inside 0 n) : Outside n m m' := by
  rw [← ndebugTask_mem h]
  exact ndebugTask_noted ops c n m fun w hw => hin w (List.mem_append_right _ hw)

end QueryProcessor

end PrimaryElection.Framework
