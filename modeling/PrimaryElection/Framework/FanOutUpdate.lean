import PrimaryElection.Framework.FanOut

/-! `ICM_Update_Processor`: the handle begins with the send size. The combination
counts the machines whose reply is not the one `int` zero. -/

namespace PrimaryElection.Framework.UpdateProcessor

open CInt Bytes Memory
open Encoder (Outcome)

variable (c : CalcConfig)

/-- Nothing stands before the send size. -/
def head : ℤ := 0

def distributeTask (m : Mem) (messageBuf : List UInt8) : Outcome Mem :=
  let messageLen : ℤ := messageBuf.length
  if c.fwCalcSendSize < messageLen then .code (-1)
  else do
    let body ← memcpy 4 messageBuf messageLen
    pure (applyAll [storeInt 0 messageLen, body] m)

def processTask (x : Exchange) (curCount : ℕ) : List Store :=
  Framework.processTask c (c.slotBuf head curCount) 0 x

def combineTask (m : Mem) : Option Mem :=
  let retVal := (List.range c.machines).foldl (fun (retVal : ℤ) i =>
    let buf := c.slotBuf head i
    if loadInt m buf = 0 then retVal + 1
    else if loadInt m buf ≠ 4 then retVal + 1
    else if loadInt m (buf + 4) ≠ 0 then retVal + 1
    else retVal) 0
  let buf := c.resultBuf head
  some (applyAll [storeInt buf 4, storeInt (buf + 4) retVal] m)

def extractResult (m : Mem) (resultLen : ℤ) : Outcome (List UInt8) :=
  Framework.extractResult (c.resultBuf head) m resultLen

def fan (x : ℕ → Exchange) : Fan := c.fan head 0 x (combineTask c)

/-- The machines whose reply is not exactly the 4-byte value zero. -/
def failures (x : ℕ → Exchange) : ℕ :=
  (List.range c.machines).countP fun i => (x i).payload ≠ some [0, 0, 0, 0]

variable {c}

theorem int4Val_eq_zero {p : List UInt8} (hp : p.length = 4) : int4Val p = 0 ↔ p = [0, 0, 0, 0] := by
  constructor
  · intro h
    have hlt := leVal_lt p
    rw [hp] at hlt
    refine leVal_inj (by simpa using hp) ?_
    unfold int4Val toInt32 at h
    rw [Int.bmod_def] at h
    have hz : leVal [0, 0, 0, 0] = 0 := by decide
    rw [hz]
    split_ifs at h <;> omega
  · rintro rfl
    decide

/-- The tests on a machine together ask whether its reply is other than zero. -/
theorem counted_iff {x : ℕ → Exchange} {m : Mem} {i : ℕ} (h : Received c head 0 x m i) :
    (loadInt m (c.slotBuf head i) = 0 ∨ loadInt m (c.slotBuf head i) ≠ 4 ∨
      loadInt m (c.slotBuf head i + 4) ≠ 0) ↔ (x i).payload ≠ some [0, 0, 0, 0] := by
  have hsize := h.size
  cases hp : (x i).payload with
  | none =>
    rw [hp] at hsize
    simp [show loadInt m (c.slotBuf head i) = 0 from hsize]
  | some p =>
    have hsize : loadInt m (c.slotBuf head i) = p.length := by rw [hsize, hp]; rfl
    rw [hsize]
    by_cases hl : p.length = 4
    · have hword : loadInt m (c.slotBuf head i + 4) = int4Val p :=
        congrArg int4Val (hl ▸ h.buffer p hp)
      rw [hword]
      simp [hl, int4Val_eq_zero hl]
    · have hne : p ≠ [0, 0, 0, 0] := fun he => hl (by rw [he]; rfl)
      simp only [ne_eq, Option.some.injEq, hne, not_false_eq_true, iff_true]
      omega

theorem foldl_countP (p : ℕ → Bool) (is : List ℕ) (acc : ℤ) :
    is.foldl (fun r i => if p i then r + 1 else r) acc = acc + is.countP p := by
  induction is generalizing acc with
  | nil => simp
  | cons i is ih =>
    rw [List.foldl_cons, ih, List.countP_cons]
    split_ifs <;> push_cast <;> ring

theorem loadInt_result (a x : ℤ) (m : Mem) :
    loadInt (applyAll [storeInt a 4, storeInt (a + 4) x] m) a = 4 := by
  apply loadInt_of_load _ (by norm_num) (by norm_num)
  rw [applyAll_cons, applyAll_cons, applyAll_nil, load_store_of_disjoint (.inl (by simp))]
  exact load_storeInt ..

/-- The combination counts the failures; its two words stay in a result region that
has room for them. -/
theorem combineTask_spec {x : ℕ → Exchange} {m : Mem}
    (h : ∀ i < c.machines, Received c head 0 x m i) :
    ∃ m', combineTask c m = some m' ∧
      (4 ≤ c.fwCalcResultSize → ∀ y, y ∉ c.resultRegion head → m' y = m y) ∧
      ∀ resultLen, extractResult c m' resultLen =
        if 4 > resultLen then .code (-1) else .ok (int4 (failures c x)) := by
  have hcount : (List.range c.machines).foldl (fun (retVal : ℤ) i =>
      if loadInt m (c.slotBuf head i) = 0 then retVal + 1
      else if loadInt m (c.slotBuf head i) ≠ 4 then retVal + 1
      else if loadInt m (c.slotBuf head i + 4) ≠ 0 then retVal + 1
      else retVal) 0 = failures c x := by
    rw [failures, ← zero_add ((List.countP _ _ : ℕ) : ℤ), ← foldl_countP]
    refine List.foldl_ext _ _ _ fun r i hi => ?_
    have hc := counted_iff (h i (List.mem_range.mp hi))
    simp only [decide_eq_true_eq, ← hc]
    split_ifs <;> simp_all
  simp only [combineTask, hcount]
  refine ⟨_, rfl, fun hroom y hy => ?_, fun resultLen => ?_⟩
  · refine applyAll_of_notMem (fun w hw hm => hy ?_) m
    simp only [List.mem_cons, List.not_mem_nil, or_false] at hw
    rcases hw with rfl | rfl <;> obtain ⟨h₁, h₂⟩ := hm <;>
      simp only [storeInt_addr, storeInt_length] at h₁ h₂ <;> exact ⟨by omega, by omega⟩
  · have hfirst := loadInt_result (c.resultBuf head) (failures c x) m
    have hsecond : load (applyAll [storeInt (c.resultBuf head) 4,
        storeInt (c.resultBuf head + 4) (failures c x)] m) (c.resultBuf head + 4) 4 =
        int4 (failures c x) := load_storeInt ..
    rw [extractResult, Framework.extractResult, hfirst]
    exact if_congr Iff.rfl rfl (congrArg Outcome.ok hsecond)

end PrimaryElection.Framework.UpdateProcessor
