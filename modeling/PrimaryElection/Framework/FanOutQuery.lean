import PrimaryElection.Framework.FanOut

/-! `ICM_Query_Processor`: the handle begins with the pointer of a log file, so every
buffer is shifted by 8. The combination adds the scores of the accepted replies, each
times the factor of its machine, in machine order. Floats are their bits, with
addition and multiplication as parameters. -/

namespace PrimaryElection.Framework.QueryProcessor

open CInt Bytes Memory
open Encoder (Outcome)

structure FloatOps where
  add : UInt32 → UInt32 → UInt32
  mul : UInt32 → UInt32 → UInt32

variable (ops : FloatOps) (c : CalcConfig)

/-- `sizeof(FILE*)` -/
def head : ℤ := 8

def distributeTask (m : Mem) (messageBuf : List UInt8) : Outcome Mem :=
  let messageLen : ℤ := messageBuf.length
  if c.fwCalcSendSize < messageLen then .code (-1)
  else do
    let logFile ← memcpy 0 messageBuf 8
    let buf := CalcConfig.offsetSend + 8
    let body ← memcpy (buf + 4) (messageBuf.drop 8) (messageLen - 8)
    pure (applyAll [logFile, storeInt buf (messageLen - 8), body] m)

def processTask (x : Exchange) (curCount : ℕ) : List Store :=
  Framework.processTask c (c.slotBuf head curCount) (-1) x

/-- `res_pwd[j] += pwr[j] * factor` for the first `num` scores. -/
def addPower (resPwd pwr : ℤ) (factor : UInt32) (num : ℕ) (m : Mem) : Mem :=
  (List.range num).foldl (fun m (j : ℕ) =>
    (storeWord (resPwd + 4 * j) (ops.add (loadWord m (resPwd + 4 * j))
      (ops.mul (loadWord m (pwr + 4 * j)) factor))).apply m) m

/-- One machine of the combination: a reply that is not accepted is passed over, the
first accepted one sets the count and the others must have it. -/
def combineMachine (st : Bool × Mem) (i : ℕ) : Option (Bool × Mem) :=
  let (firstFlg, m) := st
  let orgBuf := c.slotBuf head i
  let resNum := c.resultBuf head + 4
  let len := loadInt m orgBuf
  if len = -1 then some st
  else if len = 0 then some st
  else if len.tmod 4 ≠ 0 then some st
  else
    let num := loadInt m (orgBuf + 4)
    if toInt32 (toInt32 (num + 1) * 4) ≠ len then some st
    else
      let add := addPower ops (resNum + 4) (orgBuf + 8) (c.fwCalcFactor i) num.toNat
      if firstFlg then some (false, add ((storeInt resNum num).apply m))
      else if loadInt m resNum = num then some (false, add m)
      else none

/-- `combine_task`, without the log; nothing is left where its assertion fails, though a
build with `-DNDEBUG` adds up what it finds. -/
def combineTask (m : Mem) : Option Mem :=
  let resBuf := c.resultBuf head
  let resNum := resBuf + 4
  let zeros : Store := ⟨resBuf, List.replicate (toSize (4 + c.fwCalcResultSize)) 0⟩
  ((List.range c.machines).foldlM (combineMachine ops c) (true, zeros.apply m)).map fun st =>
    let m := if st.1 then (storeInt resNum 0).apply st.2 else st.2
    (storeInt resBuf (toInt32 (toInt32 (loadInt m resNum + 1) * 4))).apply m

def extractResult (m : Mem) (resultLen : ℤ) : Outcome (List UInt8) :=
  Framework.extractResult (c.resultBuf head) m resultLen

def fan (x : ℕ → Exchange) : Fan := c.fan head (-1) x (combineTask ops c)

/-! ### What the combination adds up -/

/-- The count that a reply begins with. -/
def replyNum (p : List UInt8) : ℤ := int4Val (p.take 4)

def replyPower (p : List UInt8) (j : ℕ) : UInt32 :=
  UInt32.ofNat (leVal ((p.drop (4 + 4 * j)).take 4))

/-- A reply of a count and as many scores. -/
def Accepts (p : List UInt8) : Prop :=
  p.length ≠ 0 ∧ p.length % 4 = 0 ∧ toInt32 (toInt32 (replyNum p + 1) * 4) = p.length

instance (p : List UInt8) : Decidable (Accepts p) := inferInstanceAs (Decidable (_ ∧ _ ∧ _))

/-- The reply of a machine, if it is complete and accepted. -/
def accepted (x : Exchange) : Option (List UInt8) := x.payload.filter fun p => Accepts p

/-- Score `j` added up over the machines `is` from `acc` on. -/
def addScores (x : ℕ → Exchange) (j : ℕ) (is : List ℕ) (acc : UInt32) : UInt32 :=
  is.foldl (fun acc i =>
    match accepted (x i) with
    | some p => ops.add acc (ops.mul (replyPower p j) (c.fwCalcFactor i))
    | none => acc) acc

def score (x : ℕ → Exchange) (j : ℕ) : UInt32 := addScores ops c x j (List.range c.machines) 0

variable {ops c}

/-! ### One machine -/

/-- The scores are added in place, from a buffer that ends before them. -/
theorem addPower_spec (ops : FloatOps) {resPwd pwr : ℤ} (factor : UInt32) (m : Mem) {num : ℕ}
    (hsep : pwr + 4 * num ≤ resPwd) :
    (∀ j < num, load (addPower ops resPwd pwr factor num m) (resPwd + 4 * (j : ℕ)) 4 =
      leBytes 4 (ops.add (loadWord m (resPwd + 4 * (j : ℕ)))
        (ops.mul (loadWord m (pwr + 4 * (j : ℕ))) factor)).toNat) ∧
    ∀ y, y < resPwd ∨ resPwd + 4 * num ≤ y → addPower ops resPwd pwr factor num m y = m y := by
  induction num with
  | zero => exact ⟨fun j hj => absurd hj (Nat.not_lt_zero j), fun y _ => rfl⟩
  | succ n ih =>
    obtain ⟨hload, hframe⟩ := ih (by push_cast at hsep; omega)
    push_cast at hsep
    set m' := addPower ops resPwd pwr factor n m with hm'
    have hstep : addPower ops resPwd pwr factor (n + 1) m =
        (storeWord (resPwd + 4 * (n : ℕ)) (ops.add (loadWord m' (resPwd + 4 * (n : ℕ)))
          (ops.mul (loadWord m' (pwr + 4 * (n : ℕ))) factor))).apply m' := Runs.foldl_range_succ _ _ _
    have hold : loadWord m' (resPwd + 4 * (n : ℕ)) = loadWord m (resPwd + 4 * (n : ℕ)) :=
      loadWord_congr fun y h₁ h₂ => hframe y (.inr h₁)
    have hpwr : loadWord m' (pwr + 4 * (n : ℕ)) = loadWord m (pwr + 4 * (n : ℕ)) :=
      loadWord_congr fun y h₁ h₂ => hframe y (.inl (by omega))
    rw [hstep, hold, hpwr]
    constructor
    · intro j hj
      rcases Nat.lt_succ_iff_lt_or_eq.mp hj with hj | rfl
      · rw [load_store_of_disjoint (.inl (by simp only [storeWord_addr]; omega))]
        exact hload j hj
      · exact load_storeWord ..
    · intro y hy
      push_cast at hy
      rw [Store.apply_of_notMem, hframe y (by omega)]
      rintro ⟨h₁, h₂⟩
      simp only [storeWord_addr, storeWord_length] at h₁ h₂
      omega

theorem accepted_eq_some {x : Exchange} {p : List UInt8} :
    accepted x = some p ↔ x.payload = some p ∧ Accepts p := by
  simp [accepted, Option.filter_eq_some_iff]

theorem accepted_of_missing {x : Exchange} (h : x.payload = none) : accepted x = none := by
  rw [accepted, h]
  rfl

theorem accepted_of_not {x : Exchange} {p : List UInt8} (h : x.payload = some p) (hp : ¬ Accepts p) :
    accepted x = none := by
  simp [accepted, h, hp]

/-- The length of an accepted reply passes the tests before its count. -/
theorem Accepts.length_ok {p : List UInt8} (h : Accepts p) : ¬ (p.length = 0 ∨ p.length % 4 ≠ 0) :=
  fun hlen => hlen.elim h.1 fun h₄ => h₄ h.2.1

theorem received_num {x : ℕ → Exchange} {m : Mem} {i : ℕ} {p : List UInt8} (h : Received c head (-1) x m i)
    (hp : (x i).payload = some p) (hlen : 4 ≤ p.length) :
    loadInt m (c.slotBuf head i + 4) = replyNum p := by
  have hs := load_slice (i := 0) (k := 4) (h.buffer p hp) (by omega)
  simp only [Nat.cast_zero, add_zero, List.drop_zero] at hs
  exact congrArg int4Val hs

theorem received_power {x : ℕ → Exchange} {m : Mem} {i j : ℕ} {p : List UInt8}
    (h : Received c head (-1) x m i) (hp : (x i).payload = some p) (hlen : 4 + 4 * j + 4 ≤ p.length) :
    loadWord m (c.slotBuf head i + 8 + 4 * j) = replyPower p j := by
  have hs := load_slice (i := 4 + 4 * j) (k := 4) (h.buffer p hp) hlen
  have ha : c.slotBuf head i + 4 + ((4 + 4 * j : ℕ) : ℤ) = c.slotBuf head i + 8 + 4 * j := by
    push_cast
    ring
  rw [ha] at hs
  exact congrArg (fun bs => UInt32.ofNat (leVal bs)) hs

theorem tmod_length {p : List UInt8} : (p.length : ℤ).tmod 4 ≠ 0 ↔ p.length % 4 ≠ 0 := by
  rw [Int.tmod_eq_emod_of_nonneg (Int.natCast_nonneg _)]
  omega

/-- Up to the check of the count, the machine is passed over unless it is accepted. -/
theorem combineMachine_eq {x : ℕ → Exchange} {m : Mem} {i : ℕ} (h : Received c head (-1) x m i)
    (first : Bool) : combineMachine ops c (first, m) i =
      match accepted (x i) with
      | none => some (first, m)
      | some p =>
        let resNum := c.resultBuf head + 4
        let add := addPower ops (resNum + 4) (c.slotBuf head i + 8) (c.fwCalcFactor i)
          (replyNum p).toNat
        if first then some (false, add ((storeInt resNum (replyNum p)).apply m))
        else if loadInt m resNum = replyNum p then some (false, add m)
        else none := by
  unfold combineMachine
  cases hp : (x i).payload with
  | none =>
    have hsize : loadInt m (c.slotBuf head i) = -1 := by rw [h.size, hp]; rfl
    simp only [hsize, if_true, accepted_of_missing hp]
  | some p =>
    have hsize : loadInt m (c.slotBuf head i) = p.length := by rw [h.size, hp]; rfl
    by_cases ha : Accepts p
    · have hlen : 4 ≤ p.length := by
        have := ha.length_ok
        omega
      have hnum := received_num h hp hlen
      simp only [accepted_eq_some.mpr ⟨hp, ha⟩, hsize, hnum, tmod_length, ha.2.1, ha.2.2,
        ne_eq, not_true_eq_false, if_false]
      rw [if_neg (by omega), if_neg (by omega)]
    · simp only [accepted_of_not hp ha, hsize, tmod_length]
      by_cases h₀ : p.length = 0
      · simp [h₀]
      by_cases h₁ : p.length % 4 = 0
      · rw [if_neg (by omega), if_neg (by omega), if_neg (not_not.mpr h₁), received_num h hp (by omega),
          if_pos fun he => ha ⟨h₀, h₁, he⟩]
      · rw [if_neg (by omega), if_neg (by omega), if_pos h₁]

/-! ### All machines -/

/-- The combination after the machines `is`: outside the result nothing has changed,
the first accepted machine has set the count, and the scores are those added up. -/
structure Combined (ops : FloatOps) (c : CalcConfig) (x : ℕ → Exchange) (m₀ : Mem) (num : ℕ)
    (is : List ℕ) (st : Bool × Mem) : Prop where
  frame : ∀ y, y ∉ c.resultRegion head → st.2 y = m₀ y
  first : st.1 = true ↔ ∀ i ∈ is, accepted (x i) = none
  count : st.1 = false → load st.2 (c.resultBuf head + 4) 4 = int4 num
  scores : ∀ j < num, load st.2 (c.resultBuf head + 8 + 4 * (j : ℕ)) 4 =
    leBytes 4 (addScores ops c x j is 0).toNat

theorem addScores_concat (x : ℕ → Exchange) (j : ℕ) (is : List ℕ) (i : ℕ) (acc : UInt32) :
    addScores ops c x j (is ++ [i]) acc =
      match accepted (x i) with
      | some p => ops.add (addScores ops c x j is acc) (ops.mul (replyPower p j) (c.fwCalcFactor i))
      | none => addScores ops c x j is acc := by
  rw [addScores, List.foldl_append]
  rfl

/-- An accepted reply of count `num` has as many scores. -/
theorem Accepts.length_eq {p : List UInt8} (h : Accepts p) {num : ℕ} (hnum : replyNum p = num)
    (hsmall : 4 + 4 * (num : ℤ) < 2147483648) : p.length = 4 * num + 4 := by
  have hl := h.2.2
  rw [hnum, toInt32_eq (x := (num : ℤ) + 1) (by omega) (by omega),
    toInt32_eq (by omega) (by omega)] at hl
  omega

/-- The scores of an accepted reply are added to those in the result. -/
theorem Combined.add {x : ℕ → Exchange} {m₀ m : Mem} {num i : ℕ} {is : List ℕ} {p : List UInt8}
    (hframe : ∀ y, y ∉ c.resultRegion head → m y = m₀ y)
    (hcount : load m (c.resultBuf head + 4) 4 = int4 num)
    (hscores : ∀ j < num, load m (c.resultBuf head + 8 + 4 * (j : ℕ)) 4 =
      leBytes 4 (addScores ops c x j is 0).toNat)
    (hpower : ∀ j < num, loadWord m (c.slotBuf head i + 8 + 4 * (j : ℕ)) = replyPower p j)
    (hsep : c.slotBuf head i + 8 + 4 * num ≤ c.resultBuf head + 8)
    (hfits : 4 + 4 * (num : ℤ) ≤ c.fwCalcResultSize) (hacc : accepted (x i) = some p) :
    Combined ops c x m₀ num (is ++ [i]) (false, addPower ops (c.resultBuf head + 8)
      (c.slotBuf head i + 8) (c.fwCalcFactor i) num m) := by
  obtain ⟨hload, hsame⟩ := addPower_spec ops (c.fwCalcFactor i) m hsep
  refine ⟨fun y hy => ?_, by simp [hacc], fun _ => ?_, fun j hj => ?_⟩
  · refine (hsame y ?_).trans (hframe y hy)
    by_contra hc
    exact hy ⟨by omega, by omega⟩
  · exact (load_congr fun y h₁ h₂ => hsame y (.inl (by push_cast at h₂; omega))).trans hcount
  · rw [addScores_concat, hacc, hload j hj, loadWord_of_load (hscores j hj), hpower j hj]

/-- One more machine, whose count is `num` if it is accepted. -/
theorem Combined.step {x : ℕ → Exchange} {m₀ : Mem} {num i : ℕ} {is : List ℕ} {st : Bool × Mem}
    (h : Combined ops c x m₀ num is st) (hrec : Received c head (-1) x st.2 i)
    (hbefore : c.slotBuf head i + 4 + c.fwCalcRecvSize ≤ c.resultBuf head)
    (hlen : ∀ p, (x i).payload = some p → (p.length : ℤ) ≤ c.fwCalcRecvSize - 4)
    (hnum : ∀ p, accepted (x i) = some p → replyNum p = num)
    (hfits : 4 + 4 * (num : ℤ) ≤ c.fwCalcResultSize) (hsmall : c.fwCalcResultSize < 2147483648) :
    ∃ st', combineMachine ops c st i = some st' ∧ Combined ops c x m₀ num (is ++ [i]) st' := by
  obtain ⟨first, m⟩ := st
  rw [combineMachine_eq hrec]
  cases hacc : accepted (x i) with
  | none =>
    refine ⟨_, rfl, h.frame, ?_, h.count, ?_⟩
    · rw [h.first]
      simp [hacc, or_imp, forall_and]
    · intro j hj
      rw [addScores_concat, hacc]
      exact h.scores j hj
  | some p =>
    obtain ⟨hp, ha⟩ := accepted_eq_some.mp hacc
    have hn := hnum p hacc
    have hl := ha.length_eq hn (by omega)
    have hlp := hlen p hp
    have hpower : ∀ j < num, loadWord m (c.slotBuf head i + 8 + 4 * (j : ℕ)) = replyPower p j :=
      fun j hj => received_power hrec hp (by omega)
    have hsep : c.slotBuf head i + 8 + 4 * num ≤ c.resultBuf head + 8 := by omega
    have hbuf : c.resultBuf head + 4 + 4 = c.resultBuf head + 8 := by ring
    simp only [hn, Int.toNat_natCast, hbuf]
    cases first with
    | false =>
      rw [if_neg (by simp), if_pos (loadInt_of_load (h.count rfl) (by omega) (by omega))]
      exact ⟨_, rfl, Combined.add h.frame (h.count rfl) h.scores hpower hsep hfits hacc⟩
    | true =>
      rw [if_pos rfl]
      have hsame : ∀ y, y < c.resultBuf head + 4 ∨ c.resultBuf head + 8 ≤ y →
          (storeInt (c.resultBuf head + 4) num).apply m y = m y := by
        intro y hy
        refine Store.apply_of_notMem ?_
        rintro ⟨h₁, h₂⟩
        simp only [storeInt_addr, storeInt_length] at h₁ h₂
        omega
      refine ⟨_, rfl, Combined.add (fun y hy => ?_) ?_ (fun j hj => ?_) (fun j hj => ?_) hsep hfits
        hacc⟩
      · refine (hsame y ?_).trans (h.frame y hy)
        by_contra hc
        exact hy ⟨by omega, by omega⟩
      · exact load_storeInt ..
      · exact (load_congr fun y h₁ h₂ => hsame y (.inr (by omega))).trans (h.scores j hj)
      · exact (loadWord_congr fun y h₁ h₂ => hsame y (.inl (by omega))).trans (hpower j hj)

theorem received_congr {x : ℕ → Exchange} {m m' : Mem} {i : ℕ} (h : Received c head (-1) x m i)
    (hsame : ∀ y, y < c.resultBuf head → m' y = m y)
    (hbefore : c.slotBuf head i + 4 + c.fwCalcRecvSize ≤ c.resultBuf head)
    (hrecv : 0 ≤ c.fwCalcRecvSize)
    (hlen : ∀ p, (x i).payload = some p → (p.length : ℤ) ≤ c.fwCalcRecvSize - 4) :
    Received c head (-1) x m' i where
  size := (loadInt_congr fun y h₁ h₂ => hsame y (by omega)).trans h.size
  buffer p hp := by
    have := hlen p hp
    exact (load_congr fun y h₁ h₂ => hsame y (by omega)).trans (h.buffer p hp)

/-- The replies of the machines, as the combination finds them and may rely on. -/
structure Replies (c : CalcConfig) (x : ℕ → Exchange) (m : Mem) (num : ℕ) : Prop where
  received : ∀ i < c.machines, Received c head (-1) x m i
  before : ∀ i < c.machines, c.slotBuf head i + 4 + c.fwCalcRecvSize ≤ c.resultBuf head
  length : ∀ i < c.machines, ∀ p, (x i).payload = some p → (p.length : ℤ) ≤ c.fwCalcRecvSize - 4
  counts : ∀ i < c.machines, ∀ p, accepted (x i) = some p → replyNum p = num
  recv : 0 ≤ c.fwCalcRecvSize
  fits : 4 + 4 * (num : ℤ) ≤ c.fwCalcResultSize
  small : 4 + c.fwCalcResultSize < 2147483648

theorem Combined.machines {x : ℕ → Exchange} {m : Mem} {num k : ℕ} (h : Replies c x m num)
    (hk : k ≤ c.machines) {st : Bool × Mem} (hst : Combined ops c x m num [] st) :
    ∃ st', (List.range k).foldlM (combineMachine ops c) st = some st' ∧
      Combined ops c x m num (List.range k) st' := by
  induction k with
  | zero => exact ⟨st, rfl, hst⟩
  | succ k ih =>
    obtain ⟨st₁, hrun, h₁⟩ := ih (by omega)
    have hrec : Received c head (-1) x st₁.2 k := received_congr (h.received k hk)
      (fun y hy => h₁.frame y fun hm => absurd hm.1 (not_le.mpr hy)) (h.before k hk) h.recv
      (h.length k hk)
    obtain ⟨st₂, hstep, h₂⟩ := h₁.step hrec (h.before k hk) (h.length k hk) (h.counts k hk) h.fits
      (by have := h.small; omega)
    rw [List.range_succ]
    exact ⟨st₂, Runs.foldlM_concat hrun hstep, h₂⟩

theorem Combined.start (ops : FloatOps) {x : ℕ → Exchange} {m : Mem} {num : ℕ} (h : Replies c x m num) :
    Combined ops c x m num [] (true, (⟨c.resultBuf head,
      List.replicate (toSize (4 + c.fwCalcResultSize)) 0⟩ : Store).apply m) := by
  have hfits := h.fits
  have hsmall := h.small
  have hsize : (toSize (4 + c.fwCalcResultSize) : ℤ) = 4 + c.fwCalcResultSize :=
    toSize_eq (by omega) (by omega)
  refine ⟨fun y hy => Store.apply_of_notMem fun hm => hy ?_, by simp, by simp, fun j hj => ?_⟩
  · obtain ⟨h₁, h₂⟩ := hm
    simp only [List.length_replicate] at h₁ h₂
    exact ⟨h₁, by omega⟩
  · have hs := load_slice (i := 8 + 4 * j) (k := 4) (load_store_self ⟨c.resultBuf head,
      List.replicate (toSize (4 + c.fwCalcResultSize)) 0⟩ m) (by simp; omega)
    have ha : c.resultBuf head + ((8 + 4 * j : ℕ) : ℤ) = c.resultBuf head + 8 + 4 * j := by
      push_cast
      ring
    rw [ha] at hs
    rw [hs]
    simp only [List.drop_replicate, List.take_replicate]
    rw [min_eq_left (by omega)]
    simp [addScores, leBytes, List.replicate]

/-- The count of the combined result: that of the accepted replies, zero if there is
none. -/
def resultNum (c : CalcConfig) (x : ℕ → Exchange) (num : ℕ) : ℕ :=
  if ∀ i ∈ List.range c.machines, accepted (x i) = none then 0 else num

theorem Combined.counted {x : ℕ → Exchange} {m m₁ : Mem} {num : ℕ} {first : Bool}
    (h : Combined ops c x m num (List.range c.machines) (first, m₁)) {m₂ : Mem}
    (hm₂ : m₂ = if first then (storeInt (c.resultBuf head + 4) 0).apply m₁ else m₁) :
    load m₂ (c.resultBuf head + 4) 4 = int4 (resultNum c x num) ∧
      ∀ y, y < c.resultBuf head + 4 ∨ c.resultBuf head + 8 ≤ y → m₂ y = m₁ y := by
  subst hm₂
  cases first with
  | true =>
    have hz : resultNum c x num = 0 := if_pos (h.first.mp rfl)
    rw [hz]
    refine ⟨load_storeInt .., fun y hy => Store.apply_of_notMem ?_⟩
    rintro ⟨h₁, h₂⟩
    simp only [storeInt_addr, storeInt_length] at h₁ h₂
    omega
  | false =>
    have hz : resultNum c x num = num := if_neg fun hall => by simpa using h.first.mpr hall
    rw [hz]
    exact ⟨h.count rfl, fun _ _ => rfl⟩

/-- The combination finds the count and the scores of the replies, writes in the
result region only, and the result is extracted as it is. -/
theorem combineTask_spec {x : ℕ → Exchange} {m : Mem} {num : ℕ} (h : Replies c x m num) :
    ∃ m', combineTask ops c m = some m' ∧ (∀ y, y ∉ c.resultRegion head → m' y = m y) ∧
      ∀ resultLen, extractResult c m' resultLen =
        if 4 + 4 * (resultNum c x num : ℤ) > resultLen then .code (-1)
        else .ok (int4 (resultNum c x num) ++ (List.range (resultNum c x num)).flatMap fun j =>
          leBytes 4 (score ops c x j).toNat) := by
  obtain ⟨⟨first, m₁⟩, hrun, h₁⟩ := Combined.machines h le_rfl (Combined.start ops h)
  have hfits := h.fits
  have hsmall := h.small
  have hle : resultNum c x num ≤ num := by
    unfold resultNum
    split_ifs <;> omega
  obtain ⟨hcount, hsame⟩ := h₁.counted rfl
  have hframe := h₁.frame
  have hscore := h₁.scores
  generalize resultNum c x num = n at hle hcount ⊢
  simp only [combineTask, hrun, Option.map_some]
  generalize (if first then (storeInt (c.resultBuf head + 4) 0).apply m₁ else m₁) = m₂
    at hcount hsame
  have hsize : toInt32 (toInt32 (loadInt m₂ (c.resultBuf head + 4) + 1) * 4) = 4 * n + 4 := by
    rw [loadInt_of_load hcount (by omega) (by omega), toInt32_eq (x := (n : ℤ) + 1) (by omega) (by omega),
      toInt32_eq (by omega) (by omega)]
    ring
  rw [hsize]
  have hlast : ∀ y, y < c.resultBuf head ∨ c.resultBuf head + 4 ≤ y →
      (storeInt (c.resultBuf head) (4 * n + 4)).apply m₂ y = m₂ y := by
    intro y hy
    refine Store.apply_of_notMem ?_
    rintro ⟨h₁, h₂⟩
    simp only [storeInt_addr, storeInt_length] at h₁ h₂
    omega
  have hloaded : loadInt ((storeInt (c.resultBuf head) (4 * n + 4)).apply m₂) (c.resultBuf head) =
      4 * n + 4 := loadInt_of_load (load_storeInt ..) (by omega) (by omega)
  refine ⟨_, rfl, fun y hy => ?_, fun resultLen => ?_⟩
  · have hout : y < c.resultBuf head ∨ c.resultBuf head + 8 ≤ y := by
      by_contra hc
      exact hy ⟨by omega, by omega⟩
    rw [hlast y (by omega), hsame y (by omega)]
    exact hframe y hy
  · generalize (storeInt (c.resultBuf head) (4 * n + 4)).apply m₂ = m₃ at hlast hloaded
    have hscores : load m₂ (c.resultBuf head + 8) (4 * n) =
        (List.range n).flatMap fun j => leBytes 4 (score ops c x j).toNat := by
      rw [load_words]
      refine List.flatMap_congr fun j hj => ?_
      have hj := List.mem_range.mp hj
      exact (load_congr fun y h₁ h₂ => hsame y (.inr (by omega))).trans (hscore j (by omega))
    have hbytes : load m₃ (c.resultBuf head + 4) (4 + 4 * n) =
        int4 n ++ (List.range n).flatMap fun j => leBytes 4 (score ops c x j).toNat := by
      refine (load_congr fun y h₁ h₂ => hlast y (.inr h₁)).trans ?_
      have hbuf : c.resultBuf head + 4 + ((4 : ℕ) : ℤ) = c.resultBuf head + 8 := by
        push_cast
        ring
      rw [load_add, hcount, hbuf, hscores]
    have hnat : (4 * (n : ℤ) + 4).toNat = 4 + 4 * n := by omega
    rw [extractResult, Framework.extractResult, hloaded, hnat, hbytes, add_comm (4 * (n : ℤ)) 4]

end PrimaryElection.Framework.QueryProcessor
