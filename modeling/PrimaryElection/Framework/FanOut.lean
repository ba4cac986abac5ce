import PrimaryElection.Framework.CenterSchedule
import PrimaryElection.Lib.Outcome

/-! What the two message processors of the center share: the layout of a handle, with
the bytes before the send size as a parameter, the exchange of a task with its
machine and the extraction of the result. Where the sizes are positive and their
total is an `int`, the regions of a handle are apart, and a task stores in its own
slot only. -/

namespace PrimaryElection.Framework

open CInt Bytes Memory
open Encoder (Outcome)

/-- The sizes, the machine count and the factors (as the bits of floats) of the
center's configuration. -/
structure CalcConfig where
  fwCalcSendSize : ℤ
  fwCalcRecvSize : ℤ
  fwCalcResultSize : ℤ
  fwCalcNum : ℤ
  fwCalcFactor : ℕ → UInt32

namespace CalcConfig

variable (c : CalcConfig)

def oneRecvSize : ℤ := toInt32 (4 + c.fwCalcRecvSize)

def offsetSend : ℤ := 0

def offsetRecv : ℤ := toInt32 (4 + c.fwCalcSendSize)

def offsetResult : ℤ := toInt32 (c.offsetRecv + toInt32 (c.oneRecvSize * c.fwCalcNum))

/-- `mem_size`, with `head` bytes before the send size. -/
def memSize (head : ℤ) : ℤ :=
  toInt32 (toInt32 (toInt32 (head + toInt32 (4 + c.fwCalcSendSize)) +
    toInt32 (c.fwCalcNum * c.oneRecvSize)) + toInt32 (4 + c.fwCalcResultSize))

def machines : ℕ := c.fwCalcNum.toNat

/-! ### Regions of a handle -/

def handleRegion (head : ℤ) : Set ℤ := Set.Ico 0 (c.memSize head)

/-- send size(4) send buffer -/
def sendRegion (head : ℤ) : Set ℤ :=
  Set.Ico (head + offsetSend) (head + offsetSend + 4 + c.fwCalcSendSize)

/-- The receive buffer of machine `k`. -/
def slotBuf (head : ℤ) (k : ℕ) : ℤ := head + c.offsetRecv + c.oneRecvSize * k

/-- recv size(4) recv buffer -/
def slot (head : ℤ) (k : ℕ) : Set ℤ :=
  Set.Ico (c.slotBuf head k) (c.slotBuf head k + 4 + c.fwCalcRecvSize)

def resultBuf (head : ℤ) : ℤ := head + c.offsetResult

/-- result size(4) result buffer -/
def resultRegion (head : ℤ) : Set ℤ :=
  Set.Ico (c.resultBuf head) (c.resultBuf head + 4 + c.fwCalcResultSize)

/-- Positive sizes and machine count whose total fits in an `int`. -/
structure Fits (head : ℤ) : Prop where
  send : 0 < c.fwCalcSendSize
  recv : 0 < c.fwCalcRecvSize
  result : 0 < c.fwCalcResultSize
  num : 0 < c.fwCalcNum
  total : head + (4 + c.fwCalcSendSize) + c.fwCalcNum * (4 + c.fwCalcRecvSize) +
    (4 + c.fwCalcResultSize) < 2147483648

/-- The regions of a handle are pairwise disjoint and inside its allocation. -/
structure Separated (head : ℤ) : Prop where
  slots : Pairwise fun i j => Disjoint (c.slot head i) (c.slot head j)
  send_slot : ∀ k, Disjoint (c.sendRegion head) (c.slot head k)
  slot_result : ∀ k < c.machines, Disjoint (c.slot head k) (c.resultRegion head)
  send_result : Disjoint (c.sendRegion head) (c.resultRegion head)
  send_inside : c.sendRegion head ⊆ c.handleRegion head
  slot_inside : ∀ k < c.machines, c.slot head k ⊆ c.handleRegion head
  result_inside : c.resultRegion head ⊆ c.handleRegion head

variable {c} {head : ℤ}

theorem Fits.slots_le (h : c.Fits head) {k : ℕ} (hk : k < c.machines) :
    (4 + c.fwCalcRecvSize) * k + (4 + c.fwCalcRecvSize) ≤ c.fwCalcNum * (4 + c.fwCalcRecvSize) := by
  have hr := h.recv
  have hn : (k : ℤ) + 1 ≤ c.fwCalcNum := by
    unfold machines at hk
    omega
  calc (4 + c.fwCalcRecvSize) * k + (4 + c.fwCalcRecvSize)
      = ((k : ℤ) + 1) * (4 + c.fwCalcRecvSize) := by ring
    _ ≤ c.fwCalcNum * (4 + c.fwCalcRecvSize) := Int.mul_le_mul_of_nonneg_right hn (by omega)

theorem Fits.recv_le (h : c.Fits head) :
    4 + c.fwCalcRecvSize ≤ c.fwCalcNum * (4 + c.fwCalcRecvSize) := by
  have hk : 0 < c.machines := by
    have := h.num
    unfold machines
    omega
  simpa using h.slots_le hk

theorem Fits.oneRecvSize_eq (h : c.Fits head) (hh : 0 ≤ head) :
    c.oneRecvSize = 4 + c.fwCalcRecvSize := by
  have := h.send
  have := h.recv
  have := h.result
  have := h.total
  have := h.recv_le
  exact toInt32_eq (by omega) (by omega)

theorem Fits.offsetRecv_eq (h : c.Fits head) (hh : 0 ≤ head) :
    c.offsetRecv = 4 + c.fwCalcSendSize := by
  have := h.send
  have := h.recv
  have := h.result
  have := h.total
  have := h.recv_le
  exact toInt32_eq (by omega) (by omega)

theorem Fits.offsetResult_eq (h : c.Fits head) (hh : 0 ≤ head) :
    c.offsetResult = 4 + c.fwCalcSendSize + c.fwCalcNum * (4 + c.fwCalcRecvSize) := by
  have := h.send
  have := h.recv
  have := h.result
  have := h.total
  have := h.recv_le
  rw [offsetResult, h.offsetRecv_eq hh, h.oneRecvSize_eq hh, mul_comm (4 + c.fwCalcRecvSize),
    toInt32_eq (x := c.fwCalcNum * (4 + c.fwCalcRecvSize)) (by omega) (by omega)]
  exact toInt32_eq (by omega) (by omega)

theorem Fits.memSize_eq (h : c.Fits head) (hh : 0 ≤ head) :
    c.memSize head = head + (4 + c.fwCalcSendSize) + c.fwCalcNum * (4 + c.fwCalcRecvSize) +
      (4 + c.fwCalcResultSize) := by
  have := h.send
  have := h.recv
  have := h.result
  have := h.total
  have := h.recv_le
  rw [memSize, h.oneRecvSize_eq hh, toInt32_eq (x := 4 + c.fwCalcSendSize) (by omega) (by omega),
    toInt32_eq (x := c.fwCalcNum * (4 + c.fwCalcRecvSize)) (by omega) (by omega),
    toInt32_eq (x := 4 + c.fwCalcResultSize) (by omega) (by omega),
    toInt32_eq (x := head + (4 + c.fwCalcSendSize)) (by omega) (by omega),
    toInt32_eq (x := head + (4 + c.fwCalcSendSize) + _) (by omega) (by omega)]
  exact toInt32_eq (by omega) (by omega)

theorem disjoint_Ico_of_le {a b a' b' : ℤ} (h : b ≤ a') : Disjoint (Set.Ico a b) (Set.Ico a' b') :=
  Set.disjoint_left.mpr fun _ hx hy => absurd hx.2 (not_lt.mpr (h.trans hy.1))

theorem Fits.slot_lt (h : c.Fits head) (hh : 0 ≤ head) {i j : ℕ} (hij : i < j) :
    c.slotBuf head i + 4 + c.fwCalcRecvSize ≤ c.slotBuf head j := by
  have hr := h.recv
  have hm : (4 + c.fwCalcRecvSize) * (i + 1) ≤ (4 + c.fwCalcRecvSize) * (j : ℤ) :=
    Int.mul_le_mul_of_nonneg_left (by omega) (by omega)
  rw [mul_add, mul_one] at hm
  unfold slotBuf
  rw [h.oneRecvSize_eq hh]
  omega

/-- The slots end before the result. -/
theorem Fits.slot_result (h : c.Fits head) (hh : 0 ≤ head) {k : ℕ} (hk : k < c.machines) :
    c.slotBuf head k + 4 + c.fwCalcRecvSize ≤ c.resultBuf head := by
  have hle := h.slots_le hk
  simp only [slotBuf, resultBuf, h.oneRecvSize_eq hh, h.offsetRecv_eq hh, h.offsetResult_eq hh]
  omega

theorem Fits.separated (h : c.Fits head) (hh : 0 ≤ head) : c.Separated head := by
  have hone := h.oneRecvSize_eq hh
  have hrecv := h.offsetRecv_eq hh
  have hres := h.offsetResult_eq hh
  have hmem := h.memSize_eq hh
  have hs := h.send
  have hr := h.recv
  have hb : ∀ k : ℕ, 0 ≤ (4 + c.fwCalcRecvSize) * (k : ℤ) := fun k =>
    Int.mul_nonneg (by omega) (Int.natCast_nonneg k)
  have hn := h.recv_le
  have hx := h.result
  constructor
  · intro i j hij
    rcases lt_or_gt_of_ne hij with hij | hij
    · exact disjoint_Ico_of_le (h.slot_lt hh hij)
    · exact (disjoint_Ico_of_le (h.slot_lt hh hij)).symm
  · intro k
    have := hb k
    refine disjoint_Ico_of_le ?_
    simp only [slotBuf, offsetSend, hone, hrecv]
    omega
  · exact fun k hk => disjoint_Ico_of_le (h.slot_result hh hk)
  · refine disjoint_Ico_of_le ?_
    simp only [resultBuf, offsetSend, hres]
    omega
  · refine Set.Ico_subset_Ico ?_ ?_ <;> simp only [offsetSend, hmem] <;> omega
  · intro k hk
    have := h.slots_le hk
    have := hb k
    refine Set.Ico_subset_Ico ?_ ?_ <;> simp only [slotBuf, hone, hrecv, hmem] <;> omega
  · refine Set.Ico_subset_Ico ?_ ?_ <;> simp only [resultBuf, hres, hmem] <;> omega

end CalcConfig

/-! ### The exchange with a machine -/

/-- What a task sees of its machine: no connection, message or length, or a length
and the chunks received before the last byte or an error. -/
inductive Exchange where
  | failed
  | reply (rLen : I32) (chunks : List (List UInt8)) (error : Bool)

namespace Exchange

/-- A length between zero and what the receive buffer takes, of which no more is
received than was asked for. -/
def Within (c : CalcConfig) : Exchange → Prop
  | failed => True
  | reply rLen chunks _ => 0 ≤ rLen.val ∧ rLen.val ≤ c.fwCalcRecvSize - 4 ∧
    (chunks.flatten.length : ℤ) ≤ rLen.val

/-- The reply, if it was received in full. -/
def payload : Exchange → Option (List UInt8)
  | failed => none
  | reply rLen chunks error =>
    if error ∨ (chunks.flatten.length : ℤ) < rLen.val then none else some chunks.flatten

theorem payload_length {c : CalcConfig} {x : Exchange} (hx : x.Within c) {p : List UInt8}
    (hp : x.payload = some p) : (p.length : ℤ) ≤ c.fwCalcRecvSize - 4 := by
  cases x with
  | failed => cases hp
  | reply rLen chunks error =>
    rw [payload.eq_def] at hp
    simp only at hp
    split_ifs at hp
    cases hp
    exact hx.2.2.trans hx.2.1

end Exchange

/-- `recv` puts the chunks one behind the other. -/
def chunkStores (a : ℤ) : List (List UInt8) → List Store
  | [] => []
  | b :: bs => ⟨a, b⟩ :: chunkStores (a + b.length) bs

/-- The stores of `process_task` into its receive buffer; `failMark` stands there
until the reply is complete. -/
def processTask (c : CalcConfig) (rBuf failMark : ℤ) (x : Exchange) : List Store :=
  storeInt rBuf failMark ::
    match x with
    | .failed => []
    | .reply rLen chunks error =>
      if toInt32 (rLen.val + 4) > c.fwCalcRecvSize then []
      else chunkStores (rBuf + 4) chunks ++
        if error ∨ (chunks.flatten.length : ℤ) < rLen.val then [] else [storeInt rBuf rLen.val]

theorem chunkStores_footprint {a : ℤ} {chunks : List (List UInt8)} {w : Store}
    (hw : w ∈ chunkStores a chunks) :
    w.footprint ⊆ Set.Ico a (a + chunks.flatten.length) := by
  induction chunks generalizing a with
  | nil => cases hw
  | cons b bs ih =>
    rcases List.mem_cons.mp hw with rfl | hw
    · refine Set.Ico_subset_Ico le_rfl ?_
      simp only [List.flatten_cons, List.length_append]
      omega
    · refine (ih hw).trans (Set.Ico_subset_Ico ?_ ?_)
      · omega
      · simp only [List.flatten_cons, List.length_append]
        omega

theorem load_chunkStores (a : ℤ) (chunks : List (List UInt8)) (m : Mem) :
    load (applyAll (chunkStores a chunks) m) a chunks.flatten.length = chunks.flatten := by
  induction chunks generalizing a m with
  | nil => rfl
  | cons b bs ih =>
    have hfirst : load (applyAll (chunkStores (a + b.length) bs) ((⟨a, b⟩ : Store).apply m)) a
        b.length = b := by
      refine (load_congr fun x h₁ h₂ => applyAll_of_notMem (fun w hw hx => ?_) _).trans
        (load_store_self ⟨a, b⟩ m)
      have := (chunkStores_footprint hw hx).1
      omega
    rw [chunkStores, applyAll_cons, List.flatten_cons, List.length_append, load_add, hfirst, ih]

/-- A task stores the mark, what it received and, with the reply complete, its length. -/
theorem processTask_shape {c : CalcConfig} (rBuf failMark : ℤ) {x : Exchange} (hx : x.Within c)
    (hrecv : 0 ≤ c.fwCalcRecvSize) : ∃ chunks : List (List UInt8),
      (chunks.flatten.length : ℤ) ≤ c.fwCalcRecvSize ∧
      ((x.payload = none ∧ processTask c rBuf failMark x =
          storeInt rBuf failMark :: chunkStores (rBuf + 4) chunks) ∨
        (x.payload = some chunks.flatten ∧ processTask c rBuf failMark x =
          storeInt rBuf failMark :: (chunkStores (rBuf + 4) chunks ++
            [storeInt rBuf chunks.flatten.length]))) := by
  cases x with
  | failed => exact ⟨[], hrecv, .inl ⟨rfl, rfl⟩⟩
  | reply rLen chunks error =>
    obtain ⟨hpos, hle, hrec⟩ := hx
    have hroom : ¬ toInt32 (rLen.val + 4) > c.fwCalcRecvSize := by
      have := rLen.property.2
      by_cases hbig : rLen.val + 4 < 2147483648
      · rw [toInt32_eq (by omega) hbig]; omega
      · have := (toInt32_range (rLen.val + 4)).2
        omega
    refine ⟨chunks, by omega, ?_⟩
    by_cases hfail : error ∨ (chunks.flatten.length : ℤ) < rLen.val
    · exact .inl ⟨if_pos hfail, by
        simp only [processTask, if_neg hroom, if_pos hfail, List.append_nil]⟩
    · have hlen : rLen.val = chunks.flatten.length := by
        have := not_or.mp hfail
        omega
      refine .inr ⟨if_neg hfail, ?_⟩
      simp only [processTask, if_neg hroom, if_neg hfail]
      rw [hlen]

/-- A task stores in its slot only. -/
theorem processTask_footprint {c : CalcConfig} {rBuf failMark : ℤ} {x : Exchange}
    (hx : x.Within c) (hrecv : 0 ≤ c.fwCalcRecvSize) {w : Store}
    (hw : w ∈ processTask c rBuf failMark x) :
    w.footprint ⊆ Set.Ico rBuf (rBuf + 4 + c.fwCalcRecvSize) := by
  have hword : ∀ v, (storeInt rBuf v).footprint ⊆ Set.Ico rBuf (rBuf + 4 + c.fwCalcRecvSize) :=
    fun v => Set.Ico_subset_Ico le_rfl (by simp only [storeInt_addr, storeInt_length]; omega)
  obtain ⟨chunks, hlen, h⟩ := processTask_shape rBuf failMark hx hrecv
  have hchunk : ∀ v ∈ chunkStores (rBuf + 4) chunks,
      v.footprint ⊆ Set.Ico rBuf (rBuf + 4 + c.fwCalcRecvSize) := fun v hv =>
    (chunkStores_footprint hv).trans (Set.Ico_subset_Ico (by omega) (by omega))
  rcases h with ⟨-, h⟩ | ⟨-, h⟩ <;> rw [h] at hw
  · rcases List.mem_cons.mp hw with rfl | hw
    · exact hword _
    · exact hchunk w hw
  · rcases List.mem_cons.mp hw with rfl | hw
    · exact hword _
    · rcases List.mem_append.mp hw with hw | hw
      · exact hchunk w hw
      · rw [List.mem_singleton.mp hw]
        exact hword _

/-- The size field of a slot after its task: the length of a complete reply. -/
theorem processTask_size {c : CalcConfig} (rBuf failMark : ℤ) {x : Exchange} (hx : x.Within c)
    (hrecv : 0 ≤ c.fwCalcRecvSize) (m : Mem) :
    load (applyAll (processTask c rBuf failMark x) m) rBuf 4 =
      int4 (x.payload.elim failMark fun p => p.length) := by
  obtain ⟨chunks, hlen, h⟩ := processTask_shape rBuf failMark hx hrecv
  rcases h with ⟨hp, h⟩ | ⟨hp, h⟩ <;> rw [h, hp]
  · rw [applyAll_cons]
    refine (load_congr fun y h₁ h₂ => applyAll_of_notMem (fun w hw hy => ?_) _).trans
      (load_storeInt m rBuf failMark)
    have := (chunkStores_footprint hw hy).1
    omega
  · rw [applyAll_cons, applyAll_append]
    exact load_storeInt ..

/-- The buffer of a slot after its task, where the reply is complete. -/
theorem processTask_payload {c : CalcConfig} (rBuf failMark : ℤ) {x : Exchange} (hx : x.Within c)
    (hrecv : 0 ≤ c.fwCalcRecvSize) (m : Mem) {p : List UInt8} (hpay : x.payload = some p) :
    load (applyAll (processTask c rBuf failMark x) m) (rBuf + 4) p.length = p := by
  obtain ⟨chunks, hlen, h⟩ := processTask_shape rBuf failMark hx hrecv
  rcases h with ⟨hp, h⟩ | ⟨hp, h⟩
  · rw [hp] at hpay
    cases hpay
  · obtain rfl := Option.some.inj (hp.symm.trans hpay)
    rw [h, applyAll_cons, applyAll_append, applyAll_cons, applyAll_nil,
      load_store_of_disjoint (.inr (by simp only [storeInt_addr, storeInt_length]; omega))]
    exact load_chunkStores ..

/-! ### The processors -/

/-- `memcpy` from a buffer that holds `src`: a larger count reads what is not there. -/
def memcpy (dst : ℤ) (src : List UInt8) (count : ℤ) : Outcome Store :=
  if src.length < toSize count then .fault else .ok ⟨dst, src.take (toSize count)⟩

theorem memcpy_ok {dst : ℤ} {src : List UInt8} {count : ℤ} {w : Store}
    (h : memcpy dst src count = .ok w) :
    toSize count ≤ src.length ∧ w = ⟨dst, src.take (toSize count)⟩ := by
  unfold memcpy at h
  split_ifs at h with hc
  cases h
  exact ⟨not_lt.mp hc, rfl⟩

/-- `extract_result`, of the result that its size precedes. -/
def extractResult (resBuf : ℤ) (m : Mem) (resultLen : ℤ) : Outcome (List UInt8) :=
  if loadInt m resBuf > resultLen then .code (-1)
  else .ok (load m (resBuf + 4) (loadInt m resBuf).toNat)

/-- The tasks of a message whose machines answer with `x`. -/
def CalcConfig.fan (c : CalcConfig) (head failMark : ℤ) (x : ℕ → Exchange)
    (combineTask : Mem → Option Mem) : Fan where
  allCount := c.machines
  task k := processTask c (c.slotBuf head k) failMark (x k)
  combineTask := combineTask

section

variable {c : CalcConfig} {head failMark : ℤ} {x : ℕ → Exchange} {combineTask : Mem → Option Mem}

theorem CalcConfig.Fits.machines_pos (h : c.Fits head) : 0 < c.machines := by
  have := h.num
  unfold CalcConfig.machines
  omega

theorem fan_footprint (h : c.Fits head) (hx : ∀ k < c.machines, (x k).Within c) :
    ∀ k < (c.fan head failMark x combineTask).allCount,
      ∀ w ∈ (c.fan head failMark x combineTask).task k, w.footprint ⊆ c.slot head k :=
  fun k hk _ hw => processTask_footprint (hx k hk) h.recv.le hw

/-- The memory of running the tasks in order is in each slot that of its task. -/
theorem sequential_slot (h : c.Fits head) (hh : 0 ≤ head) (hx : ∀ k < c.machines, (x k).Within c)
    (m : Mem) {k : ℕ} (hk : k < c.machines) {y : ℤ} (hy : y ∈ c.slot head k) :
    Stream.sequential (c.fan head failMark x combineTask) m y =
      applyAll (processTask c (c.slotBuf head k) failMark (x k)) m y := by
  have htask : ∀ k < (c.fan head failMark x combineTask).allCount,
      ∀ w ∈ (c.fan head failMark x combineTask).task k, w.footprint ⊆ c.slot head k :=
    fan_footprint h hx
  have hs := (Interleaved.sequential m (h.separated hh).slots htask).inside k y hy
  exact hs.trans (by rw [if_pos (show k < (c.fan head failMark x combineTask).allCount from hk)]; rfl)

/-- The slot of machine `i` holds what was received from it. -/
structure Received (c : CalcConfig) (head failMark : ℤ) (x : ℕ → Exchange) (m : Mem) (i : ℕ) :
    Prop where
  size : loadInt m (c.slotBuf head i) = (x i).payload.elim failMark fun p => (p.length : ℤ)
  buffer : ∀ p, (x i).payload = some p → load m (c.slotBuf head i + 4) p.length = p

theorem sequential_received (h : c.Fits head) (hh : 0 ≤ head)
    (hmark : -2147483648 ≤ failMark ∧ failMark < 2147483648)
    (hx : ∀ k < c.machines, (x k).Within c) (m : Mem) {i : ℕ} (hi : i < c.machines) :
    Received c head failMark x (Stream.sequential (c.fan head failMark x combineTask) m) i := by
  have hr := h.recv
  have hs := h.send
  have hres := h.result
  have ht := h.total
  have hle := h.recv_le
  constructor
  · have hsize : load (Stream.sequential (c.fan head failMark x combineTask) m) (c.slotBuf head i) 4 =
        int4 ((x i).payload.elim failMark fun p => p.length) :=
      (load_congr fun y h₁ h₂ => sequential_slot h hh hx m hi ⟨h₁, by omega⟩).trans
        (processTask_size _ _ (hx i hi) hr.le m)
    refine loadInt_of_load hsize ?_ ?_ <;> cases hp : (x i).payload with
    | none => simp only [Option.elim_none]; omega
    | some p =>
      have := Exchange.payload_length (hx i hi) hp
      simp only [Option.elim_some]
      omega
  · intro p hp
    have hl := Exchange.payload_length (hx i hi) hp
    exact (load_congr fun y h₁ h₂ =>
      sequential_slot h hh hx m hi ⟨by omega, by omega⟩).trans
        (processTask_payload _ _ (hx i hi) hr.le m hp)

end

end PrimaryElection.Framework
