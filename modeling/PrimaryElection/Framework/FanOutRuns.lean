import PrimaryElection.Framework.FanOutQuery
import PrimaryElection.Framework.FanOutUpdate

/-! Messages through the two processors of the center, in every interleaving of the
working threads. -/

namespace PrimaryElection.Framework

open CInt Bytes Memory Runs
open Encoder (Outcome)

variable {W : ℕ}

/-- Distribution and tasks keep to regions of their own, inside the handle. -/
structure Apart (c : CalcConfig) (head : ℤ) (fan : Fan) (m₀ m₁ : Mem) : Prop where
  regions : c.Separated head
  tasks : ∀ k < fan.allCount, ∀ w ∈ fan.task k, w.footprint ⊆ c.slot head k
  distributed : ∀ y, y ∉ Set.Ico 0 head → y ∉ c.sendRegion head → m₁ y = m₀ y

/-- The calls of a run: tasks that return, each index once, and after all of them one
combination. It has run when the result is published and when the run, which is
bounded, cannot go on. -/
structure Once (fan : Fan) (m₁ : Mem) (steps : ℕ) (os : List (Option Call)) (s : Stream W) : Prop where
  ordered : Stream.Pending fan os ∨ Stream.Finished fan m₁ os s
  published : s.referFin = true → Stream.Finished fan m₁ os s
  complete : (∀ a, Stream.step fan s a = none) → Stream.Finished fan m₁ os s
  bounded : steps ≤ 4 * fan.allCount + ∑ k ∈ Finset.range fan.allCount, (fan.task k).length + 2

theorem once_of_run {fan : Fan} {R : ℕ → Set ℤ} {m₁ : Mem} {s : Stream W} {as : List (Act W)}
    {os : List (Option Call)} (hW : 0 < W) (hn : 0 < fan.allCount)
    (hR : Pairwise fun i j => Disjoint (R i) (R j))
    (htask : ∀ k < fan.allCount, ∀ x ∈ fan.task k, x.footprint ⊆ R k)
    (h : run (Stream.step fan) (Stream.init fan m₁) as = some (s, os)) :
    Once fan m₁ as.length os s where
  ordered := Stream.run_calls hn hR htask h
  published := Stream.finished_of_referFin hn hR htask h
  complete := Stream.finished_of_stuck hW hn hR htask h
  bounded := Stream.run_length_le hn hR htask h

/-! ### Distribution -/

theorem toSize_body {message : List UInt8} (h : 8 ≤ message.length)
    (hlen : (message.length : ℤ) < 2147483648) :
    toSize ((message.length : ℤ) - 8) = (message.drop 8).length := by
  have := toSize_eq (x := (message.length : ℤ) - 8) (by omega) (by omega)
  rw [List.length_drop]
  omega

theorem QueryProcessor.distributeTask_ok {c : CalcConfig} {m m₁ : Mem} {message : List UInt8}
    (hsend : c.fwCalcSendSize < 2147483648)
    (h : QueryProcessor.distributeTask c m message = .ok m₁) :
    (message.length : ℤ) ≤ c.fwCalcSendSize ∧ 8 ≤ message.length ∧
      m₁ = applyAll [⟨0, message.take 8⟩, storeInt 8 (message.length - 8), ⟨12, message.drop 8⟩] m := by
  unfold distributeTask at h
  simp only at h
  split_ifs at h with hlen
  obtain ⟨w, hw, h⟩ := Outcome.bind_eq_ok_iff.mp h
  obtain ⟨v, hv, h⟩ := Outcome.bind_eq_ok_iff.mp h
  obtain ⟨h8, rfl⟩ := memcpy_ok hw
  obtain ⟨hb, rfl⟩ := memcpy_ok hv
  have hs8 : toSize 8 = 8 := by decide
  rw [hs8] at h8
  have hbody := toSize_body h8 (by omega)
  cases h
  refine ⟨by omega, h8, ?_⟩
  rw [hs8, hbody, List.take_length]
  rfl

theorem UpdateProcessor.distributeTask_ok {c : CalcConfig} {m m₁ : Mem} {message : List UInt8}
    (hsend : c.fwCalcSendSize < 2147483648)
    (h : UpdateProcessor.distributeTask c m message = .ok m₁) :
    (message.length : ℤ) ≤ c.fwCalcSendSize ∧
      m₁ = applyAll [storeInt 0 message.length, ⟨4, message⟩] m := by
  unfold distributeTask at h
  simp only at h
  split_ifs at h with hlen
  obtain ⟨w, hw, h⟩ := Outcome.bind_eq_ok_iff.mp h
  obtain ⟨hb, rfl⟩ := memcpy_ok hw
  have hbody : toSize (message.length : ℤ) = message.length := by
    have := toSize_eq (x := (message.length : ℤ)) (by omega) (by omega)
    omega
  cases h
  refine ⟨by omega, ?_⟩
  rw [hbody, List.take_length]

theorem CalcConfig.Fits.sizes_lt {c : CalcConfig} {head : ℤ} (h : c.Fits head) (hh : 0 ≤ head) :
    c.fwCalcSendSize < 2147483648 ∧ 4 + c.fwCalcResultSize < 2147483648 := by
  have := h.send
  have := h.recv
  have := h.result
  have := h.total
  have := h.recv_le
  exact ⟨by omega, by omega⟩

theorem QueryProcessor.apart (ops : FloatOps) {c : CalcConfig} {x : ℕ → Exchange} {m₀ m₁ : Mem}
    {message : List UInt8} (h : c.Fits head) (hx : ∀ k < c.machines, (x k).Within c)
    (hm : distributeTask c m₀ message = .ok m₁) : Apart c head (fan ops c x) m₀ m₁ := by
  obtain ⟨hlen, h8, rfl⟩ := distributeTask_ok (h.sizes_lt (by decide)).1 hm
  refine ⟨h.separated (by decide), fan_footprint h hx, fun y hy hs => ?_⟩
  refine applyAll_of_notMem (fun w hw hy' => ?_) m₀
  have hout : ¬ (0 ≤ y ∧ y < 8) ∧ ¬ (8 ≤ y ∧ y < 12 + c.fwCalcSendSize) :=
    ⟨hy, fun hc => hs ⟨hc.1, by have := hc.2; simp only [head, CalcConfig.offsetSend]; omega⟩⟩
  simp only [List.mem_cons, List.not_mem_nil, or_false] at hw
  rcases hw with rfl | rfl | rfl <;> obtain ⟨h₁, h₂⟩ := hy' <;>
    simp only [storeInt_addr, storeInt_length, List.length_take, List.length_drop] at h₁ h₂ <;> omega

theorem UpdateProcessor.apart {c : CalcConfig} {x : ℕ → Exchange} {m₀ m₁ : Mem}
    {message : List UInt8} (h : c.Fits head) (hx : ∀ k < c.machines, (x k).Within c)
    (hm : distributeTask c m₀ message = .ok m₁) : Apart c head (fan c x) m₀ m₁ := by
  obtain ⟨hlen, rfl⟩ := distributeTask_ok (h.sizes_lt (by decide)).1 hm
  refine ⟨h.separated (by decide), fan_footprint h hx, fun y hy hs => ?_⟩
  refine applyAll_of_notMem (fun w hw hy' => ?_) m₀
  have hout : ¬ (0 ≤ y ∧ y < 4 + c.fwCalcSendSize) :=
    fun hc => hs ⟨hc.1, by have := hc.2; simp only [head, CalcConfig.offsetSend]; omega⟩
  simp only [List.mem_cons, List.not_mem_nil, or_false] at hw
  rcases hw with rfl | rfl <;> obtain ⟨h₁, h₂⟩ := hy' <;>
    simp only [storeInt_addr, storeInt_length] at h₁ h₂ <;> omega

/-! ### Results -/

/-- What the combination of a query leaves: outside the result region the memory of
the tasks, and as the result the common count of the accepted replies (zero if there
are none) and the scores added up in machine order. -/
def QueryProcessor.Result (ops : FloatOps) (c : CalcConfig) (x : ℕ → Exchange) (m₁ : Mem)
    (s : Stream W) : Prop :=
  ∀ num : ℕ, (∀ i < c.machines, ∀ p, accepted (x i) = some p → replyNum p = num) →
    4 + 4 * (num : ℤ) ≤ c.fwCalcResultSize →
    s.aborted = false ∧
    (∀ y, y ∉ c.resultRegion head → s.mem y = Stream.sequential (fan ops c x) m₁ y) ∧
    ∀ resultLen, 4 + 4 * (resultNum c x num : ℤ) ≤ resultLen →
      extractResult c s.mem resultLen = .ok (int4 (resultNum c x num) ++
        (List.range (resultNum c x num)).flatMap fun j => leBytes 4 (score ops c x j).toNat)

theorem QueryProcessor.result_of_finished {ops : FloatOps} {c : CalcConfig} {x : ℕ → Exchange}
    {m₁ : Mem} {s : Stream W} {os : List (Option Call)} (h : c.Fits head)
    (hx : ∀ k < c.machines, (x k).Within c) (hf : Stream.Finished (fan ops c x) m₁ os s) :
    Result ops c x m₁ s := by
  intro num hnum hroom
  obtain ⟨-, -, -, hres⟩ := hf
  have hhead : (0 : ℤ) ≤ head := by decide
  have hreplies : Replies c x (Stream.sequential (fan ops c x) m₁) num :=
    { received := fun i hi => sequential_received h hhead (by decide) hx m₁ hi
      before := fun i hi => h.slot_result hhead hi
      length := fun i hi p hp => Exchange.payload_length (hx i hi) hp
      counts := hnum
      recv := h.recv.le
      fits := hroom
      small := (h.sizes_lt hhead).2 }
  obtain ⟨m', hm', hframe, hextract⟩ := combineTask_spec hreplies
  have hcomb : some m' = if s.aborted then none else some s.mem := hm'.symm.trans hres
  cases hab : s.aborted with
  | true => simp [hab] at hcomb
  | false =>
    simp only [hab, Bool.false_eq_true, if_false, Option.some.injEq] at hcomb
    subst hcomb
    refine ⟨rfl, hframe, fun resultLen hle => ?_⟩
    rw [hextract, if_neg (not_lt.mpr hle)]

/-- What the combination of an update leaves: the number of machines whose reply is
not the 4-byte value zero. -/
def UpdateProcessor.Result (c : CalcConfig) (x : ℕ → Exchange) (m₁ : Mem) (s : Stream W) : Prop :=
  s.aborted = false ∧
  (4 ≤ c.fwCalcResultSize →
    ∀ y, y ∉ c.resultRegion head → s.mem y = Stream.sequential (fan c x) m₁ y) ∧
  ∀ resultLen, 4 ≤ resultLen → extractResult c s.mem resultLen = .ok (int4 (failures c x))

theorem UpdateProcessor.result_of_finished {c : CalcConfig} {x : ℕ → Exchange} {m₁ : Mem}
    {s : Stream W} {os : List (Option Call)} (h : c.Fits head)
    (hx : ∀ k < c.machines, (x k).Within c) (hf : Stream.Finished (fan c x) m₁ os s) :
    Result c x m₁ s := by
  obtain ⟨-, -, -, hres⟩ := hf
  have hreceived : ∀ i < c.machines, Received c head 0 x (Stream.sequential (fan c x) m₁) i :=
    fun i hi => sequential_received h (by decide) (by decide) hx m₁ hi
  obtain ⟨m', hm', hframe, hextract⟩ := combineTask_spec hreceived
  have hcomb : some m' = if s.aborted then none else some s.mem := hm'.symm.trans hres
  cases hab : s.aborted with
  | true => simp [hab] at hcomb
  | false =>
    simp only [hab, Bool.false_eq_true, if_false, Option.some.injEq] at hcomb
    subst hcomb
    refine ⟨hab, hframe, fun resultLen hle => ?_⟩
    rw [hextract, if_neg (not_lt.mpr hle)]

/-- In every interleaving of the threads of a message the two processors keep the
regions of the handle apart, call the combination once after all tasks, and end with
the result of running the tasks one after the other. -/
theorem fanOut_independent {c : CalcConfig} {x : ℕ → Exchange}
    (hx : ∀ k < c.machines, (x k).Within c) (hW : 0 < W) (ops : QueryProcessor.FloatOps)
    (m₀ : Mem) (message : List UInt8) (as : List (Act W)) :
    (c.Fits QueryProcessor.head → ∀ m₁ s os,
      QueryProcessor.distributeTask c m₀ message = .ok m₁ →
      run (Stream.step (QueryProcessor.fan ops c x)) (Stream.init (QueryProcessor.fan ops c x) m₁) as =
        some (s, os) →
      Apart c QueryProcessor.head (QueryProcessor.fan ops c x) m₀ m₁ ∧
      Once (QueryProcessor.fan ops c x) m₁ as.length os s ∧
      (Stream.Finished (QueryProcessor.fan ops c x) m₁ os s →
        QueryProcessor.Result ops c x m₁ s)) ∧
    (c.Fits UpdateProcessor.head → ∀ m₁ s os,
      UpdateProcessor.distributeTask c m₀ message = .ok m₁ →
      run (Stream.step (UpdateProcessor.fan c x)) (Stream.init (UpdateProcessor.fan c x) m₁) as =
        some (s, os) →
      Apart c UpdateProcessor.head (UpdateProcessor.fan c x) m₀ m₁ ∧
      Once (UpdateProcessor.fan c x) m₁ as.length os s ∧
      (Stream.Finished (UpdateProcessor.fan c x) m₁ os s → UpdateProcessor.Result c x m₁ s)) := by
  constructor
  · intro h m₁ s os hm hrun
    have hapart := QueryProcessor.apart ops h hx hm
    exact ⟨hapart, once_of_run hW h.machines_pos hapart.regions.slots hapart.tasks hrun,
      QueryProcessor.result_of_finished h hx⟩
  · intro h m₁ s os hm hrun
    have hapart := UpdateProcessor.apart h hx hm
    exact ⟨hapart, once_of_run hW h.machines_pos hapart.regions.slots hapart.tasks hrun,
      UpdateProcessor.result_of_finished h hx⟩

def threeMachines : CalcConfig := ⟨16, 16, 12, 3, fun i => UInt32.ofNat (i + 2)⟩

/-- The first machine's reply comes in two parts and the second does not answer. -/
def twoScores : ℕ → Exchange
  | 0 => .reply (i32 12) [[2, 0, 0, 0, 5], [0, 0, 0, 7, 0, 0, 0]] false
  | 1 => .failed
  | _ => .reply (i32 12) [[2, 0, 0, 0, 1, 0, 0, 0, 2, 0, 0, 0]] false

/-- One machine has updated, one does not answer and one has failed. -/
def oneUpdated : ℕ → Exchange
  | 0 => .reply (i32 4) [[0], [0, 0, 0]] false
  | 1 => .failed
  | _ => .reply (i32 4) [[1, 0, 0, 0]] false

/-- Floats as their bits, with integer arithmetic. -/
def bitOps : QueryProcessor.FloatOps := ⟨(· + ·), (· * ·)⟩

/-- Two threads on one message: the second takes two tasks while the first is at its own,
which is the last to return. -/
def twoThreads : List (Act 2) :=
  [.push, .push, .pop 0, .fetch 0, .write 0, .pop 1, .fetch 1, .write 0, .write 1, .push, .finish 1,
    .pop 1, .write 0, .fetch 1, .write 1, .write 0, .write 1, .write 1, .finish 1, .finish 0, .combine 0,
    .publish 0]

def twoBytes : List UInt8 := [1, 2, 3, 4, 5, 6, 7, 8, 9, 10]

theorem twoScores_within : ∀ k < threeMachines.machines, (twoScores k).Within threeMachines := by
  intro k _
  rcases k with - | - | k
  · exact ⟨by decide, by decide, by decide⟩
  · trivial
  · exact ⟨by decide, by decide, by decide⟩

theorem twoScores_num : ∀ i < threeMachines.machines, ∀ p,
    QueryProcessor.accepted (twoScores i) = some p → QueryProcessor.replyNum p = (2 : ℕ) := by
  intro i _ p hp
  have hpay := (QueryProcessor.accepted_eq_some.mp hp).1
  rcases i with - | - | i
  · cases (show some [2, 0, 0, 0, 5, 0, 0, 0, 7, 0, 0, 0] = some p from hpay)
    decide
  · cases hpay
  · cases (show some [2, 0, 0, 0, 1, 0, 0, 0, 2, 0, 0, 0] = some p from hpay)
    decide

theorem oneUpdated_within : ∀ k < threeMachines.machines, (oneUpdated k).Within threeMachines := by
  intro k _
  rcases k with - | - | k
  · exact ⟨by decide, by decide, by decide⟩
  · trivial
  · exact ⟨by decide, by decide, by decide⟩

theorem exists_twoThreads (fan : Fan) (m₁ : Mem)
    (h : (run (Stream.step fan) (Stream.init fan m₁) twoThreads).map (fun r => r.1.referFin) =
      some true) :
    ∃ s os, run (Stream.step fan) (Stream.init fan m₁) twoThreads = some (s, os) ∧
      s.referFin = true := by
  rcases Option.map_eq_some_iff.mp h with ⟨⟨s, os⟩, hrun, href⟩
  exact ⟨s, os, hrun, href⟩

/-- A query with one failed machine of three and an update, through two threads each. -/
theorem fanOut_independent_two :
    (∃ m₁ s os, QueryProcessor.distributeTask threeMachines (fun _ => 0) twoBytes = .ok m₁ ∧
      run (Stream.step (QueryProcessor.fan bitOps threeMachines twoScores))
        (Stream.init (QueryProcessor.fan bitOps threeMachines twoScores) m₁) twoThreads = some (s, os) ∧
      Apart threeMachines QueryProcessor.head (QueryProcessor.fan bitOps threeMachines twoScores)
        (fun _ => 0) m₁ ∧
      Stream.Finished (QueryProcessor.fan bitOps threeMachines twoScores) m₁ os s ∧
      QueryProcessor.extractResult threeMachines s.mem 12 =
        .ok [2, 0, 0, 0, 14, 0, 0, 0, 22, 0, 0, 0]) ∧
    ∃ m₁ s os, UpdateProcessor.distributeTask threeMachines (fun _ => 0) twoBytes = .ok m₁ ∧
      run (Stream.step (UpdateProcessor.fan threeMachines oneUpdated))
        (Stream.init (UpdateProcessor.fan threeMachines oneUpdated) m₁) twoThreads = some (s, os) ∧
      Apart threeMachines UpdateProcessor.head (UpdateProcessor.fan threeMachines oneUpdated)
        (fun _ => 0) m₁ ∧
      Stream.Finished (UpdateProcessor.fan threeMachines oneUpdated) m₁ os s ∧
      UpdateProcessor.extractResult threeMachines s.mem 4 = .ok [2, 0, 0, 0] := by
  constructor
  · rcases exists_twoThreads (QueryProcessor.fan bitOps threeMachines twoScores)
      (applyAll [⟨0, twoBytes.take 8⟩, storeInt 8 2, ⟨12, twoBytes.drop 8⟩] fun _ => 0)
      (by decide +kernel) with ⟨s, os, hrun, href⟩
    have hfits : threeMachines.Fits QueryProcessor.head :=
      ⟨by decide, by decide, by decide, by decide, by decide⟩
    rcases (fanOut_independent twoScores_within Nat.two_pos bitOps (fun _ => 0) twoBytes twoThreads).1
      hfits _ s os rfl hrun with ⟨hapart, honce, hresult⟩
    have hfin := honce.published href
    rcases hresult hfin 2 twoScores_num (by decide) with ⟨-, -, hextract⟩
    exact ⟨_, s, os, rfl, hrun, hapart, hfin, (hextract 12 (by decide)).trans (by decide +kernel)⟩
  · rcases exists_twoThreads (UpdateProcessor.fan threeMachines oneUpdated)
      (applyAll [storeInt 0 10, ⟨4, twoBytes⟩] fun _ => 0) (by decide +kernel) with ⟨s, os, hrun, href⟩
    have hfits : threeMachines.Fits UpdateProcessor.head :=
      ⟨by decide, by decide, by decide, by decide, by decide⟩
    rcases (fanOut_independent oneUpdated_within Nat.two_pos bitOps (fun _ => 0) twoBytes twoThreads).2
      hfits _ s os rfl hrun with ⟨hapart, honce, hresult⟩
    have hfin := honce.published href
    exact ⟨_, s, os, rfl, hrun, hapart, hfin, ((hresult hfin).2.2 4 (by decide)).trans (by decide)⟩

end PrimaryElection.Framework
