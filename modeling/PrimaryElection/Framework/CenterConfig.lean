import PrimaryElection.Framework.ConfigFile

/-! `CENTER_CONFIG` and its `init`. Each field is read by the overload for its type; the
floats are left as their texts. A string that is longer than its array overruns it. -/

namespace PrimaryElection.Framework

open CInt
open Encoder (Outcome)
open JsonText (decimal)

inductive NumberField where
  | fwListenPort
  | fwCalcSendSize
  | fwCalcRecvSize
  | fwCalcResultSize
  | fwCalcNum
  | fwFilterPort
  | fwListenThreadNum
  | fwProcessThreadNum
  | fwUpdateThreadNum
  | fwQueueSize
  | fwMaxTaskSize
  | fwMaxRecvSize
  | fwMaxSendSize
  | fwMaxBinarySize
  | fwLogRecoderInterval
  | fwSyncPort
  | fwSyncFlag
  | fwCacheCapacity
  | fwCacheSavecount
  | fwCacheFlushtime
  | fwCacheFlushcount
  | fwCacheDebug
  deriving DecidableEq

namespace NumberField

def type : NumberField → IntType
  | fwListenPort => .varU2
  | fwFilterPort => .varU2
  | fwSyncPort => .var1
  | fwSyncFlag => .var1
  | _ => .var4

def key : NumberField → List UInt8
  | fwListenPort => lit "FW_LISTEN_PORT"
  | fwCalcSendSize => lit "FW_CALC_SEND_SIZE"
  | fwCalcRecvSize => lit "FW_CALC_RECV_SIZE"
  | fwCalcResultSize => lit "FW_CALC_RESULT_SIZE"
  | fwCalcNum => lit "FW_CALC_NUM"
  | fwFilterPort => lit "FW_FILTER_PORT"
  | fwListenThreadNum => lit "FW_LISTEN_THREAD_NUM"
  | fwProcessThreadNum => lit "FW_PROCESS_THREAD_NUM"
  | fwUpdateThreadNum => lit "FW_UPDATE_THREAD_NUM"
  | fwQueueSize => lit "FW_QUEUE_SIZE"
  | fwMaxTaskSize => lit "FW_MAX_TASK_SIZE"
  | fwMaxRecvSize => lit "FW_MAX_RECV_SIZE"
  | fwMaxSendSize => lit "FW_MAX_SEND_SIZE"
  | fwMaxBinarySize => lit "FW_MAX_BINARY_SIZE"
  | fwLogRecoderInterval => lit "FW_LOG_RECODER_INTERVAL"
  | fwSyncPort => lit "FW_SYNC_PORT"
  | fwSyncFlag => lit "FW_SYNC_FLAG"
  | fwCacheCapacity => lit "FW_CACHE_CAPACITY"
  | fwCacheSavecount => lit "FW_CACHE_SAVECOUNT"
  | fwCacheFlushtime => lit "FW_CACHE_FLUSHTIME"
  | fwCacheFlushcount => lit "FW_CACHE_FLUSHCOUNT"
  | fwCacheDebug => lit "FW_CACHE_DEBUG"

end NumberField

inductive TextField where
  | fwFilterIp
  | fwLogPathAction
  | fwLogPathDocument
  | fwLogPathPushed
  | fwCachePath
  | fwDebugPath
  | fwSyncPath
  | fwSyncIp
  deriving DecidableEq

namespace TextField

def capacity : TextField → ℕ
  | fwFilterIp => 16
  | fwSyncIp => 16
  | _ => 256

def key : TextField → List UInt8
  | fwFilterIp => lit "FW_FILTER_IP"
  | fwLogPathAction => lit "FW_LOG_PATH_ACTION"
  | fwLogPathDocument => lit "FW_LOG_PATH_DOCUMENT"
  | fwLogPathPushed => lit "FW_LOG_PATH_PUSHED"
  | fwCachePath => lit "FW_CACHE_PATH"
  | fwDebugPath => lit "FW_DEBUG_PATH"
  | fwSyncPath => lit "FW_SYNC_PATH"
  | fwSyncIp => lit "FW_SYNC_IP"

end TextField

inductive FactorField where
  | fwFilterFactor
  | fwTimeFactor
  | fwAlgorithmFactor
  deriving DecidableEq

def FactorField.key : FactorField → List UInt8
  | fwFilterFactor => lit "FW_FILTER_FACTOR"
  | fwTimeFactor => lit "FW_TIME_FACTOR"
  | fwAlgorithmFactor => lit "FW_ALGORITHM_FACTOR"

structure CenterConfig where
  number : NumberField → ℤ
  text : TextField → List UInt8
  factor : FactorField → List UInt8
  fwCalcIp : ℕ → List UInt8
  fwCalcPort : ℕ → ℤ
  fwCalcFactor : ℕ → List UInt8

inductive ConfigField where
  | number (f : NumberField)
  | text (f : TextField)
  | factor (f : FactorField)
  deriving DecidableEq

namespace CenterConfig

variable (read : List (List UInt8))

/-- A value that is copied into an array of `capacity` bytes. -/
def getText (key : List UInt8) (capacity : ℕ) : Outcome (List UInt8) := do
  let value ← getFieldValue key read
  if value.length < capacity then pure value else .fault

def readField (c : CenterConfig) : ConfigField → Outcome CenterConfig
  | .number f => do
    let value ← getFieldValue f.key read
    pure { c with number := Function.update c.number f (f.type.fieldValue value) }
  | .text f => do
    let value ← getText read f.key f.capacity
    pure { c with text := Function.update c.text f value }
  | .factor f => do
    let value ← getFieldValue f.key read
    pure { c with factor := Function.update c.factor f value }

/-- `%.2d` -/
def twoDigits (i : ℕ) : List UInt8 := if i < 10 then lit "0" ++ decimal i else decimal i

def calcIpKey (i : ℕ) : List UInt8 := lit "FW_CALC_IP_" ++ twoDigits i

def calcPortKey (i : ℕ) : List UInt8 := lit "FW_CALC_PORT_" ++ twoDigits i

def calcFactorKey (i : ℕ) : List UInt8 := lit "FW_CALC_FACTOR_" ++ twoDigits i

def readMachine (c : CenterConfig) (i : ℕ) : Outcome CenterConfig := do
  let ip ← getText read (calcIpKey i) 16
  let port ← getFieldValue (calcPortKey i) read
  let factor ← getFieldValue (calcFactorKey i) read
  pure { c with
    fwCalcIp := Function.update c.fwCalcIp i ip
    fwCalcPort := Function.update c.fwCalcPort i (IntType.varU2.fieldValue port)
    fwCalcFactor := Function.update c.fwCalcFactor i factor }

/-- `MAX_MACHINE_NUM` -/
def maxMachineNum : ℤ := 64

def readMachines (c : CenterConfig) : Outcome CenterConfig :=
  if c.number .fwCalcNum > maxMachineNum then .code (-1)
  else (List.range (c.number .fwCalcNum).toNat).foldlM (readMachine read) c

/-- The fields before the machines, in the order of the calls. -/
def firstFields : List ConfigField :=
  [.number .fwListenPort, .number .fwCalcSendSize, .number .fwCalcRecvSize,
    .number .fwCalcResultSize, .number .fwCalcNum]

def lastFields : List ConfigField :=
  [.text .fwFilterIp, .number .fwFilterPort, .factor .fwFilterFactor,
    .number .fwListenThreadNum, .number .fwProcessThreadNum, .number .fwUpdateThreadNum,
    .number .fwQueueSize, .number .fwMaxTaskSize,
    .number .fwMaxRecvSize, .number .fwMaxSendSize, .number .fwMaxBinarySize,
    .text .fwLogPathAction, .text .fwLogPathDocument, .text .fwLogPathPushed,
    .number .fwLogRecoderInterval, .text .fwCachePath, .text .fwDebugPath,
    .text .fwSyncPath, .text .fwSyncIp, .number .fwSyncPort, .number .fwSyncFlag,
    .number .fwCacheCapacity, .number .fwCacheSavecount, .number .fwCacheFlushtime,
    .number .fwCacheFlushcount, .number .fwCacheDebug, .factor .fwTimeFactor,
    .factor .fwAlgorithmFactor]

/-- `init` in the memory `c`, with the file `config_center.cfg` if it can be opened. -/
def init (c : CenterConfig) (file : Option (List UInt8)) : Outcome CenterConfig := do
  let file ← Outcome.require file (-1)
  let read := configLines file
  let c ← firstFields.foldlM (readField read) c
  let c ← readMachines read c
  lastFields.foldlM (readField read) c

/-! ### What is read -/

def Holds (c : CenterConfig) : ConfigField → Prop
  | .number f => ∃ t, getFieldValue f.key read = .ok t ∧ c.number f = f.type.fieldValue t
  | .text f => ∃ t, getFieldValue f.key read = .ok t ∧ t.length < f.capacity ∧ c.text f = t
  | .factor f => ∃ t, getFieldValue f.key read = .ok t ∧ c.factor f = t

variable {read} {c c' : CenterConfig}

theorem getText_ok {key t : List UInt8} {capacity : ℕ} (h : getText read key capacity = .ok t) :
    getFieldValue key read = .ok t ∧ t.length < capacity := by
  obtain ⟨value, hv, h⟩ := Outcome.bind_eq_ok_iff.mp h
  split_ifs at h with hlen
  cases h
  exact ⟨hv, hlen⟩

theorem readField_self {e : ConfigField} (h : readField read c e = .ok c') : c'.Holds read e := by
  cases e with
  | number f =>
    obtain ⟨t, ht, h⟩ := Outcome.bind_eq_ok_iff.mp h
    cases h
    exact ⟨t, ht, Function.update_self ..⟩
  | text f =>
    obtain ⟨t, ht, h⟩ := Outcome.bind_eq_ok_iff.mp h
    obtain ⟨ht, hlen⟩ := getText_ok ht
    cases h
    exact ⟨t, ht, hlen, Function.update_self ..⟩
  | factor f =>
    obtain ⟨t, ht, h⟩ := Outcome.bind_eq_ok_iff.mp h
    cases h
    exact ⟨t, ht, Function.update_self ..⟩

/-- The other fields keep what they hold. -/
theorem readField_of_ne {e e' : ConfigField} (hne : e' ≠ e) (h : readField read c e = .ok c')
    (hold : c.Holds read e') : c'.Holds read e' := by
  cases e with
  | number f =>
    obtain ⟨t, ht, h⟩ := Outcome.bind_eq_ok_iff.mp h
    cases h
    cases e' with
    | number g =>
      have hg : g ≠ f := fun hg => hne (congrArg ConfigField.number hg)
      simpa only [Holds, Function.update_of_ne hg] using hold
    | text g => exact hold
    | factor g => exact hold
  | text f =>
    obtain ⟨t, ht, h⟩ := Outcome.bind_eq_ok_iff.mp h
    cases h
    cases e' with
    | number g => exact hold
    | text g =>
      have hg : g ≠ f := fun hg => hne (congrArg ConfigField.text hg)
      simpa only [Holds, Function.update_of_ne hg] using hold
    | factor g => exact hold
  | factor f =>
    obtain ⟨t, ht, h⟩ := Outcome.bind_eq_ok_iff.mp h
    cases h
    cases e' with
    | number g => exact hold
    | text g => exact hold
    | factor g =>
      have hg : g ≠ f := fun hg => hne (congrArg ConfigField.factor hg)
      simpa only [Holds, Function.update_of_ne hg] using hold

/-- No call touches the ports of the machines. -/
theorem readField_fwCalcPort {e : ConfigField} (h : readField read c e = .ok c') :
    c'.fwCalcPort = c.fwCalcPort := by
  cases e <;>
    · obtain ⟨t, ht, h⟩ := Outcome.bind_eq_ok_iff.mp h
      cases h
      rfl

/-- After a list of calls every field in it is set. -/
theorem readFields_ok {es : List ConfigField} (h : es.foldlM (readField read) c = .ok c') :
    (∀ e, e ∈ es ∨ c.Holds read e → c'.Holds read e) ∧ c'.fwCalcPort = c.fwCalcPort := by
  induction es generalizing c with
  | nil =>
    cases h
    exact ⟨fun e he => he.resolve_left (by simp), rfl⟩
  | cons e es ih =>
    rw [List.foldlM_cons] at h
    obtain ⟨c₁, h₁, h⟩ := Outcome.bind_eq_ok_iff.mp h
    obtain ⟨hrest, hports⟩ := ih h
    refine ⟨fun e' he => ?_, hports.trans (readField_fwCalcPort h₁)⟩
    by_cases heq : e' = e
    · subst heq
      exact hrest e' (.inr (readField_self h₁))
    · obtain hmem | hold := he
      · exact hrest e' (.inl ((List.mem_cons.mp hmem).resolve_left heq))
      · exact hrest e' (.inr (readField_of_ne heq h₁ hold))

/-- The fields of the first `n` machines are read, the others kept. -/
theorem readMachine_loop {n : ℕ} (h : (List.range n).foldlM (readMachine read) c = .ok c') :
    (∀ e, c.Holds read e → c'.Holds read e) ∧ c'.number = c.number ∧ ∀ i < n,
      ∃ t, getFieldValue (calcPortKey i) read = .ok t ∧ c'.fwCalcPort i = IntType.varU2.fieldValue t := by
  induction n generalizing c' with
  | zero =>
    cases h
    exact ⟨fun e he => he, rfl, fun i hi => absurd hi (Nat.not_lt_zero i)⟩
  | succ n ih =>
    rw [List.range_succ, List.foldlM_append] at h
    obtain ⟨c₁, h₁, h⟩ := Outcome.bind_eq_ok_iff.mp h
    obtain ⟨hkeep, hnum, hports⟩ := ih h₁
    rw [List.foldlM_cons] at h
    obtain ⟨c₂, h₂, h⟩ := Outcome.bind_eq_ok_iff.mp h
    cases h
    obtain ⟨ip, hip, h₂⟩ := Outcome.bind_eq_ok_iff.mp h₂
    obtain ⟨port, hport, h₂⟩ := Outcome.bind_eq_ok_iff.mp h₂
    obtain ⟨factor, hfactor, h₂⟩ := Outcome.bind_eq_ok_iff.mp h₂
    cases h₂
    refine ⟨fun e he => ?_, hnum, fun i hi => ?_⟩
    · have hold := hkeep e he
      cases e <;> exact hold
    · obtain hi | rfl := Nat.lt_succ_iff_lt_or_eq.mp hi
      · obtain ⟨t, ht, hv⟩ := hports i hi
        exact ⟨t, ht, (Function.update_of_ne hi.ne _ _).trans hv⟩
      · exact ⟨port, hport, Function.update_self ..⟩

theorem mem_fields (e : ConfigField) : e ∈ firstFields ∨ e ∈ lastFields := by
  cases e with
  | number f => cases f <;> decide
  | text f => cases f <;> decide
  | factor f => cases f <;> decide

/-- A configuration that is accepted: its file is there, the fields hold its texts, and
there are no more machines than the arrays have room for. -/
structure Accepted (file : List UInt8) (c : CenterConfig) : Prop where
  fields : ∀ e, c.Holds (configLines file) e
  machines : c.number .fwCalcNum ≤ maxMachineNum
  ports : ∀ i : ℕ, (i : ℤ) < c.number .fwCalcNum →
    ∃ t, getFieldValue (calcPortKey i) (configLines file) = .ok t ∧
      c.fwCalcPort i = IntType.varU2.fieldValue t

theorem init_ok {file : Option (List UInt8)} (h : init c file = .ok c') :
    ∃ bytes, file = some bytes ∧ Accepted bytes c' := by
  unfold init at h
  obtain ⟨bytes, hfile, h⟩ := Outcome.bind_eq_ok_iff.mp h
  obtain ⟨c₁, h₁, h⟩ := Outcome.bind_eq_ok_iff.mp h
  obtain ⟨c₂, h₂, h₃⟩ := Outcome.bind_eq_ok_iff.mp h
  obtain ⟨hfirst, -⟩ := readFields_ok h₁
  unfold readMachines at h₂
  split_ifs at h₂ with hnum
  obtain ⟨hkeep, hnumber, hports⟩ := readMachine_loop h₂
  obtain ⟨hlast, hsame⟩ := readFields_ok h₃
  have hcalc : c'.number .fwCalcNum = c₁.number .fwCalcNum := by
    obtain ⟨t, ht, hv⟩ := hfirst (.number .fwCalcNum) (.inl (by decide))
    obtain ⟨t', ht', hv'⟩ := hlast (.number .fwCalcNum) (.inr (hkeep _ ⟨t, ht, hv⟩))
    obtain rfl := Outcome.ok.inj (ht.symm.trans ht')
    rw [hv, hv']
  refine ⟨bytes, ?_, fun e => ?_, ?_, fun i hi => ?_⟩
  · cases file with
    | none => cases hfile
    | some file => exact congrArg some (Outcome.ok.inj hfile)
  · obtain hmem | hmem := mem_fields e
    · exact hlast e (.inr (hkeep e (hfirst e (.inl hmem))))
    · exact hlast e (.inl hmem)
  · rw [hcalc]
    exact not_lt.mp hnum
  · rw [hsame]
    exact hports i (by rw [hcalc] at hi; omega)

/-! ### The meaning of the numbers -/

/-- The numbers of a configuration are those of the texts in its file, and it has
synchronization exactly when the flag is not zero there. -/
structure NumbersMeant (file : List UInt8) (c : CenterConfig) : Prop where
  fields : ∀ f : NumberField, ∃ t, getFieldValue f.key (configLines file) = .ok t ∧
    c.number f = f.type.reduce (decimalValue t)
  ports : ∀ i : ℕ, (i : ℤ) < c.number .fwCalcNum →
    ∃ t, getFieldValue (calcPortKey i) (configLines file) = .ok t ∧
      c.fwCalcPort i = IntType.varU2.reduce (decimalValue t)
  sync : ∀ t, getFieldValue NumberField.fwSyncFlag.key (configLines file) = .ok t →
    (c.number .fwSyncFlag = 0 ↔ decimalValue t = 0)

/-- The texts of the numbers in a file are exact for the types of their fields. -/
structure Exact (file : List UInt8) : Prop where
  fields : ∀ (f : NumberField) (t : List UInt8),
    getFieldValue f.key (configLines file) = .ok t → f.type.Exact t
  ports : ∀ num, getFieldValue NumberField.fwCalcNum.key (configLines file) = .ok num →
    ∀ i : ℕ, (i : ℤ) < NumberField.fwCalcNum.type.fieldValue num →
    ∀ t, getFieldValue (calcPortKey i) (configLines file) = .ok t → IntType.varU2.Exact t

def numberFields : List NumberField :=
  (firstFields ++ lastFields).filterMap fun
    | .number f => some f
    | _ => none

theorem mem_numberFields (f : NumberField) : f ∈ numberFields := by
  cases f <;> decide

/-- The test of the texts, field by field. -/
def exactTest (file : List UInt8) : Bool :=
  let read := configLines file
  (numberFields.all fun f => (fieldText f.key read).all fun t => f.type.Exact t) &&
    (fieldText NumberField.fwCalcNum.key read).all fun num =>
      (List.range (NumberField.fwCalcNum.type.fieldValue num).toNat).all fun i =>
        (fieldText (calcPortKey i) read).all fun t => IntType.varU2.Exact t

theorem exactTest_iff (file : List UInt8) : exactTest file = true ↔ Exact file := by
  unfold exactTest
  simp only [Bool.and_eq_true, List.all_eq_true, Option.all_eq_true, fieldText_eq_some,
    decide_eq_true_eq, List.mem_range, Int.lt_toNat]
  exact ⟨fun h => ⟨fun f => h.1 f (mem_numberFields f), h.2⟩, fun h => ⟨fun f _ => h.fields f, h.ports⟩⟩

instance (file : List UInt8) : Decidable (Exact file) := decidable_of_iff _ (exactTest_iff file)

/-- An accepted configuration means the numbers of its file exactly when their texts are
exact for the types of the fields. -/
theorem numbersMeant_iff {file : List UInt8} (h : init c (some file) = .ok c') :
    NumbersMeant file c' ↔ Exact file := by
  obtain ⟨_, hfile, hacc⟩ := init_ok h
  obtain rfl := Option.some.inj hfile
  have hfield (f : NumberField) {t : List UInt8} (ht : getFieldValue f.key (configLines file) = .ok t) :
      c'.number f = f.type.fieldValue t := by
    obtain ⟨t', ht', hv⟩ := hacc.fields (.number f)
    rw [hv, Outcome.ok.inj (ht.symm.trans ht')]
  constructor
  · intro hm
    refine ⟨fun f t ht => ?_, fun num hnum i hi t ht => ?_⟩
    · obtain ⟨t', ht', hv⟩ := hm.fields f
      obtain rfl := Outcome.ok.inj (ht.symm.trans ht')
      exact (f.type.exact_iff t).mpr ((hfield f ht).symm.trans hv)
    · have hlt : (i : ℤ) < c'.number .fwCalcNum := by rwa [hfield .fwCalcNum hnum]
      obtain ⟨t', ht', hv⟩ := hm.ports i hlt
      obtain rfl := Outcome.ok.inj (ht.symm.trans ht')
      obtain ⟨t', ht', hv'⟩ := hacc.ports i hlt
      obtain rfl := Outcome.ok.inj (ht.symm.trans ht')
      exact (IntType.varU2.exact_iff t).mpr (hv'.symm.trans hv)
  · intro he
    refine ⟨fun f => ?_, fun i hi => ?_, fun t ht => ?_⟩
    · obtain ⟨t, ht, hv⟩ := hacc.fields (.number f)
      exact ⟨t, ht, hv.trans ((f.type.exact_iff t).mp (he.fields f t ht))⟩
    · obtain ⟨num, hnum, hv⟩ := hacc.fields (.number .fwCalcNum)
      obtain ⟨t, ht, hv'⟩ := hacc.ports i hi
      exact ⟨t, ht, hv'.trans ((IntType.varU2.exact_iff t).mp (he.ports num hnum i (hv ▸ hi) t ht))⟩
    · have hzero := IntType.fieldValue_var1_eq_zero (getFieldValue_nonzero ht)
      have hexact := (IntType.var1.exact_iff t).mp (he.fields .fwSyncFlag t ht)
      rw [hfield .fwSyncFlag ht]
      refine hzero.trans ⟨fun hnil => by rw [hnil]; rfl, fun hd => hzero.mp ?_⟩
      rw [hexact, hd]
      rfl

/-! ### A small file -/

def sampleLine (value : NumberField → List UInt8) : ConfigField → List UInt8
  | .number f => f.key ++ lit "=" ++ value f ++ lit "\n"
  | .text f => f.key ++ lit "=a\n"
  | .factor f => f.key ++ lit "=1\n"

def sampleFile (value : NumberField → List UInt8) : List UInt8 :=
  (firstFields ++ lastFields).flatMap (sampleLine value) ++
    lit "FW_CALC_IP_00=a\nFW_CALC_PORT_00=9000\nFW_CALC_FACTOR_00=1\n"

def blank : CenterConfig := ⟨fun _ => 0, fun _ => [], fun _ => [], fun _ => [], fun _ => 0, fun _ => []⟩

/-- One everywhere, with the given text for the fields of one byte. -/
def bytesAs (t : List UInt8) (f : NumberField) : List UInt8 := if f.type = .var1 then t else lit "1"

/-- What `f` finds in the configuration from the file, if it is accepted. -/
def observe {α : Type} (value : NumberField → List UInt8) (f : CenterConfig → α) : Outcome α := do
  let c ← init blank (some (sampleFile value))
  pure (f c)

theorem observe_ok {α : Type} {value : NumberField → List UInt8} {f : CenterConfig → α} {a : α}
    (h : observe value f = .ok a) : ∃ c, init blank (some (sampleFile value)) = .ok c ∧ f c = a := by
  obtain ⟨c, hc, ha⟩ := Outcome.bind_eq_ok_iff.mp h
  exact ⟨c, hc, Outcome.ok.inj ha⟩

/-- The number 53 begins with the character 53. -/
theorem numbersMeant_iff_example :
    ∃ c, init blank (some (sampleFile (bytesAs (lit "53")))) = .ok c ∧
      NumbersMeant (sampleFile (bytesAs (lit "53"))) c := by
  have hfile : observe (bytesAs (lit "53")) (fun _ => ()) = .ok () ∧
      Exact (sampleFile (bytesAs (lit "53"))) := by decide +kernel
  obtain ⟨c, hc, -⟩ := observe_ok hfile.1
  exact ⟨c, hc, (numbersMeant_iff hc).mpr hfile.2⟩

/-- A flag that is written as 0 is the character 48. -/
theorem flagZero_not_meant :
    ∃ c, init blank (some (sampleFile (bytesAs (lit "0")))) = .ok c ∧
      c.number .fwSyncFlag = 48 ∧ ¬ NumbersMeant (sampleFile (bytesAs (lit "0"))) c := by
  have hfile : observe (bytesAs (lit "0")) (fun c => c.number .fwSyncFlag) = .ok 48 ∧
      getFieldValue NumberField.fwSyncFlag.key (configLines (sampleFile (bytesAs (lit "0")))) =
        .ok (lit "0") := by decide +kernel
  obtain ⟨c, hc, hflag⟩ := observe_ok hfile.1
  refine ⟨c, hc, hflag, fun h => ?_⟩
  have hzero := (h.sync _ hfile.2).mpr (by decide)
  rw [hflag] at hzero
  exact absurd hzero (by norm_num)

end CenterConfig

end PrimaryElection.Framework
