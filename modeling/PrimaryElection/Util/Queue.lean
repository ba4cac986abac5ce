import PrimaryElection.Lib.Journal
import PrimaryElection.Lib.Monitor

/-! The queues of the center, UT_Queue.h for task nodes and UC_Queue_VL.h for records of a
fixed length. Both are rings with a position to read from and one to write to, behind one
lock and one condition variable. What is in the ring is read off the positions; the
queues of records are rings of their records. -/

namespace PrimaryElection.Util.Queue

open Journal Monitor

variable {α : Type}

/-! ### Positions -/

/-- The two positions and the count of a queue after `InitQueue`. The end is
`m_lCurQueueSize` behind the beginning. -/
structure Ring (n : ℕ) where
  begPos : Fin n
  endPos : Fin n
  curQueueSize : ℕ
  size_le : curQueueSize ≤ n
  end_eq : endPos.val = (begPos.val + curQueueSize) % n

namespace Ring

variable {n : ℕ}

/-- One position on, `%= m_lNowQueueSize`. -/
def next (i : Fin n) : Fin n := ⟨(i.val + 1) % n, Nat.mod_lt _ (i.val.zero_le.trans_lt i.isLt)⟩

def start (hn : 0 < n) : Ring n := ⟨⟨0, hn⟩, ⟨0, hn⟩, 0, n.zero_le, (Nat.zero_mod n).symm⟩

/-- The positions after `PushData`, unless it waits. -/
def push (q : Ring n) : Option (Ring n) :=
  if h : q.curQueueSize = n then none
  else some {
    begPos := q.begPos
    endPos := next q.endPos
    curQueueSize := q.curQueueSize + 1
    size_le := Nat.lt_of_le_of_ne q.size_le h
    end_eq := by
      rw [next]
      dsimp only
      rw [q.end_eq, Nat.mod_add_mod, Nat.add_assoc] }

/-- The positions after `PopData`, unless it waits. -/
def pop (q : Ring n) : Option (Ring n) :=
  if h : q.curQueueSize = 0 then none
  else some {
    begPos := next q.begPos
    endPos := q.endPos
    curQueueSize := q.curQueueSize - 1
    size_le := (Nat.sub_le _ _).trans q.size_le
    end_eq := by
      rw [next]
      dsimp only
      rw [q.end_eq, Nat.mod_add_mod]
      congr 1
      omega }

def positionsFrom (b : Fin n) (k : ℕ) : List (Fin n) :=
  (List.range k).map fun i => ⟨(b.val + i) % n, Nat.mod_lt _ (b.val.zero_le.trans_lt b.isLt)⟩

theorem positionsFrom_succ (b : Fin n) (k : ℕ) :
    positionsFrom b (k + 1) = b :: positionsFrom (next b) k := by
  rw [positionsFrom, positionsFrom, List.range_succ_eq_map, List.map_cons, List.map_map]
  congr 1
  · exact Fin.ext (Nat.mod_eq_of_lt b.isLt)
  · refine List.map_congr_left fun i _ => Fin.ext ?_
    rw [next]
    dsimp only [Function.comp]
    rw [Nat.mod_add_mod]
    congr 1
    omega

/-- The positions of what is in the queue, from the beginning on. -/
def positions (q : Ring n) : List (Fin n) := positionsFrom q.begPos q.curQueueSize

theorem positions_push {q q' : Ring n} (h : q.push = some q') : q'.positions = q.positions ++ [q.endPos] := by
  rw [push] at h
  split_ifs at h
  cases h
  rw [positions, positions, positionsFrom, positionsFrom, List.range_succ, List.map_append, List.map_singleton]
  congr 2
  exact Fin.ext q.end_eq.symm

theorem positions_pop {q q' : Ring n} (h : q.pop = some q') : q.positions = q.begPos :: q'.positions := by
  rw [pop] at h
  split_ifs at h with hne
  cases h
  change positionsFrom q.begPos q.curQueueSize = q.begPos :: positionsFrom (next q.begPos) (q.curQueueSize - 1)
  rw [← positionsFrom_succ, Nat.sub_add_cancel (Nat.pos_of_ne_zero hne)]

theorem endPos_notMem {q q' : Ring n} (h : q.push = some q') : q.endPos ∉ q.positions := by
  rw [push] at h
  split_ifs at h with hne
  intro hmem
  obtain ⟨i, hi, heq⟩ := List.mem_map.mp hmem
  have hlt := List.mem_range.mp hi
  have hle := q.size_le
  have hval : (q.begPos.val + i) % n = (q.begPos.val + q.curQueueSize) % n :=
    (congrArg Fin.val heq).trans q.end_eq
  have hmod : i % n = q.curQueueSize % n := Nat.ModEq.add_left_cancel' q.begPos.val hval
  rw [Nat.mod_eq_of_lt (by omega), Nat.mod_eq_of_lt (by omega)] at hmod
  omega

theorem length_positions (q : Ring n) : q.positions.length = q.curQueueSize := by
  simp [positions, positionsFrom]

end Ring

/-! ### UT_Queue -/

/-- `m_tpQueue` and the positions in it. -/
structure UTQueue (n : ℕ) (α : Type) extends Ring n where
  tpQueue : Fin n → α

namespace UTQueue

variable {n : ℕ}

/-- `PushData` behind the lock, unless it waits. -/
def pushData (q : UTQueue n α) (tKey : α) : Option (UTQueue n α) :=
  q.toRing.push.map fun r => ⟨r, Function.update q.tpQueue q.endPos tKey⟩

/-- `PopData` behind the lock, unless it waits. -/
def popData (q : UTQueue n α) : Option (α × UTQueue n α) :=
  q.toRing.pop.map fun r => (q.tpQueue q.begPos, ⟨r, q.tpQueue⟩)

def contents (q : UTQueue n α) : List α := q.positions.map q.tpQueue

theorem contents_pushData {q q' : UTQueue n α} {tKey : α} (h : q.pushData tKey = some q') :
    q'.contents = q.contents ++ [tKey] := by
  obtain ⟨r, hr, rfl⟩ := Option.map_eq_some_iff.mp h
  rw [contents, Ring.positions_push hr, List.map_append, List.map_singleton, contents]
  dsimp only
  rw [Function.update_self]
  congr 1
  refine List.map_congr_left fun i hi => Function.update_of_ne ?_ _ _
  rintro rfl
  exact Ring.endPos_notMem hr hi

theorem contents_popData {q q' : UTQueue n α} {tKey : α} (h : q.popData = some (tKey, q')) :
    q.contents = tKey :: q'.contents := by
  obtain ⟨r, hr, hq⟩ := Option.map_eq_some_iff.mp h
  cases hq
  rw [contents, Ring.positions_pop hr, List.map_cons, contents]

def buffer (n : ℕ) (α : Type) : Buffer (UTQueue n α) α where
  capacity := n
  size := fun q => q.curQueueSize
  put := pushData
  take := popData
  contents := contents
  length_contents q := by rw [contents, List.length_map, Ring.length_positions]
  size_le q := q.size_le
  put_none q tKey h := by
    rw [pushData, Option.map_eq_none_iff, Ring.push] at h
    split_ifs at h with hfull
    exact hfull
  contents_put _ _ _ h := contents_pushData h
  take_none q h := by
    rw [popData, Option.map_eq_none_iff, Ring.pop] at h
    split_ifs at h with hempty
    exact hempty
  contents_take _ _ _ h := contents_popData h

end UTQueue

/-! ### UC_Queue_VL -/

/-- The `lOneSize` bytes of one record. -/
abbrev Record (oneSize : ℕ) := {bs : List UInt8 // bs.length = oneSize}

/-- `m_tpQueue` with `m_lOneSize` bytes for each position. -/
structure QueueVL (n oneSize : ℕ) extends Ring n where
  tpQueue : List UInt8
  length_eq : tpQueue.length = oneSize * n

namespace QueueVL

variable {n oneSize : ℕ}

theorem slot_le (oneSize : ℕ) (i : Fin n) : i.val * oneSize + oneSize ≤ oneSize * n := by
  have := Nat.mul_le_mul_left oneSize (Nat.succ_le_of_lt i.isLt)
  rw [Nat.mul_comm i.val]
  rwa [Nat.mul_succ] at this

theorem length_slot {bs : List UInt8} (h : bs.length = oneSize * n) (i : Fin n) (data : Record oneSize) :
    (writeAt bs (i.val * oneSize) data.val).length = oneSize * n := by
  have h₁ := data.property
  have h₂ := slot_le oneSize i
  rw [writeAt, List.length_append, List.length_append, List.length_take, List.length_drop]
  omega

/-- The `memcpy` of `PushData`, unless it waits. -/
def pushData (q : QueueVL n oneSize) (data : Record oneSize) : Option (QueueVL n oneSize) :=
  q.toRing.push.map fun r =>
    { toRing := r
      tpQueue := writeAt q.tpQueue (q.endPos.val * oneSize) data.val
      length_eq := length_slot q.length_eq q.endPos data }

def record (q : QueueVL n oneSize) (i : Fin n) : Record oneSize :=
  ⟨(q.tpQueue.drop (i.val * oneSize)).take oneSize, by
    have h₁ := q.length_eq
    have h₂ := slot_le oneSize i
    rw [List.length_take, List.length_drop]
    omega⟩

/-- The `memcpy` of `PopData`, unless it waits. -/
def popData (q : QueueVL n oneSize) : Option (Record oneSize × QueueVL n oneSize) :=
  q.toRing.pop.map fun r => (q.record q.begPos, { q with toRing := r })

def records (q : QueueVL n oneSize) : UTQueue n (Record oneSize) := ⟨q.toRing, q.record⟩

/-- A record written in its place leaves the others. -/
theorem record_writeAt (q q' : QueueVL n oneSize) (j : Fin n) (data : Record oneSize)
    (h : q'.tpQueue = writeAt q.tpQueue (j.val * oneSize) data.val) :
    q'.record = Function.update q.record j data := by
  funext i
  have hlen := q.length_eq
  have hdata := data.property
  have hj := slot_le oneSize j
  by_cases hij : i = j
  · subst hij
    rw [Function.update_self]
    refine Subtype.ext ?_
    change (q'.tpQueue.drop _).take _ = _
    rw [h, writeAt, List.append_assoc, List.drop_left' (by rw [List.length_take]; omega),
      List.take_left' hdata]
  · rw [Function.update_of_ne hij]
    refine Subtype.ext (List.ext_getElem? fun k => ?_)
    change ((q'.tpQueue.drop _).take _)[k]? = ((q.tpQueue.drop _).take _)[k]?
    by_cases hk : k < oneSize
    · rw [List.getElem?_take_of_lt hk, List.getElem?_take_of_lt hk, List.getElem?_drop, List.getElem?_drop, h,
        writeAt]
      rcases Nat.lt_or_gt_of_ne (fun hc => hij (Fin.ext hc)) with hlt | hgt
      · have hle := Nat.mul_le_mul_right oneSize (Nat.succ_le_of_lt hlt)
        rw [Nat.succ_mul] at hle
        rw [List.append_assoc, List.getElem?_append_left (by rw [List.length_take]; omega),
          List.getElem?_take_of_lt (by omega)]
      · have hle := Nat.mul_le_mul_right oneSize (Nat.succ_le_of_lt hgt)
        rw [Nat.succ_mul] at hle
        have hfront : (q.tpQueue.take (j.val * oneSize) ++ data.val).length = j.val * oneSize + oneSize := by
          rw [List.length_append, List.length_take]
          omega
        rw [List.getElem?_append_right (by omega), List.getElem?_drop, hfront, hdata]
        congr 1
        omega
    · rw [List.getElem?_take, List.getElem?_take, if_neg hk, if_neg hk]

theorem records_pushData (q : QueueVL n oneSize) (data : Record oneSize) :
    (q.pushData data).map records = q.records.pushData data := by
  rw [pushData, UTQueue.pushData, Option.map_map]
  congr 1
  funext r
  exact congrArg (UTQueue.mk r) (record_writeAt q _ q.endPos data rfl)

theorem records_popData (q : QueueVL n oneSize) :
    q.popData.map (Prod.map id records) = q.records.popData := by
  rw [popData, UTQueue.popData, Option.map_map]
  rfl

def buffer (n oneSize : ℕ) : Buffer (QueueVL n oneSize) (Record oneSize) :=
  (UTQueue.buffer n (Record oneSize)).pull records pushData popData records_pushData records_popData

end QueueVL

/-! ### Threads at a queue -/

/-- What went through a queue that was empty. No thread is asleep that could go on, and so
none that wants to push besides one that wants to pop. -/
structure Served {β T : Type} (B : Buffer β α) (os : List (Observed α T)) (s : State β α T) : Prop where
  fifo : pushed os = popped os ++ B.contents s.buf
  bounded : (pushed os).length ≤ (popped os).length + B.capacity
  awake : Awake B s
  meet : ∀ t u x, s.phase t = .pushAsleep x → s.phase u ≠ .popAsleep

theorem served {β T : Type} [DecidableEq T] {B : Buffer β α} (hB : 0 < B.capacity) {b : β} (hb : B.size b = 0)
    (es : List (Event α T)) : Runs.Always (step B) (Served B) ⟨b, fun _ => .out⟩ es := by
  refine Runs.always_of_invariant (I := Inv B b) (K := fun _ => True) (fun os s h => ?_)
    (fun _ _ _ _ _ hi _ hs => hi.step hs) (fun _ _ => trivial) (.init (.out b))
  have hfifo : pushed os = popped os ++ B.contents s.buf := by
    have hnil : B.contents b = [] := List.length_eq_zero_iff.mp (by rw [B.length_contents, hb])
    rw [← h.fifo, hnil, List.nil_append]
  refine ⟨hfifo, ?_, h.awake, fun t u x ht hu => h.awake.not_both_asleep hB ht hu⟩
  rw [hfifo, List.length_append, B.length_contents]
  exact Nat.add_le_add_left (B.size_le _) _

theorem utQueue_served {n : ℕ} (hn : 0 < n) (T : Type) [DecidableEq T] (tpQueue : Fin n → α)
    (es : List (Event α T)) : Runs.Always (step (UTQueue.buffer n α)) (Served (UTQueue.buffer n α))
      ⟨⟨Ring.start hn, tpQueue⟩, fun _ => .out⟩ es :=
  served hn rfl es

theorem queueVL_served {n oneSize : ℕ} (hn : 0 < n) (T : Type) [DecidableEq T] (tpQueue : List UInt8)
    (h : tpQueue.length = oneSize * n) (es : List (Event (Record oneSize) T)) :
    Runs.Always (step (QueueVL.buffer n oneSize)) (Served (QueueVL.buffer n oneSize))
      ⟨⟨Ring.start hn, tpQueue, h⟩, fun _ => .out⟩ es :=
  served hn rfl es

/-- Whatever threads do at either queue, what they put in leaves it in the order it came,
and nobody sleeps who could go on. -/
theorem queues_served {n : ℕ} (hn : 0 < n) (T : Type) [DecidableEq T] :
    (∀ (tpQueue : Fin n → α) (es : List (Event α T)),
      Runs.Always (step (UTQueue.buffer n α)) (Served (UTQueue.buffer n α))
        ⟨⟨Ring.start hn, tpQueue⟩, fun _ => .out⟩ es) ∧
    ∀ (oneSize : ℕ) (tpQueue : List UInt8) (h : tpQueue.length = oneSize * n) (es : List (Event (Record oneSize) T)),
      Runs.Always (step (QueueVL.buffer n oneSize)) (Served (QueueVL.buffer n oneSize))
        ⟨⟨Ring.start hn, tpQueue, h⟩, fun _ => .out⟩ es :=
  ⟨utQueue_served hn T, fun _ => queueVL_served hn T⟩

/-- One thread puts two elements into a queue for one; at the second it sleeps until
another thread has taken the first. -/
def twoPuts (x y : α) : List (Event α Bool) :=
  [.push true x, .enter true, .push true y, .enter true, .pop false, .enter false, .enter true, .pop false,
    .enter false]

theorem exists_twoPuts {β : Type} (B : Buffer β α) (b : β) (x y : α)
    (h : (Runs.run (step B) ⟨b, fun _ => .out⟩ (twoPuts x y)).map (fun r => popped r.2) = some [x, y]) :
    ∃ s os, Runs.run (step B) ⟨b, fun _ => .out⟩ (twoPuts x y) = some (s, os) ∧ popped os = [x, y] := by
  rcases Option.map_eq_some_iff.mp h with ⟨⟨s, os⟩, hrun, hpop⟩
  exact ⟨s, os, hrun, hpop⟩

theorem queues_served_two :
    (∃ s os, Runs.run (step (UTQueue.buffer 1 ℕ)) ⟨⟨Ring.start Nat.one_pos, fun _ => 0⟩, fun _ => .out⟩
        (twoPuts 7 8) = some (s, os) ∧ popped os = [7, 8] ∧ Served (UTQueue.buffer 1 ℕ) os s) ∧
      ∃ s os, Runs.run (step (QueueVL.buffer 1 2)) ⟨⟨Ring.start Nat.one_pos, [0, 0], rfl⟩, fun _ => .out⟩
        (twoPuts ⟨[7, 1], rfl⟩ ⟨[8, 2], rfl⟩) = some (s, os) ∧ popped os = [⟨[7, 1], rfl⟩, ⟨[8, 2], rfl⟩] ∧
        Served (QueueVL.buffer 1 2) os s := by
  constructor
  · rcases exists_twoPuts (UTQueue.buffer 1 ℕ) ⟨Ring.start Nat.one_pos, fun _ => 0⟩ 7 8 (by decide +kernel) with
      ⟨s, os, hrun, hpop⟩
    have hserved := (queues_served Nat.one_pos Bool).1 (fun _ => 0) (twoPuts 7 8) (twoPuts 7 8) []
    exact ⟨s, os, hrun, hpop, hserved s os (List.append_nil _).symm hrun⟩
  · rcases exists_twoPuts (QueueVL.buffer 1 2) ⟨Ring.start Nat.one_pos, [0, 0], rfl⟩ ⟨[7, 1], rfl⟩ ⟨[8, 2], rfl⟩
      (by decide +kernel) with ⟨s, os, hrun, hpop⟩
    have hserved := (queues_served (α := ℕ) Nat.one_pos Bool).2 2 [0, 0] rfl
      (twoPuts ⟨[7, 1], rfl⟩ ⟨[8, 2], rfl⟩) (twoPuts ⟨[7, 1], rfl⟩ ⟨[8, 2], rfl⟩) []
    exact ⟨s, os, hrun, hpop, hserved s os (List.append_nil _).symm hrun⟩

end PrimaryElection.Util.Queue
