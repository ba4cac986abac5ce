import PrimaryElection.Framework.Feedback
import PrimaryElection.Lib.Runs

/-! The sync log: `process_feedback` writes records to sync.save, `thread_feedback`
renames it to sync.send, replays the records and removes the file. Both hold the
lock around their access to sync.save, so a write and a rename are single steps.
The file is opened for writing at its start: a record written while sync.save
exists overwrites the records in it. -/

namespace PrimaryElection.Framework.SyncLog

open CInt Bytes Runs

/-- The files, what `thread_feedback` has yet to read of an opened sync.send, and
whether a fixed buffer was overrun. -/
structure Sync where
  save : Option (List UInt8)
  send : Option (List UInt8)
  reading : Option (List UInt8)
  overrun : Bool
  deriving DecidableEq

/-- Neither file exists and the thread sleeps. -/
def Sync.init : Sync := ⟨none, none, none, false⟩

/-- The arguments of a call of `process_feedback` with a positive `push_num`. -/
structure Batch where
  uid : UInt64
  ids : List UInt64
  pos : 0 < ids.length
  small : ids.length < 2147483648

def Batch.push (b : Batch) : Push := Push.ofList b.uid b.ids

/-- A call of `process_feedback` and the steps of `thread_feedback`. -/
inductive Event where
  | feedback (b : Batch)
  | rename
  | openSend
  | replay
  | remove

inductive Obs where
  | wrote (p : Push)
  | renamed
  | replayed (p : Push)
  | silent

/-- Write after `fopen`: "wb" if there is no file, else "rb+", both at position 0. -/
def fwrite (file : Option (List UInt8)) (bs : List UInt8) : List UInt8 :=
  match file with
  | none => bs
  | some old => bs ++ old.drop bs.length

/-- Capacity of the buffer of `thread_feedback`. -/
def replayRoom : ℕ := 1048576

/-- The `size_t` of `(push_num + 1) << 3`, for the ids and the end flag. -/
def restSize (rest : List UInt8) : ℕ :=
  toSize (toInt32 ((int4Val ((rest.drop 8).take 4) + 1) * 8))

/-- One turn of the reading loop: the record and what follows it; none if one of
the two reads fails. -/
def fread (rest : List UInt8) : Option (Push × List UInt8) :=
  let body := (rest.drop 8).drop 4
  let num := int4Val ((rest.drop 8).take 4)
  if rest.length < 12 ∨ restSize rest = 0 ∨ body.length < restSize rest then none
  else some (⟨word8Val (rest.take 8), num, words8Val num.toNat body⟩, body.drop (restSize rest))

def overruns (rest : List UInt8) : Bool :=
  12 ≤ rest.length ∧ replayRoom < 12 + min (restSize rest) (rest.length - 12)

def step (s : Sync) : Event → Option (Sync × Obs)
  | .feedback b =>
    some ({ s with
      save := some (fwrite s.save (syncRecord b.push))
      overrun := s.overrun || (candidateFeedback b.push).isNone }, .wrote b.push)
  | .rename =>
    if s.reading = none ∧ s.send = none ∧ s.save ≠ none then
      some ({ s with save := none, send := s.save }, .renamed)
    else none
  | .openSend =>
    if s.reading = none ∧ s.send ≠ none then some ({ s with reading := s.send }, .silent) else none
  | .replay =>
    s.reading.bind fun rest => (fread rest).map fun r =>
      ({ s with
        reading := some r.2
        overrun := s.overrun || overruns rest || (candidateFeedback r.1).isNone }, .replayed r.1)
  | .remove =>
    s.reading.bind fun rest => if (fread rest).isSome then none else
      some ({ s with send := none, reading := none, overrun := s.overrun || overruns rest }, .silent)

/-! ### What the records should be -/

/-- The records written since the last rename, renamed so far, and replayed so far. -/
structure Ledger where
  pending : List Push
  renamed : List Push
  replayed : List Push

def Ledger.note (l : Ledger) : Obs → Ledger
  | .wrote p => { l with pending := l.pending ++ [p] }
  | .renamed => { l with pending := [], renamed := l.renamed ++ l.pending }
  | .replayed p => { l with replayed := l.replayed ++ [p] }
  | .silent => l

def ledger (os : List Obs) : Ledger := os.foldl Ledger.note ⟨[], [], []⟩

@[simp] theorem ledger_snoc (os : List Obs) (o : Obs) :
    ledger (os ++ [o]) = (ledger os).note o := by
  simp [ledger]

/-- sync.save is the concatenation of the records written since the last rename;
what is replayed is what was renamed, in order, and all of it once sync.send is
removed; no fixed buffer is overrun. -/
structure Faithful (os : List Obs) (s : Sync) : Prop where
  save : s.save.getD [] = (ledger os).pending.flatMap syncRecord
  inOrder : (ledger os).replayed <+: (ledger os).renamed
  complete : s.send = none → (ledger os).replayed = (ledger os).renamed
  inBounds : s.overrun = false

/-- A call of `process_feedback` finds no sync.save and fits the forwarding buffer. -/
def Safe (s : Sync) : Event → Prop
  | .feedback b => s.save = none ∧ b.ids.length ≤ 1277
  | _ => True

/-! ### Reading back a record -/

structure Short (p : Push) : Prop where
  num : p.num = p.lst.length
  pos : 0 < p.lst.length
  le : p.lst.length ≤ 1277

theorem Batch.short (b : Batch) (h : b.ids.length ≤ 1277) : Short b.push := ⟨rfl, b.pos, h⟩

theorem candidateFeedback_isNone (p : Push) (h : p.num = p.lst.length) :
    (candidateFeedback p).isNone = !decide (p.lst.length ≤ 1277) := by
  have hroom : (p.num < 0 ∨ feedbackRoom < 20 + 8 * p.num) ↔ ¬ p.lst.length ≤ 1277 := by
    unfold feedbackRoom
    omega
  unfold candidateFeedback
  simp only [hroom]
  by_cases hl : p.lst.length ≤ 1277 <;> simp [hl]

theorem candidateFeedback_short {p : Push} (h : Short p) : (candidateFeedback p).isNone = false := by
  rw [candidateFeedback_isNone p h.num, decide_eq_true h.le]
  rfl

theorem syncFlag_length : syncFlag.length = 8 := rfl

theorem syncRecord_append (p : Push) (rest : List UInt8) : syncRecord p ++ rest =
    word8 p.uid ++ (int4 p.num ++ (words8 p.lst ++ (syncFlag ++ rest))) := by
  simp [syncRecord]

theorem syncRecord_length {p : Push} : (syncRecord p).length = 20 + 8 * p.lst.length := by
  simp [syncRecord, syncFlag_length]
  omega

theorem restSize_record {p : Push} (h : Short p) (rest : List UInt8) :
    restSize (syncRecord p ++ rest) = 8 * p.lst.length + 8 := by
  have hn := h.num
  have hl := h.le
  have hv : int4Val (int4 p.num) = p.lst.length := by
    rw [hn, int4Val_int4 (by omega) (by omega)]
  rw [restSize, syncRecord_append, drop_word8_append, take_int4_append, hv,
    toInt32_eq (by omega) (by omega)]
  have := toSize_eq (x := ((p.lst.length : ℤ) + 1) * 8) (by omega) (by omega)
  omega

theorem fread_record {p : Push} (h : Short p) (rest : List UInt8) :
    fread (syncRecord p ++ rest) = some (p, rest) := by
  have hn := h.num
  have hl := h.le
  have hv : int4Val (int4 p.num) = p.lst.length := by
    rw [hn, int4Val_int4 (by omega) (by omega)]
  have hbody : ((syncRecord p ++ rest).drop 8).drop 4 = words8 p.lst ++ (syncFlag ++ rest) := by
    rw [syncRecord_append, drop_word8_append, drop_int4_append]
  have hnum : int4Val (((syncRecord p ++ rest).drop 8).take 4) = p.lst.length := by
    rw [syncRecord_append, drop_word8_append, take_int4_append, hv]
  have huid : word8Val ((syncRecord p ++ rest).take 8) = p.uid := by
    rw [syncRecord_append, take_word8_append, word8Val_word8]
  have hrest : (words8 p.lst ++ (syncFlag ++ rest)).drop (8 * p.lst.length + 8) = rest := by
    rw [← List.append_assoc]
    exact List.drop_left' (by simp [syncFlag_length])
  have hcond : ¬ ((syncRecord p ++ rest).length < 12 ∨ 8 * p.lst.length + 8 = 0 ∨
      (words8 p.lst ++ (syncFlag ++ rest)).length < 8 * p.lst.length + 8) := by
    simp only [List.length_append, syncRecord_length, words8_length, syncFlag_length]
    omega
  simp only [fread, restSize_record h, hbody, hnum, huid, hrest, if_neg hcond, Int.toNat_natCast,
    words8Val_words8]
  rw [← hn]

theorem fread_nil : fread [] = none := rfl

theorem overruns_record {p : Push} (h : Short p) (rest : List UInt8) :
    overruns (syncRecord p ++ rest) = false := by
  have hl := h.le
  have hmin : min (8 * p.lst.length + 8) ((syncRecord p ++ rest).length - 12) ≤
      8 * p.lst.length + 8 := min_le_left _ _
  simp only [overruns, restSize_record h, decide_eq_false_iff_not, replayRoom]
  omega

/-! ### The invariant of safe runs -/

/-- What `thread_feedback` still has to replay: the unread part of the opened file,
or the whole of sync.send. -/
def Sync.unread (s : Sync) : List UInt8 := s.reading.getD (s.send.getD [])

/-- All records are short; sync.save exists only with records in it; the unread
bytes are the records renamed and not yet replayed. -/
structure Inv (os : List Obs) (s : Sync) : Prop where
  short : ∀ p ∈ (ledger os).pending ++ (ledger os).renamed, Short p
  save : s.save = if (ledger os).pending = [] then none else
    some ((ledger os).pending.flatMap syncRecord)
  unread : ∃ batch, s.unread = batch.flatMap syncRecord ∧
    (ledger os).renamed = (ledger os).replayed ++ batch
  send : s.send = none → s.reading = none
  inBounds : s.overrun = false

theorem syncRecord_ne_nil (p : Push) : syncRecord p ≠ [] := by
  rw [← List.length_pos_iff, syncRecord_length]
  omega

theorem flatMap_syncRecord_eq_nil {ps : List Push} (h : ps.flatMap syncRecord = []) : ps = [] := by
  cases ps with
  | nil => rfl
  | cons p ps =>
    rw [List.flatMap_cons, List.append_eq_nil_iff] at h
    exact absurd h.1 (syncRecord_ne_nil p)

theorem inv_init : Inv [] Sync.init := ⟨by simp [ledger], rfl, ⟨[], rfl, rfl⟩, fun _ => rfl, rfl⟩

theorem Inv.faithful {os : List Obs} {s : Sync} (h : Inv os s) : Faithful os s := by
  obtain ⟨batch, hunread, hren⟩ := h.unread
  refine ⟨?_, ⟨batch, hren.symm⟩, fun hsend => ?_, h.inBounds⟩
  · rw [h.save]
    by_cases hp : (ledger os).pending = []
    · simp [hp]
    · simp [hp]
  · -- nothing is left to read once sync.send is gone
    rw [Sync.unread, h.send hsend, hsend] at hunread
    rw [hren, flatMap_syncRecord_eq_nil hunread.symm, List.append_nil]

theorem inv_feedback {os : List Obs} {s s' : Sync} {b : Batch} {o : Obs} (h : Inv os s)
    (hs : Safe s (.feedback b)) (hstep : step s (.feedback b) = some (s', o)) :
    Inv (os ++ [o]) s' := by
  obtain ⟨hnone, hle⟩ := hs
  have hp : (ledger os).pending = [] := by
    by_contra hne
    rw [h.save, if_neg hne] at hnone
    cases hnone
  have hfit := candidateFeedback_short (b.short hle)
  cases hstep
  refine ⟨?_, ?_, ?_, h.send, ?_⟩
  · simp only [ledger_snoc, Ledger.note, hp, List.nil_append]
    intro p hmem
    rcases List.mem_append.mp hmem with hm | hm
    · rw [List.mem_singleton.mp hm]
      exact b.short hle
    · exact h.short p (List.mem_append_right _ hm)
  · simp [Ledger.note, hp, hnone, fwrite]
  · simpa [Ledger.note, Sync.unread] using h.unread
  · simp [h.inBounds, hfit]

theorem inv_rename {os : List Obs} {s s' : Sync} {o : Obs} (h : Inv os s)
    (hstep : step s .rename = some (s', o)) : Inv (os ++ [o]) s' := by
  simp only [step] at hstep
  split at hstep
  · rename_i hc
    obtain ⟨hread, hsend, hsave⟩ := hc
    cases hstep
    have hp : (ledger os).pending ≠ [] := by
      intro hp
      rw [h.save, if_pos hp] at hsave
      exact hsave rfl
    obtain ⟨batch, hunread, hren⟩ := h.unread
    have hb : batch = [] := by
      rw [Sync.unread, hread, hsend] at hunread
      exact flatMap_syncRecord_eq_nil hunread.symm
    refine ⟨?_, by simp [Ledger.note], ⟨(ledger os).pending, ?_, ?_⟩, fun _ => hread, h.inBounds⟩
    · intro p hmem
      simp only [ledger_snoc, Ledger.note, List.nil_append, List.mem_append] at hmem
      exact h.short p (List.mem_append.mpr hmem.symm)
    · simp [Sync.unread, hread, h.save, hp]
    · simp [Ledger.note, hren, hb]
  · cases hstep

theorem inv_openSend {os : List Obs} {s s' : Sync} {o : Obs} (h : Inv os s)
    (hstep : step s .openSend = some (s', o)) : Inv (os ++ [o]) s' := by
  simp only [step] at hstep
  split at hstep
  · rename_i hc
    obtain ⟨hread, hsend⟩ := hc
    cases hstep
    obtain ⟨batch, hunread, hren⟩ := h.unread
    obtain ⟨bs, hbs⟩ := Option.ne_none_iff_exists'.mp hsend
    refine ⟨by simpa [Ledger.note] using h.short, by simpa [Ledger.note] using h.save,
      ⟨batch, ?_, by simpa [Ledger.note] using hren⟩, fun hn => absurd hn hsend, h.inBounds⟩
    rw [← hunread, Sync.unread, Sync.unread, hread, hbs]
    rfl
  · cases hstep

theorem inv_replay {os : List Obs} {s s' : Sync} {o : Obs} (h : Inv os s)
    (hstep : step s .replay = some (s', o)) : Inv (os ++ [o]) s' := by
  simp only [step, Option.bind_eq_some_iff, Option.map_eq_some_iff] at hstep
  obtain ⟨rest, hread, ⟨p, rest'⟩, hf, heq⟩ := hstep
  cases heq
  obtain ⟨batch, hunread, hren⟩ := h.unread
  rw [Sync.unread, hread, Option.getD_some] at hunread
  cases batch with
  | nil =>
    rw [hunread, List.flatMap_nil, fread_nil] at hf
    cases hf
  | cons q batch =>
    have hq : Short q := h.short q (by simp [hren])
    rw [List.flatMap_cons] at hunread
    rw [hunread, fread_record hq] at hf
    cases hf
    have hfit := candidateFeedback_short hq
    refine ⟨by simpa [Ledger.note] using h.short, by simpa [Ledger.note] using h.save,
      ⟨batch, by simp [Sync.unread], ?_⟩, ?_, ?_⟩
    · simp [Ledger.note, hren]
    · intro hn
      rw [h.send hn] at hread
      cases hread
    · simp [h.inBounds, hfit, hunread, overruns_record hq]

theorem inv_remove {os : List Obs} {s s' : Sync} {o : Obs} (h : Inv os s)
    (hstep : step s .remove = some (s', o)) : Inv (os ++ [o]) s' := by
  simp only [step, Option.bind_eq_some_iff] at hstep
  obtain ⟨rest, hread, hstep⟩ := hstep
  split at hstep
  · cases hstep
  · rename_i hf
    cases hstep
    obtain ⟨batch, hunread, hren⟩ := h.unread
    rw [Sync.unread, hread, Option.getD_some] at hunread
    -- the loop ends only at the end of the file
    have hb : batch = [] := by
      cases batch with
      | nil => rfl
      | cons q batch =>
        have hq : Short q := h.short q (by simp [hren])
        rw [hunread, List.flatMap_cons, fread_record hq] at hf
        exact absurd rfl hf
    subst hb
    refine ⟨by simpa [Ledger.note] using h.short, by simpa [Ledger.note] using h.save,
      ⟨[], rfl, by simpa [Ledger.note] using hren⟩, fun _ => rfl, ?_⟩
    rw [hunread]
    simp [h.inBounds, overruns]

theorem inv_step (os : List Obs) (s : Sync) (e : Event) (s' : Sync) (o : Obs) (h : Inv os s)
    (hs : Safe s e) (hstep : step s e = some (s', o)) : Inv (os ++ [o]) s' := by
  cases e with
  | feedback b => exact inv_feedback h hs hstep
  | rename => exact inv_rename h hstep
  | openSend => exact inv_openSend h hstep
  | replay => exact inv_replay h hstep
  | remove => exact inv_remove h hstep

/-! ### The defect -/

theorem fwrite_ne_append {old bs : List UInt8} (ho : old ≠ []) (hb : bs ≠ []) :
    fwrite (some old) bs ≠ old ++ bs := by
  intro h
  have h₁ := List.length_pos_iff.mpr ho
  have h₂ := List.length_pos_iff.mpr hb
  have hl := congrArg List.length h
  simp only [fwrite, List.length_append, List.length_drop] at hl
  omega

/-- An unsafe call loses records or overruns the forwarding buffer. -/
theorem unsafe_breaks (os : List Obs) (s : Sync) (e : Event) (h : Inv os s) (hs : ¬ Safe s e) :
    ∃ s' o, step s e = some (s', o) ∧ ¬ Faithful (os ++ [o]) s' := by
  cases e with
  | feedback b =>
    refine ⟨_, _, rfl, fun hf => ?_⟩
    by_cases hle : b.ids.length ≤ 1277
    · have hp : (ledger os).pending ≠ [] := by
        intro hp
        exact hs ⟨by rw [h.save, if_pos hp], hle⟩
      have hold : (ledger os).pending.flatMap syncRecord ≠ [] :=
        fun hn => hp (flatMap_syncRecord_eq_nil hn)
      have hsave := hf.save
      rw [h.save, if_neg hp] at hsave
      simp only [ledger_snoc, Ledger.note, Option.getD_some, List.flatMap_append,
        List.flatMap_cons, List.flatMap_nil, List.append_nil] at hsave
      exact fwrite_ne_append hold (syncRecord_ne_nil b.push) hsave
    · have hb := hf.inBounds
      rw [candidateFeedback_isNone b.push rfl] at hb
      simp only [Batch.push, Push.ofList, hle, Bool.or_eq_false_iff] at hb
      exact absurd hb.2 (by simp)
  | rename => exact absurd trivial hs
  | openSend => exact absurd trivial hs
  | replay => exact absurd trivial hs
  | remove => exact absurd trivial hs

/-- Throughout a run of feedback calls and replays the sync log loses and corrupts
nothing exactly when each call finds no sync.save, so that no record has been
written since the last rename, and its list fits the forwarding buffer. -/
theorem faithful_iff_safe (evs : List Event) :
    Always step Faithful Sync.init evs ↔ Along step Safe Sync.init evs :=
  always_iff_along (fun _ _ h => h.faithful) inv_step unsafe_breaks evs inv_init

/-- A list of one id is written, then a list of two ids: the first record is gone. -/
theorem second_record_overwrites :
    let first : Batch := ⟨7, [1], by decide, by decide⟩
    let second : Batch := ⟨8, [2, 3], by decide, by decide⟩
    ∃ s os, run step Sync.init [.feedback first, .feedback second] = some (s, os) ∧
      s.save = some (syncRecord second.push) ∧
      (ledger os).pending = [first.push, second.push] ∧
      ¬ Always step Faithful Sync.init [.feedback first, .feedback second] := by
  refine ⟨_, _, rfl, rfl, rfl, fun h => ?_⟩
  have hf := (h [_, _] [] _ _ rfl rfl).save
  exact absurd hf (by decide)

end PrimaryElection.Framework.SyncLog
