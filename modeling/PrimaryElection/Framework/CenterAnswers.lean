import PrimaryElection.Framework.CenterAccounts
import PrimaryElection.Framework.FanOutRuns

/-! What requests get from `UC_CenterMessage`. Each message is handled as if it were alone: the
machines are sent this message, and its request gets the combination of their answers. -/

namespace PrimaryElection.Framework.CenterRequests

open CInt Bytes Memory Runs Util
open Encoder (Outcome)

variable {c : Config} {C X : Type} [DecidableEq C]

/-! ### Each message alone -/

/-- What happens at each message is a run of that message alone, which its handle's block
shows, and its result is returned only after its end. No two requests have a node or a byte of
a handle in common, and the threads and the queue refer only to nodes of requests that wait
for their results. -/
structure Alone (P : Processor X) (os : List (Observed c C)) (s : State c C X) : Prop where
  distributed : ∀ r g, s.origin r = some g → ∃ m₀, P.distributeTask m₀ g.messageBuf = .ok g.mem
  stream : ∀ r g, s.origin r = some g → ∃ S : Stream c.workingNum,
    run (Stream.step (P.fan g.answers)) (Stream.init (P.fan g.answers) g.mem) ((part r os).map Prod.fst) =
      some (S, (part r os).map Prod.snd) ∧ (∀ handle, s.handleOf r = some handle → s.mem P handle = S.mem) ∧
    ∀ result, s.request r = .returned result → S.referFin = true ∧
      ∃ resultLen, P.extractResult S.mem resultLen = .ok result
  begun : ∀ r result, s.request r = .returned result → ∃ g, s.origin r = some g
  nodes : ∀ r r' p, s.nodeOf r = some p → s.nodeOf r' = some p → r = r'
  handles : ∀ r r' handle handle', s.handleOf r = some handle → s.handleOf r' = some handle' → r ≠ r' →
    handle + P.memSize ≤ handle' ∨ handle' + P.memSize ≤ handle
  held : ∀ p, s.Active p → ∃ r, s.nodeOf r = some p ∧ ¬ (s.request r).Seen

variable {P : Processor X} {os : List (Observed c C)} {s : State c C X}

theorem Inv.alone (h : Inv P os s) : Alone P os s := by
  constructor
  · intro r g hg
    exact ((h.accounts r).stream g hg).2.1
  · intro r g hg
    rcases (h.accounts r).stream g hg with ⟨-, -, S, hrun, hf⟩
    refine ⟨S, hrun, fun handle hh => (hf.mem handle hh).symm, fun result hr => ⟨hf.seen ?_, hf.result result ?_⟩⟩
    · rw [hr]
      trivial
    · rw [hr]
      rfl
  · intro r result hr
    refine (h.accounts r).begun.mpr ?_
    rw [hr]
    trivial
  · exact h.nodes.unique
  · intro r r' handle handle' hh hh' hne
    rcases h.handlesOk with ⟨free, hok⟩
    have hnone : MemAllocator.Observed.aborted ∉ ([] : List MemAllocator.Observed) := List.not_mem_nil
    have hdisjoint := (hok.kept hnone).disjoint
    have hsymm : Std.Symm fun p q : ℤ => p + P.handles.size ≤ q ∨ q + P.handles.size ≤ p :=
      ⟨fun _ _ => Or.symm⟩
    refine hdisjoint.forall (h.handle_out hh) (h.handle_out hh') ?_
    rintro rfl
    exact hne (h.handles.unique r r' handle hh hh')
  · intro p hp
    rcases h.active hp with ⟨r, g, hat⟩
    exact ⟨r, hat.nodeOf, hat.unseen⟩

/-- However many requests there are and whatever they and the threads do, each message is
handled as if it were alone. -/
theorem messages_alone (P : Processor X) (m : Mem) (node : ℤ → StreamNode C)
    (tpQueue : Fin c.queueLen → ℤ) (es : List (Event c C X)) :
    Always (step P) (Alone P) (State.init c C X m node tpQueue) es :=
  always_of_invariant (I := Inv P) (K := fun _ => True) (fun _ _ h => h.alone)
    (fun _ _ _ _ _ h _ hs => h.step hs) (fun _ _ => trivial) (.init m node tpQueue)

/-! ### The two processors -/

/-- What `process_task` sends, of what is in the handle. -/
def sent (head : ℤ) (m : Mem) : List UInt8 :=
  load m (head + CalcConfig.offsetSend + 4) (loadInt m (head + CalcConfig.offsetSend)).toNat

/-- What is sent depends on the send region. -/
theorem sent_congr {cc : CalcConfig} {head : ℤ} {m m' : Mem} (hle : ((sent head m).length : ℤ) ≤ cc.fwCalcSendSize)
    (h : ∀ y, y ∈ cc.sendRegion head → m' y = m y) : sent head m' = sent head m := by
  have hsize : loadInt m' (head + CalcConfig.offsetSend) = loadInt m (head + CalcConfig.offsetSend) :=
    loadInt_congr fun y h₁ h₂ => h y ⟨h₁, by omega⟩
  have hlen : (sent head m).length = (loadInt m (head + CalcConfig.offsetSend)).toNat := load_length _ _ _
  rw [sent, hsize]
  refine load_congr fun y h₁ h₂ => h y ⟨by omega, ?_⟩
  omega

/-- Tasks of the message have yet to return. -/
def Tasking : Phase → Prop
  | .popped => True
  | .running _ _ => True
  | _ => False

/-- While the tasks of a message run, the machines are sent its body, and what its request gets
is what their answers mean. -/
structure Answered (P : Processor (ℕ → Exchange)) (cc : CalcConfig) (head : ℤ) (body : List UInt8 → List UInt8)
    (Meant : (ℕ → Exchange) → List UInt8 → Prop) (s : State c C (ℕ → Exchange)) : Prop where
  sent : ∀ w p φ, s.worker w = .busy p φ → Tasking φ → ∃ r g, s.nodeOf r = some p ∧ s.origin r = some g ∧
    ((∀ k < cc.machines, (g.answers k).Within cc) → sent head (s.mem P (s.node p).handle) = body g.messageBuf)
  results : ∀ r result, s.request r = .returned result → ∃ g, s.origin r = some g ∧
    ((∀ k < cc.machines, (g.answers k).Within cc) → Meant g.answers result)

/-- No task of a message has combined while one has yet to return. -/
theorem not_combined {W : ℕ} {fan : Fan} {ks : List ℕ} {called : Bool} {S : Stream W}
    (h : Stream.Control fan ks called S) {w : Fin W} (hw : Tasking (S.worker w)) : called = false := by
  cases hp : S.worker w with
  | running k todo => exact (h.running_lt hp).2.2
  | popped =>
    have hholds := S.le_tally Phase.holds w
    have hcopies := h.copies
    have hdrawn := h.drawn
    have hfin := h.fin
    rw [hp, Phase.holds] at hholds
    have hearly := h.early (by omega)
    cases called with
    | false => rfl
    | true => simp at hearly
  | _ =>
    rw [hp] at hw
    cases hw

/-- A processor whose tasks keep to their slots and whose results mean what they should. -/
structure Fair (P : Processor (ℕ → Exchange)) (cc : CalcConfig) (head : ℤ) (body : List UInt8 → List UInt8)
    (Meant : (ℕ → Exchange) → List UInt8 → Prop) : Prop where
  separated : cc.Separated head
  tasks : ∀ x : ℕ → Exchange, (∀ k < cc.machines, (x k).Within cc) →
    ∀ k < (P.fan x).allCount, ∀ z ∈ (P.fan x).task k, z.footprint ⊆ cc.slot head k
  distributed : ∀ m₀ messageBuf m, P.distributeTask m₀ messageBuf = .ok m →
    sent head m = body messageBuf ∧ ((body messageBuf).length : ℤ) ≤ cc.fwCalcSendSize
  results : ∀ (W : ℕ) x m calls (S : Stream W), (∀ k < cc.machines, (x k).Within cc) →
    Stream.Finished (P.fan x) m calls S → ∀ resultLen result,
      P.extractResult S.mem resultLen = .ok result → Meant x result

theorem Inv.answered {P : Processor (ℕ → Exchange)} {os : List (Observed c C)} {s : State c C (ℕ → Exchange)}
    (h : Inv P os s) {cc : CalcConfig} {head : ℤ} {body : List UInt8 → List UInt8}
    {Meant : (ℕ → Exchange) → List UInt8 → Prop} (hP : Fair P cc head body Meant) :
    Answered P cc head body Meant s := by
  constructor
  · intro w p φ hw hφ
    rcases h.active (.inr ⟨w, φ, hw⟩) with ⟨r, g, hat⟩
    refine ⟨r, g, hat.nodeOf, hat.origin, fun hx => ?_⟩
    rcases (h.accounts r).stream g hat.origin with ⟨hpos, ⟨m₀, hm⟩, -⟩
    have hinv := Stream.inv_run hpos hP.separated.slots (hP.tasks g.answers hx) hat.stream
    have hphase : (s.view p (s.request r).copies (s.mem P (s.node p).handle)).worker w = φ := by
      change (s.worker w).phase p = φ
      rw [hw, Worker.phase_busy]
    have hcalled := not_combined hinv.control (hphase.symm ▸ hφ)
    rcases hinv.progress hcalled with ⟨done, hdone, -⟩
    rcases hP.distributed m₀ g.messageBuf g.mem hm with ⟨hsent, hle⟩
    have hsame : ∀ y, y ∈ cc.sendRegion head → s.mem P (s.node p).handle y = g.mem y := by
      intro y hy
      exact hdone.outside y fun k hk => Set.disjoint_left.mp (hP.separated.send_slot k) hy hk
    rw [sent_congr (by rw [hsent]; exact hle) hsame, hsent]
  · intro r result hr
    rcases (h.accounts r).begun.mpr (by rw [hr]; trivial) with ⟨g, hg⟩
    refine ⟨g, hg, fun hx => ?_⟩
    rcases (h.accounts r).stream g hg with ⟨hpos, -, S, hrun, hf⟩
    rcases hf.result result (by rw [hr]; rfl) with ⟨resultLen, hextract⟩
    have hfinished := Stream.finished_of_referFin hpos hP.separated.slots (hP.tasks g.answers hx) hrun
      (hf.seen (by rw [hr]; trivial))
    exact hP.results _ _ _ _ S hx hfinished resultLen result hextract

/-- The message of a query without the pointer of its log file. -/
def queryBody (messageBuf : List UInt8) : List UInt8 := messageBuf.drop 8

/-- The common count of the accepted answers (zero if there are none), and the scores added up
in machine order. -/
def QueryMeant (ops : QueryProcessor.FloatOps) (cc : CalcConfig) (x : ℕ → Exchange) (result : List UInt8) : Prop :=
  ∀ num : ℕ, (∀ i < cc.machines, ∀ p, QueryProcessor.accepted (x i) = some p → QueryProcessor.replyNum p = num) →
    4 + 4 * (num : ℤ) ≤ cc.fwCalcResultSize →
    result = int4 (QueryProcessor.resultNum cc x num) ++
      (List.range (QueryProcessor.resultNum cc x num)).flatMap fun j => leBytes 4 (QueryProcessor.score ops cc x j).toNat

/-- The number of machines that did not answer with the 4-byte value zero. -/
def UpdateMeant (cc : CalcConfig) (x : ℕ → Exchange) (result : List UInt8) : Prop :=
  result = int4 (UpdateProcessor.failures cc x)

theorem extractResult_unique {resBuf : ℤ} {m : Mem} {resultLen resultLen' : ℤ} {result result' : List UInt8}
    (h : extractResult resBuf m resultLen = .ok result) (h' : extractResult resBuf m resultLen' = .ok result') :
    result = result' := by
  rw [extractResult] at h h'
  split_ifs at h h'
  exact (Outcome.ok.inj h).symm.trans (Outcome.ok.inj h')

/-- A body behind its length is sent as it is. -/
theorem sent_stored {body : List UInt8} (hlen : (body.length : ℤ) < 2147483648) (head : ℤ) (m : Mem) :
    sent head (applyAll [storeInt head body.length, ⟨head + 4, body⟩] m) = body := by
  have hsize : loadInt (applyAll [storeInt head body.length, ⟨head + 4, body⟩] m) head = body.length := by
    refine loadInt_of_load ?_ (by omega) hlen
    exact (load_store_of_disjoint (.inl le_rfl)).trans (load_storeInt m head body.length)
  rw [sent, CalcConfig.offsetSend, add_zero, hsize, Int.toNat_natCast]
  exact load_store_self ⟨head + 4, body⟩ _

theorem queryFair (ops : QueryProcessor.FloatOps) {cc : CalcConfig} (h : cc.Fits QueryProcessor.head) :
    Fair (queryProcessor ops cc) cc QueryProcessor.head queryBody (QueryMeant ops cc) := by
  have hsizes := h.sizes_lt (by decide)
  constructor
  · exact h.separated (by decide)
  · exact fun x hx => fan_footprint h hx
  · intro m₀ messageBuf m hm
    rcases QueryProcessor.distributeTask_ok hsizes.1 hm with ⟨hlen, h8, rfl⟩
    have hbody : (queryBody messageBuf).length = messageBuf.length - 8 := List.length_drop
    have hsize : (messageBuf.length : ℤ) - 8 = (queryBody messageBuf).length := by omega
    have hlt : ((queryBody messageBuf).length : ℤ) < 2147483648 := by omega
    rw [hsize]
    exact ⟨sent_stored hlt 8 _, by omega⟩
  · intro W x m calls S hx hf resultLen result hextract num hnum hle
    have hfinished : Stream.Finished (QueryProcessor.fan ops cc x) m calls S := hf
    rcases QueryProcessor.result_of_finished h hx hfinished num hnum hle with ⟨-, -, hres⟩
    have hall := hres (4 + 4 * (QueryProcessor.resultNum cc x num : ℤ)) le_rfl
    simp only [queryProcessor, QueryProcessor.extractResult] at hextract hall
    exact extractResult_unique hextract hall

theorem updateFair {cc : CalcConfig} (h : cc.Fits UpdateProcessor.head) :
    Fair (updateProcessor cc) cc UpdateProcessor.head id (UpdateMeant cc) := by
  have hsizes := h.sizes_lt (by decide)
  constructor
  · exact h.separated (by decide)
  · exact fun x hx => fan_footprint h hx
  · intro m₀ messageBuf m hm
    rcases UpdateProcessor.distributeTask_ok hsizes.1 hm with ⟨hlen, rfl⟩
    rw [id_eq]
    exact ⟨sent_stored (by omega) 0 m₀, hlen⟩
  · intro W x m calls S hx hf resultLen result hextract
    have hfinished : Stream.Finished (UpdateProcessor.fan cc x) m calls S := hf
    rcases UpdateProcessor.result_of_finished h hx hfinished with ⟨-, -, hres⟩
    have hall := hres 4 le_rfl
    simp only [updateProcessor, UpdateProcessor.extractResult] at hextract hall
    exact extractResult_unique hextract hall

theorem Fair.always {P : Processor (ℕ → Exchange)} {cc : CalcConfig} {head : ℤ} {body : List UInt8 → List UInt8}
    {Meant : (ℕ → Exchange) → List UInt8 → Prop} (hP : Fair P cc head body Meant) (m : Mem)
    (node : ℤ → StreamNode C) (tpQueue : Fin c.queueLen → ℤ) (es : List (Event c C (ℕ → Exchange))) :
    Always (step P) (fun _ s => Answered P cc head body Meant s) (State.init c C (ℕ → Exchange) m node tpQueue) es :=
  always_of_invariant (I := Inv P) (K := fun _ => True) (fun _ _ h => h.answered hP)
    (fun _ _ _ _ _ h _ hs => h.step hs) (fun _ _ => trivial) (.init m node tpQueue)

/-- Whatever other requests there are, the machines are sent each message as it was put, and
its request gets the combination of the answers to it. -/
theorem answers_own (cc : CalcConfig) (ops : QueryProcessor.FloatOps) (m : Mem)
    (node : ℤ → StreamNode C) (tpQueue : Fin c.queueLen → ℤ) (es : List (Event c C (ℕ → Exchange))) :
    (cc.Fits QueryProcessor.head →
      Always (step (queryProcessor ops cc))
        (fun _ s => Answered (queryProcessor ops cc) cc QueryProcessor.head queryBody (QueryMeant ops cc) s)
        (State.init c C (ℕ → Exchange) m node tpQueue) es) ∧
    (cc.Fits UpdateProcessor.head →
      Always (step (updateProcessor cc))
        (fun _ s => Answered (updateProcessor cc) cc UpdateProcessor.head id (UpdateMeant cc) s)
        (State.init c C (ℕ → Exchange) m node tpQueue) es) := by
  constructor
  · exact fun hq => (queryFair ops hq).always m node tpQueue es
  · exact fun hu => (updateFair hu).always m node tpQueue es

/-! ### Two requests -/

def onePlace : Config := ⟨1, 2, Nat.one_pos⟩

def threadA : Fin onePlace.workingNum := ⟨0, Nat.two_pos⟩

def threadB : Fin onePlace.workingNum := ⟨1, Nat.one_lt_two⟩

def unasked : State onePlace Bool (ℕ → Exchange) :=
  .init _ _ _ (fun _ => 0) (fun _ => ⟨⟨0, fun _ => [], fun _ => none⟩, 0, 0, 0, false, false, false⟩) fun _ => 0

/-- Two requests at once to their results, the second of which gets other answers. -/
def twoRequests (x : ℕ → Exchange) : List (Event onePlace Bool (ℕ → Exchange)) :=
  [.newHandle false twoBytes x 4096, .newHandle true (twoBytes ++ [11]) (fun k => x (k + 1)) 0, .pop threadA,
    .pop threadB, .distribute false, .distribute true, .newNode false 1048576, .newNode true 0, .queue (.inr threadA),
    .push false, .queue (.inl false), .push true, .queue (.inl true), .queue (.inr threadB), .fetch threadB,
    .write threadB, .queue (.inr threadA), .push false, .queue (.inl false), .queue (.inl true), .write threadB,
    .queue (.inr threadA), .push false, .queue (.inl false), .fetch threadA, .write threadA, .finish threadA,
    .queue (.inl true), .write threadB, .pop threadA, .queue (.inr threadA), .fetch threadA, .write threadA,
    .queue (.inl true), .write threadB, .finish threadB, .pop threadB, .write threadA, .push true, .queue (.inl true),
    .queue (.inr threadB), .fetch threadB, .write threadB, .finish threadB, .pop threadB, .write threadA,
    .finish threadA, .combine threadA, .publish threadA, .queue (.inl true), .queue (.inr threadB), .fetch threadB,
    .write threadB, .extract false 12, .delHandle false, .putNode false, .pop threadA, .queue (.inr threadA), .push true,
    .queue (.inl true), .write threadB, .queue (.inr threadA), .fetch threadA, .write threadA, .write threadB,
    .finish threadB, .pop threadB, .write threadA, .queue (.inr threadB), .write threadA, .finish threadA,
    .combine threadA, .publish threadA, .extract true 12, .delHandle true, .putNode true, .pop threadA,
    .queue (.inr threadA)]

namespace State

def returns (s : State onePlace Bool (ℕ → Exchange)) (r : Bool) (result : List UInt8) : Bool :=
  match s.request r with
  | .returned result' => result' = result
  | _ => false

def waits (s : State onePlace Bool (ℕ → Exchange)) (w : Fin onePlace.workingNum) : Bool :=
  (s.worker w matches .popping) && (s.queue.phase (.inr w) matches .popAsleep)

def answered (s : State onePlace Bool (ℕ → Exchange)) (first second : List UInt8) : Bool :=
  !s.aborted && s.returns false first && s.returns true second && (s.queue.phase (.inl false) matches .out) &&
    (s.queue.phase (.inl true) matches .out) && s.waits threadA && s.waits threadB

theorem returns_eq {s : State onePlace Bool (ℕ → Exchange)} {r : Bool} {result : List UInt8}
    (h : s.returns r result = true) : s.request r = .returned result := by
  unfold returns at h
  split at h
  next hr => rw [hr, of_decide_eq_true h]
  next => cases h

end State

theorem twoQueries_run : ((run (step (queryProcessor bitOps threeMachines)) unasked (twoRequests twoScores)).elim false
    fun r => r.1.answered [2, 0, 0, 0, 14, 0, 0, 0, 22, 0, 0, 0] [2, 0, 0, 0, 7, 0, 0, 0, 14, 0, 0, 0]) = true := by
  decide +kernel

theorem twoUpdates_run : ((run (step (updateProcessor threeMachines)) unasked (twoRequests oneUpdated)).elim false
    fun r => r.1.answered [2, 0, 0, 0] [3, 0, 0, 0]) = true := by
  decide +kernel

theorem exists_answered {P : Processor (ℕ → Exchange)} {x : ℕ → Exchange} {first second : List UInt8}
    (h : ((run (step P) unasked (twoRequests x)).elim false fun r => r.1.answered first second) = true) :
    ∃ s os, run (step P) unasked (twoRequests x) = some (s, os) ∧ s.answered first second = true := by
  cases hrun : run (step P) unasked (twoRequests x) with
  | none =>
    rw [hrun] at h
    cases h
  | some r =>
    rw [hrun] at h
    exact ⟨r.1, r.2, rfl, h⟩

/-- Each request gets the answers to its own message. -/
theorem answers_own_two :
    (∃ s os, run (step (queryProcessor bitOps threeMachines)) unasked (twoRequests twoScores) = some (s, os) ∧
      s.request false = .returned [2, 0, 0, 0, 14, 0, 0, 0, 22, 0, 0, 0] ∧
      s.request true = .returned [2, 0, 0, 0, 7, 0, 0, 0, 14, 0, 0, 0] ∧
      Answered (queryProcessor bitOps threeMachines) threeMachines QueryProcessor.head queryBody
        (QueryMeant bitOps threeMachines) s) ∧
    ∃ s os, run (step (updateProcessor threeMachines)) unasked (twoRequests oneUpdated) = some (s, os) ∧
      s.request false = .returned [2, 0, 0, 0] ∧ s.request true = .returned [3, 0, 0, 0] ∧
      Answered (updateProcessor threeMachines) threeMachines UpdateProcessor.head id (UpdateMeant threeMachines) s := by
  constructor
  · rcases exists_answered twoQueries_run with ⟨s, os, hrun, hanswered⟩
    have hfits : threeMachines.Fits QueryProcessor.head := ⟨by decide, by decide, by decide, by decide, by decide⟩
    have hown := (answers_own (c := onePlace) (C := Bool) threeMachines bitOps (fun _ => 0)
      (fun _ => ⟨⟨0, fun _ => [], fun _ => none⟩, 0, 0, 0, false, false, false⟩) (fun _ => 0)
      (twoRequests twoScores)).1 hfits
    simp only [State.answered, Bool.and_eq_true] at hanswered
    exact ⟨s, os, hrun, State.returns_eq hanswered.1.1.1.1.1.2, State.returns_eq hanswered.1.1.1.1.2,
      hown (twoRequests twoScores) [] s os (List.append_nil _).symm hrun⟩
  · rcases exists_answered twoUpdates_run with ⟨s, os, hrun, hanswered⟩
    have hfits : threeMachines.Fits UpdateProcessor.head := ⟨by decide, by decide, by decide, by decide, by decide⟩
    have hown := (answers_own (c := onePlace) (C := Bool) threeMachines bitOps (fun _ => 0)
      (fun _ => ⟨⟨0, fun _ => [], fun _ => none⟩, 0, 0, 0, false, false, false⟩) (fun _ => 0)
      (twoRequests oneUpdated)).2 hfits
    simp only [State.answered, Bool.and_eq_true] at hanswered
    exact ⟨s, os, hrun, State.returns_eq hanswered.1.1.1.1.1.2, State.returns_eq hanswered.1.1.1.1.2,
      hown (twoRequests oneUpdated) [] s os (List.append_nil _).symm hrun⟩

end PrimaryElection.Framework.CenterRequests
