import PrimaryElection.Framework.CenterAnswers

/-! The end of all messages. While a request waits for its result, somebody can go on: where
nobody can, each request has its result or was turned down, and the pools have back all but
what the results that did not fit left behind. -/

namespace PrimaryElection.Framework.CenterRequests

open Memory Runs Locks Util
open Encoder (Outcome)

variable {c : Config} {C X : Type}

/-! ### Nobody can go on -/

/-- A step of the center by itself: no new request, and no wake-up without reason. -/
def Event.own : Event c C X → Bool
  | newHandle _ _ _ _ => false
  | spurious _ => false
  | _ => true

/-- Neither a request nor a thread can go on, and nothing failed. -/
structure Resting [DecidableEq C] (P : Processor X) (s : State c C X) : Prop where
  running : s.aborted = false
  own : ∀ e : Event c C X, e.own → step P s e = none

/-- A request that is not under way. -/
def Request.Ended : Request X → Prop
  | idle => True
  | returned _ => True
  | refused => True
  | lost _ => True
  | _ => False

/-- Nothing is under way, and in use are only the node and the handle of each request that
found its buffer too small. -/
structure Settled (s : State c C X) : Prop where
  request : ∀ r, (s.request r).Ended
  worker : ∀ w, s.worker w = .popping
  queue : s.queue.buf.contents = []
  nodes : ∀ p, p ∈ s.nodes.out ↔ ∃ r, s.request r = .lost p
  handles : ∀ handle, handle ∈ s.handles.out ↔ ∃ r p, s.request r = .lost p ∧ (s.node p).handle = handle

theorem Request.node_ended {q : Request X} (h : q.Ended) {p : ℤ} : q.node = some p ↔ q = .lost p := by
  cases q with
  | lost p' => simp [node]
  | idle => simp [node]
  | returned _ => simp [node]
  | refused => simp [node]
  | _ => cases h

theorem Request.handle_ended {q : Request X} (h : q.Ended) (handleOf : ℤ → ℤ) {a : ℤ} :
    q.handle handleOf = some a ↔ ∃ p, q = .lost p ∧ handleOf p = a := by
  cases q with
  | lost p' => simp [handle]
  | idle => simp [handle]
  | returned _ => simp [handle]
  | refused => simp [handle]
  | _ => cases h

variable [DecidableEq C] {P : Processor X} {os : List (Observed c C)} {s : State c C X}

namespace Resting

theorem none (h : Resting P s) (e : Event c C X) (he : e.own) : advance P s e = none := by
  have hstep := h.own e he
  rw [CenterRequests.step, h.running] at hstep
  exact hstep

end Resting

namespace Inv

theorem delHandle_some (h : Inv P os s) {r : C} {handle : ℤ} (hr : s.handleOf r = some handle) {s' : State c C X}
    (hs : s'.handles = s.handles) : CenterRequests.delHandle P s' handle ≠ none := by
  have hmem : handle ∈ s.handles.out := List.mem_toFinset.mp ((h.handles.mem_iff handle).mpr ⟨r, hr⟩)
  rcases h.handlesOk with ⟨free, hok⟩
  rw [CenterRequests.delHandle, hs]
  exact fun hnone => hok.put_some hmem (Option.map_eq_none_iff.mp hnone)

/-- A thread that cannot go on waits for a node, and there is none. -/
theorem worker_resting (h : Inv P os s) (hrest : Resting P s) (w : Fin c.workingNum) :
    s.worker w = .popping ∧ (Queue.UTQueue.buffer c.queueLen ℤ).size s.queue.buf = 0 := by
  have hcall := h.calls (.inr w)
  change _ = (s.worker w).call at hcall
  cases hw : s.worker w with
  | idle =>
    rw [hw] at hcall
    have hstep := hrest.none (.pop w) rfl
    rw [advance, hw] at hstep
    exact absurd (Option.map_eq_none_iff.mp hstep) (Monitor.pop_of_called hcall)
  | popping =>
    rw [hw] at hcall
    have hstep := Option.map_eq_none_iff.mp (hrest.none (.queue (.inr w)) rfl)
    rcases Monitor.asleep_of_called hcall hstep with ⟨-, hp⟩ | ⟨y, hy, -⟩
    · exact ⟨rfl, h.awake.empty _ hp⟩
    · cases hy
  | busy p φ =>
    cases φ with
    | idle => exact absurd rfl (h.busy w p _ hw).2
    | popped =>
      have hstep := hrest.none (.fetch w) rfl
      rw [advance, hw] at hstep
      cases hstep
    | running k todo =>
      cases todo with
      | nil =>
        have hstep := hrest.none (.finish w) rfl
        rw [advance, hw] at hstep
        cases hstep
      | cons z zs =>
        have hstep := hrest.none (.write w) rfl
        rw [advance, hw] at hstep
        dsimp only at hstep
        split at hstep <;> cases hstep
    | finishing =>
      have hstep := hrest.none (.combine w) rfl
      rw [advance, hw] at hstep
      dsimp only at hstep
      split at hstep
      · split at hstep <;> cases hstep
      · cases hstep
    | combined =>
      have hstep := hrest.none (.publish w) rfl
      rw [advance, hw] at hstep
      cases hstep

theorem queue_resting (h : Inv P os s) (hrest : Resting P s) (hw : 0 < c.workingNum) : s.queue.buf.contents = [] := by
  have hempty := (h.worker_resting hrest ⟨0, hw⟩).2
  rw [← (Queue.UTQueue.buffer c.queueLen ℤ).length_contents] at hempty
  exact List.length_eq_zero_iff.mp hempty

/-- The result of a message whose copies are all pushed is there when nobody can go on. -/
theorem placed_resting (h : Inv P os s) (hrest : Resting P s) (hw : 0 < c.workingNum) {r : C} {p : ℤ}
    (hr : s.request r = .placed p) : (s.node p).referFin = true := by
  have hnode : s.nodeOf r = some p := by
    rw [State.nodeOf, hr]
    rfl
  rcases h.stream hnode with ⟨g, S, -, hpos, hrun, hf⟩
  have hview := hf.view p hnode
  have hquiet : S.Quiet := by
    rw [hview]
    constructor
    · change (s.request r).copies = 0
      rw [hr]
      rfl
    · change s.queue.buf.contents.count p = 0
      rw [h.queue_resting hrest hw]
      rfl
    · intro w
      change (s.worker w).phase p = .idle
      rw [(h.worker_resting hrest w).1]
      rfl
  rcases (Stream.control_run hpos hrun).published hquiet with href | hab
  · rw [hview] at href
    exact href
  · rw [hview] at hab
    have hfail := (h.accounts r).aborted p hnode hab
    rw [hrest.running] at hfail
    cases hfail

/-- A request that cannot go on has ended. -/
theorem request_resting (h : Inv P os s) (hrest : Resting P s) (hw : 0 < c.workingNum) (r : C) : (s.request r).Ended := by
  have hcall := h.calls (.inl r)
  change _ = (s.request r).call at hcall
  cases hr : s.request r with
  | handled messageBuf x handle =>
    have hstep := hrest.none (.distribute r) rfl
    rw [advance, hr] at hstep
    dsimp only at hstep
    split at hstep
    · by_cases hin : P.Inside (P.distributeSpans messageBuf)
      · rw [if_pos hin] at hstep
        cases hstep
      · rw [if_neg hin] at hstep
        cases hstep
    · cases hstep
    · cases hstep
  | declined handle =>
    have hstep := hrest.none (.delHandle r) rfl
    rw [advance, hr] at hstep
    exact absurd hstep (h.delHandle_some (r := r) (by rw [State.handleOf, hr]; rfl) rfl)
  | distributed messageBuf x handle =>
    have hstep := hrest.none (.newNode r 0) rfl
    rw [advance, hr] at hstep
    exact absurd (Option.map_eq_none_iff.mp hstep) (MemAllocator.get_some _)
  | pushing p copies =>
    rw [hr] at hcall
    have hstep := hrest.none (.push r) rfl
    rw [advance, hr] at hstep
    exact absurd (Option.map_eq_none_iff.mp hstep) (Monitor.push_of_called hcall p)
  | inPush p copies =>
    rw [hr] at hcall
    have hstep := Option.map_eq_none_iff.mp (hrest.none (.queue (.inl r)) rfl)
    have hempty := (h.worker_resting hrest ⟨0, hw⟩).2
    rcases Monitor.asleep_of_called hcall hstep with ⟨hnone, -⟩ | ⟨y, -, hp⟩
    · cases hnone
    · have hfull := h.awake.full _ y hp
      rw [hempty] at hfull
      exact absurd hfull.symm c.queue_pos.ne'
  | placed p =>
    have hstep := hrest.none (.extract r 0) rfl
    rw [advance, hr] at hstep
    dsimp only at hstep
    rw [if_pos (h.placed_resting hrest hw hr)] at hstep
    split at hstep
    · split at hstep <;> cases hstep
    · cases hstep
  | deleting p result =>
    have hstep := hrest.none (.delHandle r) rfl
    rw [advance, hr] at hstep
    exact absurd hstep (h.delHandle_some (r := r) (by rw [State.handleOf, hr]; rfl) rfl)
  | freeing p result =>
    have hstep := hrest.none (.putNode r) rfl
    rw [advance, hr] at hstep
    have hmem : p ∈ s.nodes.out :=
      List.mem_toFinset.mp ((h.nodes.mem_iff p).mpr ⟨r, by rw [State.nodeOf, hr]; rfl⟩)
    rcases h.nodesOk with ⟨free, hok⟩
    exact absurd (Option.map_eq_none_iff.mp hstep) (hok.put_some hmem)
  | _ => trivial

theorem settled (h : Inv P os s) (hw : 0 < c.workingNum) (hrest : Resting P s) : Settled s := by
  have hended := h.request_resting hrest hw
  constructor
  · exact hended
  · exact fun w => (h.worker_resting hrest w).1
  · exact h.queue_resting hrest hw
  · intro p
    rw [← List.mem_toFinset, h.nodes.mem_iff]
    exact exists_congr fun r => Request.node_ended (hended r)
  · intro handle
    rw [← List.mem_toFinset, h.handles.mem_iff]
    exact exists_congr fun r => Request.handle_ended (hended r) _

end Inv

/-- However many requests there are and however short the queue is, they do not keep each
other from their results: whenever nobody can go on, each request has ended, and all nodes and
handles are back but those of the results that did not fit. -/
theorem messages_end (P : Processor X) (hw : 0 < c.workingNum) (m : Mem) (node : ℤ → StreamNode C)
    (tpQueue : Fin c.queueLen → ℤ) (es : List (Event c C X)) :
    Always (step P) (fun _ s => Resting P s → Settled s) (State.init c C X m node tpQueue) es :=
  always_of_invariant (I := Inv P) (K := fun _ => True) (fun _ _ h => h.settled hw)
    (fun _ _ _ _ _ h _ hs => h.step hs) (fun _ _ => trivial) (.init m node tpQueue)

theorem resting_of_asleep (hrun : s.aborted = false) (hended : ∀ r, (s.request r).Ended)
    (hworker : ∀ w, s.worker w = .popping) (hout : ∀ r, s.queue.phase (.inl r) = .out)
    (hasleep : ∀ w, s.queue.phase (.inr w) = .popAsleep) : Resting P s := by
  refine ⟨hrun, fun e he => ?_⟩
  rw [step, hrun, if_neg Bool.false_ne_true]
  have hrequest : ∀ r, s.request r = .idle ∨ (∃ result, s.request r = .returned result) ∨ s.request r = .refused ∨
      ∃ p, s.request r = .lost p := by
    intro r
    have hr := hended r
    cases hreq : s.request r with
    | idle => exact .inl rfl
    | returned result => exact .inr (.inl ⟨result, rfl⟩)
    | refused => exact .inr (.inr (.inl rfl))
    | lost p => exact .inr (.inr (.inr ⟨p, rfl⟩))
    | _ =>
      rw [hreq] at hr
      cases hr
  cases e with
  | newHandle r messageBuf x memBuf => cases he
  | spurious t => cases he
  | distribute r => rcases hrequest r with hr | ⟨_, hr⟩ | hr | ⟨_, hr⟩ <;> rw [advance, hr]
  | newNode r memBuf => rcases hrequest r with hr | ⟨_, hr⟩ | hr | ⟨_, hr⟩ <;> rw [advance, hr]
  | push r => rcases hrequest r with hr | ⟨_, hr⟩ | hr | ⟨_, hr⟩ <;> rw [advance, hr]
  | extract r resultLen => rcases hrequest r with hr | ⟨_, hr⟩ | hr | ⟨_, hr⟩ <;> rw [advance, hr]
  | delHandle r => rcases hrequest r with hr | ⟨_, hr⟩ | hr | ⟨_, hr⟩ <;> rw [advance, hr]
  | putNode r => rcases hrequest r with hr | ⟨_, hr⟩ | hr | ⟨_, hr⟩ <;> rw [advance, hr]
  | pop w => rw [advance, hworker w]
  | fetch w => rw [advance, hworker w]
  | write w => rw [advance, hworker w]
  | finish w => rw [advance, hworker w]
  | combine w => rw [advance, hworker w]
  | publish w => rw [advance, hworker w]
  | queue t =>
    cases t with
    | inl r => rw [advance, Monitor.step, hout r, Option.map_none]
    | inr w => rw [advance, Monitor.step, hasleep w, Option.map_none]

theorem State.waits_eq {s : State onePlace Bool (ℕ → Exchange)} {w : Fin onePlace.workingNum} (h : s.waits w = true) :
    s.worker w = .popping ∧ s.queue.phase (.inr w) = .popAsleep := by
  simp only [waits, Bool.and_eq_true] at h
  rcases h with ⟨hworker, hphase⟩
  constructor
  · split at hworker
    next hw => exact hw
    next => cases hworker
  · split at hphase
    next hw => exact hw
    next => cases hphase

theorem State.answered_resting {s : State onePlace Bool (ℕ → Exchange)} {P : Processor (ℕ → Exchange)}
    {first second : List UInt8} (h : s.answered first second = true) : Resting P s := by
  simp only [answered, Bool.and_eq_true, Bool.not_eq_true'] at h
  rcases h with ⟨⟨⟨⟨⟨⟨hrun, hfirst⟩, hsecond⟩, hout⟩, hout'⟩, hA⟩, hB⟩
  have hthread : ∀ w : Fin onePlace.workingNum, w = threadA ∨ w = threadB := by decide
  refine resting_of_asleep hrun (fun r => ?_) (fun w => ?_) (fun r => ?_) fun w => ?_
  · cases r with
    | false =>
      rw [returns_eq hfirst]
      trivial
    | true =>
      rw [returns_eq hsecond]
      trivial
  · rcases hthread w with rfl | rfl
    · exact (waits_eq hA).1
    · exact (waits_eq hB).1
  · cases r with
    | false =>
      split at hout
      next hp => exact hp
      next => cases hout
    | true =>
      split at hout'
      next hp => exact hp
      next => cases hout'
  · rcases hthread w with rfl | rfl
    · exact (waits_eq hA).2
    · exact (waits_eq hB).2

theorem messages_end_two :
    ∃ s os, run (step (queryProcessor bitOps threeMachines)) unasked (twoRequests twoScores) = some (s, os) ∧
      Resting (queryProcessor bitOps threeMachines) s ∧ Settled s := by
  rcases exists_answered twoQueries_run with ⟨s, os, hrun, hanswered⟩
  have hrest : Resting (queryProcessor bitOps threeMachines) s := State.answered_resting hanswered
  have hend := messages_end (c := onePlace) (C := Bool) (queryProcessor bitOps threeMachines) Nat.two_pos (fun _ => 0)
    (fun _ => ⟨⟨0, fun _ => [], fun _ => none⟩, 0, 0, 0, false, false, false⟩) (fun _ => 0) (twoRequests twoScores)
  exact ⟨s, os, hrun, hrest, hend (twoRequests twoScores) [] s os (List.append_nil _).symm hrun hrest⟩

end PrimaryElection.Framework.CenterRequests
