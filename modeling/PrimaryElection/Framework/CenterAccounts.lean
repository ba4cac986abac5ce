import PrimaryElection.Framework.CenterStreams

/-! Every step of a request, of a thread or at the queue keeps the accounts of all requests: it
is a step of the stream of one of them, or of none. -/

namespace PrimaryElection.Framework.CenterRequests

open Memory Runs Locks Util

variable {c : Config} {C X : Type} [DecidableEq C] {P : Processor X} {os : List (Observed c C)} {o : Observed c C}
  {s s' : State c C X} {r : C} {x : X}

/-! ### Steps at the queue -/

namespace Inv

theorem wait (h : Inv P os s) {m : Monitor.State (Queue.UTQueue c.queueLen ℤ) ℤ (C ⊕ Fin c.workingNum)}
    (hbuf : m.buf = s.queue.buf) (hcalled : ∀ t, (m.phase t).called = (s.queue.phase t).called)
    (hawake : Monitor.Awake (Queue.UTQueue.buffer c.queueLen ℤ) m) : Inv P (os ++ [none]) { s with queue := m } := by
  constructor
  · exact h.nodes
  · exact h.handles
  · exact h.nodesOk
  · exact h.handlesOk
  · exact fun t => (hcalled t).trans (h.calls t)
  · exact hawake
  · dsimp only
    rw [hbuf]
    exact h.queued
  · exact h.busy
  · intro d
    have hframe : Frame P s { s with queue := m } d :=
      ⟨rfl, rfl, fun _ _ => rfl, fun p _ => by dsimp only; rw [hbuf], fun _ _ _ => rfl, fun _ _ => rfl⟩
    exact hframe.account (h.accounts d) id (part_silent d os)

theorem pop (h : Inv P os s) {w : Fin c.workingNum} (hw : s.worker w = .idle)
    {m : Monitor.State (Queue.UTQueue c.queueLen ℤ) ℤ (C ⊕ Fin c.workingNum)}
    {e : Monitor.Observed ℤ (C ⊕ Fin c.workingNum)}
    (hm : Monitor.step (Queue.UTQueue.buffer c.queueLen ℤ) s.queue (.pop (.inr w)) = some (m, e)) :
    Inv P (os ++ [none]) { s.setWorker w .popping with queue := m } := by
  rcases Monitor.called_pop hm with ⟨hbuf, hcalled⟩
  constructor
  · exact h.nodes
  · exact h.handles
  · exact h.nodesOk
  · exact h.handlesOk
  · intro t
    rw [hcalled t, h.calls t]
    exact (s.call_setWorker w .popping t).symm
  · exact h.awake.step hm
  · dsimp only
    rw [hbuf]
    exact h.queued
  · intro v p φ hv
    change Function.update s.worker w .popping v = _ at hv
    rw [Function.update_apply] at hv
    split_ifs at hv
    exact h.busy v p φ hv
  · intro d
    have hframe : Frame P s { s.setWorker w .popping with queue := m } d := by
      refine ⟨rfl, rfl, fun _ _ => rfl, fun p _ => by dsimp only; rw [hbuf], fun p _ v => ?_, fun _ _ => rfl⟩
      change (Function.update s.worker w .popping v).phase p = _
      rw [Function.update_apply]
      split_ifs with hv
      · rw [hv, hw]
        rfl
      · rfl
    exact hframe.account (h.accounts d) id (part_silent d os)

theorem popped (h : Inv P os s) (hs : s.aborted = false) {w : Fin c.workingNum} {p : ℤ} (hw : s.worker w = .popping)
    {m : Monitor.State (Queue.UTQueue c.queueLen ℤ) ℤ (C ⊕ Fin c.workingNum)}
    (hcontents : s.queue.buf.contents = p :: m.buf.contents)
    (hcalled : ∀ t, (m.phase t).called = if t = .inr w then none else (s.queue.phase t).called)
    (hawake : Monitor.Awake (Queue.UTQueue.buffer c.queueLen ℤ) m) :
    Inv P (os ++ [some ((s.node p).request, .pop w, none)]) { s.setWorker w (.busy p .popped) with queue := m } := by
  have hmem : p ∈ s.queue.buf.contents := by
    rw [hcontents]
    exact List.mem_cons_self
  have hna := h.node_aborted hs (.inl hmem)
  have hworks : Works P s { s.setWorker w (.busy p .popped) with queue := m } w p (.busy p .popped) := by
    constructor
    · exact h.writes_refl _
    · rfl
    · rfl
    · rfl
    · rfl
    · exact fun _ _ => rfl
    · rfl
    · rfl
    · rfl
    · intro p' hp'
      rw [hcontents, List.count_cons_of_ne hp'.symm]
    · intro p' hp'
      rw [hcontents]
      exact List.mem_cons_of_mem p hp'
    · intro p' _
      rw [hw]
      rfl
    · exact fun p' hp' => Worker.phase_busy_ne hp' _
    · rintro p' φ ⟨⟩
      exact ⟨rfl, by simp⟩
    · exact id
    · change (s.node p).aborted = true → _
      rw [hna]
      simp
  refine h.work hworks (.inl hmem) ?_ hawake ?_
  · intro t
    change (m.phase t).called = _
    rw [hcalled t, h.calls t]
    exact (s.call_setWorker w (.busy p .popped) t).symm
  · intro copies
    have hworker : (fun v => (Function.update s.worker w (.busy p .popped) v).phase p) =
        Function.update (fun v => (s.worker v).phase p) w .popped :=
      (Function.comp_update (Worker.phase p) s.worker w _).trans (by rw [Worker.phase_busy]; rfl)
    have hcount : s.queue.buf.contents.count p = m.buf.contents.count p + 1 := by
      rw [hcontents, List.count_cons_self]
    have hidle : (s.worker w).phase p = .idle := by
      rw [hw]
      rfl
    have hview : State.view { s.setWorker w (.busy p .popped) with queue := m } p copies (s.mem P (s.node p).handle) =
        { s.view p copies (s.mem P (s.node p).handle) with
          waiting := m.buf.contents.count p
          worker := Function.update (fun v => (s.worker v).phase p) w .popped } := by
      rw [← hworker]
      rfl
    change _ = some (State.view _ p copies (s.mem P (s.node p).handle), none)
    rw [hview]
    simp [Stream.step, State.view, hna, hidle, hcount, Stream.move]

end Inv

/-! ### Steps of requests -/

variable (P) in
/-- A step of a request leaves the threads, the contents of the queue and the others as they
are. -/
structure Asks (s s' : State c C X) (r : C) : Prop where
  worker : s'.worker = s.worker
  buf : s'.queue.buf = s.queue.buf
  request : ∀ d, d ≠ r → s'.request d = s.request d
  origin : ∀ d, d ≠ r → s'.origin d = s.origin d
  node : ∀ d, d ≠ r → ∀ p, s.nodeOf d = some p → s'.node p = s.node p
  mem : ∀ d, d ≠ r → ∀ handle, s.handleOf d = some handle → s'.mem P handle = s.mem P handle
  aborted : s'.aborted = s.aborted

omit [DecidableEq C] in
theorem Asks.frame (h : Asks P s s' r) {d : C} (hd : d ≠ r) : Frame P s s' d :=
  ⟨h.request d hd, h.origin d hd, h.node d hd, fun p _ => by rw [h.buf], fun p _ w => by rw [h.worker], h.mem d hd⟩

theorem Asks.call (h : Asks P s s' r) (hc : (s.request r).call = none) (hc' : (s'.request r).call = none)
    (t : C ⊕ Fin c.workingNum) : s'.call t = s.call t := by
  cases t with
  | inr w => exact congrArg Worker.call (congrFun h.worker w)
  | inl d =>
    change (s'.request d).call = (s.request d).call
    by_cases hd : d = r
    · rw [hd, hc, hc']
    · rw [h.request d hd]

theorem Account.before (h : Account P os s r) (horigin : s'.origin r = s.origin r) (hq : ¬ (s.request r).Begun)
    (hq' : ¬ (s'.request r).Begun) (hok : (s'.request r).Ok P)
    (hdist : ∀ messageBuf x handle, s'.request r = .distributed messageBuf x handle →
      ∃ m₀, P.distributeTask m₀ messageBuf = .ok (s'.mem P handle)) : Account P (os ++ [none]) s' r := by
  have hnone : s.origin r = none := by
    rw [Option.eq_none_iff_forall_ne_some]
    exact fun g hg => hq (h.begun.mp ⟨g, hg⟩)
  have hnone' := horigin.trans hnone
  constructor
  · exact hok
  · rw [hnone']
    exact iff_of_false (by simp) hq'
  · exact hdist
  · intro _
    rw [part_silent]
    exact h.fresh hnone
  · exact fun p hp => absurd (Request.begun_of_node hp) hq'
  · intro g hg
    rw [hnone'] at hg
    cases hg

/-- A step of a request that has a node, or had one. -/
theorem Account.after (h : Account P os s r) (horigin : s'.origin r = s.origin r) (hq : (s.request r).Begun)
    (hq' : (s'.request r).Begun) (hok : (s'.request r).Ok P)
    (hab : ∀ p, s'.nodeOf r = some p → (s'.node p).aborted = true → s'.aborted = true)
    (hf : ∀ x S, Follows P s r x S → Follows P s' r x S) : Account P (os ++ [none]) s' r := by
  constructor
  · exact hok
  · rw [horigin]
    exact iff_of_true (h.begun.mpr hq) hq'
  · intro messageBuf x handle hr
    rw [hr] at hq'
    simp [Request.Begun, Request.node] at hq'
  · rw [horigin, part_silent]
    exact h.fresh
  · exact hab
  · intro g hg
    rw [horigin] at hg
    rcases h.stream g hg with ⟨hpos, hm, S, hrun, hfollows⟩
    rw [part_silent]
    exact ⟨hpos, hm, S, hrun, hf g.answers S hfollows⟩

theorem Inv.ask (h : Inv P os s) (ha : Asks P s s' r) (hnodes : Exclusive s'.nodes.out.toFinset s'.nodeOf)
    (hhandles : Exclusive s'.handles.out.toFinset s'.handleOf)
    (hnodesOk : ∃ free, MemAllocator.Inv streamNodes s'.nodes free)
    (hhandlesOk : ∃ free, MemAllocator.Inv P.handles s'.handles free)
    (hcalls : ∀ t, (s'.queue.phase t).called = s'.call t)
    (hawake : Monitor.Awake (Queue.UTQueue.buffer c.queueLen ℤ) s'.queue)
    (hactive : ∀ p, s.Active p → p ∈ s'.nodes.out) (hr : Account P (os ++ [none]) s' r) : Inv P (os ++ [none]) s' := by
  constructor
  · exact hnodes
  · exact hhandles
  · exact hnodesOk
  · exact hhandlesOk
  · exact hcalls
  · exact hawake
  · rw [ha.buf]
    exact fun p hp => hactive p (.inl hp)
  · rw [ha.worker]
    exact fun w p φ hw => ⟨hactive p (.inr ⟨w, φ, hw⟩), (h.busy w p φ hw).2⟩
  · intro d
    by_cases hd : d = r
    · rw [hd]
      exact hr
    · exact (ha.frame hd).account (h.accounts d) (by rw [ha.aborted]; exact id) (part_silent d os)

/-- A request goes on, with what it took from the pools or gave back. -/
def State.turn (s : State c C X) (r : C) (q : Request X) (handles nodes : MemAllocator.State) : State c C X :=
  { s.setRequest r q with handles := handles, nodes := nodes }

namespace State

variable {q : Request X} {hs ns : MemAllocator.State}

theorem request_turn_self : (s.turn r q hs ns).request r = q := Function.update_self _ _ _

theorem request_turn_ne {d : C} (hd : d ≠ r) : (s.turn r q hs ns).request d = s.request d := Function.update_of_ne hd _ _

theorem nodeOf_turn_self : (s.turn r q hs ns).nodeOf r = q.node := congrArg Request.node request_turn_self

theorem nodeOf_turn_ne {d : C} (hd : d ≠ r) : (s.turn r q hs ns).nodeOf d = s.nodeOf d :=
  congrArg Request.node (request_turn_ne hd)

theorem handleOf_turn_self : (s.turn r q hs ns).handleOf r = q.handle fun p => (s.node p).handle :=
  congrArg (Request.handle fun p => (s.node p).handle) request_turn_self

theorem handleOf_turn_ne {d : C} (hd : d ≠ r) : (s.turn r q hs ns).handleOf d = s.handleOf d :=
  congrArg (Request.handle fun p => (s.node p).handle) (request_turn_ne hd)

end State

variable (P) in
/-- The handles that stay in use hold the same bytes. -/
def Keeps (hs hs' : MemAllocator.State) : Prop :=
  ∀ handle ∈ hs.out, handle ∈ hs'.out → load hs'.mem handle P.memSize = load hs.mem handle P.memSize

theorem Account.turn (h : Account P os s r) {q : Request X} {hs ns : MemAllocator.State} (hq : ¬ (s.request r).Begun)
    (hq' : ¬ q.Begun) (hok : q.Ok P) (hd : ∀ messageBuf x handle, q ≠ .distributed messageBuf x handle) :
    Account P (os ++ [none]) (s.turn r q hs ns) r := by
  refine h.before rfl hq ?_ ?_ ?_
  · rw [State.request_turn_self]
    exact hq'
  · rw [State.request_turn_self]
    exact hok
  · intro messageBuf x handle hr
    rw [State.request_turn_self] at hr
    exact absurd hr (hd messageBuf x handle)

/-- The stream of a request does not change while it goes on outside. -/
theorem Follows.turn {S : Stream c.workingNum} {q : Request X} {hs ns : MemAllocator.State} (h : Follows P s r x S)
    (hnode : ∀ p, q.node = some p → (s.request r).node = some p) (hcopies : q.copies = (s.request r).copies)
    (hhandle : ∀ f handle, q.handle f = some handle → (s.request r).handle f = some handle)
    (hmem : ∀ f handle, q.handle f = some handle → load hs.mem handle P.memSize = load s.handles.mem handle P.memSize)
    (hseen : q.Seen → S.referFin = true)
    (hresult : ∀ bs, q.result = some bs → ∃ resultLen, P.extractResult S.mem resultLen = .ok bs) :
    Follows P (s.turn r q hs ns) r x S := by
  constructor
  · intro p hp
    rw [State.nodeOf_turn_self] at hp
    rw [State.request_turn_self, hcopies]
    exact h.view p (hnode p hp)
  · intro p hp
    rw [State.nodeOf_turn_self] at hp
    exact h.node p (hnode p hp)
  · intro handle hh
    rw [State.handleOf_turn_self] at hh
    exact (h.mem handle (hhandle _ handle hh)).trans (congrArg ofBytes (hmem _ handle hh)).symm
  · rw [State.request_turn_self]
    exact hseen
  · rw [State.request_turn_self]
    exact hresult

/-- A request goes on outside with what it has. -/
theorem Account.onward (h : Account P os s r) {q : Request X} {hs ns : MemAllocator.State} (hq : (s.request r).Begun)
    (hq' : q.Begun) (hok : q.Ok P) (hnode : ∀ p, q.node = some p → (s.request r).node = some p)
    (hcopies : q.copies = (s.request r).copies)
    (hhandle : ∀ f handle, q.handle f = some handle → (s.request r).handle f = some handle)
    (hmem : ∀ f handle, q.handle f = some handle → load hs.mem handle P.memSize = load s.handles.mem handle P.memSize)
    (hf : ∀ y S, Follows P s r y S → (q.Seen → S.referFin = true) ∧
      ∀ bs, q.result = some bs → ∃ resultLen, P.extractResult S.mem resultLen = .ok bs) :
    Account P (os ++ [none]) (s.turn r q hs ns) r := by
  refine h.after rfl hq ?_ ?_ ?_ fun y S hfollows =>
    hfollows.turn hnode hcopies hhandle hmem (hf y S hfollows).1 (hf y S hfollows).2
  · rw [State.request_turn_self]
    exact hq'
  · rw [State.request_turn_self]
    exact hok
  · intro p hp
    rw [State.nodeOf_turn_self] at hp
    exact h.aborted p (hnode p hp)

omit [DecidableEq C] in
theorem Follows.kept {S : Stream c.workingNum} {q : Request X} (h : Follows P s r x S) (hseen : (s.request r).Seen)
    (hq : q.result = (s.request r).result) : (q.Seen → S.referFin = true) ∧
      ∀ bs, q.result = some bs → ∃ resultLen, P.extractResult S.mem resultLen = .ok bs := by
  rw [hq]
  exact ⟨fun _ => h.seen hseen, h.result⟩

namespace Inv

variable {q : Request X} {hs ns : MemAllocator.State}

theorem turn (h : Inv P os s) (hc : (s.request r).call = none) (hc' : q.call = none)
    (hnodes : Exclusive ns.out.toFinset (s.turn r q hs ns).nodeOf)
    (hhandles : Exclusive hs.out.toFinset (s.turn r q hs ns).handleOf)
    (hnodesOk : ∃ free, MemAllocator.Inv streamNodes ns free) (hhandlesOk : ∃ free, MemAllocator.Inv P.handles hs free)
    (hkeeps : Keeps P s.handles hs) (hactive : ∀ p, s.Active p → p ∈ ns.out)
    (hr : Account P (os ++ [none]) (s.turn r q hs ns) r) : Inv P (os ++ [none]) (s.turn r q hs ns) := by
  have hasks : Asks P s (s.turn r q hs ns) r := by
    refine ⟨rfl, rfl, fun _ hd => State.request_turn_ne hd, fun _ _ => rfl, fun _ _ _ _ => rfl,
      fun d hd handle hh => congrArg ofBytes (hkeeps handle (h.handle_out hh) ?_), rfl⟩
    exact List.mem_toFinset.mp ((hhandles.mem_iff handle).mpr ⟨d, (State.handleOf_turn_ne hd).trans hh⟩)
  have hcalls := hasks.call hc (by rw [State.request_turn_self, hc'])
  exact h.ask hasks hnodes hhandles hnodesOk hhandlesOk (fun t => (h.calls t).trans (hcalls t).symm) h.awake hactive hr

omit [DecidableEq C] in
theorem keeps_refl (hs : MemAllocator.State) : Keeps P hs hs := fun _ _ _ => rfl

theorem nodes_turn (h : Inv P os s) (hs ns : MemAllocator.State) (hq : q.node = (s.request r).node) :
    Exclusive s.nodes.out.toFinset (s.turn r q hs ns).nodeOf :=
  h.nodes.kept (State.nodeOf_turn_self.trans hq) fun _ hd => State.nodeOf_turn_ne hd

theorem handles_turn (h : Inv P os s) (hs ns : MemAllocator.State) (hq : ∀ f, q.handle f = (s.request r).handle f) :
    Exclusive s.handles.out.toFinset (s.turn r q hs ns).handleOf :=
  h.handles.kept (State.handleOf_turn_self.trans (hq _)) fun _ hd => State.handleOf_turn_ne hd

theorem newHandle (h : Inv P os s) (hr : s.request r = .idle) {messageBuf : List UInt8} {memBuf handle : ℤ}
    (ha : MemAllocator.step P.handles s.handles (.get memBuf) = some (hs, .got handle)) :
    Inv P (os ++ [none]) (s.turn r (if handle = 0 then .refused else .handled messageBuf x handle) hs s.nodes) := by
  rcases h.handlesOk with ⟨free, hok⟩
  rcases hok.step ha with ⟨hne, hok'⟩
  rcases MemAllocator.step_get ha hne with ⟨_, ⟨⟩, hout⟩
  have hkeeps : Keeps P s.handles hs := fun handle' hh _ => hok.load_get ha hh
  have hcall : (s.request r).call = none := by
    rw [hr]
    rfl
  have hbegun : ¬ (s.request r).Begun := by
    rw [hr]
    simp [Request.Begun, Request.node]
  have hcase :
      (if handle = 0 then Request.refused else .handled messageBuf x handle) = .refused ∧ hs.out = s.handles.out ∨
      (if handle = 0 then Request.refused else .handled messageBuf x handle) = .handled messageBuf x handle ∧
        hs.out = handle :: s.handles.out := by
    split_ifs at hout ⊢
    · exact .inl ⟨rfl, hout⟩
    · exact .inr ⟨rfl, hout⟩
  rcases hcase with ⟨hq, hout⟩ | ⟨hq, hout⟩
  · rw [hq]
    refine h.turn hcall rfl (h.nodes_turn _ _ (by rw [hr]; rfl)) ?_ h.nodesOk hok' hkeeps (fun p hp => h.mem_nodes hp) ?_
    · rw [hout]
      exact h.handles_turn _ _ fun f => by rw [hr]; rfl
    · exact (h.accounts r).turn hbegun (by simp [Request.Begun, Request.node]) trivial (by simp)
  · rw [hq]
    have hnodup := hok'.choose_spec.nodup
    rw [hout] at hnodup
    refine h.turn hcall rfl (h.nodes_turn _ _ (by rw [hr]; rfl)) ?_ h.nodesOk hok' hkeeps (fun p hp => h.mem_nodes hp) ?_
    · rw [hout, List.toFinset_cons]
      refine h.handles.took (t := r) ?_ ?_ State.handleOf_turn_self fun d hd => State.handleOf_turn_ne hd
      · rw [State.handleOf, hr]
        rfl
      · rw [List.mem_toFinset]
        exact (List.nodup_cons.mp hnodup).1
    · exact (h.accounts r).turn hbegun (by simp [Request.Begun, Request.node]) trivial (by simp)

/-- An assertion fails, or memory is used that is not there. -/
theorem abort (h : Inv P os s) : Inv P (os ++ [none]) s.abort := by
  refine ⟨h.nodes, h.handles, h.nodesOk, h.handlesOk, h.calls, h.awake, h.queued, h.busy, fun d => ?_⟩
  have hframe : Frame P s s.abort d :=
    ⟨rfl, rfl, fun _ _ => rfl, fun _ _ => rfl, fun _ _ _ => rfl, fun _ _ => rfl⟩
  exact hframe.account (h.accounts d) (fun _ => rfl) (part_silent d os)

theorem distribute (h : Inv P os s) {messageBuf : List UInt8} {handle : ℤ}
    (hr : s.request r = .handled messageBuf x handle) {m : Mem}
    (hm : P.distributeTask (s.mem P handle) messageBuf = .ok m)
    (hin : P.Inside (P.distributeSpans messageBuf)) :
    Inv P (os ++ [none]) ((s.setMem P handle m).setRequest r
      (if (P.fan x).allCount = 0 then .declined handle else .distributed messageBuf x handle)) := by
  have hmem : s.handleOf r = some handle := by
    rw [State.handleOf, hr]
    rfl
  have hwrites := h.writes hmem m
  have hother : ∀ d, d ≠ r → ∀ handle', s.handleOf d = some handle' → handle' ≠ handle := by
    rintro d hd handle' hh rfl
    exact hd (h.handles.unique d r _ hh hmem)
  have hask : ∀ q : Request X, q.node = none → q.call = none → (∀ f, q.handle f = some handle) → ¬ q.Begun → q.Ok P →
      (∀ messageBuf' x' handle', q = .distributed messageBuf' x' handle' → messageBuf' = messageBuf ∧ handle' = handle) →
      Inv P (os ++ [none]) ((s.setMem P handle m).setRequest r q) := by
    intro q hnode hcall hhandle hbegun hok hdist
    have hself : ((s.setMem P handle m).setRequest r q).request r = q := Function.update_self _ _ _
    have hne : ∀ d, d ≠ r → ((s.setMem P handle m).setRequest r q).request d = s.request d :=
      fun d hd => Function.update_of_ne hd _ _
    have hasks : Asks P s ((s.setMem P handle m).setRequest r q) r :=
      ⟨rfl, rfl, hne, fun _ _ => rfl, fun _ _ _ _ => rfl,
        fun d hd handle' hh => congrArg ofBytes (hwrites.kept handle' (h.handle_out hh) (hother d hd handle' hh)), rfl⟩
    have hcalls := hasks.call (by rw [hr]; rfl) (by rw [hself, hcall])
    refine h.ask hasks ?_ ?_ h.nodesOk hwrites.ok (fun t => (h.calls t).trans (hcalls t).symm) h.awake
      (fun p hp => h.mem_nodes hp) ?_
    · refine h.nodes.kept (t := r) ?_ fun d hd => congrArg Request.node (hne d hd)
      rw [State.nodeOf, hself, State.nodeOf, hr, hnode]
      rfl
    · refine h.handles.kept (t := r) ?_ fun d hd => congrArg (Request.handle fun p => (s.node p).handle) (hne d hd)
      rw [State.handleOf, hself, hhandle, hmem]
    · refine (h.accounts r).before rfl ?_ ?_ ?_ ?_
      · rw [hr]
        simp [Request.Begun, Request.node]
      · rw [hself]
        exact hbegun
      · rw [hself]
        exact hok
      · intro messageBuf' x' handle' hq
        rw [hself] at hq
        rcases hdist _ _ _ hq with ⟨rfl, rfl⟩
        refine ⟨s.mem P handle', ?_⟩
        change _ = Encoder.Outcome.ok ((s.setMem P handle' m).mem P handle')
        rw [State.mem_setMem (P.distribute_outside hm hin), hm]
  split_ifs with hcount
  · exact hask _ rfl rfl (fun _ => rfl) (by simp [Request.Begun, Request.node]) trivial (by simp)
  · refine hask _ rfl rfl (fun _ => rfl) (by simp [Request.Begun, Request.node]) (Nat.pos_of_ne_zero hcount) ?_
    rintro messageBuf' x' handle' ⟨⟩
    exact ⟨rfl, rfl⟩

theorem decline (h : Inv P os s) {messageBuf : List UInt8} {handle : ℤ}
    (hr : s.request r = .handled messageBuf x handle) :
    Inv P (os ++ [none]) (s.turn r (.declined handle) s.handles s.nodes) := by
  refine h.turn (by rw [hr]; rfl) rfl (h.nodes_turn _ _ (by rw [hr]; rfl)) (h.handles_turn _ _ fun f => by rw [hr]; rfl)
    h.nodesOk h.handlesOk (keeps_refl _) (fun p hp => h.mem_nodes hp) ((h.accounts r).turn ?_ ?_ trivial (by simp))
  · rw [hr]
    simp [Request.Begun, Request.node]
  · simp [Request.Begun, Request.node]

theorem delHandle (h : Inv P os s) (n : MemAllocator.State) {handle : ℤ} (hh : s.handleOf r = some handle)
    {e : MemAllocator.Observed} (hq : ∀ f, q.handle f = none)
    (ha : MemAllocator.step P.handles s.handles (.put handle) = some (hs, e)) :
    e ≠ .aborted ∧ (∃ free, MemAllocator.Inv P.handles hs free) ∧ Keeps P s.handles hs ∧
      Exclusive hs.out.toFinset (s.turn r q hs n).handleOf := by
  rcases h.handlesOk with ⟨free, hok⟩
  rcases hok.step ha with ⟨hne, hok'⟩
  have hout := MemAllocator.step_put ha hne
  refine ⟨hne, hok', fun handle' hh' hh'' => hok.load_put ha hh' hh'', ?_⟩
  have herase : hs.out.toFinset = s.handles.out.toFinset.erase handle := by
    ext p
    rw [hout, List.mem_toFinset, h.handles_nodup.mem_erase_iff, Finset.mem_erase, List.mem_toFinset]
  rw [herase]
  exact h.handles.released hh (State.handleOf_turn_self.trans (hq _)) fun d hd => State.handleOf_turn_ne hd

end Inv

def StreamNode.new (P : Processor X) (x : X) (handle : ℤ) (r : C) : StreamNode C :=
  ⟨P.fan x, 0, 0, handle, false, r, false⟩

def State.start (P : Processor X) (s : State c C X) (r : C) (messageBuf : List UInt8) (x : X) (handle p : ℤ)
    (ns : MemAllocator.State) : State c C X :=
  { (s.setNode p (.new P x handle r)).setRequest r (.pushing p (P.fan x).allCount) with
    nodes := ns
    origin := Function.update s.origin r (some ⟨messageBuf, x, s.mem P handle⟩) }

/-- The stream of a message begins when its request gets a node at which nobody is. -/
theorem Follows.start {messageBuf : List UInt8} {handle p : ℤ} {ns : MemAllocator.State} (hp : ¬ s.Active p) :
    Follows P (s.start P r messageBuf x handle p ns) r x (Stream.init (P.fan x) (s.mem P handle)) := by
  have hrequest : (s.start P r messageBuf x handle p ns).request r = .pushing p (P.fan x).allCount :=
    Function.update_self _ _ _
  have hnode : (s.start P r messageBuf x handle p ns).node p = .new P x handle r := Function.update_self _ _ _
  have hof : ∀ p', (s.start P r messageBuf x handle p ns).nodeOf r = some p' → p' = p := by
    intro p' hp'
    rw [State.nodeOf, hrequest] at hp'
    exact (Option.some.inj hp').symm
  constructor
  · intro p' hp'
    rw [hof p' hp', hrequest, State.view, hnode]
    have hcount : s.queue.buf.contents.count p = 0 := List.count_eq_zero.mpr fun hmem => hp (.inl hmem)
    have hworker : (fun w => (s.worker w).phase p) = fun _ => .idle := by
      funext w
      cases hw : s.worker w with
      | busy p' φ =>
        have hne : p ≠ p' := by
          rintro rfl
          exact hp (.inr ⟨w, φ, hw⟩)
        exact Worker.phase_busy_ne hne φ
      | _ => rfl
    change Stream.mk _ _ _ _ _ _ _ _ =
      Stream.mk _ (s.queue.buf.contents.count p) _ _ (fun w => (s.worker w).phase p) _ _ _
    rw [hcount, hworker]
    rfl
  · intro p' hp'
    rw [hof p' hp', hnode]
    exact ⟨rfl, rfl⟩
  · intro handle' hh
    rw [State.handleOf, hrequest] at hh
    change some ((s.start P r messageBuf x handle p ns).node p).handle = _ at hh
    rw [hnode] at hh
    cases hh
    rfl
  · rw [hrequest]
    exact False.elim
  · rw [hrequest]
    simp [Request.result]

namespace Inv

variable {q : Request X} {hs ns : MemAllocator.State}

theorem newNode (h : Inv P os s) {messageBuf : List UInt8} {handle : ℤ}
    (hr : s.request r = .distributed messageBuf x handle) {memBuf p : ℤ} (hp : p ≠ 0)
    (ha : MemAllocator.step streamNodes s.nodes (.get memBuf) = some (ns, .got p)) :
    Inv P (os ++ [none]) (s.start P r messageBuf x handle p ns) := by
  rcases h.nodesOk with ⟨free, hok⟩
  rcases hok.step ha with ⟨hne, hok'⟩
  rcases MemAllocator.step_get ha hne with ⟨_, ⟨⟩, hout⟩
  rw [if_neg hp] at hout
  have hnew : p ∉ s.nodes.out := by
    have hnodup := hok'.choose_spec.nodup
    rw [hout] at hnodup
    exact (List.nodup_cons.mp hnodup).1
  have hother : ∀ d p', s.nodeOf d = some p' → p' ≠ p := by
    rintro d p' hd rfl
    exact hnew (List.mem_toFinset.mp ((h.nodes.mem_iff _).mpr ⟨d, hd⟩))
  have hself : (s.start P r messageBuf x handle p ns).request r = .pushing p (P.fan x).allCount :=
    Function.update_self _ _ _
  have hrest : ∀ d, d ≠ r → (s.start P r messageBuf x handle p ns).request d = s.request d :=
    fun d hd => Function.update_of_ne hd _ _
  have hnode : (s.start P r messageBuf x handle p ns).node p = .new P x handle r := Function.update_self _ _ _
  have hasks : Asks P s (s.start P r messageBuf x handle p ns) r :=
    ⟨rfl, rfl, hrest, fun d hd => Function.update_of_ne hd _ _,
      fun d _ p' hp' => Function.update_of_ne (hother d p' hp') _ _, fun _ _ _ _ => rfl, rfl⟩
  have hnone : s.origin r = none := by
    rw [Option.eq_none_iff_forall_ne_some]
    intro o ho
    have hbegun := (h.accounts r).begun.mp ⟨o, ho⟩
    rw [hr] at hbegun
    simp [Request.Begun, Request.node] at hbegun
  have horigin : (s.start P r messageBuf x handle p ns).origin r = some ⟨messageBuf, x, s.mem P handle⟩ :=
    Function.update_self _ _ _
  have hpos : 0 < (P.fan x).allCount := by
    have hok := (h.accounts r).ok
    rw [hr] at hok
    exact hok
  have hcalls := hasks.call (by rw [hr]; rfl) (by rw [hself]; rfl)
  refine h.ask hasks ?_ ?_ hok' h.handlesOk (fun t => (h.calls t).trans (hcalls t).symm) h.awake (fun p' hp' => ?_) ?_
  · change Exclusive ns.out.toFinset _
    rw [hout, List.toFinset_cons]
    refine h.nodes.took (t := r) ?_ ?_ (congrArg Request.node hself) fun d hd => congrArg Request.node (hrest d hd)
    · rw [State.nodeOf, hr]
      rfl
    · rw [List.mem_toFinset]
      exact hnew
  · refine h.handles.kept (t := r) ?_ fun d hd => (hasks.frame hd).handleOf
    rw [State.handleOf, hself, State.handleOf, hr]
    change some ((s.start P r messageBuf x handle p ns).node p).handle = some handle
    rw [hnode]
    rfl
  · change p' ∈ ns.out
    rw [hout]
    exact List.mem_cons_of_mem p (h.mem_nodes hp')
  · have hpart : part r (os ++ [none]) = [] := (part_silent r os).trans ((h.accounts r).fresh hnone)
    constructor
    · rw [hself]
      exact hpos
    · rw [horigin, hself]
      exact iff_of_true ⟨_, rfl⟩ rfl
    · intro messageBuf' x' handle' hq
      rw [hself] at hq
      cases hq
    · exact fun _ => hpart
    · intro p' hp' hab
      rw [State.nodeOf, hself] at hp'
      cases hp'
      rw [hnode] at hab
      cases hab
    · intro g hg
      rw [horigin] at hg
      cases hg
      rw [hpart]
      have hquiet : ¬ s.Active p := fun hc => hnew (h.mem_nodes hc)
      exact ⟨hpos, (h.accounts r).distributed messageBuf x handle hr, _, rfl, Follows.start hquiet⟩

theorem push (h : Inv P os s) {p : ℤ} {copies : ℕ} (hr : s.request r = .pushing p copies)
    {m : Monitor.State (Queue.UTQueue c.queueLen ℤ) ℤ (C ⊕ Fin c.workingNum)}
    {e : Monitor.Observed ℤ (C ⊕ Fin c.workingNum)}
    (hm : Monitor.step (Queue.UTQueue.buffer c.queueLen ℤ) s.queue (.push (.inl r) p) = some (m, e)) :
    Inv P (os ++ [none]) { s.setRequest r (.inPush p copies) with queue := m } := by
  rcases Monitor.called_push hm with ⟨hbuf, hcalled⟩
  have hasks : Asks P s { s.setRequest r (.inPush p copies) with queue := m } r :=
    ⟨rfl, hbuf, fun d hd => Function.update_of_ne hd _ _, fun _ _ => rfl, fun _ _ _ _ => rfl, fun _ _ _ _ => rfl, rfl⟩
  have hself : (s.setRequest r (.inPush p copies)).request r = .inPush p copies := Function.update_self _ _ _
  have hframe : Frame P (s.turn r (.inPush p copies) s.handles s.nodes)
      { s.setRequest r (.inPush p copies) with queue := m } r :=
    ⟨rfl, rfl, fun _ _ => rfl, fun p' _ => congrArg (List.count p') (congrArg Queue.UTQueue.contents hbuf),
      fun _ _ _ => rfl, fun _ _ => rfl⟩
  have hok := (h.accounts r).ok
  rw [hr] at hok
  refine h.ask hasks (h.nodes_turn s.handles s.nodes (by rw [hr]; rfl))
    (h.handles_turn s.handles s.nodes fun f => by rw [hr]; rfl) h.nodesOk h.handlesOk ?_
    (h.awake.step hm) (fun p hp => h.mem_nodes hp) ?_
  · intro t
    change (m.phase t).called = _
    rw [hcalled t, h.calls t]
    exact (s.call_setRequest r (.inPush p copies) t).symm
  · refine (h.accounts r).after rfl ?_ ?_ ?_ ?_ fun y S hf => hframe.follows (hf.turn ?_ ?_ ?_ (fun _ _ _ => rfl) ?_ ?_)
    · rw [hr]
      rfl
    · exact hself.symm ▸ rfl
    · exact hself.symm ▸ hok
    · intro p' hp'
      refine (h.accounts r).aborted p' ?_
      rw [State.nodeOf, hr]
      exact (congrArg Request.node hself).symm.trans hp'
    · intro p' hp'
      rw [hr]
      exact hp'
    · rw [hr]
      rfl
    · intro f handle hh
      rw [hr]
      exact hh
    · exact False.elim
    · simp [Request.result]

end Inv

/-- A request with its node after a copy was put into the queue. -/
structure Request.Onward (P : Processor X) (q : Request X) (p : ℤ) (copies : ℕ) : Prop where
  node : q.node = some p
  copies_eq : q.copies = copies
  handle : ∀ f, q.handle f = some (f p)
  unseen : ¬ q.Seen
  call : q.call = none
  ok : q.Ok P

theorem Request.pushed_onward (P : Processor X) (p : ℤ) (copies : ℕ) :
    ((Request.inPush p (copies + 1) : Request X).pushed).Onward P p copies := by
  rw [Request.pushed]
  split_ifs with hc
  · have h₀ : copies = 0 := by omega
    subst h₀
    exact ⟨rfl, rfl, fun _ => rfl, id, rfl, trivial⟩
  · refine ⟨rfl, rfl, fun _ => rfl, id, rfl, ?_⟩
    change 0 < copies + 1 - 1
    omega

namespace Inv

theorem pushed_account (h : Inv P os s) (hs : s.aborted = false) {p : ℤ} {copies : ℕ}
    (hr : s.request r = .inPush p (copies + 1)) {m : Monitor.State (Queue.UTQueue c.queueLen ℤ) ℤ (C ⊕ Fin c.workingNum)}
    (hcontents : m.buf.contents = s.queue.buf.contents ++ [p]) {q : Request X} (hq : q.Onward P p copies) :
    Account P (os ++ [some (r, .push, none)]) { s.setRequest r q with queue := m } r := by
  have hself : (s.setRequest r q).request r = q := Function.update_self _ _ _
  have hof : s.nodeOf r = some p := congrArg Request.node hr
  have hof' : ∀ p', State.nodeOf { s.setRequest r q with queue := m } r = some p' → p' = p := by
    intro p' hp'
    have heq := ((congrArg Request.node hself).trans hq.node).symm.trans hp'
    exact (Option.some.inj heq).symm
  have hacc := h.accounts r
  rcases h.stream hof with ⟨g, S, horigin, hpos, hrun, hf⟩
  have hna : (s.node p).aborted = false := by
    by_contra hc
    have hab := hacc.aborted p hof (by simpa using hc)
    rw [hs] at hab
    cases hab
  have hmem : S.mem = s.mem P (s.node p).handle := hf.mem _ (by rw [State.handleOf, hr]; rfl)
  have hview := hf.view p hof
  rw [hr, hmem] at hview
  have hstep : Stream.step (P.fan g.answers) S .push =
      some (State.view { s.setRequest r q with queue := m } p copies (s.mem P (s.node p).handle), none) := by
    have hcount : m.buf.contents.count p = s.queue.buf.contents.count p + 1 := by
      rw [hcontents, List.count_append, List.count_singleton_self]
    rw [hview]
    change _ = some (Stream.mk copies (m.buf.contents.count p) _ _ _ _ _ _, none)
    rw [hcount]
    simp [Stream.step, State.view, hna, Request.copies, State.setRequest]
  constructor
  · change ((s.setRequest r q).request r).Ok P
    rw [hself]
    exact hq.ok
  · refine iff_of_true ⟨_, horigin⟩ ?_
    change ((s.setRequest r q).request r).Begun
    rw [hself]
    exact Request.begun_of_node hq.node
  · intro messageBuf x handle hc
    have hnone := hq.node
    rw [show q = _ from hself.symm.trans hc] at hnone
    cases hnone
  · intro hc
    exact absurd (horigin.symm.trans hc) (by simp)
  · intro p' hp'
    rw [hof' p' hp']
    exact hacc.aborted p hof
  · intro g' hg
    cases horigin.symm.trans hg
    rcases hacc.stream g horigin with ⟨-, hm, -⟩
    rw [part_concat_self, List.map_append, List.map_append]
    refine ⟨hpos, hm, _, run_concat hrun hstep, ?_⟩
    constructor
    · intro p' hp'
      rw [hof' p' hp']
      change _ = State.view _ p ((s.setRequest r q).request r).copies _
      rw [hself, hq.copies_eq]
      rfl
    · intro p' hp'
      rw [hof' p' hp']
      exact hf.node p hof
    · intro handle hh
      have heq := ((congrArg (Request.handle fun p => (s.node p).handle) hself).trans (hq.handle _)).symm.trans hh
      cases heq
      rfl
    · change ((s.setRequest r q).request r).Seen → _
      rw [hself]
      exact fun hseen => absurd hseen hq.unseen
    · change ∀ bs, ((s.setRequest r q).request r).result = some bs → _
      rw [hself, Request.result_none hq.unseen]
      simp

/-- A copy of a request's node is put into the queue. -/
theorem pushed (h : Inv P os s) (hs : s.aborted = false) {p : ℤ} {copies : ℕ} (hr : s.request r = .inPush p copies)
    {m : Monitor.State (Queue.UTQueue c.queueLen ℤ) ℤ (C ⊕ Fin c.workingNum)}
    (hcontents : m.buf.contents = s.queue.buf.contents ++ [p])
    (hcalled : ∀ t, (m.phase t).called = if t = .inl r then none else (s.queue.phase t).called)
    (hawake : Monitor.Awake (Queue.UTQueue.buffer c.queueLen ℤ) m) :
    Inv P (os ++ [some (r, .push, none)]) { s.setRequest r (s.request r).pushed with queue := m } := by
  have hok := (h.accounts r).ok
  rw [hr] at hok
  rcases Nat.exists_eq_add_one_of_ne_zero (Nat.ne_of_gt hok) with ⟨left, rfl⟩
  have honward := Request.pushed_onward P p left
  rw [hr]
  generalize (Request.inPush p (left + 1) : Request X).pushed = q at honward
  have hself : (s.setRequest r q).request r = q := Function.update_self _ _ _
  have hrest : ∀ d, d ≠ r → (s.setRequest r q).request d = s.request d := fun d hd => Function.update_of_ne hd _ _
  have hof : s.nodeOf r = some p := congrArg Request.node hr
  have hout : p ∈ s.nodes.out := List.mem_toFinset.mp ((h.nodes.mem_iff p).mpr ⟨r, hof⟩)
  have hframe : ∀ d, d ≠ r → Frame P s { s.setRequest r q with queue := m } d := by
    intro d hd
    refine ⟨hrest d hd, rfl, fun _ _ => rfl, fun p' hp' => ?_, fun _ _ _ => rfl, fun _ _ => rfl⟩
    have hne : p' ≠ p := by
      rintro rfl
      exact hd (h.nodes.unique d r p' hp' hof)
    dsimp only
    rw [hcontents, List.count_append, List.count_singleton, beq_false_of_ne hne.symm]
    rfl
  constructor
  · refine h.nodes.kept (t := r) ?_ fun d hd => (hframe d hd).nodeOf
    rw [hof]
    exact (congrArg Request.node hself).trans honward.node
  · refine h.handles.kept (t := r) ?_ fun d hd => (hframe d hd).handleOf
    rw [State.handleOf, State.handleOf, hr]
    exact (congrArg (Request.handle fun p => (s.node p).handle) hself).trans (honward.handle _)
  · exact h.nodesOk
  · exact h.handlesOk
  · intro t
    change (m.phase t).called = _
    rw [hcalled t, h.calls t, ← honward.call]
    exact (s.call_setRequest r q t).symm
  · exact hawake
  · intro p' hp'
    dsimp only at hp'
    rw [hcontents, List.mem_append, List.mem_singleton] at hp'
    rcases hp' with hp' | rfl
    · exact h.queued p' hp'
    · exact hout
  · exact h.busy
  · intro d
    by_cases hd : d = r
    · rw [hd]
      exact h.pushed_account hs hr hcontents honward
    · exact (hframe d hd).account (h.accounts d) id (part_concat_ne (Ne.symm hd) os _ _)

/-- A request that waits for its result looks at it, and goes on with its node and its handle. -/
theorem extract (h : Inv P os s) {q : Request X} {p : ℤ} (hr : s.request r = .placed p)
    (href : (s.node p).referFin = true)
    (hnode : q.node = some p) (hcopies : q.copies = 0) (hhandle : ∀ f, q.handle f = some (f p)) (hcall : q.call = none)
    (hok : q.Ok P)
    (hresult : ∀ bs, q.result = some bs → ∃ resultLen, P.extractResult (s.mem P (s.node p).handle) resultLen = .ok bs) :
    Inv P (os ++ [none]) (s.turn r q s.handles s.nodes) := by
  have hof : s.nodeOf r = some p := congrArg Request.node hr
  refine h.turn (by rw [hr]; rfl) hcall (h.nodes_turn _ _ (by rw [hr, hnode]; rfl))
    (h.handles_turn _ _ fun f => by rw [hr, hhandle]; rfl) h.nodesOk h.handlesOk (keeps_refl _)
    (fun p hp => h.mem_nodes hp) ?_
  refine (h.accounts r).onward (Request.begun_of_node hof) (Request.begun_of_node hnode) hok ?_ ?_ ?_
    (fun _ _ _ => rfl) fun y S hf => ⟨?_, ?_⟩
  · intro p' hp'
    rw [hr]
    exact hnode.symm.trans hp'
  · rw [hr]
    exact hcopies
  · intro f handle hh
    rw [hr]
    exact (hhandle f).symm.trans hh
  · intro _
    rw [hf.view p hof]
    exact href
  · have hmem : S.mem = s.mem P (s.node p).handle := hf.mem _ (by rw [State.handleOf, hr]; rfl)
    rw [hmem]
    exact hresult

/-- `del_handle` in `put_message` -/
theorem delDeclined (h : Inv P os s) {handle : ℤ} (hr : s.request r = .declined handle) {e : MemAllocator.Observed}
    (ha : MemAllocator.step P.handles s.handles (.put handle) = some (hs, e)) :
    e ≠ .aborted ∧ Inv P (os ++ [none]) (s.turn r .refused hs s.nodes) := by
  rcases h.delHandle (r := r) (q := .refused) s.nodes (by rw [State.handleOf, hr]; rfl) (fun _ => rfl) ha with
    ⟨hne, hok, hkeeps, hhandles⟩
  refine ⟨hne, h.turn (by rw [hr]; rfl) rfl (h.nodes_turn _ _ (by rw [hr]; rfl)) hhandles h.nodesOk hok
    hkeeps (fun p hp => h.mem_nodes hp) ((h.accounts r).turn ?_ ?_ trivial (by simp))⟩
  · rw [hr]
    simp [Request.Begun, Request.node]
  · simp [Request.Begun, Request.node]

/-- `del_handle` in `get_message` -/
theorem delSeen (h : Inv P os s) {p : ℤ} {result : List UInt8} (hr : s.request r = .deleting p result)
    {e : MemAllocator.Observed} (ha : MemAllocator.step P.handles s.handles (.put (s.node p).handle) = some (hs, e)) :
    e ≠ .aborted ∧ Inv P (os ++ [none]) (s.turn r (.freeing p result) hs s.nodes) := by
  rcases h.delHandle (r := r) (q := .freeing p result) s.nodes (by rw [State.handleOf, hr]; rfl) (fun _ => rfl) ha with
    ⟨hne, hok, hkeeps, hhandles⟩
  have hof : s.nodeOf r = some p := congrArg Request.node hr
  refine ⟨hne, h.turn (by rw [hr]; rfl) rfl (h.nodes_turn _ _ (by rw [hr]; rfl)) hhandles h.nodesOk hok
    hkeeps (fun p hp => h.mem_nodes hp) ?_⟩
  refine (h.accounts r).onward (Request.begun_of_node hof) rfl trivial ?_ ?_ ?_ ?_ fun y S hf => hf.kept ?_ ?_
  · intro p' hp'
    rw [hr]
    exact hp'
  · rw [hr]
    rfl
  · intro f handle hh
    cases hh
  · intro f handle hh
    cases hh
  · rw [hr]
    trivial
  · rw [hr]
    rfl

/-- `put_mem` of the node, at which nobody is any more. -/
theorem putNode (h : Inv P os s) {p : ℤ} {result : List UInt8} (hr : s.request r = .freeing p result)
    {e : MemAllocator.Observed} (ha : MemAllocator.step streamNodes s.nodes (.put p) = some (ns, e)) :
    e ≠ .aborted ∧ Inv P (os ++ [none]) (s.turn r (.returned result) s.handles ns) := by
  rcases h.nodesOk with ⟨free, hok⟩
  rcases hok.step ha with ⟨hne, hok'⟩
  have hout := MemAllocator.step_put ha hne
  have hof : s.nodeOf r = some p := congrArg Request.node hr
  have hseen : (s.request r).Seen := by
    rw [hr]
    trivial
  have herase : ns.out.toFinset = s.nodes.out.toFinset.erase p := by
    ext p'
    rw [hout, List.mem_toFinset, h.nodes_nodup.mem_erase_iff, Finset.mem_erase, List.mem_toFinset]
  refine ⟨hne, h.turn (by rw [hr]; rfl) rfl ?_ (h.handles_turn _ _ fun f => by rw [hr]; rfl) hok' h.handlesOk
    (keeps_refl _) ?_ ?_⟩
  · rw [herase]
    exact h.nodes.released hof State.nodeOf_turn_self fun d hd => State.nodeOf_turn_ne hd
  · intro p' hp'
    rw [hout, h.nodes_nodup.mem_erase_iff]
    refine ⟨?_, h.mem_nodes hp'⟩
    rintro rfl
    exact h.not_active hof hseen hp'
  · refine (h.accounts r).onward (Request.begun_of_node hof) trivial trivial ?_ ?_ ?_ ?_ fun y S hf => hf.kept hseen ?_
    · intro p' hp'
      cases hp'
    · rw [hr]
      rfl
    · intro f handle hh
      cases hh
    · intro f handle hh
      cases hh
    · rw [hr]
      rfl

theorem init (m : Mem) (node : ℤ → StreamNode C) (tpQueue : Fin c.queueLen → ℤ) :
    Inv P ([] : List (Observed c C)) (State.init c C X m node tpQueue) where
  nodes := .empty
  handles := .empty
  nodesOk := ⟨[], .init m⟩
  handlesOk := ⟨[], .init m⟩
  calls := by rintro (r | w) <;> rfl
  awake := .out _
  queued := by
    intro p hp
    simp [State.init, Queue.UTQueue.contents, Queue.Ring.positions, Queue.Ring.positionsFrom, Queue.Ring.start] at hp
  busy := by
    intro w p φ hw
    cases hw
  accounts := by
    intro r
    refine ⟨trivial, iff_of_false (by simp [State.init]) ?_, ?_, fun _ => rfl, ?_, ?_⟩
    · simp [State.init, Request.Begun, Request.node]
    · intro messageBuf x handle hr
      cases hr
    · intro p hp
      cases hp
    · intro g hg
      cases hg

theorem queue (h : Inv P os s) (hs : s.aborted = false) {t : C ⊕ Fin c.workingNum}
    (ha : advance P s (.queue t) = some (s', o)) : Inv P (os ++ [o]) s' := by
  rcases Option.map_eq_some_iff.mp ha with ⟨⟨m, e⟩, hm, heq⟩
  have hawake := h.awake.step hm
  rcases Monitor.called_enter hm with ⟨rfl, hbuf, hcalled⟩ | ⟨hcalled, ⟨p, rfl, hp, hput⟩ | ⟨p, rfl, hp, htake⟩⟩
  · cases heq
    exact h.wait hbuf hcalled hawake
  · rw [h.calls t] at hp
    have hcontents : m.buf.contents = s.queue.buf.contents ++ [p] :=
      (Queue.UTQueue.buffer c.queueLen ℤ).contents_put _ _ _ hput
    cases t with
    | inr w =>
      cases hw : s.worker w with
      | popping =>
        change (s.worker w).call = _ at hp
        rw [hw] at hp
        cases hp
      | _ =>
        change (s.worker w).call = _ at hp
        rw [hw] at hp
        cases hp
    | inl r =>
      cases heq
      change (s.request r).call = _ at hp
      cases hr : s.request r with
      | inPush p' copies =>
        rw [hr] at hp
        cases hp
        have hpushed := h.pushed hs hr hcontents hcalled hawake
        rw [hr] at hpushed
        exact hpushed
      | _ =>
        rw [hr] at hp
        cases hp
  · rw [h.calls t] at hp
    have hcontents : s.queue.buf.contents = p :: m.buf.contents :=
      (Queue.UTQueue.buffer c.queueLen ℤ).contents_take _ _ _ htake
    cases t with
    | inl r =>
      change (s.request r).call = _ at hp
      cases hr : s.request r with
      | _ =>
        rw [hr] at hp
        cases hp
    | inr w =>
      cases heq
      change (s.worker w).call = _ at hp
      cases hw : s.worker w with
      | popping => exact h.popped hs hw hcontents hcalled hawake
      | _ =>
        rw [hw] at hp
        cases hp

theorem step (h : Inv P os s) {e : Event c C X} (he : CenterRequests.step P s e = some (s', o)) :
    Inv P (os ++ [o]) s' := by
  have hs : s.aborted = false := by
    by_contra hc
    rw [CenterRequests.step, if_pos (by simpa using hc)] at he
    cases he
  rw [CenterRequests.step, hs, if_neg Bool.false_ne_true] at he
  cases e with
  | newHandle r messageBuf x memBuf =>
    rw [advance] at he
    split at he
    next hr =>
      rcases Option.map_eq_some_iff.mp he with ⟨⟨ma, e⟩, hget, heq⟩
      dsimp only at heq
      split at heq
      next handle =>
        cases heq
        exact h.newHandle hr hget
      next =>
        cases heq
        exact h.abort
    next => cases he
  | distribute r =>
    rw [advance] at he
    split at he
    next messageBuf x handle hr =>
      split at he
      next m hm =>
        by_cases hin : P.Inside (P.distributeSpans messageBuf)
        · rw [if_pos hin] at he
          cases he
          exact h.distribute hr hm hin
        · rw [if_neg hin] at he
          cases he
          exact h.abort
      next =>
        cases he
        exact h.decline hr
      next =>
        cases he
        exact h.abort
    next => cases he
  | newNode r memBuf =>
    rw [advance] at he
    split at he
    next messageBuf x handle hr =>
      rcases Option.map_eq_some_iff.mp he with ⟨⟨ma, e⟩, hget, heq⟩
      dsimp only at heq
      split at heq
      next p =>
        split_ifs at heq with hp
        · cases heq
          exact h.abort
        · cases heq
          exact h.newNode hr hp hget
      next =>
        cases heq
        exact h.abort
    next => cases he
  | push r =>
    rw [advance] at he
    split at he
    next p copies hr =>
      rcases Option.map_eq_some_iff.mp he with ⟨⟨m, e⟩, hm, heq⟩
      cases heq
      exact h.push hr hm
    next => cases he
  | extract r resultLen =>
    rw [advance] at he
    split at he
    next p hr =>
      split_ifs at he with href hin
      swap
      · cases he
        exact h.abort
      split at he
      next result hresult =>
        cases he
        refine h.extract hr href (q := .deleting p result) rfl rfl (fun _ => rfl) rfl trivial ?_
        rintro bs ⟨⟩
        exact ⟨resultLen, hresult⟩
      next =>
        cases he
        refine h.extract hr href (q := .lost p) rfl rfl (fun _ => rfl) rfl trivial ?_
        rintro bs ⟨⟩
      next =>
        cases he
        exact h.abort
    next => cases he
  | delHandle r =>
    rw [advance] at he
    split at he
    next handle hr =>
      rcases Option.map_eq_some_iff.mp he with ⟨⟨ma, e⟩, hput, heq⟩
      rcases h.delDeclined hr hput with ⟨hne, hinv⟩
      dsimp only at heq
      rw [if_neg hne] at heq
      cases heq
      exact hinv
    next p result hr =>
      rcases Option.map_eq_some_iff.mp he with ⟨⟨ma, e⟩, hput, heq⟩
      rcases h.delSeen hr hput with ⟨hne, hinv⟩
      dsimp only at heq
      rw [if_neg hne] at heq
      cases heq
      exact hinv
    next => cases he
  | putNode r =>
    rw [advance] at he
    split at he
    next p result hr =>
      rcases Option.map_eq_some_iff.mp he with ⟨⟨ma, e⟩, hput, heq⟩
      rcases h.putNode hr hput with ⟨hne, hinv⟩
      dsimp only at heq
      rw [if_neg hne] at heq
      cases heq
      exact hinv
    next => cases he
  | pop w =>
    rw [advance] at he
    split at he
    next hw =>
      rcases Option.map_eq_some_iff.mp he with ⟨⟨m, e⟩, hm, heq⟩
      cases heq
      exact h.pop hw hm
    next => cases he
  | fetch w =>
    rw [advance] at he
    split at he
    next p hw =>
      cases he
      exact h.fetch hs hw
    next => cases he
  | write w =>
    rw [advance] at he
    split at he
    next p k z zs hw =>
      dsimp only at he
      split_ifs at he with hin
      · cases he
        exact h.write hs hw hin
      · cases he
        exact h.abort
    next => cases he
  | finish w =>
    rw [advance] at he
    split at he
    next p k hw =>
      cases he
      exact h.finish hs hw
    next => cases he
  | combine w =>
    rw [advance] at he
    split at he
    next p hw =>
      dsimp only at he
      split_ifs at he with hin
      swap
      · cases he
        exact h.abort
      split at he
      next m hm =>
        cases he
        exact h.combine hs hw hin hm
      next hm =>
        cases he
        exact h.fail hs hw hm
    next => cases he
  | publish w =>
    rw [advance] at he
    split at he
    next p hw =>
      cases he
      exact h.publish hs hw
    next => cases he
  | queue t => exact h.queue hs he
  | spurious t =>
    rcases Option.map_eq_some_iff.mp he with ⟨⟨m, e⟩, hm, heq⟩
    cases heq
    rcases Monitor.called_spurious hm with ⟨hbuf, hcalled⟩
    exact h.wait hbuf hcalled (h.awake.step hm)

end Inv

end PrimaryElection.Framework.CenterRequests
