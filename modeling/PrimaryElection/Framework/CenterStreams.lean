import PrimaryElection.Framework.CenterRequests
import PrimaryElection.Framework.CenterSchedule
import PrimaryElection.Lib.Locks

/-! One message among all others. Whatever the requests and the threads do, what they do at
the node of one message is a run of that message alone, as long as its request has the node:
no thread and no place of the queue refers to a node that is given back, and no other request
has it or the handle. -/

namespace PrimaryElection.Framework

open Memory Runs Locks Util

/-! ### The end of a message -/

namespace Stream

variable {W : ℕ} {fan : Fan} {s s' : Stream W} {ks : List ℕ} {called : Bool}

theorem Control.moves {o : Option Call} (h : Control fan ks called s) (hm : Moves fan s s' o) :
    Control fan (ks ++ returned o) (called || combining o) s' := by
  cases hm with
  | push hu => simpa [returned, combining] using h.push hu
  | pop hw hn => simpa [returned, combining] using h.pop hw hn
  | fetch hw => simpa [returned, combining] using h.fetch hw
  | write hw => simpa [returned, combining] using h.write hw
  | finish hw => simpa [returned, combining] using h.finish hw
  | combine hw hm => simpa [returned, combining] using h.combine hw
  | abort hw hm => simpa [returned, combining] using h.abort hw
  | publish hw => simpa [returned, combining] using h.publish hw

theorem control_run (hn : 0 < fan.allCount) {m₀ : Mem} {as : List (Act W)} {os : List (Option Call)}
    (h : run (step fan) (Stream.init fan m₀) as = some (s, os)) :
    Control fan (os.flatMap returned) (os.any combining) s := by
  refine run_invariant (I := fun os s => Control fan (os.flatMap returned) (os.any combining) s)
    (fun os s a s' o hi hs => ?_) (Control.init hn m₀) h
  have hm := hi.moves (step_moves hs).2
  simpa [List.flatMap_append, List.any_append] using hm

structure Quiet (s : Stream W) : Prop where
  unpushed : s.unpushed = 0
  waiting : s.waiting = 0
  worker : ∀ w, s.worker w = .idle

/-- When the result is there, every copy was taken and every thread has left. -/
theorem Control.quiet (h : Control fan ks called s) (href : s.referFin = true) : Quiet s := by
  have hdone := h.done
  have hcopies := h.copies
  have hdrawn := h.drawn
  have hfin := h.fin
  have hle := Bool.toNat_le called
  rw [href, Bool.toNat_true] at hdone
  have hlast : s.finCount = fan.allCount := by
    by_contra hne
    have hearly := h.early hne
    omega
  have hfinishes := h.last hlast
  constructor
  · omega
  · omega
  · intro w
    have h₁ := s.le_tally Phase.holds w
    have h₂ := s.le_tally Phase.runs w
    have h₃ := s.le_tally Phase.finishes w
    have h₄ := s.le_tally Phase.combines w
    cases hw : s.worker w with
    | idle => rfl
    | popped =>
      rw [hw, Phase.holds] at h₁
      omega
    | running k todo =>
      rw [hw, Phase.runs] at h₂
      omega
    | finishing =>
      rw [hw, Phase.finishes] at h₃
      omega
    | combined =>
      rw [hw, Phase.combines] at h₄
      omega

/-- With every copy taken and nobody at the message the result is there, or the combination
failed. -/
theorem Control.published (h : Control fan ks called s) (hq : Quiet s) : s.referFin = true ∨ s.aborted = true := by
  have hzero : ∀ count : Phase → ℕ, count .idle = 0 → s.tally count = 0 := by
    intro count hc
    refine Finset.sum_eq_zero fun w _ => ?_
    rw [hq.worker w]
    exact hc
  have hcopies := h.copies
  have hdrawn := h.drawn
  have hfin := h.fin
  have hdone := h.done
  rw [hq.unpushed, hq.waiting, hzero Phase.holds rfl] at hcopies
  rw [hzero Phase.runs rfl] at hdrawn
  have hlast := h.last (by omega)
  rw [hzero Phase.finishes rfl] at hlast
  rw [hzero Phase.combines rfl] at hdone
  cases href : s.referFin with
  | true => exact .inl rfl
  | false =>
    rw [href, Bool.toNat_false] at hdone
    exact .inr (Bool.toNat_eq_one.mp (by omega))

end Stream

namespace CenterRequests

variable {c : Config} {C X : Type}

/-! ### What a request has -/

namespace Request

def node : Request X → Option ℤ
  | pushing p _ => some p
  | inPush p _ => some p
  | placed p => some p
  | deleting p _ => some p
  | freeing p _ => some p
  | lost p => some p
  | _ => none

def handle (handleOf : ℤ → ℤ) : Request X → Option ℤ
  | handled _ _ handle => some handle
  | declined handle => some handle
  | distributed _ _ handle => some handle
  | pushing p _ => some (handleOf p)
  | inPush p _ => some (handleOf p)
  | placed p => some (handleOf p)
  | deleting p _ => some (handleOf p)
  | lost p => some (handleOf p)
  | _ => none

/-- The copies of the node that it has yet to put into the queue. -/
def copies : Request X → ℕ
  | pushing _ copies => copies
  | inPush _ copies => copies
  | _ => 0

def result : Request X → Option (List UInt8)
  | deleting _ result => some result
  | freeing _ result => some result
  | returned result => some result
  | _ => none

def Seen : Request X → Prop
  | deleting _ _ => True
  | freeing _ _ => True
  | returned _ => True
  | lost _ => True
  | _ => False

/-- Its message was distributed and has a node, or had one. -/
def Begun : Request X → Prop
  | returned _ => True
  | q => q.node.isSome

def call : Request X → Option (Option ℤ)
  | inPush p _ => some (some p)
  | _ => none

/-- There are tasks, and copies to be put into the queue where it is at that. -/
def Ok (P : Processor X) : Request X → Prop
  | distributed _ x _ => 0 < (P.fan x).allCount
  | pushing _ copies => 0 < copies
  | inPush _ copies => 0 < copies
  | _ => True

theorem handle_of_node {q : Request X} {p : ℤ} (hn : q.node = some p) (hs : ¬ q.Seen) (handleOf : ℤ → ℤ) :
    q.handle handleOf = some (handleOf p) := by
  cases q with
  | pushing p' _ =>
    cases hn
    rfl
  | inPush p' _ =>
    cases hn
    rfl
  | placed p' =>
    cases hn
    rfl
  | deleting _ _ => exact absurd trivial hs
  | freeing _ _ => exact absurd trivial hs
  | lost _ => exact absurd trivial hs
  | _ => cases hn

theorem handle_congr {q : Request X} {f g : ℤ → ℤ} (h : ∀ p, q.node = some p → f p = g p) : q.handle f = q.handle g := by
  cases q with
  | pushing p _ => exact congrArg some (h p rfl)
  | inPush p _ => exact congrArg some (h p rfl)
  | placed p => exact congrArg some (h p rfl)
  | deleting p _ => exact congrArg some (h p rfl)
  | lost p => exact congrArg some (h p rfl)
  | _ => rfl

theorem begun_of_node {q : Request X} {p : ℤ} (h : q.node = some p) : q.Begun := by
  cases q with
  | returned _ => trivial
  | _ => exact Option.isSome_iff_exists.mpr ⟨p, h⟩

theorem result_none {q : Request X} (h : ¬ q.Seen) : q.result = none := by
  cases q with
  | deleting _ _ => exact absurd trivial h
  | freeing _ _ => exact absurd trivial h
  | returned _ => exact absurd trivial h
  | _ => rfl

end Request

namespace Worker

def phase (p : ℤ) : Worker → Phase
  | busy p' phase => if p' = p then phase else .idle
  | _ => .idle

def call : Worker → Option (Option ℤ)
  | popping => some none
  | _ => none

theorem phase_busy (p : ℤ) (φ : Phase) : (busy p φ).phase p = φ := if_pos rfl

theorem phase_busy_ne {p p' : ℤ} (h : p' ≠ p) (φ : Phase) : (busy p φ).phase p' = .idle := if_neg h.symm

end Worker

namespace State

/-- The message at a node, given the copies that its request still has and the memory of its
handle. -/
def view (s : State c C X) (p : ℤ) (copies : ℕ) (m : Mem) : Stream c.workingNum where
  unpushed := copies
  waiting := s.queue.buf.contents.count p
  curCount := (s.node p).curCount
  finCount := (s.node p).finCount
  worker := fun w => (s.worker w).phase p
  mem := m
  referFin := (s.node p).referFin
  aborted := (s.node p).aborted

def nodeOf (s : State c C X) (r : C) : Option ℤ := (s.request r).node

def handleOf (s : State c C X) (r : C) : Option ℤ := (s.request r).handle fun p => (s.node p).handle

def call (s : State c C X) : C ⊕ Fin c.workingNum → Option (Option ℤ) :=
  Sum.elim (fun r => (s.request r).call) fun w => (s.worker w).call

end State

/-! ### The account of a request -/

variable [DecidableEq C]

namespace State

theorem call_setWorker (s : State c C X) (w : Fin c.workingNum) (q : Worker) (t : C ⊕ Fin c.workingNum) :
    (s.setWorker w q).call t = if t = .inr w then q.call else s.call t := by
  cases t with
  | inl r => exact (if_neg (by simp)).symm
  | inr v =>
    change (Function.update s.worker w q v).call = _
    rw [Function.update_apply]
    by_cases hv : v = w
    · rw [if_pos hv, if_pos (congrArg Sum.inr hv)]
    · rw [if_neg hv, if_neg fun hc => hv (Sum.inr.inj hc)]
      rfl

theorem call_setRequest (s : State c C X) (r : C) (q : Request X) (t : C ⊕ Fin c.workingNum) :
    (s.setRequest r q).call t = if t = .inl r then q.call else s.call t := by
  cases t with
  | inr w => exact (if_neg (by simp)).symm
  | inl d =>
    change (Function.update s.request r q d).call = _
    rw [Function.update_apply]
    by_cases hd : d = r
    · rw [if_pos hd, if_pos (congrArg Sum.inl hd)]
    · rw [if_neg hd, if_neg fun hc => hd (Sum.inl.inj hc)]
      rfl

end State

/-- The steps of a request's stream, with the calls that returned. -/
def part (r : C) (os : List (Observed c C)) : List (Act c.workingNum × Option Call) :=
  os.filterMap fun o => o.bind fun q => if q.1 = r then some q.2 else none

theorem part_concat_self (r : C) (os : List (Observed c C)) (a : Act c.workingNum) (k : Option Call) :
    part r (os ++ [some (r, a, k)]) = part r os ++ [(a, k)] := by simp [part]

theorem part_concat_ne {r d : C} (h : d ≠ r) (os : List (Observed c C)) (a : Act c.workingNum) (k : Option Call) :
    part r (os ++ [some (d, a, k)]) = part r os := by simp [part, h]

theorem part_silent (r : C) (os : List (Observed c C)) : part r (os ++ [none]) = part r os := by simp [part]

variable (P : Processor X)

/-- What a request's stream has to do with its node, its handle and its result. -/
structure Follows (s : State c C X) (r : C) (x : X) (S : Stream c.workingNum) : Prop where
  view : ∀ p, s.nodeOf r = some p → S = s.view p (s.request r).copies S.mem
  node : ∀ p, s.nodeOf r = some p → (s.node p).fan = P.fan x ∧ (s.node p).request = r
  mem : ∀ handle, s.handleOf r = some handle → S.mem = s.mem P handle
  seen : (s.request r).Seen → S.referFin = true
  result : ∀ bs, (s.request r).result = some bs → ∃ resultLen, P.extractResult S.mem resultLen = .ok bs

/-- The steps of a request's stream so far are a run of the message alone. -/
structure Account (os : List (Observed c C)) (s : State c C X) (r : C) : Prop where
  ok : (s.request r).Ok P
  begun : (∃ g, s.origin r = some g) ↔ (s.request r).Begun
  distributed : ∀ messageBuf x handle, s.request r = .distributed messageBuf x handle →
    ∃ m₀, P.distributeTask m₀ messageBuf = .ok (s.mem P handle)
  fresh : s.origin r = none → part r os = []
  aborted : ∀ p, s.nodeOf r = some p → (s.node p).aborted = true → s.aborted = true
  stream : ∀ g, s.origin r = some g → 0 < (P.fan g.answers).allCount ∧
    (∃ m₀, P.distributeTask m₀ g.messageBuf = .ok g.mem) ∧ ∃ S,
      run (Stream.step (P.fan g.answers)) (Stream.init (P.fan g.answers) g.mem) ((part r os).map Prod.fst) =
        some (S, (part r os).map Prod.snd) ∧ Follows P s r g.answers S

/-- A step leaves a request, its node and its handle as they are. -/
structure Frame (s s' : State c C X) (r : C) : Prop where
  request : s'.request r = s.request r
  origin : s'.origin r = s.origin r
  node : ∀ p, s.nodeOf r = some p → s'.node p = s.node p
  count : ∀ p, s.nodeOf r = some p → s'.queue.buf.contents.count p = s.queue.buf.contents.count p
  worker : ∀ p, s.nodeOf r = some p → ∀ w, (s'.worker w).phase p = (s.worker w).phase p
  mem : ∀ handle, s.handleOf r = some handle → s'.mem P handle = s.mem P handle

variable {P} {os : List (Observed c C)} {o : Observed c C} {s s' : State c C X} {r : C} {x : X} {S : Stream c.workingNum}

namespace Frame

omit [DecidableEq C] in
theorem nodeOf (h : Frame P s s' r) : s'.nodeOf r = s.nodeOf r := congrArg Request.node h.request

omit [DecidableEq C] in
theorem handleOf (h : Frame P s s' r) : s'.handleOf r = s.handleOf r := by
  rw [State.handleOf, h.request]
  exact Request.handle_congr fun p hp => congrArg StreamNode.handle (h.node p hp)

omit [DecidableEq C] in
theorem view (h : Frame P s s' r) {p : ℤ} (hp : s.nodeOf r = some p) (copies : ℕ) (m : Mem) :
    s'.view p copies m = s.view p copies m := by
  have hworker : (fun w => (s'.worker w).phase p) = fun w => (s.worker w).phase p := funext (h.worker p hp)
  rw [State.view, State.view, h.node p hp, h.count p hp, hworker]

omit [DecidableEq C] in
theorem follows (h : Frame P s s' r) (hf : Follows P s r x S) : Follows P s' r x S := by
  constructor
  · intro p hp
    rw [h.nodeOf] at hp
    rw [h.request, h.view hp]
    exact hf.view p hp
  · intro p hp
    rw [h.nodeOf] at hp
    rw [h.node p hp]
    exact hf.node p hp
  · intro handle hh
    rw [h.handleOf] at hh
    rw [h.mem handle hh]
    exact hf.mem handle hh
  · rw [h.request]
    exact hf.seen
  · rw [h.request]
    exact hf.result

theorem account (h : Frame P s s' r) (ha : Account P os s r) (hab : s.aborted = true → s'.aborted = true)
    (ho : part r (os ++ [o]) = part r os) : Account P (os ++ [o]) s' r := by
  constructor
  · rw [h.request]
    exact ha.ok
  · rw [h.request, h.origin]
    exact ha.begun
  · intro messageBuf x handle hr
    rw [h.request] at hr
    rw [h.mem handle (by rw [State.handleOf, hr]; rfl)]
    exact ha.distributed messageBuf x handle hr
  · rw [h.origin, ho]
    exact ha.fresh
  · intro p hp
    rw [h.nodeOf] at hp
    rw [h.node p hp]
    exact fun hn => hab (ha.aborted p hp hn)
  · intro g hg
    rw [h.origin] at hg
    rcases ha.stream g hg with ⟨hpos, hm, S, hrun, hf⟩
    rw [ho]
    exact ⟨hpos, hm, S, hrun, h.follows hf⟩

end Frame

/-! ### What holds between the steps -/

variable (P) in
structure Inv (os : List (Observed c C)) (s : State c C X) : Prop where
  nodes : Exclusive s.nodes.out.toFinset s.nodeOf
  handles : Exclusive s.handles.out.toFinset s.handleOf
  nodesOk : ∃ free, MemAllocator.Inv streamNodes s.nodes free
  handlesOk : ∃ free, MemAllocator.Inv P.handles s.handles free
  calls : ∀ t, (s.queue.phase t).called = s.call t
  awake : Monitor.Awake (Queue.UTQueue.buffer c.queueLen ℤ) s.queue
  queued : ∀ p ∈ s.queue.buf.contents, p ∈ s.nodes.out
  busy : ∀ w p φ, s.worker w = .busy p φ → p ∈ s.nodes.out ∧ φ ≠ .idle
  accounts : ∀ r, Account P os s r

/-- Somebody is at the node, or will be. -/
def State.Active (s : State c C X) (p : ℤ) : Prop :=
  p ∈ s.queue.buf.contents ∨ ∃ w φ, s.worker w = .busy p φ

variable (P) in
/-- The message at a node and its request, which still waits for the result. -/
structure At (os : List (Observed c C)) (s : State c C X) (p : ℤ) (r : C) (g : Origin X) : Prop where
  nodeOf : s.nodeOf r = some p
  handleOf : s.handleOf r = some (s.node p).handle
  request : (s.node p).request = r
  fan : (s.node p).fan = P.fan g.answers
  origin : s.origin r = some g
  unseen : ¬ (s.request r).Seen
  stream : run (Stream.step (P.fan g.answers)) (Stream.init (P.fan g.answers) g.mem) ((part r os).map Prod.fst) =
    some (s.view p (s.request r).copies (s.mem P (s.node p).handle), (part r os).map Prod.snd)

namespace Inv

theorem nodes_nodup (h : Inv P os s) : s.nodes.out.Nodup := by
  rcases h.nodesOk with ⟨free, hok⟩
  exact hok.nodup

theorem handles_nodup (h : Inv P os s) : s.handles.out.Nodup := by
  rcases h.handlesOk with ⟨free, hok⟩
  exact hok.nodup

/-- The stream of a request that has a node. -/
theorem stream (h : Inv P os s) {p : ℤ} (hp : s.nodeOf r = some p) :
    ∃ g S, s.origin r = some g ∧ 0 < (P.fan g.answers).allCount ∧
      run (Stream.step (P.fan g.answers)) (Stream.init (P.fan g.answers) g.mem) ((part r os).map Prod.fst) =
        some (S, (part r os).map Prod.snd) ∧ Follows P s r g.answers S := by
  have hacc := h.accounts r
  rcases hacc.begun.mpr (Request.begun_of_node hp) with ⟨g, hg⟩
  rcases hacc.stream g hg with ⟨hpos, -, S, hrun, hf⟩
  exact ⟨g, S, hg, hpos, hrun, hf⟩

/-- Once a request has seen the result, nobody is at its node. -/
theorem not_active (h : Inv P os s) {p : ℤ} (hp : s.nodeOf r = some p) (hseen : (s.request r).Seen) : ¬ s.Active p := by
  rcases h.stream hp with ⟨g, S, -, hpos, hrun, hf⟩
  have hquiet := (Stream.control_run hpos hrun).quiet (hf.seen hseen)
  have hview := hf.view p hp
  rintro (hmem | ⟨w, φ, hw⟩)
  · have hcount : s.queue.buf.contents.count p = 0 := by
      have hwait := hquiet.waiting
      rw [hview] at hwait
      exact hwait
    exact List.count_eq_zero.mp hcount hmem
  · have hidle : (s.worker w).phase p = .idle := by
      have hworker := hquiet.worker w
      rw [hview] at hworker
      exact hworker
    rw [hw, Worker.phase_busy] at hidle
    exact (h.busy w p φ hw).2 hidle

theorem mem_nodes (h : Inv P os s) {p : ℤ} (hp : s.Active p) : p ∈ s.nodes.out := by
  rcases hp with hp | ⟨w, φ, hw⟩
  · exact h.queued p hp
  · exact (h.busy w p φ hw).1

theorem active (h : Inv P os s) {p : ℤ} (hp : s.Active p) : ∃ r g, At P os s p r g := by
  rcases (h.nodes.mem_iff p).mp (List.mem_toFinset.mpr (h.mem_nodes hp)) with ⟨r, hr⟩
  rcases h.stream hr with ⟨g, S, ho, -, hrun, hf⟩
  have hunseen : ¬ (s.request r).Seen := fun hseen => h.not_active hr hseen hp
  have hhandle : s.handleOf r = some (s.node p).handle :=
    Request.handle_of_node hr hunseen fun p => (s.node p).handle
  rcases hf.node p hr with ⟨hfan, hreq⟩
  have hview := hf.view p hr
  rw [hf.mem _ hhandle] at hview
  exact ⟨r, g, hr, hhandle, hreq, hfan, ho, hunseen, hview ▸ hrun⟩

end Inv

/-! ### Blocks -/

variable (P) in
/-- The blocks of all handles but one hold the same bytes. -/
structure Writes (hs hs' : MemAllocator.State) (handle : ℤ) : Prop where
  ok : ∃ free, MemAllocator.Inv P.handles hs' free
  out : hs'.out = hs.out
  kept : ∀ handle' ∈ hs.out, handle' ≠ handle → load hs'.mem handle' P.memSize = load hs.mem handle' P.memSize

omit [DecidableEq C] in
theorem State.mem_setMem {handle : ℤ} {m : Mem} (hm : Outside P.memSize (s.mem P handle) m) :
    (s.setMem P handle m).mem P handle = m := by
  have hload : load ((⟨handle + (0 : ℕ), load m 0 P.memSize⟩ : Store).apply s.handles.mem) handle P.memSize =
      load m 0 P.memSize := by
    have hself := load_store_self ⟨handle, load m 0 P.memSize⟩ s.handles.mem
    rw [load_length] at hself
    rw [Nat.cast_zero, add_zero]
    exact hself
  change ofBytes (load ((⟨handle + (0 : ℕ), load m 0 P.memSize⟩ : Store).apply s.handles.mem) handle P.memSize) = m
  rw [hload]
  exact Outside.ofBytes_load hm (load_length _ _ _)

namespace Inv

theorem handle_out (h : Inv P os s) {handle : ℤ} (hh : s.handleOf r = some handle) : handle ∈ s.handles.out :=
  List.mem_toFinset.mp ((h.handles.mem_iff handle).mpr ⟨r, hh⟩)

theorem writes_refl (h : Inv P os s) (handle : ℤ) : Writes P s.handles s.handles handle :=
  ⟨h.handlesOk, rfl, fun _ _ _ => rfl⟩

/-- Its allocator keeps the blocks apart. -/
theorem writes (h : Inv P os s) {handle : ℤ} (hh : s.handleOf r = some handle) (m : Mem) :
    Writes P s.handles (s.setMem P handle m).handles handle := by
  have hout := h.handle_out hh
  rcases h.handlesOk with ⟨free, hok⟩
  have hok' : MemAllocator.Inv P.handles (s.setMem P handle m).handles free :=
    hok.write hout (by rw [load_length, Nat.zero_add]; exact le_rfl)
  exact ⟨⟨free, hok'⟩, rfl, fun handle' hh' hne => hok.load_eq hok' hh' hh' (Function.update_of_ne hne _ _)⟩

end Inv

/-! ### Steps at a node -/

variable (P) in
/-- A thread goes on at a node, or comes to it. -/
structure Works (s s' : State c C X) (w : Fin c.workingNum) (p : ℤ) (q : Worker) : Prop where
  handles : Writes P s.handles s'.handles (s.node p).handle
  nodes : s'.nodes = s.nodes
  request : s'.request = s.request
  origin : s'.origin = s.origin
  worker : s'.worker = Function.update s.worker w q
  node : ∀ p', p' ≠ p → s'.node p' = s.node p'
  handle : (s'.node p).handle = (s.node p).handle
  fan : (s'.node p).fan = (s.node p).fan
  owner : (s'.node p).request = (s.node p).request
  count : ∀ p', p' ≠ p → s'.queue.buf.contents.count p' = s.queue.buf.contents.count p'
  subset : ∀ p' ∈ s'.queue.buf.contents, p' ∈ s.queue.buf.contents
  before : ∀ p', p' ≠ p → (s.worker w).phase p' = .idle
  after : ∀ p', p' ≠ p → q.phase p' = .idle
  busy : ∀ p' φ, q = .busy p' φ → p' = p ∧ φ ≠ .idle
  aborted : s.aborted = true → s'.aborted = true
  nodeAborted : (s'.node p).aborted = true → s'.aborted = true

namespace Works

variable {w : Fin c.workingNum} {p : ℤ} {q : Worker}

omit [DecidableEq C] in
theorem nodeOf (h : Works P s s' w p q) : s'.nodeOf = s.nodeOf := by
  funext d
  rw [State.nodeOf, State.nodeOf, h.request]

omit [DecidableEq C] in
theorem handleOf (h : Works P s s' w p q) : s'.handleOf = s.handleOf := by
  funext d
  rw [State.handleOf, State.handleOf, h.request]
  refine Request.handle_congr fun p' _ => ?_
  by_cases hp : p' = p
  · rw [hp, h.handle]
  · rw [h.node p' hp]

omit [DecidableEq C] in
theorem frame (h : Works P s s' w p q) {d : C} (hnode : s.nodeOf d ≠ some p)
    (hhandle : s.handleOf d ≠ some (s.node p).handle)
    (hout : ∀ handle, s.handleOf d = some handle → handle ∈ s.handles.out) :
    Frame P s s' d := by
  have hne : ∀ p', s.nodeOf d = some p' → p' ≠ p := by
    rintro p' hp rfl
    exact hnode hp
  constructor
  · rw [h.request]
  · rw [h.origin]
  · exact fun p' hp => h.node p' (hne p' hp)
  · exact fun p' hp => h.count p' (hne p' hp)
  · intro p' hp v
    rw [h.worker, Function.update_apply]
    split_ifs with hv
    · rw [hv, h.before p' (hne p' hp), h.after p' (hne p' hp)]
    · rfl
  · intro handle hh
    refine congrArg ofBytes (h.handles.kept handle (hout handle hh) ?_)
    rintro rfl
    exact hhandle hh

end Works

/-- A step of a thread at a node is a step of the message there. -/
theorem Inv.work (h : Inv P os s) {w : Fin c.workingNum} {p : ℤ} {q : Worker} (hw : Works P s s' w p q) (hp : s.Active p)
    (hcalls : ∀ t, (s'.queue.phase t).called = s'.call t)
    (hawake : Monitor.Awake (Queue.UTQueue.buffer c.queueLen ℤ) s'.queue) {a : Act c.workingNum} {k : Option Call}
    (hstep : ∀ copies, Stream.step (s.node p).fan (s.view p copies (s.mem P (s.node p).handle)) a =
      some (s'.view p copies (s'.mem P (s.node p).handle), k)) :
    Inv P (os ++ [some ((s.node p).request, a, k)]) s' := by
  rcases h.active hp with ⟨r, g, hat⟩
  have hframe : ∀ d, d ≠ r → Frame P s s' d := by
    intro d hd
    refine hw.frame (fun hc => hd ?_) (fun hc => hd ?_) fun handle hh => h.handle_out hh
    · exact h.nodes.unique d r p hc hat.nodeOf
    · exact h.handles.unique d r _ hc hat.handleOf
  have hown : Account P (os ++ [some (r, a, k)]) s' r := by
    have hacc := h.accounts r
    constructor
    · rw [hw.request]
      exact hacc.ok
    · rw [hw.request, hw.origin]
      exact hacc.begun
    · intro messageBuf x handle hr
      rw [hw.request] at hr
      have hnone := hat.nodeOf
      rw [State.nodeOf, hr] at hnone
      cases hnone
    · rw [hw.origin, hat.origin]
      simp
    · intro p' hp' hab
      rw [hw.nodeOf, hat.nodeOf] at hp'
      cases hp'
      exact hw.nodeAborted hab
    · intro g' hg
      rw [hw.origin, hat.origin] at hg
      cases hg
      rcases hacc.stream g hat.origin with ⟨hpos, hm, -⟩
      refine ⟨hpos, hm, s'.view p (s.request r).copies (s'.mem P (s.node p).handle), ?_, ?_⟩
      · rw [part_concat_self, List.map_append, List.map_append]
        exact run_concat hat.stream (hat.fan ▸ hstep (s.request r).copies)
      · constructor
        · intro p' hp'
          rw [hw.nodeOf, hat.nodeOf] at hp'
          cases hp'
          rw [hw.request]
          rfl
        · intro p' hp'
          rw [hw.nodeOf, hat.nodeOf] at hp'
          cases hp'
          rw [hw.fan, hw.owner]
          exact ⟨hat.fan, hat.request⟩
        · intro handle hh
          rw [hw.handleOf, hat.handleOf] at hh
          cases hh
          rfl
        · rw [hw.request]
          exact fun hseen => absurd hseen hat.unseen
        · rw [hw.request, Request.result_none hat.unseen]
          simp
  rw [hat.request]
  constructor
  · rw [hw.nodes, hw.nodeOf]
    exact h.nodes
  · rw [hw.handles.out, hw.handleOf]
    exact h.handles
  · rw [hw.nodes]
    exact h.nodesOk
  · exact hw.handles.ok
  · exact hcalls
  · exact hawake
  · rw [hw.nodes]
    exact fun p' hp' => h.queued p' (hw.subset p' hp')
  · intro v p' φ hv
    rw [hw.worker, Function.update_apply] at hv
    rw [hw.nodes]
    split_ifs at hv with hvw
    · rcases hw.busy p' φ hv with ⟨rfl, hφ⟩
      refine ⟨?_, hφ⟩
      rw [← List.mem_toFinset]
      exact (h.nodes.mem_iff _).mpr ⟨r, hat.nodeOf⟩
    · exact h.busy v p' φ hv
  · intro d
    by_cases hd : d = r
    · rw [hd]
      exact hown
    · exact (hframe d hd).account (h.accounts d) hw.aborted (part_concat_ne (Ne.symm hd) os a k)

namespace State

/-- What a thread does to the block of its node's handle, to the node and to itself. -/
def work (s : State c C X) (hs : MemAllocator.State) (w : Fin c.workingNum) (p : ℤ) (n : StreamNode C) (q : Worker)
    (aborted : Bool) : State c C X :=
  { (s.setNode p n).setWorker w q with handles := hs, aborted := aborted }

omit [DecidableEq C] in
theorem setNode_self (s : State c C X) (p : ℤ) : s.setNode p (s.node p) = s := by
  rw [setNode, Function.update_eq_self]

omit [DecidableEq C] in
theorem mem_work (s : State c C X) (w : Fin c.workingNum) (p : ℤ) (n : StreamNode C) (q : Worker) (aborted : Bool)
    (P : Processor X) (handle : ℤ) : (s.work s.handles w p n q aborted).mem P handle = s.mem P handle := rfl

omit [DecidableEq C] in
theorem mem_work_setMem (s : State c C X) (P : Processor X) (handle : ℤ) (m : Mem) (w : Fin c.workingNum) (p : ℤ)
    (n : StreamNode C) (q : Worker) (aborted : Bool) :
    (s.work (s.setMem P handle m).handles w p n q aborted).mem P handle = (s.setMem P handle m).mem P handle := rfl

omit [DecidableEq C] in
theorem view_work (s : State c C X) (hs : MemAllocator.State) (w : Fin c.workingNum) (p : ℤ) (n : StreamNode C)
    (q : Worker) (aborted : Bool) (copies : ℕ) (m : Mem) : (s.work hs w p n q aborted).view p copies m =
      { unpushed := copies
        waiting := s.queue.buf.contents.count p
        curCount := n.curCount
        finCount := n.finCount
        worker := Function.update (fun v => (s.worker v).phase p) w (q.phase p)
        mem := m
        referFin := n.referFin
        aborted := n.aborted } := by
  have hnode : (s.work hs w p n q aborted).node p = n := Function.update_self _ _ _
  have hworker : (fun v => ((s.work hs w p n q aborted).worker v).phase p) =
      Function.update (fun v => (s.worker v).phase p) w (q.phase p) :=
    Function.comp_update (Worker.phase p) s.worker w q
  rw [view, hnode, hworker]
  rfl

end State

/-- A node after a step of a thread. -/
structure StreamNode.Next (n n' : StreamNode C) : Prop where
  handle : n'.handle = n.handle
  fan : n'.fan = n.fan
  request : n'.request = n.request

namespace Inv

variable {w : Fin c.workingNum} {p : ℤ} {φ : Phase} {q : Worker} {n : StreamNode C} {m : Mem} {b : Bool}
  {hs' : MemAllocator.State}

theorem workAt (h : Inv P os s) (hw : s.worker w = .busy p φ) (hq : q = .idle ∨ ∃ ψ, ψ ≠ .idle ∧ q = .busy p ψ)
    (hn : (s.node p).Next n) (hab : s.aborted = true → b = true) (hab' : n.aborted = true → b = true)
    (hs : Writes P s.handles hs' (s.node p).handle) {a : Act c.workingNum} {k : Option Call}
    (hstep : ∀ copies, Stream.step (s.node p).fan (s.view p copies (s.mem P (s.node p).handle)) a =
      some ((s.work hs' w p n q b).view p copies ((s.work hs' w p n q b).mem P (s.node p).handle), k)) :
    Inv P (os ++ [some ((s.node p).request, a, k)]) (s.work hs' w p n q b) := by
  have hnode : (s.work hs' w p n q b).node p = n := Function.update_self _ _ _
  have hworks : Works P s (s.work hs' w p n q b) w p q := by
    constructor
    · exact hs
    · rfl
    · rfl
    · rfl
    · rfl
    · exact fun p' hp' => Function.update_of_ne hp' _ _
    · rw [hnode, hn.handle]
    · rw [hnode, hn.fan]
    · rw [hnode, hn.request]
    · exact fun _ _ => rfl
    · exact fun _ hp' => hp'
    · intro p' hp'
      rw [hw]
      exact Worker.phase_busy_ne hp' φ
    · intro p' hp'
      rcases hq with rfl | ⟨ψ, -, rfl⟩
      · rfl
      · exact Worker.phase_busy_ne hp' ψ
    · rintro p' ψ rfl
      rcases hq with hq | ⟨ψ', hψ, hq⟩
      · cases hq
      · cases hq
        exact ⟨rfl, hψ⟩
    · exact hab
    · rw [hnode]
      exact hab'
  have hcalls : ∀ t, (s.queue.phase t).called = (s.work hs' w p n q b).call t := by
    intro t
    have hnone : q.call = none := by rcases hq with rfl | ⟨ψ, -, rfl⟩ <;> rfl
    refine (h.calls t).trans (Eq.trans ?_ (s.call_setWorker w q t).symm)
    split_ifs with ht
    · rw [ht, hnone]
      exact congrArg Worker.call hw
    · rfl
  exact h.work hworks (.inr ⟨w, φ, hw⟩) hcalls h.awake hstep

theorem node_aborted (h : Inv P os s) (hab : s.aborted = false) (hp : s.Active p) : (s.node p).aborted = false := by
  rcases h.active hp with ⟨r, g, hat⟩
  by_contra hc
  have := (h.accounts r).aborted p hat.nodeOf (by simpa using hc)
  rw [hab] at this
  cases this

/-- A step that does not fail. -/
theorem workNext (h : Inv P os s) (hs : s.aborted = false) (hw : s.worker w = .busy p φ)
    (hq : q = .idle ∨ ∃ ψ, ψ ≠ .idle ∧ q = .busy p ψ) (hn : (s.node p).Next n) (hab : n.aborted = (s.node p).aborted)
    (hwrites : Writes P s.handles hs' (s.node p).handle) {a : Act c.workingNum} {k : Option Call}
    (hstep : (s.node p).aborted = false → ∀ copies,
      Stream.step (s.node p).fan (s.view p copies (s.mem P (s.node p).handle)) a =
        some ((s.work hs' w p n q s.aborted).view p copies ((s.work hs' w p n q s.aborted).mem P (s.node p).handle), k)) :
    Inv P (os ++ [some ((s.node p).request, a, k)]) (s.work hs' w p n q s.aborted) := by
  have hna := h.node_aborted hs (.inr ⟨w, φ, hw⟩)
  refine h.workAt hw hq hn id (fun hc => ?_) hwrites (hstep hna)
  rw [hab, hna] at hc
  cases hc

theorem fetch (h : Inv P os s) (hs : s.aborted = false) (hw : s.worker w = .busy p .popped) :
    Inv P (os ++ [some ((s.node p).request, .fetch w, none)])
      ((s.setNode p { s.node p with curCount := (s.node p).curCount + 1 }).setWorker w
        (.busy p (.running (s.node p).curCount ((s.node p).fan.task (s.node p).curCount)))) := by
  refine h.workNext (n := { s.node p with curCount := (s.node p).curCount + 1 }) (a := .fetch w) (k := none) hs hw
    (.inr ⟨.running (s.node p).curCount ((s.node p).fan.task (s.node p).curCount), by simp, rfl⟩) ⟨rfl, rfl, rfl⟩ rfl
    (h.writes_refl _) fun hna copies => ?_
  rw [State.view_work]
  simp [Stream.step, State.view, hna, hw, Worker.phase_busy, Stream.move, State.mem_work]

theorem handle_at (h : Inv P os s) (hw : s.worker w = .busy p φ) :
    ∃ r x, s.handleOf r = some (s.node p).handle ∧ (s.node p).fan = P.fan x := by
  rcases h.active (.inr ⟨w, φ, hw⟩) with ⟨r, g, hat⟩
  exact ⟨r, g.answers, hat.handleOf, hat.fan⟩

theorem write (h : Inv P os s) (hs : s.aborted = false) {i : ℕ} {z : Store} {zs : List Store}
    (hw : s.worker w = .busy p (.running i (z :: zs))) (hin : P.Inside [z.span]) :
    Inv P (os ++ [some ((s.node p).request, .write w, none)])
      ((s.setMem P (s.node p).handle (z.apply (s.mem P (s.node p).handle))).setWorker w (.busy p (.running i zs))) := by
  rcases h.handle_at hw with ⟨r, x, hh, -⟩
  have hmem : (s.setMem P (s.node p).handle (z.apply (s.mem P (s.node p).handle))).mem P (s.node p).handle =
      z.apply (s.mem P (s.node p).handle) := State.mem_setMem
    (Outside.store (hin z.span (List.mem_singleton_self _)) (s.mem P (s.node p).handle))
  have hwork := h.workNext (n := s.node p) (a := .write w) (k := none) hs hw
    (.inr ⟨.running i zs, by simp, rfl⟩) ⟨rfl, rfl, rfl⟩ rfl (h.writes hh (z.apply (s.mem P (s.node p).handle)))
    fun hna copies => by
      rw [State.view_work]
      simp [Stream.step, State.view, hna, hw, Worker.phase_busy, Stream.move, State.mem_work_setMem, hmem]
  rw [State.work, State.setNode_self] at hwork
  exact hwork

theorem finish (h : Inv P os s) (hs : s.aborted = false) {i : ℕ} (hw : s.worker w = .busy p (.running i [])) :
    Inv P (os ++ [some ((s.node p).request, .finish w, some (.processTask i))])
      ((s.setNode p { s.node p with finCount := (s.node p).finCount + 1 }).setWorker w
        (if (s.node p).finCount + 1 = (s.node p).fan.allCount then .busy p .finishing else .idle)) := by
  have hq : ∀ b : Prop, [Decidable b] → (if b then Worker.busy p .finishing else .idle) = .idle ∨
      ∃ ψ, ψ ≠ .idle ∧ (if b then Worker.busy p .finishing else .idle) = .busy p ψ := by
    intro b _
    split_ifs
    · exact .inr ⟨.finishing, by simp, rfl⟩
    · exact .inl rfl
  have hphase : ∀ b : Prop, [Decidable b] →
      (if b then Worker.busy p .finishing else .idle).phase p = if b then .finishing else .idle := by
    intro b _
    split_ifs
    · exact Worker.phase_busy p _
    · rfl
  refine h.workNext (n := { s.node p with finCount := (s.node p).finCount + 1 }) (a := .finish w)
    (k := some (.processTask i)) hs hw (hq ((s.node p).finCount + 1 = (s.node p).fan.allCount)) ⟨rfl, rfl, rfl⟩ rfl
    (h.writes_refl _) fun hna copies => ?_
  rw [State.view_work, hphase]
  simp [Stream.step, State.view, hna, hw, Worker.phase_busy, Stream.move, State.mem_work]

theorem combine (h : Inv P os s) (hs : s.aborted = false) (hw : s.worker w = .busy p .finishing)
    (hin : P.Inside (P.combineSpans (s.mem P (s.node p).handle)))
    (hm : (s.node p).fan.combineTask (s.mem P (s.node p).handle) = some m) :
    Inv P (os ++ [some ((s.node p).request, .combine w, some .combineTask)])
      ((s.setMem P (s.node p).handle m).setWorker w (.busy p .combined)) := by
  rcases h.handle_at hw with ⟨r, x, hh, hfan⟩
  have hmem : (s.setMem P (s.node p).handle m).mem P (s.node p).handle = m := State.mem_setMem
    (P.combine_outside (x := x) (hfan ▸ hm) hin)
  have hwork := h.workNext (n := s.node p) (a := .combine w) (k := some .combineTask) hs hw
    (.inr ⟨.combined, by simp, rfl⟩) ⟨rfl, rfl, rfl⟩ rfl (h.writes hh m) fun hna copies => by
      rw [State.view_work]
      simp [Stream.step, State.view, hna, hw, hm, Worker.phase_busy, Stream.move, State.mem_work_setMem, hmem]
  rw [State.work, State.setNode_self] at hwork
  exact hwork

theorem fail (h : Inv P os s) (hs : s.aborted = false) (hw : s.worker w = .busy p .finishing)
    (hm : (s.node p).fan.combineTask (s.mem P (s.node p).handle) = none) :
    Inv P (os ++ [some ((s.node p).request, .combine w, some .combineTask)])
      (((s.setNode p { s.node p with aborted := true }).setWorker w .idle).abort) := by
  have hna := h.node_aborted hs (.inr ⟨w, _, hw⟩)
  refine h.workAt (n := { s.node p with aborted := true }) (b := true) (q := .idle) (a := .combine w)
    (k := some .combineTask) hw (.inl rfl) ⟨rfl, rfl, rfl⟩ (fun _ => rfl) (fun _ => rfl) (h.writes_refl _)
    fun copies => ?_
  rw [State.view_work]
  simp [Stream.step, State.view, hna, hw, hm, Worker.phase, Stream.move, State.mem_work]

theorem publish (h : Inv P os s) (hs : s.aborted = false) (hw : s.worker w = .busy p .combined) :
    Inv P (os ++ [some ((s.node p).request, .publish w, none)])
      ((s.setNode p { s.node p with referFin := true }).setWorker w .idle) := by
  refine h.workNext (n := { s.node p with referFin := true }) (q := .idle) (a := .publish w) (k := none) hs hw (.inl rfl)
    ⟨rfl, rfl, rfl⟩ rfl (h.writes_refl _) fun hna copies => ?_
  rw [State.view_work]
  simp [Stream.step, State.view, hna, hw, Worker.phase, Stream.move, State.mem_work]

end Inv

end CenterRequests

end PrimaryElection.Framework
