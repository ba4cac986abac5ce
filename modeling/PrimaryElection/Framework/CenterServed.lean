import PrimaryElection.Framework.CenterConnections
import PrimaryElection.Framework.MessageBounds

/-! What the clients of the center see. Whatever the threads do, each connection has its
life, no node is lost or given back twice, and when no thread can go on but to accept, all
connections are closed. -/

namespace PrimaryElection.Framework.CenterTasks

open CInt Bytes Encoder Util ThreadProcess Runs

variable {D L P : Type}

/-! ### Where the threads have them -/

variable {c : Config} [Fintype L] [Fintype P]

/-- The places of the threads and of what is in the queue. -/
def placesOf (listen : L → Listen) (process : P → Process) (keys : List ℤ) : Multiset Place :=
  (∑ i, ((listen i).place.toList : Multiset Place)) + (∑ j, ((process j).place.toList : Multiset Place)) +
    (keys.map Place.queued : Multiset Place)

def State.places (s : State c L P) : Multiset Place := placesOf s.listen s.process s.queue.buf.contents

/-- One summand of a sum, whatever it is. -/
theorem sum_split {ι α : Type} [Fintype ι] [DecidableEq ι] (f : ι → Multiset α) (i : ι) :
    ∃ rest, ∑ k, f k = f i + rest ∧ ∀ x, ∑ k, Function.update f i x k = x + rest := by
  refine ⟨∑ k ∈ Finset.univ \ {i}, f k, ?_, fun x => Finset.sum_update_of_mem (Finset.mem_univ i) f x⟩
  rw [← Finset.sum_update_of_mem (Finset.mem_univ i), Function.update_eq_self]

def Place.cons : Option Place → Multiset Place → Multiset Place
  | none, rest => rest
  | some q, rest => q ::ₘ rest

theorem Place.cons_eq (q : Option Place) (rest : Multiset Place) :
    (q.toList : Multiset Place) + rest = Place.cons q rest := by
  cases q with
  | none => exact zero_add rest
  | some q => exact Multiset.singleton_add q rest

theorem placesOf_listen [DecidableEq L] (listen : L → Listen) (process : P → Process) (i : L) :
    ∃ rest, ∀ keys : List ℤ,
      placesOf listen process keys = Place.cons (listen i).place (rest + (keys.map Place.queued : Multiset Place)) ∧
      ∀ l, placesOf (Function.update listen i l) process keys =
        Place.cons l.place (rest + (keys.map Place.queued : Multiset Place)) := by
  rcases sum_split (fun k => ((listen k).place.toList : Multiset Place)) i with ⟨rest, hsum, hupdate⟩
  refine ⟨rest + ∑ j, ((process j).place.toList : Multiset Place), fun keys => ⟨?_, fun l => ?_⟩⟩
  · rw [placesOf, hsum, ← Place.cons_eq]
    simp only [add_assoc]
  · have hcomp : (fun k => ((Function.update listen i l k).place.toList : Multiset Place)) =
        Function.update (fun k => ((listen k).place.toList : Multiset Place)) i l.place.toList :=
      Function.comp_update (fun l : Listen => (l.place.toList : Multiset Place)) listen i l
    rw [placesOf, hcomp, hupdate, ← Place.cons_eq]
    simp only [add_assoc]

theorem placesOf_process [DecidableEq P] (listen : L → Listen) (process : P → Process) (j : P) :
    ∃ rest, ∀ keys : List ℤ,
      placesOf listen process keys = Place.cons (process j).place (rest + (keys.map Place.queued : Multiset Place)) ∧
      ∀ p, placesOf listen (Function.update process j p) keys =
        Place.cons p.place (rest + (keys.map Place.queued : Multiset Place)) := by
  rcases sum_split (fun k => ((process k).place.toList : Multiset Place)) j with ⟨rest, hsum, hupdate⟩
  refine ⟨(∑ i, ((listen i).place.toList : Multiset Place)) + rest, fun keys => ⟨?_, fun p => ?_⟩⟩
  · rw [placesOf, hsum, ← Place.cons_eq]
    simp only [add_assoc, add_left_comm]
  · have hcomp : (fun k => ((Function.update process j p k).place.toList : Multiset Place)) =
        Function.update (fun k => ((process k).place.toList : Multiset Place)) j p.place.toList :=
      Function.comp_update (fun p : Process => (p.place.toList : Multiset Place)) process j p
    rw [placesOf, hcomp, hupdate, ← Place.cons_eq]
    simp only [add_assoc, add_left_comm]

theorem State.split_listen [DecidableEq L] (s : State c L P) (i : L) :
    ∃ rest, s.places = Place.cons (s.listen i).place rest ∧
      ∀ l, (s.setListen i l).places = Place.cons l.place rest := by
  rcases placesOf_listen s.listen s.process i with ⟨rest, hrest⟩
  exact ⟨_, (hrest s.queue.buf.contents).1, (hrest s.queue.buf.contents).2⟩

theorem State.split_process [DecidableEq P] (s : State c L P) (j : P) :
    ∃ rest, s.places = Place.cons (s.process j).place rest ∧
      ∀ p, (s.setProcess j p).places = Place.cons p.place rest := by
  rcases placesOf_process s.listen s.process j with ⟨rest, hrest⟩
  exact ⟨_, (hrest s.queue.buf.contents).1, (hrest s.queue.buf.contents).2⟩

def Listen.call : Listen → Option (Option ℤ)
  | pushing task => some (some task)
  | _ => none

def Process.call : Process → Option (Option ℤ)
  | popping => some none
  | _ => none

theorem Listen.call_eq {l : Listen} {x : Option ℤ} (h : l.call = some x) :
    ∃ task, l = .pushing task ∧ x = some task := by
  cases l with
  | pushing task => exact ⟨task, rfl, (Option.some.inj h).symm⟩
  | _ => cases h

theorem Process.call_eq {p : Process} {x : Option ℤ} (h : p.call = some x) : p = .popping ∧ x = none := by
  cases p with
  | popping => exact ⟨rfl, (Option.some.inj h).symm⟩
  | _ => cases h

/-- What a thread is in at the queue. -/
def State.call (s : State c L P) : L ⊕ P → Option (Option ℤ) :=
  Sum.elim (fun i => (s.listen i).call) fun j => (s.process j).call

omit [Fintype L] [Fintype P] in
theorem State.call_setListen [DecidableEq L] [DecidableEq P] (s : State c L P) (i : L) (l : Listen) (t : L ⊕ P) :
    (s.setListen i l).call t = if t = .inl i then l.call else s.call t := by
  cases t with
  | inr j => rfl
  | inl i' =>
    change (Function.update s.listen i l i').call = _
    rw [Function.update_apply]
    by_cases hii : i' = i
    · rw [if_pos hii, if_pos (congrArg Sum.inl hii)]
    · rw [if_neg hii, if_neg fun hc => hii (Sum.inl.inj hc)]
      rfl

omit [Fintype L] [Fintype P] in
theorem State.call_setProcess [DecidableEq L] [DecidableEq P] (s : State c L P) (j : P) (p : Process) (t : L ⊕ P) :
    (s.setProcess j p).call t = if t = .inr j then p.call else s.call t := by
  cases t with
  | inl i => rfl
  | inr j' =>
    change (Function.update s.process j p j').call = _
    rw [Function.update_apply]
    by_cases hjj : j' = j
    · rw [if_pos hjj, if_pos (congrArg Sum.inr hjj)]
    · rw [if_neg hjj, if_neg fun hc => hjj (Sum.inr.inj hc)]
      rfl

structure Inv (os : List (Observed D)) (s : State c L P) : Prop where
  books : Books s.node os s.places s.ma.out s.opened
  ma : ∃ free, MemAllocator.Inv c.nodes s.ma free
  calls : ∀ t, (s.queue.phase t).called = s.call t
  awake : Monitor.Awake (Queue.UTQueue.buffer c.fwQueueSize ℤ) s.queue
  not_aborted : Observed.aborted ∉ os

theorem notMem_concat {os : List (Observed D)} {o : Observed D} (h : Observed.aborted ∉ os) (ho : o ≠ .aborted) :
    Observed.aborted ∉ os ++ [o] := by
  rw [List.mem_append, List.mem_singleton, not_or]
  exact ⟨h, ho.symm⟩

namespace Inv

variable {os : List (Observed D)} {s s' : State c L P} {o : Observed D}

theorem init (m : Memory.Mem) (node : ℤ → Node) (tpQueue : Fin c.fwQueueSize → ℤ) :
    Inv ([] : List (Observed D)) (State.init c L P m node tpQueue) where
  books := by
    have hplaces : (State.init c L P m node tpQueue).places = 0 := by
      simp [State.places, placesOf, State.init, Listen.place, Process.place, Queue.UTQueue.contents,
        Queue.Ring.positions, Queue.Ring.positionsFrom, Queue.Ring.start]
    rw [hplaces]
    exact ⟨rfl, rfl, (by simp), fun _ _ => rfl⟩
  ma := ⟨[], .init m⟩
  calls := by rintro (i | j) <;> rfl
  awake := .out _
  not_aborted := List.not_mem_nil

theorem out_nodup (h : Inv os s) : s.ma.out.Nodup := by
  rcases h.ma with ⟨free, hma⟩
  exact hma.nodup

theorem wait (h : Inv os s) {m : Monitor.State (Queue.UTQueue c.fwQueueSize ℤ) ℤ (L ⊕ P)} (hbuf : m.buf = s.queue.buf)
    (hcalled : ∀ t, (m.phase t).called = (s.queue.phase t).called)
    (hawake : Monitor.Awake (Queue.UTQueue.buffer c.fwQueueSize ℤ) m) :
    Inv (os ++ [.silent]) { s with queue := m } := by
  constructor
  · rw [State.places]
    dsimp only
    rw [hbuf]
    exact h.books.silent
  · exact h.ma
  · exact fun t => (hcalled t).trans (h.calls t)
  · exact hawake
  · exact notMem_concat h.not_aborted (by simp)

theorem books_listen [DecidableEq L] (h : Inv os s) {i : L} {l : Listen} (hi : s.listen i = l) :
    ∃ rest, Books s.node os (Place.cons l.place rest) s.ma.out s.opened ∧
      ∀ l, (s.setListen i l).places = Place.cons l.place rest := by
  rcases s.split_listen i with ⟨rest, hold, hnew⟩
  refine ⟨rest, ?_, hnew⟩
  rw [← hi, ← hold]
  exact h.books

theorem books_process [DecidableEq P] (h : Inv os s) {j : P} {p : Process} (hj : s.process j = p) :
    ∃ rest, Books s.node os (Place.cons p.place rest) s.ma.out s.opened ∧
      ∀ p, (s.setProcess j p).places = Place.cons p.place rest := by
  rcases s.split_process j with ⟨rest, hold, hnew⟩
  refine ⟨rest, ?_, hnew⟩
  rw [← hj, ← hold]
  exact h.books

variable [DecidableEq L] [DecidableEq P]

theorem calls_listen (h : Inv os s) {i : L} {l : Listen} (hi : (s.listen i).call = none) (hl : l.call = none) :
    ∀ t, (s.queue.phase t).called = (s.setListen i l).call t := by
  intro t
  rw [h.calls t, State.call_setListen]
  split_ifs with ht
  · rw [ht, hl]
    exact hi
  · rfl

theorem calls_process (h : Inv os s) {j : P} {p : Process} (hj : (s.process j).call = none) (hp : p.call = none) :
    ∀ t, (s.queue.phase t).called = (s.setProcess j p).call t := by
  intro t
  rw [h.calls t, State.call_setProcess]
  split_ifs with ht
  · rw [ht, hp]
    exact hj
  · rfl

theorem accept (h : Inv os s) {i : L} {client : ℤ} (hi : s.listen i = .accepting) (hc : client ∉ s.opened) :
    Inv (os ++ [.accepted client]) { s.setListen i (.accepted client) with opened := insert client s.opened } := by
  rcases h.books_listen hi with ⟨rest, hbooks, hplaces⟩
  constructor
  · exact (hplaces (.accepted client)).symm ▸ hbooks.accept hc
  · exact h.ma
  · exact h.calls_listen (by rw [hi]; rfl) rfl
  · exact h.awake
  · exact notMem_concat h.not_aborted (by simp)

theorem getTask (h : Inv os s) {i : L} {client memBuf : ℤ} (hi : s.listen i = .accepted client)
    (hs : CenterTasks.getTask s i client memBuf = some (s', o)) : Inv (os ++ [o]) s' := by
  rcases h.ma with ⟨free, hma⟩
  rcases Option.map_eq_some_iff.mp hs with ⟨⟨ma, r⟩, hget, heq⟩
  rcases hma.step hget with ⟨hr, free', hma'⟩
  rcases MemAllocator.step_get hget hr with ⟨task, rfl, hout⟩
  dsimp only at heq
  split_ifs at heq hout with h₀
  · cases heq
    refine ⟨?_, ⟨free', hma'⟩, h.calls, h.awake, notMem_concat h.not_aborted (by simp)⟩
    change Books s.node _ s.places ma.out s.opened
    rw [hout]
    exact h.books.silent
  · cases heq
    rcases h.books_listen hi with ⟨rest, hbooks, hplaces⟩
    have hnodup := hma'.nodup
    rw [hout] at hnodup
    constructor
    · refine (hplaces (.receiving client task)).symm ▸ ?_
      change Books _ _ _ ma.out s.opened
      rw [hout]
      refine hbooks.get (List.nodup_cons.mp hnodup).1 (fun p hp => Function.update_of_ne hp _ _) ?_
      change (Function.update s.node task _ task).client = client
      rw [Function.update_self]
    · exact ⟨free', hma'⟩
    · exact h.calls_listen (l := .receiving client task) (by rw [hi]; rfl) rfl
    · exact h.awake
    · exact notMem_concat h.not_aborted (by simp)

theorem receive [Zero D] {host : Host D} {json : Json D} {size len : ℤ} {bs : List UInt8} {u : Unit} (h : Inv os s)
    {i : L} {client task : ℤ} {m : Monitor.State (Queue.UTQueue c.fwQueueSize ℤ) ℤ (L ⊕ P)}
    {w : Monitor.Observed ℤ (L ⊕ P)} (hi : s.listen i = .receiving client task)
    (hr : parseJson host json size 0 = ⟨bs, len, .ok u⟩)
    (hm : Monitor.step (Queue.UTQueue.buffer c.fwQueueSize ℤ) s.queue (.push (.inl i) task) = some (m, w)) :
    Inv (os ++ [.asked client json])
      { (s.setNode task ((s.node task).encoded bs)).setListen i (.pushing task) with queue := m } := by
  rcases h.books_listen hi with ⟨rest, hbooks, hplaces⟩
  rcases Monitor.called_push hm with ⟨hbuf, hcalled⟩
  rcases hbooks.lives _ (Multiset.mem_cons_self _ rest) client rfl with ⟨_, -, -, hclient⟩
  have hnode : Function.update s.node task ((s.node task).encoded bs) task = (s.node task).encoded bs :=
    Function.update_self _ _ _
  have hmove : Books (Function.update s.node task ((s.node task).encoded bs)) (os ++ [.asked client json])
      (.queued task ::ₘ rest) s.ma.out s.opened := by
    refine hbooks.move h.out_nodup rfl rfl (show _ = some client from rfl) ?_
      (fun p hp => Function.update_of_ne hp _ _) (.inr rfl) ?_
    · rw [Place.client, hnode]
      exact congrArg some hclient
    · rintro l ⟨rfl, -⟩
      refine ⟨.asked json, Life.after_self rfl, json, rfl, fun e => ?_⟩
      rw [hnode]
      exact encoded_request hr _ e
  constructor
  · have hold := hplaces (.pushing task)
    rw [State.places] at hold ⊢
    dsimp only at hold ⊢
    rw [hbuf]
    exact hold.symm ▸ hmove
  · exact h.ma
  · intro t
    rw [hcalled t, h.calls t]
    exact (s.call_setListen i (.pushing task) t).symm
  · exact h.awake.step hm
  · exact notMem_concat h.not_aborted (by simp)

theorem fail (h : Inv os s) {i : L} {client task : ℤ} (hi : s.listen i = .receiving client task) :
    Inv (os ++ [.silent]) (s.setListen i (.failed client task)) := by
  rcases h.books_listen hi with ⟨rest, hbooks, hplaces⟩
  constructor
  · exact (hplaces (.failed client task)).symm ▸ hbooks.silent
  · exact h.ma
  · exact h.calls_listen (by rw [hi]; rfl) rfl
  · exact h.awake
  · exact notMem_concat h.not_aborted (by simp)

theorem serve (h : Inv os s) {j : P} {task : ℤ} {e : Env} {sent : List UInt8} (hj : s.process j = .serving task)
    (hsent : threadProcess e (s.node task).taskNode = some sent) :
    Inv (os ++ [.answered (s.node task).client e sent]) (s.setProcess j (.sent task)) := by
  rcases h.books_process hj with ⟨rest, hbooks, hplaces⟩
  constructor
  · refine (hplaces (.sent task)).symm ▸ hbooks.move h.out_nodup rfl rfl rfl rfl (fun _ _ => rfl) (.inr rfl) ?_
    rintro l ⟨json, rfl, hjson⟩
    refine ⟨.answered, ?_, rfl⟩
    rw [Life.after_self rfl, Life.next, if_pos (by rw [← hjson, hsent])]
  · exact h.ma
  · exact h.calls_process (by rw [hj]; rfl) rfl
  · exact h.awake
  · exact notMem_concat h.not_aborted (by simp)

theorem closeListen (h : Inv os s) {i : L} {client : ℤ} (hi : s.listen i = .closing client) :
    Inv (os ++ [.closed client]) { s.setListen i .accepting with opened := s.opened.erase client } := by
  rcases h.books_listen hi with ⟨rest, hbooks, hplaces⟩
  have hclose := Books.close 0 hbooks (show _ = some client from rfl) (by rintro l rfl; rfl) rfl (by simp)
  rw [zero_add] at hclose
  constructor
  · exact (hplaces .accepting).symm ▸ hclose
  · exact h.ma
  · exact h.calls_listen (by rw [hi]; rfl) rfl
  · exact h.awake
  · exact notMem_concat h.not_aborted (by simp)

theorem closeProcess (h : Inv os s) {j : P} {task : ℤ} (hj : s.process j = .sent task) :
    Inv (os ++ [.closed (s.node task).client])
      { s.setProcess j (.closed task) with opened := s.opened.erase (s.node task).client } := by
  rcases h.books_process hj with ⟨rest, hbooks, hplaces⟩
  have hclose := Books.close {.closed task} hbooks (show _ = some (s.node task).client from rfl)
    (by rintro l rfl; rfl) rfl
    (by simp [Place.client])
  rw [Multiset.singleton_add] at hclose
  constructor
  · exact (hplaces (.closed task)).symm ▸ hclose
  · exact h.ma
  · exact h.calls_process (by rw [hj]; rfl) rfl
  · exact h.awake
  · exact notMem_concat h.not_aborted (by simp)

theorem putListen (h : Inv os s) {i : L} {client task : ℤ} (hi : s.listen i = .failed client task)
    (hs : putTask (s.setListen i (.closing client)) task = some (s', o)) : Inv (os ++ [o]) s' := by
  rcases h.ma with ⟨free, hma⟩
  rcases Option.map_eq_some_iff.mp hs with ⟨⟨ma, r⟩, hput, heq⟩
  rcases hma.step hput with ⟨hr, free', hma'⟩
  rw [if_neg hr] at heq
  cases heq
  rcases h.books_listen hi with ⟨rest, hbooks, hplaces⟩
  have hnew := Books.put {.accepted client} hbooks rfl (by simp [Place.task]) rfl
    (by
      intro r hr l hl
      rw [Multiset.mem_singleton.mp hr]
      exact hl.1)
  rw [Multiset.singleton_add] at hnew
  constructor
  · refine (hplaces (.closing client)).symm ▸ ?_
    change Books _ _ _ ma.out s.opened
    rw [MemAllocator.step_put hput hr]
    exact hnew
  · exact ⟨free', hma'⟩
  · exact h.calls_listen (by rw [hi]; rfl) rfl
  · exact h.awake
  · exact notMem_concat h.not_aborted (by simp)

theorem putProcess (h : Inv os s) {j : P} {task : ℤ} (hj : s.process j = .closed task)
    (hs : putTask (s.setProcess j .idle) task = some (s', o)) : Inv (os ++ [o]) s' := by
  rcases h.ma with ⟨free, hma⟩
  rcases Option.map_eq_some_iff.mp hs with ⟨⟨ma, r⟩, hput, heq⟩
  rcases hma.step hput with ⟨hr, free', hma'⟩
  rw [if_neg hr] at heq
  cases heq
  rcases h.books_process hj with ⟨rest, hbooks, hplaces⟩
  have hnew := Books.put 0 hbooks rfl (by simp) rfl (by simp)
  rw [zero_add] at hnew
  constructor
  · refine (hplaces .idle).symm ▸ ?_
    change Books _ _ _ ma.out s.opened
    rw [MemAllocator.step_put hput hr]
    exact hnew
  · exact ⟨free', hma'⟩
  · exact h.calls_process (by rw [hj]; rfl) rfl
  · exact h.awake
  · exact notMem_concat h.not_aborted (by simp)

theorem pop (h : Inv os s) {j : P} {m : Monitor.State (Queue.UTQueue c.fwQueueSize ℤ) ℤ (L ⊕ P)}
    {w : Monitor.Observed ℤ (L ⊕ P)} (hj : s.process j = .idle)
    (hm : Monitor.step (Queue.UTQueue.buffer c.fwQueueSize ℤ) s.queue (.pop (.inr j)) = some (m, w)) :
    Inv (os ++ [.silent]) { s.setProcess j .popping with queue := m } := by
  rcases h.books_process hj with ⟨rest, hbooks, hplaces⟩
  rcases Monitor.called_pop hm with ⟨hbuf, hcalled⟩
  constructor
  · have hold := hplaces .popping
    rw [State.places] at hold ⊢
    dsimp only at hold ⊢
    rw [hbuf]
    exact hold.symm ▸ hbooks.silent
  · exact h.ma
  · intro t
    rw [hcalled t, h.calls t]
    exact (s.call_setProcess j .popping t).symm
  · exact h.awake.step hm
  · exact notMem_concat h.not_aborted (by simp)

/-- A node that a listening thread puts into the queue, or that a processing thread takes
out of it, stays where it is. -/
theorem queue (h : Inv os s) {t : L ⊕ P}
    (hs : (Monitor.step (Queue.UTQueue.buffer c.fwQueueSize ℤ) s.queue (.enter t)).map (fun m =>
      match m.2, t with
      | .pushed _ _, .inl i => ({ s.setListen i .accepting with queue := m.1 }, .silent)
      | .popped _ task, .inr j => ({ s.setProcess j (.serving task) with queue := m.1 }, .silent)
      | _, _ => ({ s with queue := m.1 }, .silent)) = some (s', o)) : Inv (os ++ [o]) s' := by
  rcases Option.map_eq_some_iff.mp hs with ⟨⟨m, w⟩, hm, heq⟩
  have hawake := h.awake.step hm
  rcases Monitor.called_enter hm with
    ⟨rfl, hbuf, hcalled⟩ | ⟨hcalled, ⟨task, rfl, htask, hput⟩ | ⟨task, rfl, htask, htake⟩⟩
  · cases heq
    exact h.wait hbuf hcalled hawake
  · rw [h.calls t] at htask
    cases t with
    | inr j => cases (Process.call_eq htask).2
    | inl i =>
      cases heq
      rcases Listen.call_eq htask with ⟨_, hi, ⟨⟩⟩
      rcases placesOf_listen s.listen s.process i with ⟨rest, hrest⟩
      have hcontents : m.buf.contents = s.queue.buf.contents ++ [task] :=
        (Queue.UTQueue.buffer c.fwQueueSize ℤ).contents_put _ _ _ hput
      have hplaces : State.places { s.setListen i .accepting with queue := m } = s.places := by
        rw [State.places, State.places, (hrest _).1, hi]
        dsimp only [State.setListen]
        rw [(hrest m.buf.contents).2 .accepting, hcontents, List.map_append, ← Multiset.coe_add]
        simp only [Listen.place, Place.cons, List.map_cons, List.map_nil, Multiset.coe_singleton]
        rw [← add_assoc, add_comm, Multiset.singleton_add]
      refine ⟨?_, h.ma, fun t => ?_, hawake, notMem_concat h.not_aborted (by simp)⟩
      · rw [hplaces]
        exact h.books.silent
      · rw [hcalled t, h.calls t]
        exact (s.call_setListen i .accepting t).symm
  · rw [h.calls t] at htask
    cases t with
    | inl i => cases (Listen.call_eq htask).choose_spec.2
    | inr j =>
      cases heq
      rcases Process.call_eq htask with ⟨hj, -⟩
      rcases placesOf_process s.listen s.process j with ⟨rest, hrest⟩
      have hcontents : s.queue.buf.contents = task :: m.buf.contents :=
        (Queue.UTQueue.buffer c.fwQueueSize ℤ).contents_take _ _ _ htake
      have hplaces : State.places { s.setProcess j (.serving task) with queue := m } = s.places := by
        rw [State.places, State.places, (hrest _).1, hj]
        dsimp only [State.setProcess]
        rw [(hrest m.buf.contents).2 (.serving task), hcontents, List.map_cons, ← Multiset.cons_coe]
        simp only [Process.place, Place.cons]
        rw [Multiset.add_cons]
      refine ⟨?_, h.ma, fun t => ?_, hawake, notMem_concat h.not_aborted (by simp)⟩
      · rw [hplaces]
        exact h.books.silent
      · rw [hcalled t, h.calls t]
        exact (s.call_setProcess j (.serving task) t).symm

omit [DecidableEq L] [DecidableEq P] in
theorem fault (h : Inv os s) : Inv (os ++ [.silent]) { s with ended := true } :=
  ⟨h.books.silent, h.ma, h.calls, h.awake, notMem_concat h.not_aborted (by simp)⟩

theorem step [Zero D] {cJSONParse : List UInt8 → Option (Json D)} (h : Inv os s) {e : Event D L P}
    (hs : CenterTasks.step cJSONParse s e = some (s', o)) : Inv (os ++ [o]) s' := by
  rw [CenterTasks.step] at hs
  split_ifs at hs
  cases e with
  | accept i client =>
    rw [advance] at hs
    split at hs
    next hi =>
      split_ifs at hs with hc
      cases hs
      exact h.accept hi hc
    next => cases hs
  | getTask i memBuf =>
    rw [advance] at hs
    split at hs
    next client hi => exact h.getTask hi hs
    next => cases hs
  | receive i p host =>
    rw [advance] at hs
    split at hs
    next client task hi =>
      split at hs
      next json bs hr =>
        rcases Option.map_eq_some_iff.mp hs with ⟨⟨m, w⟩, hm, heq⟩
        cases heq
        rcases receiveTask_ok hr with ⟨len, u, hp⟩
        exact h.receive hi hp hm
      next =>
        cases hs
        exact h.fail hi
      next =>
        cases hs
        exact h.fault
    next => cases hs
  | pop j =>
    rw [advance] at hs
    split at hs
    next hj =>
      rcases Option.map_eq_some_iff.mp hs with ⟨⟨m, w⟩, hm, heq⟩
      cases heq
      exact h.pop hj hm
    next => cases hs
  | queue t => exact h.queue hs
  | spurious t =>
    rcases Option.map_eq_some_iff.mp hs with ⟨⟨m, w⟩, hm, heq⟩
    cases heq
    rcases Monitor.called_spurious hm with ⟨hbuf, hcalled⟩
    exact h.wait hbuf hcalled (h.awake.step hm)
  | serve j e =>
    rw [advance] at hs
    split at hs
    next task hj =>
      rcases Option.map_eq_some_iff.mp hs with ⟨sent, hsent, heq⟩
      cases heq
      exact h.serve hj hsent
    next => cases hs
  | close t =>
    cases t with
    | inl i =>
      rw [advance] at hs
      split at hs
      next client hi =>
        cases hs
        exact h.closeListen hi
      next => cases hs
    | inr j =>
      rw [advance] at hs
      split at hs
      next task hj =>
        cases hs
        exact h.closeProcess hj
      next => cases hs
  | put t =>
    cases t with
    | inl i =>
      rw [advance] at hs
      split at hs
      next client task hi => exact h.putListen hi hs
      next => cases hs
    | inr j =>
      rw [advance] at hs
      split at hs
      next task hj => exact h.putProcess hj hs
      next => cases hs

end Inv

/-- Nobody is at a connection: the listening threads wait in `accept`, the processing ones
for a task, and the queue is empty. -/
structure Quiet (s : State c L P) : Prop where
  listen : ∀ i, s.listen i = .accepting
  process : ∀ j, s.process j = .idle ∨ s.process j = .popping
  queue : s.queue.buf.contents = []

/-- Each descriptor has a life and is open as long as that is not over; no node was given
back twice; and when nobody is at a connection, all are closed and every node is back. -/
structure Served (os : List (Observed D)) (s : State c L P) : Prop where
  lives : ∀ client, ∃ l, life client os = some l ∧ (client ∈ s.opened ↔ l ≠ .closed)
  not_aborted : Observed.aborted ∉ os
  quiet : Quiet s → s.opened = ∅ ∧ s.ma.out = []

theorem Place.not_closed {node : ℤ → Node} {q : Place} {client : ℤ} {l : Life D} (hc : q.client node = some client)
    (h : q.Is node l) : l ≠ .closed := by
  cases q with
  | accepted client =>
    rw [show l = .opened from h]
    simp
  | receiving client task =>
    rw [h.1]
    simp
  | queued task =>
    rcases h with ⟨json, rfl, -⟩
    simp
  | sent task =>
    rw [show l = .answered from h]
    simp
  | closed task => cases hc

theorem Inv.served {os : List (Observed D)} {s : State c L P} (h : Inv os s) : Served os s := by
  constructor
  · intro client
    by_cases hopen : client ∈ s.opened
    · have hmem := hopen
      rw [← Finset.mem_val, ← h.books.clients] at hmem
      rcases (Multiset.mem_filterMap _ _).mp hmem with ⟨q, hq, hc⟩
      rcases h.books.lives q hq client hc with ⟨l, hlife, his⟩
      exact ⟨l, hlife, iff_of_true hopen (Place.not_closed hc his)⟩
    · exact ⟨.closed, h.books.closed client hopen, iff_of_false hopen fun hc => hc rfl⟩
  · exact h.not_aborted
  · intro hquiet
    have hplaces : s.places = 0 := by
      have hprocess : ∀ j, (s.process j).place = none := by
        intro j
        rcases hquiet.process j with hj | hj <;> rw [hj] <;> rfl
      simp [State.places, placesOf, hquiet.listen, hprocess, hquiet.queue, Listen.place]
    have htasks := h.books.tasks
    have hclients := h.books.clients
    rw [hplaces, Multiset.filterMap_zero] at htasks hclients
    exact ⟨Finset.val_eq_zero.mp hclients.symm, (Multiset.coe_eq_zero _).mp htasks.symm⟩

/-- A step of a thread that does not wait for a new connection, and no wake-up without
reason. -/
def Event.own : Event D L P → Bool
  | .accept _ _ => false
  | .spurious _ => false
  | _ => true

/-- No thread can go on by itself, and there was no fault. -/
structure Resting [Zero D] [DecidableEq L] [DecidableEq P] (cJSONParse : List UInt8 → Option (Json D))
    (s : State c L P) : Prop where
  running : s.ended = false
  own : ∀ e : Event D L P, e.own → step cJSONParse s e = none

omit [Fintype L] [Fintype P] in
theorem Resting.none [Zero D] [DecidableEq L] [DecidableEq P] {cJSONParse : List UInt8 → Option (Json D)}
    {s : State c L P} (h : Resting cJSONParse s) (e : Event D L P) (he : e.own) : advance cJSONParse s e = none := by
  have hstep := h.own e he
  rw [step, h.running] at hstep
  exact hstep

theorem threadProcess_idle (t : TaskNode) : ∃ sent, threadProcess idleEnv t = some sent := by
  have hprocess : ∃ text, process idleEnv t = some text := by
    unfold process
    split_ifs
    all_goals exact ⟨_, rfl⟩
  rcases hprocess with ⟨text, htext⟩
  rw [threadProcess, htext]
  exact ⟨_, rfl⟩

namespace Inv

variable [Zero D] [DecidableEq L] [DecidableEq P] {cJSONParse : List UInt8 → Option (Json D)}
  {os : List (Observed D)} {s : State c L P}

omit [Zero D] [DecidableEq L] [DecidableEq P] in
/-- A node at a place can be given back. -/
theorem putTask_some {q : Place} {rest : Multiset Place} (h : Inv os s)
    (hbooks : Books s.node os (q ::ₘ rest) s.ma.out s.opened) {task : ℤ} (hq : q.task = some task) {s' : State c L P}
    (hma : s'.ma = s.ma) : (putTask s' task : Option (State c L P × Observed D)) ≠ none := by
  have hmem : task ∈ s.ma.out := by
    rw [← Multiset.mem_coe, ← hbooks.tasks]
    exact (Multiset.mem_filterMap _ _).mpr ⟨q, Multiset.mem_cons_self q rest, hq⟩
  rcases h.ma with ⟨free, hinv⟩
  rw [putTask, hma]
  exact fun hnone => hinv.put_some hmem (Option.map_eq_none_iff.mp hnone)

theorem process_resting (h : Inv os s) (hrest : Resting cJSONParse s) (j : P) :
    s.process j = .popping ∧ (Queue.UTQueue.buffer c.fwQueueSize ℤ).size s.queue.buf = 0 := by
  have hcall := h.calls (.inr j)
  change _ = (s.process j).call at hcall
  cases hj : s.process j with
  | idle =>
    rw [hj] at hcall
    have hstep := hrest.none (.pop j) rfl
    rw [advance, hj] at hstep
    exact absurd (Option.map_eq_none_iff.mp hstep) (Monitor.pop_of_called hcall)
  | popping =>
    rw [hj] at hcall
    refine ⟨rfl, ?_⟩
    have hstep := Option.map_eq_none_iff.mp (hrest.none (.queue (.inr j)) rfl)
    rcases Monitor.asleep_of_called hcall hstep with ⟨-, hp⟩ | ⟨y, hy, -⟩
    · exact h.awake.empty _ hp
    · cases hy
  | serving task =>
    have hstep := hrest.none (.serve j idleEnv) rfl
    rcases threadProcess_idle (s.node task).taskNode with ⟨sent, hsent⟩
    rw [advance, hj] at hstep
    dsimp only at hstep
    rw [hsent] at hstep
    cases hstep
  | sent task =>
    have hstep := hrest.none (.close (.inr j)) rfl
    rw [advance, hj] at hstep
    cases hstep
  | closed task =>
    have hstep := hrest.none (.put (.inr j)) rfl
    rcases h.books_process hj with ⟨rest, hbooks, -⟩
    rw [advance, hj] at hstep
    exact absurd hstep (h.putTask_some hbooks rfl rfl)

/-- A listening thread that cannot go on waits for a connection, if there is a thread that
processes. -/
theorem listen_resting [Nonempty P] (h : Inv os s) (hrest : Resting cJSONParse s) (i : L) : s.listen i = .accepting := by
  have hcall := h.calls (.inl i)
  change _ = (s.listen i).call at hcall
  rcases h.books_listen (i := i) rfl with ⟨rest, hbooks, -⟩
  cases hi : s.listen i with
  | accepting => rfl
  | accepted client =>
    have hstep := hrest.none (.getTask i 0) rfl
    rw [advance, hi] at hstep
    dsimp only at hstep
    exact absurd (Option.map_eq_none_iff.mp hstep) (MemAllocator.get_some _)
  | receiving client task =>
    have hstep := hrest.none (.receive i ⟨[], true⟩ ⟨0, fun _ => 0⟩) rfl
    rw [advance, hi] at hstep
    cases hstep
  | pushing task =>
    rw [hi] at hcall
    have hstep := Option.map_eq_none_iff.mp (hrest.none (.queue (.inl i)) rfl)
    have hempty := (h.process_resting hrest (Classical.arbitrary P)).2
    rcases Monitor.asleep_of_called hcall hstep with ⟨hnone, -⟩ | ⟨y, -, hp⟩
    · cases hnone
    · have hfull := h.awake.full _ y hp
      rw [hempty] at hfull
      exact absurd hfull.symm c.queue_pos.ne'
  | failed client task =>
    have hstep := hrest.none (.put (.inl i)) rfl
    rw [hi] at hbooks
    rw [advance, hi] at hstep
    exact absurd hstep (h.putTask_some hbooks rfl rfl)
  | closing client =>
    have hstep := hrest.none (.close (.inl i)) rfl
    rw [advance, hi] at hstep
    cases hstep

theorem quiet [Nonempty P] (h : Inv os s) (hrest : Resting cJSONParse s) : Quiet s := by
  refine ⟨h.listen_resting hrest, fun j => .inr (h.process_resting hrest j).1, ?_⟩
  have hempty := (h.process_resting hrest (Classical.arbitrary P)).2
  rw [← (Queue.UTQueue.buffer c.fwQueueSize ℤ).length_contents] at hempty
  exact List.length_eq_zero_iff.mp hempty

end Inv

omit [Fintype L] [Fintype P] in
/-- Where all threads wait, none can go on. -/
theorem resting_of_asleep [Zero D] [DecidableEq L] [DecidableEq P] {cJSONParse : List UInt8 → Option (Json D)}
    {s : State c L P} (hrun : s.ended = false) (hlisten : ∀ i, s.listen i = .accepting)
    (hprocess : ∀ j, s.process j = .popping) (hout : ∀ i, s.queue.phase (.inl i) = .out)
    (hasleep : ∀ j, s.queue.phase (.inr j) = .popAsleep) : Resting cJSONParse s := by
  refine ⟨hrun, fun e he => ?_⟩
  rw [step, hrun, if_neg Bool.false_ne_true]
  cases e with
  | accept i client => cases he
  | spurious t => cases he
  | getTask i memBuf => rw [advance, hlisten i]
  | receive i p host => rw [advance, hlisten i]
  | pop j => rw [advance, hprocess j]
  | serve j e => rw [advance, hprocess j]
  | queue t =>
    cases t with
    | inl i => rw [advance, Monitor.step, hout i, Option.map_none]
    | inr j => rw [advance, Monitor.step, hasleep j, Option.map_none]
  | close t =>
    cases t with
    | inl i => rw [advance, hlisten i]
    | inr j => rw [advance, hprocess j]
  | put t =>
    cases t with
    | inl i => rw [advance, hlisten i]
    | inr j => rw [advance, hprocess j]

def smallCenter : Config := ⟨4, 64, 64, 64, Nat.zero_lt_succ 3⟩

def twoThreads : State smallCenter (Fin 1) (Fin 1) := .init _ _ _ (fun _ => 0) (fun _ => ⟨0, [], 0, 0⟩) fun _ => 0

def Observed.reply : Observed D → Option (ℤ × List UInt8)
  | .answered client _ sent => some (client, sent)
  | _ => none

def State.asleep {c : Config} (s : State c (Fin 1) (Fin 1)) : Bool :=
  !s.ended && (s.listen 0 matches .accepting) && (s.process 0 matches .popping) &&
    (s.queue.phase (.inl 0) matches .out) && (s.queue.phase (.inr 0) matches .popAsleep)

end PrimaryElection.Framework.CenterTasks
