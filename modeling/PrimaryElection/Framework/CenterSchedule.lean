import PrimaryElection.Framework.CenterMessage

/-! What holds in every interleaving of the threads of a message. The counters of
the node account for every copy of it, so each index is drawn once and
`combine_task` is called once, after every task has returned. Where the tasks store
in disjoint regions, it finds the memory that the tasks leave in index order. -/

namespace PrimaryElection.Framework

open Memory Runs

namespace Phase

def holds : Phase → ℕ
  | popped => 1
  | _ => 0

def runs : Phase → ℕ
  | running _ _ => 1
  | _ => 0

def finishes : Phase → ℕ
  | finishing => 1
  | _ => 0

def combines : Phase → ℕ
  | combined => 1
  | _ => 0

/-- The steps that the thread has yet to take with its copy, but for the stores of a
task that it has not drawn. -/
def ahead : Phase → ℕ
  | idle => 0
  | popped => 2
  | running _ todo => todo.length + 1
  | finishing => 2
  | combined => 1

end Phase

namespace Stream

variable {W : ℕ} {fan : Fan}

/-- The calls that have returned, where the tasks `ks` have. -/
def callsOf (ks : List ℕ) (called : Bool) : List Call :=
  ks.map .processTask ++ if called then [.combineTask] else []

/-- The counters of the node against its copies, the threads and the calls. -/
structure Control (fan : Fan) (ks : List ℕ) (called : Bool) (s : Stream W) : Prop where
  copies : s.unpushed + s.waiting + s.tally Phase.holds + s.curCount = fan.allCount
  drawn : s.tally Phase.runs + ks.length = s.curCount
  fin : s.finCount = ks.length
  nodup : ks.Nodup
  lt : ∀ k ∈ ks, k < s.curCount
  own : ∀ w k todo, s.worker w = .running k todo → k < s.curCount ∧ k ∉ ks
  alone : ∀ w w' k todo todo', s.worker w = .running k todo → s.worker w' = .running k todo' → w = w'
  early : s.finCount ≠ fan.allCount → s.tally Phase.finishes + called.toNat = 0
  last : s.finCount = fan.allCount → s.tally Phase.finishes + called.toNat = 1
  done : s.tally Phase.combines + s.referFin.toNat + s.aborted.toNat = called.toNat

theorem Control.init (hn : 0 < fan.allCount) (m₀ : Mem) :
    Control fan [] false (Stream.init fan m₀ : Stream W) := by
  constructor <;>
    simp [Stream.init, tally, Phase.holds, Phase.runs, Phase.finishes, Phase.combines, hn.ne]

/-- Moves of a thread that is running neither before nor after, by the counts. -/
theorem Control.still {ks : List ℕ} {called called' : Bool} {s s' : Stream W} {w : Fin W} {p : Phase}
    (h : Control fan ks called s) (hs : s'.worker = Function.update s.worker w p)
    (hp : ∀ k todo, p ≠ .running k todo) (hw : (s.worker w).runs = 0) (hcur : s'.curCount = s.curCount)
    (hfin : s'.finCount = s.finCount)
    (hcopies : s'.unpushed + s'.waiting + s'.tally Phase.holds + s'.curCount = fan.allCount)
    (hlast : s'.tally Phase.finishes + called'.toNat = s.tally Phase.finishes + called.toNat)
    (hdone : s'.tally Phase.combines + s'.referFin.toNat + s'.aborted.toNat = called'.toNat) :
    Control fan ks called' s' := by
  have hruns : s'.tally Phase.runs = s.tally Phase.runs := by
    have ht := tally_move hs Phase.runs
    have hp0 : p.runs = 0 := by
      cases p with
      | running k todo => exact absurd rfl (hp k todo)
      | _ => rfl
    omega
  refine ⟨hcopies, ?_, ?_, h.nodup, ?_, ?_, ?_, ?_, ?_, hdone⟩
  · rw [hruns, hcur]; exact h.drawn
  · rw [hfin]; exact h.fin
  · rw [hcur]; exact h.lt
  · intro v k todo hv
    rw [hcur]
    exact h.own v k todo (running_of_move hs hp hv).2
  · intro v v' k todo todo' hv hv'
    exact h.alone v v' k todo todo' (running_of_move hs hp hv).2 (running_of_move hs hp hv').2
  · rw [hfin, hlast]; exact h.early
  · rw [hfin, hlast]; exact h.last

theorem tallies {s t : Stream W} {w : Fin W} {p : Phase}
    (hs : t.worker = Function.update s.worker w p) :
    t.tally Phase.holds + (s.worker w).holds = s.tally Phase.holds + p.holds ∧
    t.tally Phase.runs + (s.worker w).runs = s.tally Phase.runs + p.runs ∧
    t.tally Phase.finishes + (s.worker w).finishes = s.tally Phase.finishes + p.finishes ∧
    t.tally Phase.combines + (s.worker w).combines = s.tally Phase.combines + p.combines :=
  ⟨tally_move hs _, tally_move hs _, tally_move hs _, tally_move hs _⟩

/-- A running thread has an index that has not returned. -/
theorem Control.running_lt {ks : List ℕ} {called : Bool} {s : Stream W} {w : Fin W} {k : ℕ}
    {todo : List Store} (h : Control fan ks called s) (hw : s.worker w = .running k todo) :
    ks.length < s.curCount ∧ s.finCount < fan.allCount ∧ called = false := by
  have hr := s.le_tally Phase.runs w
  have hcopies := h.copies
  have hdrawn := h.drawn
  have hfin := h.fin
  simp only [hw, Phase.runs] at hr
  have hlt : s.finCount < fan.allCount := by omega
  have hearly := h.early hlt.ne
  refine ⟨by omega, hlt, ?_⟩
  cases called with
  | false => rfl
  | true => simp at hearly

/-- A finishing thread is the last, and has yet to call `combine_task`. -/
theorem Control.finishing_last {ks : List ℕ} {called : Bool} {s : Stream W} {w : Fin W}
    (h : Control fan ks called s) (hw : s.worker w = .finishing) :
    s.finCount = fan.allCount ∧ called = false := by
  have hf := s.le_tally Phase.finishes w
  simp only [hw, Phase.finishes] at hf
  by_cases hn : s.finCount = fan.allCount
  · have hlast := h.last hn
    cases called with
    | false => exact ⟨hn, rfl⟩
    | true => simp only [Bool.toNat_true] at hlast; omega
  · have := h.early hn
    omega

section

variable {ks : List ℕ} {called : Bool} {s : Stream W} {w : Fin W} {k : ℕ} {x : Store}
  {xs : List Store} {m : Mem}

theorem Control.push (h : Control fan ks called s) (hu : 0 < s.unpushed) :
    Control fan ks called { s with unpushed := s.unpushed - 1, waiting := s.waiting + 1 } := by
  have hcopies := h.copies
  refine ⟨?_, h.drawn, h.fin, h.nodup, h.lt, h.own, h.alone, h.early, h.last, h.done⟩
  simp only [tally] at hcopies ⊢
  omega

theorem Control.pop (h : Control fan ks called s) (hw : s.worker w = .idle) (hn : 0 < s.waiting) :
    Control fan ks called ({ s with waiting := s.waiting - 1 }.move w .popped) := by
  have hcopies := h.copies
  have hdone := h.done
  obtain ⟨t₁, -, t₃, t₄⟩ := tallies (s := s)
    (t := { s with waiting := s.waiting - 1 }.move w .popped) rfl
  simp only [hw, Phase.holds, Phase.finishes, Phase.combines] at t₁ t₃ t₄
  refine h.still rfl (by simp) (by simp [hw, Phase.runs]) rfl rfl ?_ ?_ ?_
  · simp only [move_unpushed, move_waiting, move_curCount]
    omega
  · omega
  · simp only [move_referFin, move_aborted]
    omega

/-- The index drawn is new: those drawn before are below the counter. -/
theorem Control.fetch (h : Control fan ks called s) (hw : s.worker w = .popped) :
    Control fan ks called ({ s with curCount := s.curCount + 1 }.move w
      (.running s.curCount (fan.task s.curCount))) := by
  have hcopies := h.copies
  have hdone := h.done
  obtain ⟨t₁, t₂, t₃, t₄⟩ := tallies (s := s) (t := { s with curCount := s.curCount + 1 }.move w
    (.running s.curCount (fan.task s.curCount))) rfl
  have hdrawn := h.drawn
  simp only [hw, Phase.holds, Phase.runs, Phase.finishes, Phase.combines] at t₁ t₂ t₃ t₄
  refine ⟨?_, ?_, h.fin, h.nodup, ?_, ?_, ?_, ?_, ?_, ?_⟩
  · simp only [move_unpushed, move_waiting, move_curCount]
    omega
  · simp only [move_curCount]
    omega
  · exact fun k hk => Nat.lt_succ_of_lt (h.lt k hk)
  · intro v k todo hv
    rcases (running_move (s := s) rfl).mp hv with ⟨-, hr⟩ | ⟨-, hv⟩
    · cases hr
      exact ⟨Nat.lt_succ_self _, fun hk => (h.lt _ hk).false⟩
    · exact ⟨Nat.lt_succ_of_lt (h.own v k todo hv).1, (h.own v k todo hv).2⟩
  · intro v v' k todo todo' hv hv'
    rcases (running_move (s := s) rfl).mp hv with ⟨rfl, hr⟩ | ⟨-, hu⟩ <;>
      rcases (running_move (s := s) rfl).mp hv' with ⟨rfl, hr'⟩ | ⟨-, hu'⟩
    · rfl
    · cases hr
      exact absurd (h.own v' _ todo' hu').1 (lt_irrefl _)
    · cases hr'
      exact absurd (h.own v _ todo hu).1 (lt_irrefl _)
    · exact h.alone v v' k todo todo' hu hu'
  · exact fun hne => by have := h.early hne; omega
  · exact fun heq => by have := h.last heq; omega
  · simp only [move_referFin, move_aborted]
    omega

theorem Control.write (h : Control fan ks called s) (hw : s.worker w = .running k (x :: xs)) :
    Control fan ks called ({ s with mem := x.apply s.mem }.move w (.running k xs)) := by
  have hcopies := h.copies
  have hdone := h.done
  obtain ⟨t₁, t₂, t₃, t₄⟩ := tallies (s := s)
    (t := { s with mem := x.apply s.mem }.move w (.running k xs)) rfl
  have hdrawn := h.drawn
  simp only [hw, Phase.holds, Phase.runs, Phase.finishes, Phase.combines] at t₁ t₂ t₃ t₄
  have hrun : ∀ v k' todo, ({ s with mem := x.apply s.mem }.move w (.running k xs)).worker v =
      .running k' todo → ∃ todo', s.worker v = .running k' todo' := by
    intro v k' todo hv
    rcases (running_move (s := s) rfl).mp hv with ⟨rfl, hr⟩ | ⟨-, hv⟩
    · cases hr
      exact ⟨_, hw⟩
    · exact ⟨_, hv⟩
  refine ⟨?_, ?_, h.fin, h.nodup, h.lt, ?_, ?_, ?_, ?_, ?_⟩
  · simp only [move_unpushed, move_waiting, move_curCount]
    omega
  · simp only [move_curCount]
    omega
  · intro v k' todo hv
    obtain ⟨todo', hv'⟩ := hrun v k' todo hv
    exact h.own v k' todo' hv'
  · intro v v' k' todo todo' hv hv'
    obtain ⟨_, hu⟩ := hrun v k' todo hv
    obtain ⟨_, hu'⟩ := hrun v' k' todo' hv'
    exact h.alone v v' k' _ _ hu hu'
  · exact fun hne => by have := h.early hne; omega
  · exact fun heq => by have := h.last heq; omega
  · simp only [move_referFin, move_aborted]
    omega

/-- The index that returns leaves the running ones; if it was the last, its thread
is the one that combines. -/
theorem Control.finish (h : Control fan ks called s) (hw : s.worker w = .running k []) :
    Control fan (ks ++ [k]) called ({ s with finCount := s.finCount + 1 }.move w
      (if s.finCount + 1 = fan.allCount then .finishing else .idle)) := by
  have hcopies := h.copies
  have hdone := h.done
  obtain ⟨hlen, hfin, rfl⟩ := h.running_lt hw
  set p : Phase := if s.finCount + 1 = fan.allCount then .finishing else .idle with hp
  have hstill : ∀ k todo, p ≠ .running k todo := by
    intro k todo
    rw [hp]
    split_ifs <;> simp
  have hweight : p.holds = 0 ∧ p.runs = 0 ∧ p.combines = 0 := by
    rw [hp]
    split_ifs <;> exact ⟨rfl, rfl, rfl⟩
  have hother : ∀ v k' todo, ({ s with finCount := s.finCount + 1 }.move w p).worker v =
      .running k' todo → v ≠ w ∧ s.worker v = .running k' todo :=
    fun v k' todo hv => running_of_move (s := s) rfl hstill hv
  obtain ⟨t₁, t₂, t₃, t₄⟩ := tallies (s := s)
    (t := { s with finCount := s.finCount + 1 }.move w p) rfl
  have hdrawn := h.drawn
  have hearly := h.early hfin.ne
  have hrunning : (Phase.running k []).holds = 0 ∧ (Phase.running k []).runs = 1 ∧
      (Phase.running k []).finishes = 0 ∧ (Phase.running k []).combines = 0 := ⟨rfl, rfl, rfl, rfl⟩
  rw [hw] at t₁ t₂ t₃ t₄
  refine ⟨?_, ?_, ?_, ?_, ?_, ?_, ?_, ?_, ?_, ?_⟩
  · simp only [move_unpushed, move_waiting, move_curCount]
    omega
  · simp only [move_curCount, List.length_append, List.length_singleton]
    omega
  · simp [h.fin]
  · have hk := (h.own w k [] hw).2
    refine List.nodup_append.mpr ⟨h.nodup, List.nodup_singleton k, fun a ha b hb => ?_⟩
    rw [List.mem_singleton.mp hb]
    exact ne_of_mem_of_not_mem ha hk
  · intro k' hk'
    rcases List.mem_append.mp hk' with hk' | hk'
    · exact h.lt k' hk'
    · rw [List.mem_singleton.mp hk']
      exact (h.own w k [] hw).1
  · intro v k' todo hv
    obtain ⟨hne, hu⟩ := hother v k' todo hv
    refine ⟨(h.own v k' todo hu).1, fun hk' => ?_⟩
    rcases List.mem_append.mp hk' with hk' | hk'
    · exact (h.own v k' todo hu).2 hk'
    · rw [List.mem_singleton.mp hk'] at hu
      exact hne (h.alone v w k todo [] hu hw)
  · intro v v' k' todo todo' hv hv'
    exact h.alone v v' k' todo todo' (hother v k' todo hv).2 (hother v' k' todo' hv').2
  · intro hne
    rw [move_finCount] at hne
    have hf : p.finishes = 0 := by rw [hp, if_neg hne]; rfl
    omega
  · intro heq
    rw [move_finCount] at heq
    have hf : p.finishes = 1 := by rw [hp, if_pos heq]; rfl
    simp only [Bool.toNat_false] at hearly ⊢
    omega
  · simp only [move_referFin, move_aborted]
    omega

/-- Moves of a thread that holds no copy before or after, by the accounts of the call. -/
theorem Control.settle {called' : Bool} {s' : Stream W} {p : Phase} (h : Control fan ks called s)
    (hs : s'.worker = Function.update s.worker w p)
    (hw : (s.worker w).holds = 0 ∧ (s.worker w).runs = 0)
    (hp : p.holds = 0 ∧ ∀ k todo, p ≠ .running k todo)
    (hcount : s'.unpushed = s.unpushed ∧ s'.waiting = s.waiting ∧ s'.curCount = s.curCount ∧
      s'.finCount = s.finCount)
    (hlast : p.finishes + called'.toNat = (s.worker w).finishes + called.toNat)
    (hdone : p.combines + s'.referFin.toNat + s'.aborted.toNat + called.toNat =
      (s.worker w).combines + s.referFin.toNat + s.aborted.toNat + called'.toNat) :
    Control fan ks called' s' := by
  obtain ⟨t₁, -, t₃, t₄⟩ := tallies hs
  obtain ⟨hu, hwait, hcur, hfin⟩ := hcount
  have hcopies := h.copies
  have hd := h.done
  exact h.still hs hp.2 hw.2 hcur hfin (by omega) (by omega) (by omega)

theorem Control.combine (h : Control fan ks called s) (hw : s.worker w = .finishing) :
    Control fan ks true ({ s with mem := m }.move w .combined) := by
  obtain ⟨-, rfl⟩ := h.finishing_last hw
  refine h.settle rfl (by rw [hw]; exact ⟨rfl, rfl⟩) ⟨rfl, fun _ _ => nofun⟩ ⟨rfl, rfl, rfl, rfl⟩ ?_ ?_
  · simp [hw, Phase.finishes]
  · simp only [hw, Phase.combines, move_referFin, move_aborted, Bool.toNat_true, Bool.toNat_false]
    omega

theorem Control.abort (h : Control fan ks called s) (hw : s.worker w = .finishing) :
    Control fan ks true ({ s with aborted := true }.move w .idle) := by
  obtain ⟨-, rfl⟩ := h.finishing_last hw
  have hdone := h.done
  refine h.settle rfl (by rw [hw]; exact ⟨rfl, rfl⟩) ⟨rfl, fun _ _ => nofun⟩ ⟨rfl, rfl, rfl, rfl⟩ ?_ ?_
  · simp [hw, Phase.finishes]
  · simp only [hw, Phase.combines, move_referFin, move_aborted, Bool.toNat_true, Bool.toNat_false] at *
    omega

theorem Control.publish (h : Control fan ks called s) (hw : s.worker w = .combined) :
    Control fan ks called ({ s with referFin := true }.move w .idle) := by
  have hdone := h.done
  have hle := Bool.toNat_le called
  have hone := s.le_tally Phase.combines w
  refine h.settle rfl (by rw [hw]; exact ⟨rfl, rfl⟩) ⟨rfl, fun _ _ => nofun⟩ ⟨rfl, rfl, rfl, rfl⟩ ?_ ?_
  · simp [hw, Phase.finishes]
  · simp only [hw, Phase.combines, move_referFin, move_aborted, Bool.toNat_true] at *
    omega

end

/-! ### The steps ahead -/

/-- The steps until the result is published. -/
def stepsAhead (fan : Fan) (s : Stream W) : ℕ :=
  4 * s.unpushed + 3 * s.waiting + ∑ k ∈ Finset.Ico s.curCount fan.allCount, (fan.task k).length +
    s.tally Phase.ahead + min 2 (2 * (fan.allCount - s.finCount))

theorem stepsAhead_init (fan : Fan) (m₀ : Mem) : stepsAhead fan (Stream.init fan m₀ : Stream W) ≤
    4 * fan.allCount + ∑ k ∈ Finset.range fan.allCount, (fan.task k).length + 2 := by
  have ht : (Stream.init fan m₀ : Stream W).tally Phase.ahead = 0 := by
    simp [tally, Stream.init, Phase.ahead]
  unfold stepsAhead
  rw [ht]
  simp only [Stream.init, ← Finset.range_eq_Ico]
  omega

theorem stepsAhead_lt {ks : List ℕ} {called : Bool} {s s' : Stream W} {c : Option Call}
    (h : Control fan ks called s) (hm : Moves fan s s' c) :
    stepsAhead fan s' + 1 ≤ stepsAhead fan s := by
  unfold stepsAhead
  cases hm with
  | push hu =>
    simp only [tally]
    omega
  | @pop w hw hn =>
    have t := tally_move (s := s) (t := { s with waiting := s.waiting - 1 }.move w .popped) rfl
      Phase.ahead
    simp only [hw, Phase.ahead] at t
    simp only [move_unpushed, move_waiting, move_curCount, move_finCount]
    omega
  | @fetch w hw =>
    have t := tally_move (s := s) (t := { s with curCount := s.curCount + 1 }.move w
      (.running s.curCount (fan.task s.curCount))) rfl Phase.ahead
    have hr := s.le_tally Phase.holds w
    have hcopies := h.copies
    simp only [hw, Phase.holds, Phase.ahead] at t hr
    have hsum := Finset.sum_eq_sum_Ico_succ_bot (show s.curCount < fan.allCount by omega)
      fun k => (fan.task k).length
    simp only [move_unpushed, move_waiting, move_curCount, move_finCount]
    omega
  | @write w k x xs hw =>
    have t := tally_move (s := s) (t := { s with mem := x.apply s.mem }.move w (.running k xs)) rfl
      Phase.ahead
    simp only [hw, Phase.ahead, List.length_cons] at t
    simp only [move_unpushed, move_waiting, move_curCount, move_finCount]
    omega
  | @finish w k hw =>
    have t := tally_move (s := s) (t := { s with finCount := s.finCount + 1 }.move w
      (if s.finCount + 1 = fan.allCount then .finishing else .idle)) rfl Phase.ahead
    have hlt := (h.running_lt hw).2.1
    simp only [move_unpushed, move_waiting, move_curCount, move_finCount]
    rw [hw] at t
    by_cases hl : s.finCount + 1 = fan.allCount
    · simp only [hl, if_true, Phase.ahead, List.length_nil] at t ⊢
      omega
    · simp only [hl, if_false, Phase.ahead, List.length_nil] at t ⊢
      omega
  | @combine w m hw hc =>
    have t := tally_move (s := s) (t := { s with mem := m }.move w .combined) rfl Phase.ahead
    simp only [hw, Phase.ahead] at t
    simp only [move_unpushed, move_waiting, move_curCount, move_finCount]
    omega
  | @abort w hw hc =>
    have t := tally_move (s := s) (t := { s with aborted := true }.move w .idle) rfl Phase.ahead
    simp only [hw, Phase.ahead] at t
    simp only [move_unpushed, move_waiting, move_curCount, move_finCount]
    omega
  | @publish w hw =>
    have t := tally_move (s := s) (t := { s with referFin := true }.move w .idle) rfl Phase.ahead
    simp only [hw, Phase.ahead] at t
    simp only [move_unpushed, move_waiting, move_curCount, move_finCount]
    omega

/-! ### The memory -/

section

variable {R : ℕ → Set ℤ} {m₀ : Mem} {ks : List ℕ} {called : Bool} {s s' : Stream W} {w : Fin W}
  {k : ℕ} {x : Store} {xs : List Store}

/-- The stores made are those of the tasks that have returned and a first part of
those of the running ones. -/
def Progress (fan : Fan) (R : ℕ → Set ℤ) (m₀ : Mem) (ks : List ℕ) (s : Stream W) : Prop :=
  ∃ done, Interleaved R m₀ done s.mem ∧
    (∀ w k todo, s.worker w = .running k todo → done k ++ todo = fan.task k) ∧
    (∀ k ∈ ks, done k = fan.task k) ∧ ∀ k, s.curCount ≤ k → done k = []

theorem Progress.init : Progress fan R m₀ [] (Stream.init fan m₀ : Stream W) :=
  ⟨fun _ => [], .start, fun _ _ _ hw => (nomatch hw), by simp, fun _ _ => rfl⟩

/-- Steps without a store that start no task. -/
theorem Progress.still (h : Progress fan R m₀ ks s) (hmem : s'.mem = s.mem)
    (hcur : s'.curCount = s.curCount)
    (hrun : ∀ w k todo, s'.worker w = .running k todo → s.worker w = .running k todo) :
    Progress fan R m₀ ks s' := by
  obtain ⟨done, hd, hrunning, hret, hnew⟩ := h
  exact ⟨done, hmem ▸ hd, fun w k todo hw => hrunning w k todo (hrun w k todo hw), hret,
    fun k hk => hnew k (hcur ▸ hk)⟩

theorem Progress.fetch (h : Progress fan R m₀ ks s) :
    Progress fan R m₀ ks ({ s with curCount := s.curCount + 1 }.move w
      (.running s.curCount (fan.task s.curCount))) := by
  obtain ⟨done, hd, hrunning, hret, hnew⟩ := h
  refine ⟨done, hd, fun v k todo hv => ?_, hret, fun k hk => hnew k (Nat.le_of_succ_le hk)⟩
  rcases (running_move (s := s) rfl).mp hv with ⟨-, hr⟩ | ⟨-, hv⟩
  · cases hr
    rw [hnew _ le_rfl, List.nil_append]
  · exact hrunning v k todo hv

/-- A store of a running task stays in the region of its index. -/
theorem Progress.write (h : Progress fan R m₀ ks s) (hc : Control fan ks called s)
    (hR : Pairwise fun i j => Disjoint (R i) (R j))
    (htask : ∀ k < fan.allCount, ∀ x ∈ fan.task k, x.footprint ⊆ R k)
    (hw : s.worker w = .running k (x :: xs)) :
    Progress fan R m₀ ks ({ s with mem := x.apply s.mem }.move w (.running k xs)) := by
  obtain ⟨done, hd, hrunning, hret, hnew⟩ := h
  have hk := hc.own w k _ hw
  have hlt : k < fan.allCount := by
    have := hc.copies
    omega
  have hx : x.footprint ⊆ R k := by
    refine htask k hlt x ?_
    rw [← hrunning w k _ hw]
    simp
  have hne : ∀ k', k' ≠ k → Function.update done k (done k ++ [x]) k' = done k' :=
    fun k' h => Function.update_of_ne h ..
  refine ⟨_, hd.store hR hx, fun v k' todo hv => ?_, fun k' hk' => ?_, fun k' hk' => ?_⟩
  · rcases (running_move (s := s) rfl).mp hv with ⟨-, hr⟩ | ⟨hv', hv⟩
    · cases hr
      rw [Function.update_self, List.append_assoc]
      exact hrunning w k _ hw
    · rw [hne k' fun he => hv' (hc.alone v w k todo _ (he ▸ hv) hw)]
      exact hrunning v k' todo hv
  · rw [hne k' (ne_of_mem_of_not_mem hk' hk.2)]
    exact hret k' hk'
  · rw [hne k' (by simp only [move_curCount] at hk'; omega)]
    exact hnew k' hk'

/-- A task returns with all its stores made. -/
theorem Progress.finish (h : Progress fan R m₀ ks s) (hw : s.worker w = .running k []) :
    Progress fan R m₀ (ks ++ [k]) s := by
  obtain ⟨done, hd, hrunning, hret, hnew⟩ := h
  refine ⟨done, hd, hrunning, fun k' hk' => ?_, hnew⟩
  rcases List.mem_append.mp hk' with hk' | hk'
  · exact hret k' hk'
  · rw [List.mem_singleton.mp hk', ← hrunning w k [] hw, List.append_nil]

/-- The memory that the tasks leave in index order. -/
def sequential (fan : Fan) (m₀ : Mem) : Mem :=
  applyAll ((List.range fan.allCount).flatMap fan.task) m₀

/-- When all tasks have returned, they are all the indices. -/
theorem Control.perm_range (h : Control fan ks called s) (hfin : s.finCount = fan.allCount) :
    ks.Perm (List.range fan.allCount) := by
  have hcopies := h.copies
  have hlen : ks.length = fan.allCount := h.fin ▸ hfin
  have hsub : ks ⊆ List.range fan.allCount := fun k hk => by
    have := h.lt k hk
    exact List.mem_range.mpr (by omega)
  exact (h.nodup.subperm hsub).perm_of_length_le (by simp [hlen])

/-- When all tasks have returned, the memory is that of running them in order. -/
theorem Progress.sequential (h : Progress fan R m₀ ks s) (hc : Control fan ks called s)
    (hR : Pairwise fun i j => Disjoint (R i) (R j))
    (htask : ∀ k < fan.allCount, ∀ x ∈ fan.task k, x.footprint ⊆ R k)
    (hfin : s.finCount = fan.allCount) : s.mem = sequential fan m₀ := by
  obtain ⟨done, hd, -, hret, hnew⟩ := h
  have hperm := hc.perm_range hfin
  have hcopies := hc.copies
  have hdrawn := hc.drawn
  have hfk := hc.fin
  have hdone : done = fun k => if k < fan.allCount then fan.task k else [] := by
    funext k
    split_ifs with hk
    · exact hret k (hperm.mem_iff.mpr (List.mem_range.mpr hk))
    · exact hnew k (by omega)
  exact (hdone ▸ hd).unique (Interleaved.sequential m₀ hR htask)

end

/-! ### Runs -/

def returned : Option Call → List ℕ
  | some (.processTask k) => [k]
  | _ => []

def combining : Option Call → Bool
  | some .combineTask => true
  | _ => false

def calls (os : List (Option Call)) : List Call := os.filterMap id

/-- The accounts and the memory after the steps `os`. -/
structure Inv (fan : Fan) (R : ℕ → Set ℤ) (m₀ : Mem) (os : List (Option Call)) (s : Stream W) :
    Prop where
  control : Control fan (os.flatMap returned) (os.any combining) s
  ordered : calls os = callsOf (os.flatMap returned) (os.any combining)
  progress : os.any combining = false → Progress fan R m₀ (os.flatMap returned) s
  result : os.any combining = true →
    (os.flatMap returned).Perm (List.range fan.allCount) ∧
      fan.combineTask (sequential fan m₀) = if s.aborted then none else some s.mem

section

variable {R : ℕ → Set ℤ} {m₀ : Mem} {os : List (Option Call)} {s s' : Stream W}

theorem Inv.init (hn : 0 < fan.allCount) : Inv fan R m₀ [] (Stream.init fan m₀ : Stream W) where
  control := Control.init hn m₀
  ordered := rfl
  progress := fun _ => Progress.init
  result := fun h => nomatch h

/-- A step that is no call and leaves the memory as it is once the combination ran. -/
theorem Inv.silent (h : Inv fan R m₀ os s)
    (hc : Control fan (os.flatMap returned) (os.any combining) s')
    (hp : os.any combining = false → Progress fan R m₀ (os.flatMap returned) s')
    (hr : os.any combining = true → s'.mem = s.mem ∧ s'.aborted = s.aborted) :
    Inv fan R m₀ (os ++ [none]) s' := by
  have hks : (os ++ [none]).flatMap returned = os.flatMap returned := by simp [returned]
  have hcalled : (os ++ [none]).any combining = os.any combining := by simp [combining]
  have hcalls : calls (os ++ [none]) = calls os := by simp [calls]
  constructor
  · rw [hks, hcalled]; exact hc
  · rw [hks, hcalled, hcalls]; exact h.ordered
  · rw [hks, hcalled]; exact hp
  · rw [hks, hcalled]
    intro hcl
    rw [(hr hcl).1, (hr hcl).2]
    exact h.result hcl

/-- The task `k` returns. -/
theorem Inv.returns (h : Inv fan R m₀ os s) {k : ℕ} (hno : os.any combining = false)
    (hc : Control fan (os.flatMap returned ++ [k]) false s')
    (hp : Progress fan R m₀ (os.flatMap returned ++ [k]) s') :
    Inv fan R m₀ (os ++ [some (Call.processTask k)]) s' := by
  have hks : (os ++ [some (Call.processTask k)]).flatMap returned = os.flatMap returned ++ [k] := by
    simp [returned]
  have hcalled : (os ++ [some (Call.processTask k)]).any combining = false := by
    simp [combining, hno]
  have hcalls : calls (os ++ [some (Call.processTask k)]) = calls os ++ [Call.processTask k] := by
    simp [calls]
  constructor
  · rw [hks, hcalled]; exact hc
  · rw [hks, hcalled, hcalls, h.ordered, hno]
    simp [callsOf]
  · rw [hks]; exact fun _ => hp
  · rw [hcalled]; exact fun hf => nomatch hf

/-- The combination ran, after all tasks, on the memory of running them in order. -/
theorem Inv.combines (h : Inv fan R m₀ os s) (hno : os.any combining = false)
    (hfin : s.finCount = fan.allCount) (hc : Control fan (os.flatMap returned) true s')
    (hres : fan.combineTask (sequential fan m₀) = if s'.aborted then none else some s'.mem) :
    Inv fan R m₀ (os ++ [some Call.combineTask]) s' := by
  have hks : (os ++ [some Call.combineTask]).flatMap returned = os.flatMap returned := by
    simp [returned]
  have hcalled : (os ++ [some Call.combineTask]).any combining = true := by simp [combining]
  have hcalls : calls (os ++ [some Call.combineTask]) = calls os ++ [Call.combineTask] := by
    simp [calls]
  constructor
  · rw [hks, hcalled]; exact hc
  · rw [hks, hcalled, hcalls, h.ordered, hno]
    simp [callsOf]
  · rw [hcalled]; exact fun hf => nomatch hf
  · rw [hks]; exact fun _ => ⟨h.control.perm_range hfin, hres⟩

theorem Inv.step (hR : Pairwise fun i j => Disjoint (R i) (R j))
    (htask : ∀ k < fan.allCount, ∀ x ∈ fan.task k, x.footprint ⊆ R k)
    (h : Inv fan R m₀ os s) (hab : s.aborted = false) {c : Option Call} (hm : Moves fan s s' c) :
    Inv fan R m₀ (os ++ [c]) s' := by
  cases hm with
  | push hu =>
    exact h.silent (h.control.push hu)
      (fun hc => (h.progress hc).still rfl rfl fun _ _ _ hw => hw) (fun _ => ⟨rfl, rfl⟩)
  | pop hw hn =>
    exact h.silent (h.control.pop hw hn)
      (fun hc => (h.progress hc).still rfl rfl fun _ _ _ hv =>
        (running_of_move (s := s) rfl (by simp) hv).2) (fun _ => ⟨rfl, rfl⟩)
  | fetch hw =>
    exact h.silent (h.control.fetch hw) (fun hc => (h.progress hc).fetch) (fun _ => ⟨rfl, rfl⟩)
  | write hw =>
    have hno := (h.control.running_lt hw).2.2
    exact h.silent (h.control.write hw) (fun hc => (h.progress hc).write h.control hR htask hw)
      (fun hc => absurd hc (by simp [hno]))
  | finish hw =>
    have hno := (h.control.running_lt hw).2.2
    refine h.returns hno (hno ▸ h.control.finish hw) ?_
    refine ((h.progress hno).finish hw).still rfl rfl fun v k' todo hv => ?_
    exact (running_of_move (s := s) rfl (by intro k todo; split_ifs <;> simp) hv).2
  | combine hw hm =>
    obtain ⟨hfin, hno⟩ := h.control.finishing_last hw
    have hmem := (h.progress hno).sequential h.control hR htask hfin
    refine h.combines hno hfin (h.control.combine hw) ?_
    rw [← hmem, hm, move_aborted, move_mem]
    simp [hab]
  | abort hw hm =>
    obtain ⟨hfin, hno⟩ := h.control.finishing_last hw
    have hmem := (h.progress hno).sequential h.control hR htask hfin
    refine h.combines hno hfin (h.control.abort hw) ?_
    rw [← hmem, hm]
    rfl
  | publish hw =>
    exact h.silent (h.control.publish hw)
      (fun hc => (h.progress hc).still rfl rfl fun _ _ _ hv =>
        (running_of_move (s := s) rfl (by simp) hv).2) (fun _ => ⟨rfl, rfl⟩)

theorem inv_run (hn : 0 < fan.allCount) (hR : Pairwise fun i j => Disjoint (R i) (R j))
    (htask : ∀ k < fan.allCount, ∀ x ∈ fan.task k, x.footprint ⊆ R k) {as : List (Act W)}
    (h : run (step fan) (Stream.init fan m₀) as = some (s, os)) : Inv fan R m₀ os s := by
  refine run_invariant (fun os s a s' c hi hs => ?_) (Inv.init hn) h
  obtain ⟨hab, hm⟩ := step_moves hs
  exact hi.step hR htask hab hm

/-- No interleaving goes on for ever. -/
theorem run_length_le (hn : 0 < fan.allCount) (hR : Pairwise fun i j => Disjoint (R i) (R j))
    (htask : ∀ k < fan.allCount, ∀ x ∈ fan.task k, x.footprint ⊆ R k) {as : List (Act W)}
    (h : run (step fan) (Stream.init fan m₀) as = some (s, os)) :
    as.length ≤ 4 * fan.allCount + ∑ k ∈ Finset.range fan.allCount, (fan.task k).length + 2 := by
  have hi : Inv fan R m₀ os s ∧
      os.length + stepsAhead fan s ≤ stepsAhead fan (Stream.init fan m₀ : Stream W) := by
    refine run_invariant (I := fun os s => Inv fan R m₀ os s ∧
      os.length + stepsAhead fan s ≤ stepsAhead fan (Stream.init fan m₀ : Stream W))
      (fun os s a s' c hi hs => ?_) ⟨Inv.init hn, by simp⟩ h
    obtain ⟨hab, hm⟩ := step_moves hs
    have hlt := stepsAhead_lt hi.1.control hm
    refine ⟨hi.1.step hR htask hab hm, ?_⟩
    have := hi.2
    simp only [List.length_append, List.length_singleton]
    omega
  have hinit := stepsAhead_init (W := W) fan m₀
  have hlen := run_length h
  omega

/-- The combination has run, once and after every task: it found the memory of
running the tasks in index order. -/
def Finished (fan : Fan) (m₀ : Mem) (os : List (Option Call)) (s : Stream W) : Prop :=
  ∃ ks : List ℕ, ks.Perm (List.range fan.allCount) ∧
    calls os = ks.map .processTask ++ [.combineTask] ∧
    fan.combineTask (sequential fan m₀) = if s.aborted then none else some s.mem

/-- Tasks have returned, each at most once, and the combination has not run. -/
def Pending (fan : Fan) (os : List (Option Call)) : Prop :=
  ∃ ks : List ℕ, ks.Nodup ∧ (∀ k ∈ ks, k < fan.allCount) ∧ calls os = ks.map .processTask

theorem Inv.finished (h : Inv fan R m₀ os s) (hc : os.any combining = true) :
    Finished fan m₀ os s :=
  ⟨_, (h.result hc).1, by rw [h.ordered, hc]; rfl, (h.result hc).2⟩

theorem Inv.pending (h : Inv fan R m₀ os s) (hc : os.any combining = false) : Pending fan os := by
  refine ⟨_, h.control.nodup, fun k hk => ?_, by rw [h.ordered, hc]; simp [callsOf]⟩
  have h₁ := h.control.lt k hk
  have h₂ := h.control.copies
  omega

/-- In every interleaving the calls are those of some tasks, or of all of them and
then of the combination. -/
theorem run_calls (hn : 0 < fan.allCount) (hR : Pairwise fun i j => Disjoint (R i) (R j))
    (htask : ∀ k < fan.allCount, ∀ x ∈ fan.task k, x.footprint ⊆ R k) {as : List (Act W)}
    (h : run (step fan) (Stream.init fan m₀) as = some (s, os)) :
    Pending fan os ∨ Finished fan m₀ os s := by
  have hi := inv_run hn hR htask h
  cases hc : os.any combining with
  | false => exact .inl (hi.pending hc)
  | true => exact .inr (hi.finished hc)

/-- The result that a requester waits for is there only after the combination. -/
theorem finished_of_referFin (hn : 0 < fan.allCount) (hR : Pairwise fun i j => Disjoint (R i) (R j))
    (htask : ∀ k < fan.allCount, ∀ x ∈ fan.task k, x.footprint ⊆ R k) {as : List (Act W)}
    (h : run (step fan) (Stream.init fan m₀) as = some (s, os)) (href : s.referFin = true) :
    Finished fan m₀ os s := by
  have hi := inv_run hn hR htask h
  have hdone := hi.control.done
  cases hc : os.any combining with
  | false => simp [hc, href] at hdone
  | true => exact hi.finished hc

theorem finished_of_stuck (hW : 0 < W) (hn : 0 < fan.allCount)
    (hR : Pairwise fun i j => Disjoint (R i) (R j))
    (htask : ∀ k < fan.allCount, ∀ x ∈ fan.task k, x.footprint ⊆ R k) {as : List (Act W)}
    (h : run (step fan) (Stream.init fan m₀) as = some (s, os))
    (hstuck : ∀ a, step fan s a = none) : Finished fan m₀ os s := by
  have hi := inv_run hn hR htask h
  cases hc : os.any combining with
  | true => exact hi.finished hc
  | false =>
    have hab : s.aborted = false := by
      have hdone := hi.control.done
      rw [hc] at hdone
      cases hs : s.aborted with
      | false => rfl
      | true => simp [hs] at hdone
    have hidle : ∀ w, s.worker w = .idle := by
      intro w
      by_contra hw
      obtain ⟨a, ha⟩ := step_enabled hab hw
      exact ha (hstuck a)
    have hpushed : s.unpushed = 0 := by
      by_contra hu
      simpa [step, hab, hu] using hstuck .push
    have htaken : s.waiting = 0 := by
      by_contra hu
      simpa [step, hab, hidle, hu] using hstuck (.pop ⟨0, hW⟩)
    have hzero : ∀ f : Phase → ℕ, f .idle = 0 → s.tally f = 0 := fun f hf => by
      simp [tally, hidle, hf]
    have hcopies := hi.control.copies
    have hdrawn := hi.control.drawn
    have hfin := hi.control.fin
    rw [hzero _ rfl] at hcopies hdrawn
    have hlast := hi.control.last (by omega)
    rw [hzero _ rfl, hc] at hlast
    cases hlast

end

end Stream

end PrimaryElection.Framework
