import PrimaryElection.Lib.Runs
import PrimaryElection.Util.HashTableRestore

/-! Runs of a persistent table: threads in `add` and `del`, `trim`, `clear`, deaths of the
process at any place and restarts. A call holds the write lock of its bucket from before
its record is written until the bucket is changed, so a log record and the change it
stands for are two steps with those of other buckets between them; `del` counts its key
off in a third. -/

namespace PrimaryElection.Util.HashTable

open CInt Bytes Journal Runs

variable {z : Sizes}

/-! ### Calls -/

inductive Call (z : Sizes) where
  | add (key : Key) (value : Value z) (isOverwrite : Bool)
  | del (key : Key)

namespace Call

def key : Call z → Key
  | add key _ _ => key
  | del key => key

def bucket (c : Call z) : Fin z.tableSize := z.index c.key

/-- The record of a call. -/
def op : Call z → Op z
  | add key value _ => .add key value
  | del key => .del key

/-- What a call makes of the value at a key. -/
def effect (c : Call z) (k : Key) (v : Option (Value z)) : Option (Value z) :=
  match c with
  | add key value isOverwrite => if k = key ∧ (isOverwrite ∨ v = none) then some value else v
  | del key => if k = key then none else v

def apply (m : Map z) (c : Call z) : Map z := fun k => c.effect k (m k)

/-- `del` of a key that is not there writes no record. -/
def logs (t : Table z) : Call z → Bool
  | add _ _ _ => true
  | del key => (t.lookup key).isSome

end Call

/-! ### The map -/

namespace Call

theorem effect_of_ne {c : Call z} {k : Key} (h : k ≠ c.key) (v : Option (Value z)) : c.effect k v = v := by
  cases c with
  | add key value isOverwrite => exact if_neg fun hc => h hc.1
  | del key => exact if_neg h

theorem apply_add (m : Map z) {key : Key} {value : Value z} {isOverwrite : Bool}
    (h : ∀ v, m key = some v → isOverwrite ∨ v = value) :
    (add key value isOverwrite).apply m = Function.update m key (some value) := by
  funext k
  by_cases hk : k = key
  · subst hk
    rw [Function.update_self]
    change (if _ then _ else _) = _
    split_ifs with hc
    · rfl
    · cases hm : m k with
      | none => exact absurd ⟨rfl, .inr hm⟩ hc
      | some v =>
        rcases h v hm with ho | rfl
        · exact absurd ⟨rfl, .inl ho⟩ hc
        · rfl
  · rw [Function.update_of_ne hk]
    exact effect_of_ne (c := add key value isOverwrite) hk _

theorem apply_del (m : Map z) (key : Key) : (del key).apply m = Function.update m key none := by
  funext k
  by_cases hk : k = key
  · subst hk
    rw [Function.update_self]
    exact if_pos rfl
  · rw [Function.update_of_ne hk]
    exact effect_of_ne (c := del key) hk _

end Call

/-- What a step is seen to do to the map. -/
inductive Observed (z : Sizes) where
  | called (c : Call z)
  | cleared
  | silent

def Observed.apply (m : Map z) : Observed z → Map z
  | called c => c.apply m
  | cleared => fun _ => none
  | silent => m

/-- The map that the calls so far have made, in the order of their records. -/
def meaning (os : List (Observed z)) : Map z := os.foldl Observed.apply fun _ => none

@[simp] theorem meaning_concat (os : List (Observed z)) (o : Observed z) :
    meaning (os ++ [o]) = o.apply (meaning os) := by
  rw [meaning, List.foldl_append, List.foldl_cons, List.foldl_nil, meaning]

/-! ### States -/

/-- The process: its table, the position in the increment file, the calls whose record is
written and whose bucket is still locked, and the keys dropped and not yet counted off. -/
structure Running (z : Sizes) where
  table : Table z
  pos : ℕ
  pend : Fin z.tableSize → Option (Call z)
  uncounted : ℕ
  own : ∀ i c, pend i = some c → c.bucket = i

namespace Running

def start (t : Table z) (pos : ℕ) : Running z :=
  ⟨t, pos, fun _ => none, 0, fun _ _ h => nomatch h⟩

/-- A record written and its bucket kept locked. -/
def log (p : Running z) (c : Call z) : Running z where
  table := p.table
  pos := p.pos + (Op.encode c.op).length
  pend := Function.update p.pend c.bucket (some c)
  uncounted := p.uncounted
  own := by
    intro i c' h
    by_cases hi : i = c.bucket
    · subst hi
      rw [Function.update_self] at h
      rw [Option.some.inj h]
    · rw [Function.update_of_ne hi] at h
      exact p.own i c' h

/-- The table changed and the bucket unlocked. -/
def settle (p : Running z) (i : Fin z.tableSize) (t : Table z) (uncounted : ℕ) : Running z where
  table := t
  pos := p.pos
  pend := Function.update p.pend i none
  uncounted := uncounted
  own := by
    intro j c h
    by_cases hj : j = i
    · subst hj
      rw [Function.update_self] at h
      cases h
    · rw [Function.update_of_ne hj] at h
      exact p.own j c h

/-- The rest of a call behind its record. `m_now_key_num` still counts the keys that are
not yet counted off. -/
def finish (p : Running z) (i : Fin z.tableSize) : Call z → Running z
  | .add key value isOverwrite =>
    if p.table.lookup key = none ∧ z.maxKeyNum ≤ p.table.nowKeyNum + p.uncounted then
      p.settle i p.table p.uncounted
    else p.settle i (p.table.add key value isOverwrite).1 p.uncounted
  | .del key =>
    p.settle i (p.table.del key).1 (p.uncounted + if (p.table.del key).2 = 0 then 1 else 0)

def Idle (p : Running z) : Prop := (∀ i, (p.pend i).isNone) ∧ p.uncounted = 0

instance (p : Running z) : Decidable p.Idle := inferInstanceAs (Decidable (_ ∧ _))

/-- The table once the calls under way are done. -/
def view (p : Running z) : Map z := fun k =>
  match p.pend (z.index k) with
  | none => p.table.lookup k
  | some c => c.effect k (p.table.lookup k)

def viewKeys (p : Running z) : Finset Key :=
  (p.table.keys ∪ Finset.univ.biUnion fun i => ((p.pend i).map Call.key).toFinset).filter
    fun k => (p.view k).isSome

theorem view_of_free {p : Running z} {k : Key} (h : p.pend (z.index k) = none) :
    p.view k = p.table.lookup k := by
  rw [view, h]

theorem view_of_idle {p : Running z} (h : p.Idle) : p.view = p.table.lookup := by
  funext k
  exact view_of_free (Option.isNone_iff_eq_none.mp (h.1 _))

theorem log_pend (p : Running z) (c : Call z) (i : Fin z.tableSize) :
    (p.log c).pend i = if i = c.bucket then some c else p.pend i := Function.update_apply _ _ _ _

theorem settle_pend (p : Running z) (i j : Fin z.tableSize) (t : Table z) (uncounted : ℕ) :
    (p.settle i t uncounted).pend j = if j = i then none else p.pend j := Function.update_apply _ _ _ _

/-- A record stands for its call from the moment it is written. -/
theorem view_log {p : Running z} {c : Call z} (h : p.pend c.bucket = none) :
    (p.log c).view = c.apply p.view := by
  funext k
  by_cases hk : z.index k = c.bucket
  · have hfree : p.pend (z.index k) = none := by rw [hk, h]
    rw [Call.apply, view_of_free hfree, view, log_pend, if_pos hk]
    rfl
  · have hne : k ≠ c.key := fun hc => hk (congrArg z.index hc)
    rw [Call.apply, Call.effect_of_ne hne, view, view, log_pend, if_neg hk]
    rfl

/-- The rest of a call changes nothing if it does what the call means. -/
theorem view_settle {p : Running z} {i : Fin z.tableSize} {c : Call z} {t : Table z} (hi : p.pend i = some c)
    (ht : t.lookup = c.apply p.table.lookup) (uncounted : ℕ) :
    (p.settle i t uncounted).view = p.view := by
  funext k
  rw [view, view, settle_pend]
  change (match if z.index k = i then none else p.pend (z.index k) with
    | none => t.lookup k
    | some c => c.effect k (t.lookup k)) = _
  rw [ht]
  by_cases hk : z.index k = i
  · rw [if_pos hk, hk, hi]
    rfl
  · have hne : k ≠ c.key := fun hc => hk ((congrArg z.index hc).trans (p.own i c hi))
    rw [if_neg hk, Call.apply, Call.effect_of_ne hne]

theorem mem_viewKeys (p : Running z) (k : Key) : k ∈ p.viewKeys ↔ (p.view k).isSome := by
  rw [viewKeys, Finset.mem_filter, and_iff_right_iff_imp]
  intro h
  rw [Finset.mem_union, Finset.mem_biUnion, Table.mem_keys]
  cases hp : p.pend (z.index k) with
  | none =>
    rw [view_of_free hp] at h
    exact .inl h
  | some c =>
    by_cases hk : k = c.key
    · refine .inr ⟨z.index k, Finset.mem_univ _, ?_⟩
      rw [hp, hk]
      simp
    · rw [view, hp] at h
      dsimp only at h
      rw [Call.effect_of_ne hk] at h
      exact .inl h

theorem viewKeys_eq {p : Running z} {t : Table z} (h : t.lookup = p.view) : p.viewKeys = t.keys := by
  ext k
  rw [mem_viewKeys, Table.mem_keys, h]

end Running

structure State (z : Sizes) where
  disk : Disk Name
  proc : Option (Running z)

def incRest (d : Disk Name) (pos : ℕ) : List UInt8 := ((d .inc).getD []).drop pos

def writeInc (d : Disk Name) (pos : ℕ) (bs : List UInt8) : Disk Name :=
  Function.update d .inc (some (writeAt ((d .inc).getD []) pos bs))

/-! ### Steps -/

inductive Event (z : Sizes) where
  | restart
  | call (c : Call z)
  | finish (i : Fin z.tableSize)
  | countOff
  | trim
  | clear
  | die
  | dieRestart (k : ℕ)
  | dieCall (c : Call z) (k : ℕ)
  | dieTrim (k : ℕ) (p : Option ℕ)
  | dieClear (k : ℕ)

/-- The numbers of a death are the operations on files done before it, or the bytes of a
record. Where `restore` returns -1 there is no process. -/
def step (s : State z) (e : Event z) : Option (State z × Observed z) :=
  match e, s.proc with
  | .restart, none =>
    (restore s.disk).map fun r => (⟨r.1, some (.start r.2.1 r.2.2)⟩, .silent)
  | .dieRestart k, none => some (⟨FileOp.cut s.disk (restoreOps s.disk) k none, none⟩, .silent)
  | .call c, some p =>
    if (p.pend c.bucket).isSome then none
    else if c.logs p.table then
      some (⟨writeInc s.disk p.pos (Op.encode c.op), some (p.log c)⟩, .called c)
    else some (s, .silent)
  | .dieCall c k, some p =>
    if (p.pend c.bucket).isSome ∨ ¬ c.logs p.table ∨ (Op.encode c.op).length ≤ k then none
    else some (⟨writeInc s.disk p.pos ((Op.encode c.op).take k), none⟩, .silent)
  | .finish i, some p => (p.pend i).map fun c => (⟨s.disk, some (p.finish i c)⟩, .silent)
  | .countOff, some p =>
    if p.uncounted = 0 then none
    else some (⟨s.disk, some { p with uncounted := p.uncounted - 1 }⟩, .silent)
  | .trim, some p =>
    if p.Idle then some (⟨FileOp.execAll s.disk (trimOps p.table), some (.start p.table 0)⟩, .silent)
    else none
  | .dieTrim k q, some p =>
    if p.Idle then some (⟨FileOp.cut s.disk (trimOps p.table) k q, none⟩, .silent) else none
  | .clear, some p =>
    if p.Idle then some (⟨FileOp.execAll s.disk clearOps, some (.start .empty 0)⟩, .cleared)
    else none
  | .dieClear k, some p =>
    if p.Idle then
      some (⟨FileOp.cut s.disk clearOps k none, none⟩, if k = 0 then .silent else .cleared)
    else none
  | .die, some _ => some (⟨s.disk, none⟩, .silent)
  | _, _ => none

/-! ### Recovery -/

/-- A restart would find the map that the calls have made, and a running process has it. -/
structure Recovers (os : List (Observed z)) (s : State z) : Prop where
  disk : ∃ d t pos, restore s.disk = some (d, t, pos) ∧ t.lookup = meaning os
  proc : ∀ p, s.proc = some p → p.view = meaning os

/-- A new key finds room both when its record is replayed and when its thread adds it, an
`add` that finds its key overwrites the value, and what was left of a torn record is short
enough when the shorter record of a `del` is written over it. -/
def Safe (s : State z) (e : Event z) : Prop :=
  match e, s.proc with
  | .call (.add key value isOverwrite), some p =>
    p.pend (z.index key) = none →
      match p.view key with
      | none => p.viewKeys.card < z.maxKeyNum
      | some v => isOverwrite ∨ v = value
  | .call (.del key), some p =>
    p.pend (z.index key) = none → (p.table.lookup key).isSome →
      (Op.format (z := z)).Torn ((incRest s.disk p.pos).drop 16)
  | .dieCall (.del key) k, some p =>
    p.pend (z.index key) = none → (p.table.lookup key).isSome → k < 16 →
      (Op.format (z := z)).Torn ((Op.encode (.del key : Op z)).take k ++ (incRest s.disk p.pos).drop k)
  | .finish i, some p =>
    match p.pend i with
    | some (.add key _ _) => p.table.lookup key = none → p.table.nowKeyNum + p.uncounted < z.maxKeyNum
    | _ => True
  | _, _ => True

end PrimaryElection.Util.HashTable
