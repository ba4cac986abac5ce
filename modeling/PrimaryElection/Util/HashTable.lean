import PrimaryElection.Lib.Bytes
import Mathlib.Data.List.AList
import Mathlib.Algebra.BigOperators.Fin

/-! The hash table of UT_HashTable_Pro.h, for 8-byte keys and without delayed
recycling, as both tables of the center are used. Each bucket is a list with the newest
node first. No key is in two nodes and every key is in its own bucket, so the table is a
finite map, `add` and `del` are its updates, and `m_now_key_num` counts its keys.
`AllocMem` is taken to give memory. -/

namespace PrimaryElection.Util.HashTable

open Bytes

abbrev Key := UInt64

/-- The sizes that `init` accepts. -/
structure Sizes where
  tableSize : ℕ
  maxKeyNum : ℕ
  storeSize : ℕ
  table_pos : 0 < tableSize
  store_lt : storeSize < 2147483648

variable {z : Sizes}

/-- The `m_store_size` bytes stored with a key. -/
abbrev Value (z : Sizes) := {bs : List UInt8 // bs.length = z.storeSize}

abbrev Chain (z : Sizes) := AList fun _ : Key => Value z

def Sizes.index (z : Sizes) (key : Key) : Fin z.tableSize :=
  ⟨key.toNat % z.tableSize, Nat.mod_lt _ z.table_pos⟩

/-- The buckets and the count of keys. -/
structure Table (z : Sizes) where
  chain : Fin z.tableSize → Chain z
  nowKeyNum : ℕ
  own : ∀ i key, key ∈ chain i → z.index key = i
  count : nowKeyNum = ∑ i, (chain i).keys.length

abbrev Map (z : Sizes) := Key → Option (Value z)

namespace Table

def empty : Table z where
  chain := fun _ => ∅
  nowKeyNum := 0
  own := fun _ key h => absurd h (AList.notMem_empty key)
  count := by simp

/-- The walk along the bucket of a key, as in `pop_value`. -/
def lookup (t : Table z) (key : Key) : Option (Value z) := (t.chain (z.index key)).lookup key

theorem own_update (t : Table z) {i : Fin z.tableSize} {c : Chain z} (h : ∀ key ∈ c, z.index key = i) :
    ∀ j key, key ∈ Function.update t.chain i c j → z.index key = j := by
  intro j key hk
  by_cases hj : j = i
  · subst hj
    rw [Function.update_self] at hk
    exact h key hk
  · rw [Function.update_of_ne hj] at hk
    exact t.own j key hk

theorem sum_update (t : Table z) (i : Fin z.tableSize) (c : Chain z) :
    ∑ j, (Function.update t.chain i c j).keys.length + (t.chain i).keys.length =
      t.nowKeyNum + c.keys.length := by
  have h₁ := Finset.add_sum_erase Finset.univ (fun j => (t.chain j).keys.length) (Finset.mem_univ i)
  have h₂ := Finset.add_sum_erase Finset.univ
    (fun j => (Function.update t.chain i c j).keys.length) (Finset.mem_univ i)
  have h₃ : ∑ j ∈ Finset.univ.erase i, (Function.update t.chain i c j).keys.length =
      ∑ j ∈ Finset.univ.erase i, (t.chain j).keys.length := by
    refine Finset.sum_congr rfl fun j hj => ?_
    rw [Function.update_of_ne (Finset.ne_of_mem_erase hj)]
  rw [Function.update_self] at h₂
  have := t.count
  omega

def pushNode (t : Table z) (key : Key) (value : Value z) (h : key ∉ t.chain (z.index key)) : Table z where
  chain := Function.update t.chain (z.index key) ((t.chain (z.index key)).insert key value)
  nowKeyNum := t.nowKeyNum + 1
  own := t.own_update fun k hk => by
    rcases (AList.mem_insert _).mp hk with rfl | hk
    · rfl
    · exact t.own _ k hk
  count := by
    have hs := t.sum_update (z.index key) ((t.chain (z.index key)).insert key value)
    rw [AList.keys_insert, List.erase_of_not_mem (mt AList.mem_keys.mpr h), List.length_cons] at hs
    omega

def setNode (t : Table z) (key : Key) (value : Value z) : Table z where
  chain := Function.update t.chain (z.index key) ((t.chain (z.index key)).replace key value)
  nowKeyNum := t.nowKeyNum
  own := t.own_update fun k hk => t.own _ k (AList.mem_replace.mp hk)
  count := by
    have hs := t.sum_update (z.index key) ((t.chain (z.index key)).replace key value)
    rw [AList.keys_replace] at hs
    omega

def dropNode (t : Table z) (key : Key) (h : key ∈ t.chain (z.index key)) : Table z where
  chain := Function.update t.chain (z.index key) ((t.chain (z.index key)).erase key)
  nowKeyNum := t.nowKeyNum - 1
  own := t.own_update fun k hk => t.own _ k (AList.mem_erase.mp hk).2
  count := by
    have hs := t.sum_update (z.index key) ((t.chain (z.index key)).erase key)
    have hpos := List.length_pos_of_mem (AList.mem_keys.mp h)
    rw [AList.keys_erase, List.length_erase_of_mem (AList.mem_keys.mp h)] at hs
    omega

/-- `add` without its log record, and its return code. -/
def add (t : Table z) (key : Key) (value : Value z) (isOverwrite : Bool) : Table z × ℤ :=
  if h : key ∈ t.chain (z.index key) then
    (if isOverwrite then t.setNode key value else t, 1)
  else if t.nowKeyNum ≥ z.maxKeyNum then (t, -1)
  else (t.pushNode key value h, 0)

/-- `del` without its log record, and its return code. -/
def del (t : Table z) (key : Key) : Table z × ℤ :=
  if h : key ∈ t.chain (z.index key) then (t.dropNode key h, 0) else (t, 1)

/-! ### The map -/

def keys (t : Table z) : Finset Key := Finset.univ.biUnion fun i => (t.chain i).keys.toFinset

theorem mem_chain_iff (t : Table z) (key : Key) :
    key ∈ t.chain (z.index key) ↔ (t.lookup key).isSome := AList.lookup_isSome.symm

theorem mem_keys (t : Table z) (key : Key) : key ∈ t.keys ↔ (t.lookup key).isSome := by
  rw [← mem_chain_iff, keys, Finset.mem_biUnion]
  constructor
  · rintro ⟨i, -, hi⟩
    have hm := AList.mem_keys.mpr (List.mem_toFinset.mp hi)
    rwa [t.own i key hm]
  · intro h
    exact ⟨z.index key, Finset.mem_univ _, List.mem_toFinset.mpr (AList.mem_keys.mp h)⟩

theorem nowKeyNum_eq (t : Table z) : t.nowKeyNum = t.keys.card := by
  have hdisjoint : ∀ i ∈ Finset.univ, ∀ j ∈ Finset.univ, i ≠ j →
      Disjoint (t.chain i).keys.toFinset (t.chain j).keys.toFinset := by
    intro i _ j _ hij
    refine Finset.disjoint_left.mpr fun key hi hj => hij ?_
    rw [← t.own i key (AList.mem_keys.mpr (List.mem_toFinset.mp hi)),
      t.own j key (AList.mem_keys.mpr (List.mem_toFinset.mp hj))]
  rw [keys, Finset.card_biUnion hdisjoint, t.count]
  exact Finset.sum_congr rfl fun i _ => (List.toFinset_card_of_nodup (t.chain i).keys_nodup).symm

/-- What becomes of a bucket decides what becomes of the map. -/
theorem lookup_of_chain {t u : Table z} {key : Key} {v : Option (Value z)} {c : Chain z}
    (hu : u.chain = Function.update t.chain (z.index key) c) (hkey : c.lookup key = v)
    (hne : ∀ k, k ≠ key → c.lookup k = (t.chain (z.index key)).lookup k) :
    u.lookup = Function.update t.lookup key v := by
  funext k
  by_cases hk : k = key
  · subst hk
    rw [lookup, hu, Function.update_self, Function.update_self, hkey]
  · rw [Function.update_of_ne hk, lookup, hu]
    by_cases hi : z.index k = z.index key
    · rw [hi, Function.update_self, hne k hk, lookup, hi]
    · rw [Function.update_of_ne hi, lookup]

theorem lookup_pushNode (t : Table z) {key : Key} {value : Value z} (h : key ∉ t.chain (z.index key)) :
    (t.pushNode key value h).lookup = Function.update t.lookup key (some value) :=
  lookup_of_chain rfl (AList.lookup_insert _) fun _ hk => AList.lookup_insert_ne hk

theorem lookup_dropNode (t : Table z) {key : Key} (h : key ∈ t.chain (z.index key)) :
    (t.dropNode key h).lookup = Function.update t.lookup key none :=
  lookup_of_chain rfl (AList.lookup_erase key _) fun _ hk => AList.lookup_erase_ne hk

theorem dlookup_kreplace (key : Key) (value : Value z) (k : Key) (l : List (Sigma fun _ : Key => Value z)) :
    (l.kreplace key value).dlookup k =
      if k = key ∧ key ∈ l.keys then some value else l.dlookup k := by
  induction l with
  | nil => simp [List.kreplace]
  | cons e l ih =>
    obtain ⟨a, v⟩ := e
    by_cases ha : key = a
    · subst ha
      rw [List.kreplace, List.lookmap_cons_some (b := ⟨key, value⟩) _ _ (by simp)]
      by_cases hk : k = key
      · subst hk
        simp
      · simp [hk, List.dlookup_cons_ne _ ⟨key, _⟩ hk]
    · rw [List.kreplace, List.lookmap_cons_none _ _ (by simp [ha]), ← List.kreplace]
      by_cases hk : k = a
      · subst hk
        simp [Ne.symm ha]
      · rw [List.dlookup_cons_ne _ ⟨a, _⟩ hk, List.dlookup_cons_ne _ ⟨a, _⟩ hk, ih]
        simp [ha]

theorem lookup_setNode (t : Table z) {key : Key} {value : Value z} (h : key ∈ t.chain (z.index key)) :
    (t.setNode key value).lookup = Function.update t.lookup key (some value) := by
  refine lookup_of_chain rfl ?_ fun k hk => ?_
  · rw [AList.lookup, AList.replace, dlookup_kreplace, if_pos ⟨rfl, AList.mem_keys.mp h⟩]
  · rw [AList.lookup, AList.replace, dlookup_kreplace, if_neg fun hc => hk hc.1, AList.lookup]

/-! ### What the calls do -/

/-- An `add` that finds its key overwrites the value or leaves it. -/
theorem add_present (t : Table z) {key : Key} (value : Value z) (isOverwrite : Bool)
    (h : (t.lookup key).isSome) : (t.add key value isOverwrite).2 = 1 ∧
    (t.add key value isOverwrite).1.lookup =
      if isOverwrite then Function.update t.lookup key (some value) else t.lookup := by
  have hm := (t.mem_chain_iff key).mpr h
  rw [add, dif_pos hm]
  refine ⟨rfl, ?_⟩
  cases isOverwrite with
  | false => rfl
  | true => exact t.lookup_setNode hm

theorem add_absent (t : Table z) {key : Key} (value : Value z) (isOverwrite : Bool)
    (h : t.lookup key = none) (hroom : t.keys.card < z.maxKeyNum) :
    (t.add key value isOverwrite).2 = 0 ∧
    (t.add key value isOverwrite).1.lookup = Function.update t.lookup key (some value) := by
  have hm : key ∉ t.chain (z.index key) := by rw [mem_chain_iff, h]; simp
  rw [add, dif_neg hm, if_neg (by rw [nowKeyNum_eq]; omega)]
  exact ⟨rfl, t.lookup_pushNode hm⟩

/-- Without room it is refused. -/
theorem add_full (t : Table z) {key : Key} (value : Value z) (isOverwrite : Bool)
    (h : t.lookup key = none) (hroom : z.maxKeyNum ≤ t.keys.card) :
    t.add key value isOverwrite = (t, -1) := by
  have hm : key ∉ t.chain (z.index key) := by rw [mem_chain_iff, h]; simp
  rw [add, dif_neg hm, if_pos (by rw [nowKeyNum_eq]; exact hroom)]

theorem del_present (t : Table z) {key : Key} (h : (t.lookup key).isSome) : (t.del key).2 = 0 ∧
    (t.del key).1.lookup = Function.update t.lookup key none := by
  have hm := (t.mem_chain_iff key).mpr h
  rw [del, dif_pos hm]
  exact ⟨rfl, t.lookup_dropNode hm⟩

theorem del_absent (t : Table z) {key : Key} (h : t.lookup key = none) : t.del key = (t, 1) := by
  rw [del, dif_neg (by rw [mem_chain_iff, h]; simp)]

@[simp] theorem lookup_empty (key : Key) : (empty : Table z).lookup key = none := rfl

@[simp] theorem keys_empty : (empty : Table z).keys = ∅ := by
  ext key
  simp [mem_keys]

end Table

end PrimaryElection.Util.HashTable
