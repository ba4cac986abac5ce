import PrimaryElection.Util.HashTableFiles

/-! What `restore` makes of the files a death can leave. `load` gives back the map that
`save` wrote, the records replayed are the updates they stand for, and the files of an
interrupted `clear`, `trim` or `restore` are mended to the same map wherever they were
cut. -/

namespace PrimaryElection.Util.HashTable

open CInt Bytes Journal

variable {z : Sizes}

namespace Table

/-! ### The store file -/

@[simp] theorem encodeEntry_length (e : Sigma fun _ : Key => Value z) :
    (encodeEntry e).length = 8 + z.storeSize := by
  simp [encodeEntry, e.2.property]

theorem length_entries_bytes (es : List (Sigma fun _ : Key => Value z)) :
    (es.flatMap encodeEntry).length = es.length * (8 + z.storeSize) := by
  induction es with
  | nil => simp
  | cons e es ih =>
    rw [List.flatMap_cons, List.length_append, ih, encodeEntry_length, List.length_cons]
    ring

theorem add_new (t : Table z) {key : Key} (value : Value z) (isOverwrite : Bool)
    (h : t.lookup key = none) (hroom : t.keys.card < z.maxKeyNum) :
    ∃ u, t.add key value isOverwrite = (u, 0) ∧ u.lookup = Function.update t.lookup key (some value) ∧
      u.keys = insert key t.keys ∧ u.keys.card = t.keys.card + 1 := by
  obtain ⟨hcode, hlook⟩ := t.add_absent value isOverwrite h hroom
  have hkeys : (t.add key value isOverwrite).1.keys = insert key t.keys := by
    ext k
    rw [mem_keys, hlook, Finset.mem_insert, mem_keys]
    by_cases hk : k = key
    · simp [hk]
    · simp [hk]
  refine ⟨_, Prod.ext rfl hcode, hlook, hkeys, ?_⟩
  rw [hkeys, Finset.card_insert_of_notMem (by rw [mem_keys, h]; simp)]

/-- The entries of one list are added behind the keys that are there. -/
theorem loadEntries_eq (t : Table z) (es : List (Sigma fun _ : Key => Value z)) (hnd : es.NodupKeys)
    (hnew : ∀ key ∈ es.keys, t.lookup key = none) (hroom : t.keys.card + es.length ≤ z.maxKeyNum) :
    ∃ u, loadEntries es.length t (es.flatMap encodeEntry) = some u ∧
      u.keys.card = t.keys.card + es.length ∧
      ∀ key, u.lookup key = (es.dlookup key).or (t.lookup key) := by
  induction es generalizing t with
  | nil => exact ⟨t, rfl, rfl, fun key => rfl⟩
  | cons e es ih =>
    obtain ⟨key, value⟩ := e
    obtain ⟨hkey, hnd⟩ := List.nodupKeys_cons.mp hnd
    rw [List.length_cons] at hroom
    have hnone : t.lookup key = none := hnew key (by simp)
    obtain ⟨u, hadd, hlook, -, hcard⟩ := t.add_new value false hnone (by omega)
    have hnew' : ∀ k ∈ es.keys, u.lookup k = none := by
      intro k hk
      rw [hlook, Function.update_of_ne (ne_of_mem_of_not_mem hk hkey)]
      exact hnew k (by simp [hk])
    obtain ⟨v, hload, hv, hvl⟩ := ih u hnd hnew' (by omega)
    have hlen : 8 + z.storeSize ≤ (List.flatMap encodeEntry (⟨key, value⟩ :: es)).length := by
      rw [List.flatMap_cons, List.length_append, encodeEntry_length]
      omega
    have heq : List.flatMap encodeEntry (⟨key, value⟩ :: es) =
        word8 key ++ (value.val ++ es.flatMap encodeEntry) := by
      simp [encodeEntry]
    have hvalue : (value.val ++ es.flatMap encodeEntry).take z.storeSize = value.val :=
      List.take_left' value.property
    have hrest : (List.flatMap encodeEntry (⟨key, value⟩ :: es)).drop (8 + z.storeSize) =
        es.flatMap encodeEntry := by
      rw [heq, ← List.drop_drop, drop_word8_append, List.drop_left' value.property]
    refine ⟨v, ?_, by rw [List.length_cons]; omega, fun k => ?_⟩
    · rw [List.length_cons, loadEntries, dif_pos hlen, hrest]
      simp only [heq, take_word8_append, drop_word8_append, hvalue, word8Val_word8, hadd]
      exact hload
    · rw [hvl, hlook]
      by_cases hk : k = key
      · subst hk
        rw [List.dlookup_eq_none.mpr hkey]
        simp
      · rw [Function.update_of_ne hk, List.dlookup_cons_ne _ ⟨key, _⟩ hk]

theorem keys_entries (t : Table z) :
    t.entries.keys = (List.finRange z.tableSize).flatMap fun i => (t.chain i).keys := by
  simp only [entries, List.keys, List.map_flatMap]
  rfl

theorem nodupKeys_entries (t : Table z) : t.entries.NodupKeys := by
  rw [List.NodupKeys, keys_entries, List.nodup_flatMap]
  refine ⟨fun i _ => (t.chain i).keys_nodup, ?_⟩
  refine (List.nodup_finRange _).pairwise_of_forall_ne fun i _ j _ hij => ?_
  intro key hi hj
  exact hij ((t.own i key (AList.mem_keys.mpr hi)).symm.trans (t.own j key (AList.mem_keys.mpr hj)))

theorem length_entries (t : Table z) : t.entries.length = t.keys.card := by
  have hlen : t.entries.length = t.entries.keys.length := by simp [List.keys]
  rw [hlen, keys_entries, ← nowKeyNum_eq, t.count, List.length_flatMap, ← List.sum_ofFn, List.ofFn_eq_map]

theorem dlookup_entries (t : Table z) (key : Key) : t.entries.dlookup key = t.lookup key := by
  refine Option.ext fun value => ?_
  rw [← Option.mem_def, ← Option.mem_def, List.mem_dlookup_iff t.nodupKeys_entries, lookup,
    AList.mem_lookup_iff, entries, List.mem_flatMap]
  constructor
  · rintro ⟨i, -, hi⟩
    rwa [t.own i key (AList.mem_keys.mpr (List.mem_keys_of_mem hi))]
  · exact fun h => ⟨z.index key, List.mem_finRange _, h⟩

/-- `load` of what `save` wrote gives a table with the same meaning. -/
theorem load_save (t : Table z) (h : t.keys.card ≤ z.maxKeyNum) :
    ∃ u, Table.empty.load t.save = some u ∧ u.lookup = t.lookup := by
  obtain ⟨u, hload, -, hlook⟩ := loadEntries_eq Table.empty t.entries t.nodupKeys_entries
    (fun _ _ => rfl) (by rw [keys_empty, length_entries]; simpa using h)
  have hhead : int4Val (t.save.take 4) = z.storeSize := by
    have := z.store_lt
    rw [save, take_int4_append, int4Val_int4 (by omega) (by omega)]
  have hlen : t.save.length = 4 + t.entries.length * (8 + z.storeSize) := by
    rw [save, List.length_append, int4_length, length_entries_bytes]
  have hcond : ¬ (t.save.length < 4 ∨ int4Val (t.save.take 4) ≠ z.storeSize ∨
      (t.save.length - 4) % (8 + z.storeSize) ≠ 0) := by
    rw [hlen, Nat.add_sub_cancel_left, Nat.mul_mod_left, hhead]
    omega
  refine ⟨u, ?_, ?_⟩
  · rw [load, if_neg hcond, hlen, Nat.add_sub_cancel_left, Nat.mul_div_cancel _ (by omega), save,
      drop_int4_append]
    exact hload
  · funext key
    rw [hlook, dlookup_entries, lookup_empty, Option.or_none]

/-! ### The records replayed -/

/-- A record that is not refused is the update it stands for. -/
theorem replayOp_add (t : Table z) (key : Key) (value : Value z)
    (h : (t.lookup key).isSome ∨ t.keys.card < z.maxKeyNum) :
    ∃ u, t.replayOp (.add key value) = some u ∧
      u.lookup = Function.update t.lookup key (some value) := by
  cases hk : t.lookup key with
  | some v =>
    obtain ⟨hcode, hlook⟩ := t.add_present value true (by rw [hk]; rfl)
    refine ⟨(t.add key value true).1, ?_, by simpa using hlook⟩
    rw [replayOp, hcode, if_neg (by decide)]
  | none =>
    have hroom : t.keys.card < z.maxKeyNum := by simpa [hk] using h
    obtain ⟨u, hadd, hlook, -⟩ := t.add_new value true hk hroom
    refine ⟨u, ?_, hlook⟩
    rw [replayOp, hadd, if_neg (lt_irrefl _)]

theorem replayOp_add_full (t : Table z) {key : Key} (value : Value z) (h : t.lookup key = none)
    (hroom : z.maxKeyNum ≤ t.keys.card) : t.replayOp (.add key value) = none := by
  rw [replayOp, t.add_full value true h hroom, if_pos (by norm_num)]

theorem replayOp_del (t : Table z) {key : Key} (h : (t.lookup key).isSome) :
    ∃ u, t.replayOp (.del key) = some u ∧ u.lookup = Function.update t.lookup key none := by
  obtain ⟨hcode, hlook⟩ := t.del_present h
  exact ⟨(t.del key).1, by rw [replayOp, hcode, if_neg (by decide)], hlook⟩

end Table

/-! ### Files that can be restored -/

/-- The store file and the records of the increment file give the table; the position is
behind the last of them. -/
structure Logged (d : Disk Name) (rs : List (Op z)) (pos : ℕ) (t : Table z) : Prop where
  flg : d .flg = none
  new : d .new = none
  inc : ∃ file, d .inc = some file ∧ Holds Op.format rs file pos
  base : ∃ t₀, loadSto d = some t₀ ∧ rs.foldlM Table.replayOp t₀ = some t

/-- The files a death can leave, with the map they mean: those of a running table, of an
interrupted `clear`, of a `trim` with its new store file in place, or without an increment
file. -/
inductive Shape (d : Disk Name) : Map z → Prop where
  | logged {rs : List (Op z)} {pos : ℕ} {t : Table z} (h : Logged d rs pos t) : Shape d t.lookup
  | cleared (hflg : (d .flg).isSome) (hnew : d .new = none) : Shape d fun _ => none
  | swapped {file : List UInt8} {t : Table z} (hflg : d .flg = none) (hnew : d .new = some file)
    (hload : Table.empty.load file = some t) : Shape d t.lookup
  | fresh {t : Table z} (hflg : d .flg = none) (hnew : d .new = none) (hinc : d .inc = none)
    (hload : loadSto d = some t) : Shape d t.lookup

theorem loadSto_congr {d : Disk Name} (d' : Disk Name) (h : d .sto = d' .sto) :
    (loadSto d : Option (Table z)) = loadSto d' := by
  rw [loadSto, h, loadSto]

theorem loadSto_none {d : Disk Name} (h : d .sto = none) : (loadSto d : Option (Table z)) = some .empty := by
  rw [loadSto, h]

theorem loadSto_some {d : Disk Name} (file : List UInt8) (h : d .sto = some file) :
    (loadSto d : Option (Table z)) = Table.empty.load file := by
  rw [loadSto, h]

theorem Logged.congr {d d' : Disk Name} {rs : List (Op z)} {pos : ℕ} {t : Table z} (h : Logged d rs pos t)
    (hd : ∀ n, n ≠ .tmp → d' n = d n) : Logged d' rs pos t := by
  obtain ⟨hflg, hnew, ⟨file, hinc, hholds⟩, ⟨t₀, hbase, hreplay⟩⟩ := h
  refine ⟨?_, ?_, ⟨file, ?_, hholds⟩, ⟨t₀, ?_, hreplay⟩⟩
  · rw [hd _ (by decide), hflg]
  · rw [hd _ (by decide), hnew]
  · rw [hd _ (by decide), hinc]
  · rw [loadSto_congr _ (hd .sto (by decide)), hbase]

theorem Logged.start {d : Disk Name} {t : Table z} (hflg : d .flg = none) (hnew : d .new = none)
    (hinc : d .inc = some []) (hload : loadSto d = some t) : Logged d [] 0 t :=
  ⟨hflg, hnew, ⟨[], hinc, .empty⟩, ⟨t, hload, rfl⟩⟩

theorem Logged.replayInc_eq {d : Disk Name} {rs : List (Op z)} {pos : ℕ} {t : Table z}
    (h : Logged d rs pos t) {t₀ : Table z} (h₀ : loadSto d = some t₀) :
    replayInc d t₀ = some (t, pos) := by
  obtain ⟨file, hinc, hholds⟩ := h.inc
  obtain ⟨t₁, h₁, hreplay⟩ := h.base
  cases h₀.symm.trans h₁
  have hpos : file.length - (file.drop pos).length = pos := by
    have := hholds.pos_le
    rw [List.length_drop]
    omega
  rw [replayInc, hinc]
  simp only [hholds.replay, hreplay, Option.map_some, hpos]

/-! ### Restoring -/

theorem restore_eq {d : Disk Name} {t₀ t : Table z} {pos : ℕ} (hload : loadSto (mended d) = some t₀)
    (hreplay : replayInc (mended d) t₀ = some (t, pos)) :
    restore d = some (FileOp.execAll d (restoreOps d), t, pos) := by
  rw [restore, hload, Option.bind_some, hreplay, Option.map_some]

theorem replayInc_none {d : Disk Name} (h : d .inc = none) (t : Table z) : replayInc d t = some (t, 0) := by
  rw [replayInc, h]

/-- `restore` succeeds on what a death can leave, with the map that the files mean. -/
theorem restore_shape {d : Disk Name} {m : Map z} (h : Shape d m) :
    ∃ d' t rs pos, restore d = some (d', t, pos) ∧ Logged d' rs pos t ∧ t.lookup = m := by
  cases h with
  | @logged rs pos t h =>
    have hm : mended d = d := by simp [mended, finishClear, finishTrim, h.flg, h.new]
    obtain ⟨file, hinc, -⟩ := h.inc
    have hops : restoreOps d = [] := by
      simp [restoreOps, finishClear, finishTrim, openInc, hm, h.flg, h.new, hinc]
    obtain ⟨t₀, hload, -⟩ := h.base
    have hr : restore d = some (FileOp.execAll d (restoreOps d), t, pos) :=
      restore_eq (by rw [hm, hload]) (by rw [hm, h.replayInc_eq hload])
    rw [hops] at hr
    exact ⟨d, t, rs, pos, hr, h, rfl⟩
  | cleared hflg hnew =>
    obtain ⟨f, hf⟩ := Option.isSome_iff_exists.mp hflg
    have hinc : mended d .inc = none := by
      simp [mended, finishClear, finishTrim, FileOp.exec, hf, hnew]
    have hsto : mended d .sto = none := by
      simp [mended, finishClear, finishTrim, FileOp.exec, hf, hnew]
    have hload : (loadSto (mended d) : Option (Table z)) = some .empty := loadSto_none hsto
    refine ⟨_, .empty, [], 0, restore_eq hload (replayInc_none hinc _), ?_, rfl⟩
    have hops : restoreOps d = [.remove .sto, .remove .inc, .remove .flg, .write .inc []] := by
      simp [restoreOps, openInc, hinc, finishClear, finishTrim, FileOp.exec, hf, hnew]
    rw [hops]
    refine .start ?_ ?_ ?_ (loadSto_none ?_) <;> simp [FileOp.exec, hnew]
  | @swapped file t hflg hnew hload =>
    have hinc : mended d .inc = none := by
      simp [mended, finishClear, finishTrim, cpRenameFile, FileOp.exec, hflg, hnew]
    have hsto : mended d .sto = some file := by
      simp [mended, finishClear, finishTrim, cpRenameFile, FileOp.exec, hflg, hnew]
    have hl : (loadSto (mended d) : Option (Table z)) = some t := by rw [loadSto_some _ hsto, hload]
    refine ⟨_, t, [], 0, restore_eq hl (replayInc_none hinc _), ?_, rfl⟩
    have hops : restoreOps d = [.remove .sto, .remove .inc, .remove .sto, .rename .new .sto,
        .write .inc []] := by
      simp [restoreOps, openInc, hinc, finishClear, finishTrim, cpRenameFile, hflg, hnew]
    rw [hops]
    refine .start ?_ ?_ ?_ ?_
    · simp [FileOp.exec, hnew, hflg]
    · simp [FileOp.exec, hnew]
    · simp [FileOp.exec, hnew]
    · rw [loadSto_some file (by simp [FileOp.exec, hnew]), hload]
  | @fresh t hflg hnew hinc hload =>
    have hm : mended d = d := by simp [mended, finishClear, finishTrim, hflg, hnew]
    have hops : restoreOps d = [.write .inc []] := by
      simp [restoreOps, finishClear, finishTrim, openInc, hm, hflg, hnew, hinc]
    refine ⟨_, t, [], 0, restore_eq (by rw [hm, hload]) (replayInc_none (by rw [hm, hinc]) _), ?_, rfl⟩
    rw [hops]
    refine .start ?_ ?_ ?_ ?_
    · simp [FileOp.exec, hflg]
    · simp [FileOp.exec, hnew]
    · simp [FileOp.exec]
    · rw [loadSto_congr d (by simp [FileOp.exec]), hload]

/-! ### Deaths between the files -/

/-- An interrupted `restore` can be done again. -/
theorem cut_restore {d : Disk Name} {m : Map z} (h : Shape d m) (k : ℕ) :
    Shape (FileOp.cut d (restoreOps d) k none) m := by
  cases h with
  | @logged rs pos t h =>
    have hm : mended d = d := by simp [mended, finishClear, finishTrim, h.flg, h.new]
    obtain ⟨file, hinc, -⟩ := h.inc
    have hops : restoreOps d = [] := by
      simp [restoreOps, finishClear, finishTrim, openInc, hm, h.flg, h.new, hinc]
    rw [hops, FileOp.cut_nil]
    exact .logged h
  | cleared hflg hnew =>
    obtain ⟨f, hf⟩ := Option.isSome_iff_exists.mp hflg
    have hops : restoreOps d = [.remove .sto, .remove .inc, .remove .flg, .write .inc []] := by
      simp [restoreOps, openInc, mended, finishClear, finishTrim, FileOp.exec, hf, hnew]
    rw [hops]
    rcases k with _ | _ | _ | _ | k
    · exact .cleared (by simpa [FileOp.cut] using hflg) (by simpa [FileOp.cut] using hnew)
    · refine .cleared ?_ ?_ <;> simp [FileOp.cut, FileOp.exec, hf, hnew]
    · refine .cleared ?_ ?_ <;> simp [FileOp.cut, FileOp.exec, hf, hnew]
    · refine .fresh (t := .empty) ?_ ?_ ?_ (loadSto_none ?_) <;> simp [FileOp.cut, FileOp.exec, hnew]
    · refine .logged (t := .empty) (.start ?_ ?_ ?_ (loadSto_none ?_)) <;>
        simp [FileOp.cut_succ, FileOp.exec, hnew]
  | @swapped file t hflg hnew hload =>
    have hops : restoreOps d = [.remove .sto, .remove .inc, .remove .sto, .rename .new .sto,
        .write .inc []] := by
      simp [restoreOps, openInc, mended, finishClear, finishTrim, cpRenameFile, FileOp.exec, hflg, hnew]
    rw [hops]
    rcases k with _ | _ | _ | _ | _ | k
    · exact .swapped (by simpa [FileOp.cut] using hflg) (by simpa [FileOp.cut] using hnew) hload
    · refine .swapped ?_ ?_ hload <;> simp [FileOp.cut, FileOp.exec, hflg, hnew]
    · refine .swapped ?_ ?_ hload <;> simp [FileOp.cut, FileOp.exec, hflg, hnew]
    · refine .swapped ?_ ?_ hload <;> simp [FileOp.cut, FileOp.exec, hflg, hnew]
    · refine .fresh ?_ ?_ ?_ ((loadSto_some file ?_).trans hload) <;>
        simp [FileOp.cut, FileOp.exec, hflg, hnew]
    · refine .logged (.start ?_ ?_ ?_ ((loadSto_some file ?_).trans hload)) <;>
        simp [FileOp.cut_succ, FileOp.exec, hflg, hnew]
  | @fresh t hflg hnew hinc hload =>
    have hops : restoreOps d = [.write .inc []] := by
      simp [restoreOps, mended, finishClear, finishTrim, openInc, hflg, hnew, hinc]
    rw [hops]
    rcases k with _ | k
    · refine .fresh ?_ ?_ ?_ ((loadSto_congr _ ?_).trans hload) <;> simp [FileOp.cut, hflg, hnew, hinc]
    · refine .logged (.start ?_ ?_ ?_ ((loadSto_congr _ ?_).trans hload)) <;>
        simp [FileOp.cut_succ, FileOp.exec, hflg, hnew]

section

variable {d : Disk Name} {rs : List (Op z)} {pos : ℕ} {t u : Table z}

/-- The files after `trim`. -/
theorem Logged.trim (h : Logged d rs pos u) (ht : t.keys.card ≤ z.maxKeyNum) :
    ∃ v, Logged (FileOp.execAll d (trimOps t)) [] 0 v ∧ v.lookup = t.lookup := by
  obtain ⟨v, hload, hv⟩ := t.load_save ht
  refine ⟨v, .start ?_ ?_ ?_ ((loadSto_some t.save ?_).trans hload), hv⟩ <;>
    simp [trimOps, cpRenameFile, FileOp.exec, h.flg]

/-- An interrupted `trim` leaves the old files or the new store file. -/
theorem Logged.cut_trim (h : Logged d rs pos u) (hu : u.lookup = t.lookup)
    (ht : t.keys.card ≤ z.maxKeyNum) (k : ℕ) (p : Option ℕ) :
    Shape (FileOp.cut d (trimOps t) k p) t.lookup := by
  obtain ⟨v, hload, hv⟩ := t.load_save ht
  have hflg := h.flg
  have hnew := h.new
  have hkept : ∀ {d' : Disk Name}, (∀ n, n ≠ .tmp → d' n = d n) → Shape d' t.lookup :=
    fun hd => hu ▸ .logged (h.congr hd)
  have hswap : ∀ {d' : Disk Name}, d' .flg = none → d' .new = some t.save → Shape d' t.lookup :=
    fun h₁ h₂ => hv ▸ .swapped h₁ h₂ hload
  have hsto : ∀ {d' : Disk Name}, d' .sto = some t.save → loadSto d' = some v :=
    fun h => (loadSto_some _ h).trans hload
  simp only [trimOps, cpRenameFile, List.cons_append, List.nil_append]
  rcases k with _ | _ | _ | _ | _ | _ | _ | _ | k
  · cases p with
    | none => exact hkept fun n _ => by simp [FileOp.cut]
    | some p => exact hkept fun n hn => by simp [FileOp.cut, FileOp.exec, Function.update_of_ne hn]
  · exact hkept fun n hn => by simp [FileOp.cut, FileOp.exec, Function.update_of_ne hn]
  · refine hkept fun n hn => ?_
    by_cases hnn : n = .new
    · simp [FileOp.cut, FileOp.exec, hnn, hnew]
    · simp [FileOp.cut, FileOp.exec, Function.update_of_ne hn, Function.update_of_ne hnn]
  · apply hswap <;> simp [FileOp.cut, FileOp.exec, hflg]
  · apply hswap <;> simp [FileOp.cut, FileOp.exec, hflg]
  · apply hswap <;> simp [FileOp.cut, FileOp.exec, hflg]
  · cases p <;> apply hswap <;> simp [FileOp.cut, FileOp.exec, hflg]
  · cases p with
    | none =>
      rw [← hv]
      refine .fresh ?_ ?_ ?_ (hsto ?_) <;> simp [FileOp.cut, FileOp.exec, hflg]
    | some p =>
      rw [← hv]
      refine .logged (.start ?_ ?_ ?_ (hsto ?_)) <;> simp [FileOp.cut, FileOp.exec, hflg]
  · rw [← hv]
    refine .logged (.start ?_ ?_ ?_ (hsto ?_)) <;> simp [FileOp.cut_succ, FileOp.exec, hflg]

theorem Logged.clear (h : Logged d rs pos u) :
    Logged (FileOp.execAll d clearOps) [] 0 (Table.empty : Table z) := by
  refine .start ?_ ?_ ?_ (loadSto_none ?_) <;> simp [clearOps, FileOp.exec, h.new]

/-- An interrupted `clear` has cleared the files from its first operation on. -/
theorem Logged.cut_clear (h : Logged d rs pos u) (k : ℕ) : Shape (FileOp.cut d clearOps k none)
    (if k = 0 then u.lookup else fun _ => none) := by
  have hnew := h.new
  unfold clearOps
  rcases k with _ | _ | _ | _ | _ | k
  · exact .logged (h.congr fun n _ => by simp [FileOp.cut])
  · refine .cleared ?_ ?_ <;> simp [FileOp.cut, FileOp.exec, hnew]
  · refine .cleared ?_ ?_ <;> simp [FileOp.cut, FileOp.exec, hnew]
  · refine .cleared ?_ ?_ <;> simp [FileOp.cut, FileOp.exec, hnew]
  · refine .fresh (t := .empty) ?_ ?_ ?_ (loadSto_none ?_) <;> simp [FileOp.cut, FileOp.exec, hnew]
  · refine .logged (t := .empty) (.start ?_ ?_ ?_ (loadSto_none ?_)) <;>
      simp [FileOp.cut_succ, FileOp.exec, hnew]

end

end PrimaryElection.Util.HashTable
