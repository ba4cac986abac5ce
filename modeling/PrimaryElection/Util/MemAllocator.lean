import PrimaryElection.Lib.Journal
import PrimaryElection.Lib.Memory
import PrimaryElection.Lib.Runs

/-! The allocator UC_Mem_Allocator_Recycle.h over a byte memory, with its debug words, as
the center uses it for task nodes and buffers. Blocks are cut from segments that `new`
gives, and those given back are linked through their own bytes. Users write in the blocks
they have. `reset_mem` is called by nobody. -/

namespace PrimaryElection.Util.MemAllocator

open Bytes Memory Journal Runs

/-! ### Blocks -/

/-- The arguments of `init`: the size of a block for its user, the number of blocks in use
at most (0 for no limit), and the blocks of a segment. -/
structure Config where
  size : ℕ
  blockCount : ℕ
  blockNumPs : ℕ
  num_pos : 0 < blockNumPs

variable {c : Config}

def Config.blockCountMax (c : Config) : ℕ :=
  if c.blockCount = 0 then 9223372036854775807 else c.blockCount

/-- tag(4), used(4), next(8), the user's bytes, tag(4). -/
def Config.blockSize (c : Config) : ℤ := c.size + 20

/-- What `new` is asked for: a link and the blocks. -/
def Config.segmentSize (c : Config) : ℤ := 8 + c.blockNumPs * c.blockSize

/-- 0xABABABAB -/
def headTag : List UInt8 := int4 2880154539

/-- 0xBABABABA -/
def tailTag : List UInt8 := int4 3132799674

def storePtr (a p : ℤ) : Store := ⟨a, word8 (UInt64.ofNat p.toNat)⟩

def loadPtr (m : Mem) (a : ℤ) : ℤ := (word8Val (load m a 8)).toNat

/-- The asserted words of the block at `b`. -/
def Tagged (c : Config) (m : Mem) (b used : ℤ) : Prop :=
  load m b 4 = headTag ∧ load m (b + c.blockSize - 4) 4 = tailTag ∧ load m (b + 4) 4 = int4 used

instance (m : Mem) (b used : ℤ) : Decidable (Tagged c m b used) :=
  inferInstanceAs (Decidable (_ ∧ _ ∧ _))

/-! ### Calls -/

structure Allocator where
  blockCountUse : ℤ
  recycleLibrary : ℤ
  segmentLibrary : ℤ
  curSegPos : ℤ
  curSegUse : ℕ

def Allocator.init : Allocator := ⟨0, 0, 0, 0, 0⟩

def carve (c : Config) (a : Allocator) (m : Mem) : Allocator × Mem × ℤ :=
  ({ a with
      blockCountUse := a.blockCountUse + 1
      curSegPos := a.curSegPos + c.blockSize
      curSegUse := a.curSegUse + 1 },
    applyAll [⟨a.curSegPos, headTag⟩, ⟨a.curSegPos + c.blockSize - 4, tailTag⟩,
      storeInt (a.curSegPos + 4) 1] m,
    a.curSegPos + 16)

/-- `get_mem` asks for another segment. -/
def NeedsSegment (c : Config) (a : Allocator) : Prop :=
  a.blockCountUse < c.blockCountMax ∧ a.recycleLibrary = 0 ∧
    (c.blockNumPs ≤ a.curSegUse ∨ a.curSegPos = 0)

instance (a : Allocator) : Decidable (NeedsSegment c a) := inferInstanceAs (Decidable (_ ∧ _ ∧ _))

/-- The block for the user, 0 if there is none; `memBuf` is what `new` returns if it is
asked. No result where an assertion fails. -/
def getMem (c : Config) (memBuf : ℤ) (a : Allocator) (m : Mem) : Option (Allocator × Mem × ℤ) :=
  if c.blockCountMax ≤ a.blockCountUse then some (a, m, 0)
  else if a.recycleLibrary ≠ 0 then
    if Tagged c m (a.recycleLibrary - 8) 0 then
      some ({ a with
          blockCountUse := a.blockCountUse + 1
          recycleLibrary := loadPtr m a.recycleLibrary },
        (storeInt (a.recycleLibrary - 4) 1).apply m, a.recycleLibrary + 8)
    else none
  else if NeedsSegment c a then
    if memBuf = 0 then some (a, m, 0)
    else some (carve c { a with segmentLibrary := memBuf, curSegPos := memBuf + 8, curSegUse := 0 }
      ((storePtr memBuf a.segmentLibrary).apply m))
  else some (carve c a m)

def putMem (c : Config) (memory : ℤ) (a : Allocator) (m : Mem) : Option (Allocator × Mem) :=
  if Tagged c m (memory - 16) 1 then
    some ({ a with blockCountUse := a.blockCountUse - 1, recycleLibrary := memory - 8 },
      applyAll [storeInt (memory - 12) 0, storePtr (memory - 8) a.recycleLibrary] m)
  else none

/-! ### Users -/

/-- The allocator and its memory, the segments it has, the blocks that users have, and what
the users have written there. -/
structure State where
  alloc : Allocator
  mem : Mem
  segments : List ℤ
  out : List ℤ
  content : ℤ → List UInt8

/-- A segment that `new` can give: no null pointer, and apart from the others. -/
def Fresh (c : Config) (s : State) (memBuf : ℤ) : Prop :=
  0 < memBuf ∧ memBuf + c.segmentSize < 18446744073709551616 ∧
    ∀ g ∈ s.segments, g + c.segmentSize ≤ memBuf ∨ memBuf + c.segmentSize ≤ g

instance (s : State) (memBuf : ℤ) : Decidable (Fresh c s memBuf) :=
  inferInstanceAs (Decidable (_ ∧ _ ∧ _))

inductive Event where
  | get (memBuf : ℤ)
  | put (memory : ℤ)
  | write (memory : ℤ) (i : ℕ) (bs : List UInt8)

inductive Observed where
  | got (memory : ℤ)
  | put
  | wrote
  | aborted
  deriving DecidableEq

def State.write (s : State) (memory : ℤ) (i : ℕ) (bs : List UInt8) : State :=
  { s with
    mem := Store.apply ⟨memory + i, bs⟩ s.mem
    content := Function.update s.content memory (writeAt (s.content memory) i bs) }

/-- Users give back and write into what they have. -/
def step (c : Config) (s : State) : Event → Option (State × Observed)
  | .get memBuf =>
    if NeedsSegment c s.alloc ∧ memBuf ≠ 0 ∧ ¬ Fresh c s memBuf then none
    else
      match getMem c memBuf s.alloc s.mem with
      | none => some (s, .aborted)
      | some (a, m, memory) => some (
        { alloc := a
          mem := m
          segments := if NeedsSegment c s.alloc ∧ memBuf ≠ 0 then memBuf :: s.segments else s.segments
          out := if memory = 0 then s.out else memory :: s.out
          content := Function.update s.content memory (load m memory c.size) }, .got memory)
  | .put memory =>
    if memory ∈ s.out then
      match putMem c memory s.alloc s.mem with
      | none => some (s, .aborted)
      | some (a, m) => some ({ s with alloc := a, mem := m, out := s.out.erase memory }, .put)
    else none
  | .write memory i bs =>
    if memory ∈ s.out ∧ i + bs.length ≤ c.size then some (s.write memory i bs, .wrote) else none

def State.init (m : Mem) : State := ⟨.init, m, [], [], fun _ => []⟩

/-! ### What holds between the calls -/

/-- The blocks that were given back, linked from the last one on. -/
def Chain (m : Mem) : ℤ → List ℤ → Prop
  | r, [] => r = 0
  | r, b :: bs => r = b + 8 ∧ Chain m (loadPtr m (b + 8)) bs

def Apart (c : Config) (b b' : ℤ) : Prop := b + c.blockSize ≤ b' ∨ b' + c.blockSize ≤ b

instance : Std.Symm (Apart c) := ⟨fun _ _ h => Or.symm h⟩

/-- The blocks cut so far are in the segments, apart from each other and from what is not
cut yet. -/
structure Layout (c : Config) (segments : List ℤ) (pos : ℤ) (use : ℕ) (blocks : List ℤ) : Prop where
  apart : blocks.Pairwise (Apart c)
  inside : ∀ b ∈ blocks, ∃ g ∈ segments, g + 8 ≤ b ∧ b + c.blockSize ≤ g + c.segmentSize
  segment : ∀ g ∈ segments, 0 < g ∧ g + c.segmentSize < 18446744073709551616
  rest : pos ≠ 0 → ∃ g ∈ segments, pos = g + 8 + use * c.blockSize ∧
    ∀ b ∈ blocks, b + c.blockSize ≤ pos ∨ g + c.segmentSize ≤ b
  use_le : use ≤ c.blockNumPs
  cut : if pos = 0 then segments = [] else blocks.length + c.blockNumPs = segments.length * c.blockNumPs + use

/-- The words of the free blocks, the bytes of those in use. -/
structure Words (c : Config) (m : Mem) (recycle : ℤ) (free out : List ℤ) (content : ℤ → List UInt8) : Prop where
  chain : Chain m recycle free
  free_tagged : ∀ b ∈ free, Tagged c m b 0
  out_tagged : ∀ p ∈ out, Tagged c m (p - 16) 1
  content : ∀ p ∈ out, load m p c.size = content p

/-- Every block cut so far is free or with a user. -/
structure Inv (c : Config) (s : State) (free : List ℤ) : Prop where
  layout : Layout c s.segments s.alloc.curSegPos s.alloc.curSegUse (free ++ s.out.map (· - 16))
  words : Words c s.mem s.alloc.recycleLibrary free s.out s.content
  count : s.alloc.blockCountUse = s.out.length
  bound : s.out.length ≤ c.blockCountMax
  bound_segments : s.segments.length * c.blockNumPs < c.blockCountMax + c.blockNumPs

def Same (c : Config) (m m' : Mem) (b : ℤ) : Prop := ∀ x, b ≤ x → x < b + c.blockSize → m' x = m x

namespace Same

variable {m m' : Mem} {b : ℤ}

theorem load (h : Same c m m' b) {a : ℤ} {n : ℕ} (h₁ : b ≤ a) (h₂ : a + n ≤ b + c.blockSize) :
    Memory.load m' a n = Memory.load m a n :=
  load_congr fun x hx hx' => h x (by omega) (by omega)

theorem tagged (h : Same c m m' b) {used : ℤ} (ht : Tagged c m b used) : Tagged c m' b used := by
  obtain ⟨h₁, h₂, h₃⟩ := ht
  have hsize : c.blockSize = c.size + 20 := rfl
  refine ⟨?_, ?_, ?_⟩
  · rw [h.load le_rfl (by omega), h₁]
  · rw [h.load (by omega) (by omega), h₂]
  · rw [h.load (by omega) (by omega), h₃]

theorem content (h : Same c m m' b) : Memory.load m' (b + 16) c.size = Memory.load m (b + 16) c.size := by
  have hsize : c.blockSize = c.size + 20 := rfl
  exact h.load (by omega) (by omega)

theorem of_disjoint (ws : List Store)
    (hw : ∀ w ∈ ws, w.addr + w.bytes.length ≤ b ∨ b + c.blockSize ≤ w.addr) : Same c m (applyAll ws m) b := by
  intro x h₁ h₂
  refine applyAll_of_notMem (fun w hmem => ?_) m
  rintro ⟨h₃, h₄⟩
  rcases hw w hmem with h₅ | h₅ <;> omega

theorem of_stores (ws : List Store) {b' : ℤ} (hb : Apart c b b')
    (hw : ∀ w ∈ ws, b' ≤ w.addr ∧ w.addr + w.bytes.length ≤ b' + c.blockSize) : Same c m (applyAll ws m) b := by
  refine of_disjoint ws fun w hmem => ?_
  rcases hw w hmem with ⟨h₁, h₂⟩
  rcases hb with hb | hb
  · exact Or.inr (by omega)
  · exact Or.inl (by omega)

end Same

theorem Chain.same {m m' : Mem} {r : ℤ} {bs : List ℤ} (h : Chain m r bs) (hb : ∀ b ∈ bs, Same c m m' b) :
    Chain m' r bs := by
  induction bs generalizing r with
  | nil => exact h
  | cons b bs ih =>
    obtain ⟨hr, hrest⟩ := h
    have hsize : c.blockSize = c.size + 20 := rfl
    have hnext : loadPtr m' (b + 8) = loadPtr m (b + 8) := by
      rw [loadPtr, (hb b List.mem_cons_self).load (by omega) (by omega), loadPtr]
    refine ⟨hr, ?_⟩
    rw [hnext]
    exact ih hrest fun b' hb' => hb b' (List.mem_cons_of_mem _ hb')

theorem loadPtr_storePtr (m : Mem) (a : ℤ) {p : ℤ} (h₀ : 0 ≤ p) (h₁ : p < 18446744073709551616) :
    loadPtr ((storePtr a p).apply m) a = p := by
  have hload : load ((storePtr a p).apply m) a 8 = word8 (UInt64.ofNat p.toNat) := by
    have := load_store_self (storePtr a p) m
    rwa [show (storePtr a p).bytes.length = 8 from word8_length _] at this
  rw [loadPtr, hload, word8Val_word8, UInt64.toNat_ofNat']
  omega

theorem blockSize_pos (c : Config) : 20 ≤ c.blockSize := by
  unfold Config.blockSize
  omega

theorem Apart.ne {b b' : ℤ} (h : Apart c b b') : b ≠ b' := by
  have := blockSize_pos c
  rcases h with h | h <;> omega

namespace Layout

variable {segments : List ℤ} {pos : ℤ} {use : ℕ} {blocks : List ℤ}

theorem init : Layout c [] 0 0 [] where
  apart := List.Pairwise.nil
  inside := nofun
  segment := nofun
  rest := fun h => absurd rfl h
  use_le := Nat.zero_le _
  cut := rfl

theorem perm (h : Layout c segments pos use blocks) {blocks' : List ℤ} (hp : blocks.Perm blocks') :
    Layout c segments pos use blocks' where
  apart := (hp.pairwise_iff Or.symm).mp h.apart
  inside := fun b hb => h.inside b (hp.mem_iff.mpr hb)
  segment := h.segment
  rest := by
    intro hpos
    rcases h.rest hpos with ⟨g, hg, hcur, hall⟩
    exact ⟨g, hg, hcur, fun b hb => hall b (hp.mem_iff.mpr hb)⟩
  use_le := h.use_le
  cut := by
    rw [← hp.length_eq]
    exact h.cut

/-- Blocks are at addresses that a pointer can hold. -/
theorem bounds (h : Layout c segments pos use blocks) {b : ℤ} (hb : b ∈ blocks) :
    8 < b ∧ b + c.blockSize < 18446744073709551616 := by
  rcases h.inside b hb with ⟨g, hg, h₁, h₂⟩
  have := h.segment g hg
  omega

/-- The others do not overlap the first one. -/
theorem head {b : ℤ} {bs : List ℤ} (h : Layout c segments pos use (b :: bs)) {b' : ℤ} (hb : b' ∈ bs) :
    Apart c b' b :=
  Or.symm ((List.pairwise_cons.mp h.apart).1 b' hb)

theorem length_of_full (h : Layout c segments pos use blocks) (hfull : c.blockNumPs ≤ use ∨ pos = 0) :
    blocks.length = segments.length * c.blockNumPs := by
  have hcut := h.cut
  split at hcut
  · rw [hcut, List.length_nil, zero_mul, List.length_eq_zero_iff, List.eq_nil_iff_forall_not_mem]
    intro b hb
    rcases h.inside b hb with ⟨g, hg, -⟩
    rw [hcut] at hg
    exact List.not_mem_nil hg
  · have := h.use_le
    omega

/-- A new segment, none of it cut yet. -/
theorem newSegment (h : Layout c segments pos use blocks) (hfull : c.blockNumPs ≤ use ∨ pos = 0) {memBuf : ℤ}
    (h₀ : 0 < memBuf)
    (h₁ : memBuf + c.segmentSize < 18446744073709551616)
    (h₂ : ∀ g ∈ segments, g + c.segmentSize ≤ memBuf ∨ memBuf + c.segmentSize ≤ g) :
    Layout c (memBuf :: segments) (memBuf + 8) 0 blocks where
  apart := h.apart
  inside := by
    intro b hb
    rcases h.inside b hb with ⟨g, hg, hin⟩
    exact ⟨g, List.mem_cons_of_mem _ hg, hin⟩
  segment := List.forall_mem_cons.mpr ⟨⟨h₀, h₁⟩, h.segment⟩
  rest := by
    refine fun _ => ⟨memBuf, List.mem_cons_self, by simp, fun b hb => ?_⟩
    rcases h.inside b hb with ⟨g, hg, h₃, h₄⟩
    rcases h₂ g hg with h₅ | h₅
    · left
      omega
    · right
      omega
  use_le := Nat.zero_le _
  cut := by
    rw [if_neg (by omega), h.length_of_full hfull, List.length_cons]
    ring

theorem carve (h : Layout c segments pos use blocks) (hpos : pos ≠ 0) (huse : use < c.blockNumPs) :
    Layout c segments (pos + c.blockSize) (use + 1) (pos :: blocks) := by
  rcases h.rest hpos with ⟨g, hg, hcur, hall⟩
  have hsize := blockSize_pos c
  have hfit : pos + c.blockSize ≤ g + c.segmentSize := by
    have hmul : ((use : ℤ) + 1) * c.blockSize ≤ c.blockNumPs * c.blockSize :=
      mul_le_mul_of_nonneg_right (by omega) (by omega)
    rw [Config.segmentSize, hcur]
    linarith
  have hstart : g + 8 ≤ pos := by
    have : 0 ≤ (use : ℤ) * c.blockSize := by positivity
    omega
  constructor
  · refine List.pairwise_cons.mpr ⟨fun b hb => ?_, h.apart⟩
    rcases hall b hb with hb | hb
    · exact Or.inr hb
    · exact Or.inl (by omega)
  · exact List.forall_mem_cons.mpr ⟨⟨g, hg, hstart, hfit⟩, h.inside⟩
  · exact h.segment
  · refine fun _ => ⟨g, hg, by rw [hcur]; push_cast; ring, List.forall_mem_cons.mpr ⟨Or.inl le_rfl, fun b hb => ?_⟩⟩
    rcases hall b hb with hb | hb
    · exact Or.inl (by omega)
    · exact Or.inr hb
  · exact huse
  · have hcut := h.cut
    rw [if_neg hpos] at hcut
    have := h.segment g hg
    rw [if_neg (by omega), List.length_cons]
    omega

end Layout

namespace Words

variable {m : Mem} {r : ℤ} {free out : List ℤ} {content : ℤ → List UInt8}

theorem init (m : Mem) : Words c m 0 [] [] content := ⟨rfl, nofun, nofun, nofun⟩

/-- Stores elsewhere. -/
theorem frame (h : Words c m r free out content) (m' : Mem)
    (hs : ∀ b ∈ free ++ out.map (· - 16), Same c m m' b) : Words c m' r free out content := by
  have hfree : ∀ b ∈ free, Same c m m' b := fun b hb => hs b (List.mem_append_left _ hb)
  have hout : ∀ p ∈ out, Same c m m' (p - 16) :=
    fun p hp => hs _ (List.mem_append_right _ (List.mem_map_of_mem hp))
  constructor
  · exact h.chain.same hfree
  · exact fun b hb => (hfree b hb).tagged (h.free_tagged b hb)
  · exact fun p hp => (hout p hp).tagged (h.out_tagged p hp)
  · intro p hp
    have := (hout p hp).content
    rw [show p - 16 + 16 = p by ring] at this
    rw [this, h.content p hp]

/-- The last block given back is taken off the chain. -/
theorem pop {b : ℤ} (h : Words c m r (b :: free) out content) : Words c m (loadPtr m (b + 8)) free out content :=
  ⟨h.chain.2, fun b' hb' => h.free_tagged b' (List.mem_cons_of_mem b hb'), h.out_tagged, h.content⟩

/-- A block given back is linked to the chain. -/
theorem push (h : Words c m r free out content) {b : ℤ} (ht : Tagged c m b 0) (hl : loadPtr m (b + 8) = r) :
    Words c m (b + 8) (b :: free) out content :=
  ⟨⟨rfl, by rw [hl]; exact h.chain⟩, List.forall_mem_cons.mpr ⟨ht, h.free_tagged⟩, h.out_tagged, h.content⟩

theorem congr (h : Words c m r free out content) {content' : ℤ → List UInt8}
    (hc : ∀ p ∈ out, content' p = content p) : Words c m r free out content' :=
  ⟨h.chain, h.free_tagged, h.out_tagged, fun p hp => (h.content p hp).trans (hc p hp).symm⟩

theorem take (h : Words c m r free out content) {p : ℤ} (ht : Tagged c m (p - 16) 1) (hp : p ∉ out)
    {bs : List UInt8} (hl : load m p c.size = bs) :
    Words c m r free (p :: out) (Function.update content p bs) := by
  refine ⟨h.chain, h.free_tagged, List.forall_mem_cons.mpr ⟨ht, h.out_tagged⟩, List.forall_mem_cons.mpr ⟨?_, ?_⟩⟩
  · rw [Function.update_self, hl]
  · intro p' hp'
    rw [Function.update_of_ne (ne_of_mem_of_not_mem hp' hp), h.content p' hp']

theorem perm (h : Words c m r free out content) {out' : List ℤ} (hp : out'.Perm out) :
    Words c m r free out' content :=
  ⟨h.chain, h.free_tagged, fun p hp' => h.out_tagged p (hp.mem_iff.mp hp'),
    fun p hp' => h.content p (hp.mem_iff.mp hp')⟩

theorem tail {p : ℤ} (h : Words c m r free (p :: out) content) : Words c m r free out content :=
  ⟨h.chain, h.free_tagged, fun p' hp' => h.out_tagged p' (List.mem_cons_of_mem p hp'),
    fun p' hp' => h.content p' (List.mem_cons_of_mem p hp')⟩

end Words

theorem Tagged.mark {m : Mem} {b used : ℤ} (h : Tagged c m b used) (v : ℤ) :
    Tagged c ((storeInt (b + 4) v).apply m) b v := by
  have hsize := blockSize_pos c
  refine ⟨?_, ?_, load_storeInt m _ v⟩
  · rw [load_store_of_disjoint (by rw [storeInt_addr, storeInt_length]; omega), h.1]
  · rw [load_store_of_disjoint (by rw [storeInt_addr, storeInt_length]; omega), h.2.1]

/-- A store in the part of a block that is the user's or holds the link. -/
theorem Tagged.store {m : Mem} {b used : ℤ} (h : Tagged c m b used) {w : Store} (h₁ : b + 8 ≤ w.addr)
    (h₂ : w.addr + w.bytes.length ≤ b + c.blockSize - 4) : Tagged c (w.apply m) b used := by
  refine ⟨?_, ?_, ?_⟩
  · rw [load_store_of_disjoint (by omega), h.1]
  · rw [load_store_of_disjoint (by omega), h.2.1]
  · rw [load_store_of_disjoint (by omega), h.2.2]

theorem load_store {w : Store} {m : Mem} {n : ℕ} (hn : w.bytes.length = n) :
    load (w.apply m) w.addr n = w.bytes := hn ▸ load_store_self w m

/-- Bytes written in a loaded range. -/
theorem load_store_inside (m : Mem) (a : ℤ) {n i : ℕ} {bs : List UInt8} (h : i + bs.length ≤ n) :
    load (Store.apply ⟨a + i, bs⟩ m) a n = writeAt (load m a n) i bs := by
  obtain ⟨k, rfl⟩ := Nat.exists_eq_add_of_le h
  have hfront : load (Store.apply ⟨a + i, bs⟩ m) a i = load m a i :=
    load_store_of_disjoint (Or.inl le_rfl)
  have hself : load (Store.apply ⟨a + i, bs⟩ m) (a + i) bs.length = bs := load_store_self ⟨a + i, bs⟩ m
  have htail : load (Store.apply ⟨a + i, bs⟩ m) (a + (i + bs.length : ℕ)) k = load m (a + (i + bs.length : ℕ)) k :=
    load_store_of_disjoint (Or.inr (by push_cast; omega))
  have hwrite := writeAt_append (load m a i) (load m (a + i) (bs.length + k)) bs
  rw [load_length] at hwrite
  rw [load_add, load_add, hfront, hself, htail, add_assoc, load_add m a i, hwrite, load_add m (a + i),
    List.drop_left' (load_length _ _ _), List.append_assoc]
  push_cast
  rw [add_assoc]

theorem tagged_carve (m : Mem) (b : ℤ) :
    Tagged c (applyAll [⟨b, headTag⟩, ⟨b + c.blockSize - 4, tailTag⟩, storeInt (b + 4) 1] m) b 1 := by
  have hsize := blockSize_pos c
  have hhead : headTag.length = 4 := int4_length _
  have htail : tailTag.length = 4 := int4_length _
  simp only [applyAll_cons, applyAll_nil]
  refine ⟨?_, ?_, load_storeInt _ _ 1⟩
  · rw [load_store_of_disjoint (by rw [storeInt_addr, storeInt_length]; omega),
      load_store_of_disjoint (by dsimp only; omega)]
    exact load_store hhead
  · rw [load_store_of_disjoint (by rw [storeInt_addr, storeInt_length]; omega)]
    exact load_store htail

namespace Inv

variable {s : State} {free : List ℤ}

theorem init (m : Mem) : Inv c (State.init m) [] :=
  ⟨.init, .init m, rfl, Nat.zero_le _, by simpa [State.init] using Nat.add_pos_right _ c.num_pos⟩

theorem out_gt (h : Inv c s free) {p : ℤ} (hp : p ∈ s.out) : 24 < p := by
  have := h.layout.bounds (List.mem_append_right free (List.mem_map_of_mem hp))
  omega

theorem nodup (h : Inv c s free) : s.out.Nodup := by
  have hnodup : (free ++ s.out.map (· - 16)).Nodup := h.layout.apart.imp Apart.ne
  exact List.Nodup.of_map _ hnodup.of_append_right

theorem null (h : Inv c s free) (bs : List UInt8) :
    Inv c { s with content := Function.update s.content 0 bs } free :=
  { h with
    words := h.words.congr fun p hp => by
      have := h.out_gt hp
      exact Function.update_of_ne (by omega) _ _ }

/-- A block that is no other's goes to a user. -/
theorem give {a : Allocator} {m : Mem} {segments out : List ℤ} {content : ℤ → List UInt8} {p b : ℤ} (hb : p - 16 = b)
    (hl : Layout c segments a.curSegPos a.curSegUse (b :: (free ++ out.map (· - 16))))
    (hw : Words c m a.recycleLibrary free out content) (ht : Tagged c m b 1)
    (hcount : a.blockCountUse = out.length + 1) (hout : out.length < c.blockCountMax)
    (hseg : segments.length * c.blockNumPs < c.blockCountMax + c.blockNumPs) :
    Inv c ⟨a, m, segments, p :: out, Function.update content p (load m p c.size)⟩ free := by
  subst hb
  constructor
  · exact hl.perm List.perm_middle.symm
  · refine hw.take ht (fun hp => ?_) rfl
    exact (hl.head (List.mem_append_right free (List.mem_map_of_mem hp))).ne rfl
  · exact hcount
  · exact hout
  · exact hseg

/-- The block given back last is given out again. -/
theorem reuse (h : Inv c s free) (hr : s.alloc.recycleLibrary ≠ 0) (hmax : s.alloc.blockCountUse < c.blockCountMax) :
    Tagged c s.mem (s.alloc.recycleLibrary - 8) 0 ∧ 24 < s.alloc.recycleLibrary + 8 ∧ ∃ free', Inv c
      { alloc := { s.alloc with
          blockCountUse := s.alloc.blockCountUse + 1
          recycleLibrary := loadPtr s.mem s.alloc.recycleLibrary }
        mem := (storeInt (s.alloc.recycleLibrary - 4) 1).apply s.mem
        segments := s.segments
        out := (s.alloc.recycleLibrary + 8) :: s.out
        content := Function.update s.content (s.alloc.recycleLibrary + 8)
          (load ((storeInt (s.alloc.recycleLibrary - 4) 1).apply s.mem) (s.alloc.recycleLibrary + 8) c.size) } free' := by
  have hchain := h.words.chain
  have hcount := h.count
  cases free with
  | nil => exact absurd hchain hr
  | cons b bs =>
    obtain ⟨hb, -⟩ := hchain
    have hlayout := h.layout
    have htag := h.words.free_tagged b List.mem_cons_self
    have hsize := blockSize_pos c
    have hgt := hlayout.bounds List.mem_cons_self
    rw [hb, show b + 8 - 8 = b by ring, show b + 8 - 4 = b + 4 by ring]
    refine ⟨htag, by omega, bs, give (by ring) hlayout ?_ (htag.mark 1) ?_ (by omega) h.bound_segments⟩
    · refine h.words.pop.frame _ fun b' hb' => Same.of_stores [storeInt (b + 4) 1] (hlayout.head hb') ?_
      intro w hw
      rw [List.mem_singleton.mp hw, storeInt_addr, storeInt_length]
      omega
    · change s.alloc.blockCountUse + 1 = _
      rw [hcount]

theorem carve (h : Inv c s free) (hpos : s.alloc.curSegPos ≠ 0)
    (huse : s.alloc.curSegUse < c.blockNumPs) (hmax : s.alloc.blockCountUse < c.blockCountMax) :
    s.alloc.curSegPos + 16 ≠ 0 ∧ ∃ free', Inv c
      { alloc := (MemAllocator.carve c s.alloc s.mem).1
        mem := (MemAllocator.carve c s.alloc s.mem).2.1
        segments := s.segments
        out := (s.alloc.curSegPos + 16) :: s.out
        content := Function.update s.content (s.alloc.curSegPos + 16)
          (load (MemAllocator.carve c s.alloc s.mem).2.1 (s.alloc.curSegPos + 16) c.size) } free' := by
  have hcount := h.count
  have hlayout := h.layout.carve hpos huse
  have hsize := blockSize_pos c
  have hgt := hlayout.bounds List.mem_cons_self
  refine ⟨by omega, free,
    give (by ring) hlayout ?_ (tagged_carve s.mem s.alloc.curSegPos) ?_ (by omega) h.bound_segments⟩
  · refine h.words.frame _ fun b hb => Same.of_stores _ (hlayout.head hb) fun w hw => ?_
    have hhead : headTag.length = 4 := int4_length _
    have htail : tailTag.length = 4 := int4_length _
    simp only [List.mem_cons, List.not_mem_nil, or_false] at hw
    rcases hw with rfl | rfl | rfl
    · dsimp only
      omega
    · dsimp only
      omega
    · rw [storeInt_addr, storeInt_length]
      omega
  · change s.alloc.blockCountUse + 1 = _
    rw [hcount]

theorem newSegment (h : Inv c s free) (hneed : NeedsSegment c s.alloc) {memBuf : ℤ} (hm : Fresh c s memBuf) :
    Inv c { s with
      alloc := { s.alloc with segmentLibrary := memBuf, curSegPos := memBuf + 8, curSegUse := 0 }
      mem := (storePtr memBuf s.alloc.segmentLibrary).apply s.mem
      segments := memBuf :: s.segments } free := by
  rcases hneed with ⟨hmax, hr, hfull⟩
  rcases hm with ⟨h₀, h₁, h₂⟩
  have hchain := h.words.chain
  have hcount := h.count
  have hsize := blockSize_pos c
  have hnum := c.num_pos
  constructor
  · exact h.layout.newSegment hfull h₀ h₁ h₂
  · refine h.words.frame _ fun b hb => Same.of_disjoint [storePtr memBuf s.alloc.segmentLibrary] ?_
    intro w hw
    rcases h.layout.inside b hb with ⟨g, hg, h₃, h₄⟩
    have hlen : (storePtr memBuf s.alloc.segmentLibrary).bytes.length = 8 := word8_length _
    rw [List.mem_singleton.mp hw, hlen]
    change memBuf + 8 ≤ b ∨ b + c.blockSize ≤ memBuf
    rcases h₂ g hg with h₅ | h₅
    · right
      omega
    · left
      omega
  · exact h.count
  · exact h.bound
  · have hlen := h.layout.length_of_full hfull
    cases free with
    | nil =>
      rw [List.nil_append, List.length_map] at hlen
      change (memBuf :: s.segments).length * _ < _
      rw [List.length_cons, add_mul, ← hlen]
      omega
    | cons b bs =>
      have := h.layout.bounds List.mem_cons_self
      have := hchain.1
      omega

/-- The place where the next block given back is linked. -/
theorem recycle_range (h : Inv c s free) :
    0 ≤ s.alloc.recycleLibrary ∧ s.alloc.recycleLibrary < 18446744073709551616 := by
  have hchain := h.words.chain
  have hsize := blockSize_pos c
  cases free with
  | nil =>
    rw [show s.alloc.recycleLibrary = 0 from hchain]
    decide
  | cons b bs =>
    have := h.layout.bounds List.mem_cons_self
    have := hchain.1
    omega

theorem perm_out {p : ℤ} (hp : p ∈ s.out) :
    (free ++ s.out.map (· - 16)).Perm ((p - 16) :: (free ++ (s.out.erase p).map (· - 16))) :=
  (((List.perm_cons_erase hp).map (· - 16)).append_left free).trans List.perm_middle

theorem put (h : Inv c s free) {p : ℤ} (hp : p ∈ s.out) :
    Tagged c s.mem (p - 16) 1 ∧ ∃ free', Inv c
      { s with
        alloc := { s.alloc with blockCountUse := s.alloc.blockCountUse - 1, recycleLibrary := p - 8 }
        mem := applyAll [storeInt (p - 12) 0, storePtr (p - 8) s.alloc.recycleLibrary] s.mem
        out := s.out.erase p } free' := by
  have hcount := h.count
  have hbound := h.bound
  have hlen := List.length_erase_of_mem hp
  have hpos := List.length_pos_of_mem hp
  have hlayout := h.layout.perm (perm_out hp)
  have htag := h.words.out_tagged p hp
  have hsize := blockSize_pos c
  have hptr : (storePtr (p - 8) s.alloc.recycleLibrary).bytes.length = 8 := word8_length _
  have hrange := h.recycle_range
  refine ⟨htag, (p - 16) :: free, hlayout, ?_, ?_, ?_, h.bound_segments⟩
  · have hothers := ((h.words.perm (List.perm_cons_erase hp).symm).tail).frame
      (applyAll [storeInt (p - 12) 0, storePtr (p - 8) s.alloc.recycleLibrary] s.mem) fun b hb =>
        Same.of_stores _ (hlayout.head hb) fun w hw => by
          simp only [List.mem_cons, List.not_mem_nil, or_false] at hw
          rcases hw with rfl | rfl
          · rw [storeInt_addr, storeInt_length]
            omega
          · rw [hptr]
            change p - 16 ≤ p - 8 ∧ p - 8 + (8 : ℕ) ≤ _
            omega
    have hlink := hothers.push (b := p - 16) ?_ ?_
    · rwa [show p - 16 + 8 = p - 8 by ring] at hlink
    · have hmark := htag.mark 0
      rw [show p - 16 + 4 = p - 12 by ring] at hmark
      refine hmark.store (w := storePtr (p - 8) s.alloc.recycleLibrary) ?_ ?_
      · change p - 16 + 8 ≤ p - 8
        omega
      · rw [hptr]
        change p - 8 + (8 : ℕ) ≤ _
        omega
    · rw [show p - 16 + 8 = p - 8 by ring]
      exact loadPtr_storePtr _ _ hrange.1 hrange.2
  · change s.alloc.blockCountUse - 1 = _
    rw [hlen]
    omega
  · change (s.out.erase p).length ≤ _
    omega

theorem write (h : Inv c s free) {p : ℤ} (hp : p ∈ s.out) {i : ℕ} {bs : List UInt8} (hi : i + bs.length ≤ c.size) :
    Inv c (s.write p i bs) free := by
  have hlayout := h.layout.perm (perm_out hp)
  have hsize : c.blockSize = c.size + 20 := rfl
  constructor
  · exact h.layout
  · have hothers := ((h.words.perm (List.perm_cons_erase hp).symm).tail).frame
      (applyAll [⟨p + i, bs⟩] s.mem) fun b hb =>
        Same.of_stores _ (hlayout.head hb) fun w hw => by
          rw [List.mem_singleton.mp hw]
          dsimp only
          omega
    refine (hothers.take ?_ h.nodup.not_mem_erase ?_).perm (List.perm_cons_erase hp)
    · exact (h.words.out_tagged p hp).store (by dsimp only; omega) (by dsimp only; omega)
    · rw [← h.words.content p hp]
      exact load_store_inside s.mem p hi
  · exact h.count
  · exact h.bound
  · exact h.bound_segments

/-- The three ways to a block. -/
theorem get (h : Inv c s free) {memBuf : ℤ} (hm : NeedsSegment c s.alloc → memBuf ≠ 0 → Fresh c s memBuf) :
    ∃ a m p, getMem c memBuf s.alloc s.mem = some (a, m, p) ∧
      (∃ free', Inv c
        { alloc := a
          mem := m
          segments := if NeedsSegment c s.alloc ∧ memBuf ≠ 0 then memBuf :: s.segments else s.segments
          out := if p = 0 then s.out else p :: s.out
          content := Function.update s.content p (load m p c.size) } free') ∧
      (s.out.length < c.blockCountMax → memBuf ≠ 0 → p ≠ 0) := by
  have hcount := h.count
  unfold getMem
  by_cases hmax : (c.blockCountMax : ℤ) ≤ s.alloc.blockCountUse
  · have hneed : ¬ NeedsSegment c s.alloc := fun hneed => absurd hneed.1 (by omega)
    rw [if_pos hmax]
    refine ⟨_, _, _, rfl, ⟨free, ?_⟩, fun hlt => by omega⟩
    rw [if_neg fun hn => hneed hn.1, if_pos rfl]
    exact h.null _
  rw [if_neg hmax]
  rw [not_le] at hmax
  by_cases hr : s.alloc.recycleLibrary ≠ 0
  · have hneed : ¬ NeedsSegment c s.alloc := fun hneed => hr hneed.2.1
    rcases h.reuse hr hmax with ⟨htag, hp, hinv⟩
    rw [if_pos hr, if_pos htag]
    refine ⟨_, _, _, rfl, ?_, fun _ _ => by omega⟩
    rwa [if_neg fun hn => hneed hn.1, if_neg (by omega)]
  rw [if_neg hr]
  rw [not_not] at hr
  by_cases hneed : NeedsSegment c s.alloc
  · rw [if_pos hneed]
    by_cases h₀ : memBuf = 0
    · rw [if_pos h₀]
      refine ⟨_, _, _, rfl, ⟨free, ?_⟩, fun _ hn => absurd h₀ hn⟩
      rw [if_neg fun hn => hn.2 h₀, if_pos rfl]
      exact h.null _
    · have hfresh := hm hneed h₀
      have hpos : memBuf + 8 ≠ 0 := by
        have := hfresh.1
        omega
      rcases (h.newSegment hneed hfresh).carve hpos c.num_pos hmax with ⟨hp, hinv⟩
      rw [if_neg h₀]
      refine ⟨_, _, _, rfl, ?_, fun _ _ => hp⟩
      rw [if_pos ⟨hneed, h₀⟩]
      change ∃ free', Inv c
        { alloc := _, mem := _, segments := _, out := if memBuf + 8 + 16 = 0 then s.out else _, content := _ } free'
      rw [if_neg hp]
      exact hinv
  · have hseg : s.alloc.curSegPos ≠ 0 ∧ s.alloc.curSegUse < c.blockNumPs := by
      by_contra hn
      refine hneed ⟨hmax, hr, ?_⟩
      omega
    rcases h.carve hseg.1 hseg.2 hmax with ⟨hp, hinv⟩
    rw [if_neg hneed]
    refine ⟨_, _, _, rfl, ?_, fun _ _ => hp⟩
    rw [if_neg fun hn => hneed hn.1]
    rw [if_neg hp]
    exact hinv

theorem step (h : Inv c s free) {e : Event} {s' : State} {o : Observed}
    (hs : MemAllocator.step c s e = some (s', o)) : o ≠ .aborted ∧ ∃ free', Inv c s' free' := by
  cases e with
  | get memBuf =>
    have hm : ¬ (NeedsSegment c s.alloc ∧ memBuf ≠ 0 ∧ ¬ Fresh c s memBuf) := by
      intro hm
      rw [MemAllocator.step, if_pos hm] at hs
      cases hs
    have hfresh : NeedsSegment c s.alloc → memBuf ≠ 0 → Fresh c s memBuf := by
      intro h₁ h₂
      by_contra h₃
      exact hm ⟨h₁, h₂, h₃⟩
    rcases h.get hfresh with ⟨a, m, p, hget, hinv, -⟩
    rw [MemAllocator.step, if_neg hm, hget] at hs
    cases hs
    exact ⟨nofun, hinv⟩
  | put memory =>
    rw [MemAllocator.step] at hs
    split_ifs at hs with hmem
    rcases h.put hmem with ⟨htag, hinv⟩
    rw [putMem, if_pos htag] at hs
    cases hs
    exact ⟨nofun, hinv⟩
  | write memory i bs =>
    rw [MemAllocator.step] at hs
    split_ifs at hs with hmem
    cases hs
    exact ⟨nofun, free, h.write hmem.1 hmem.2⟩

end Inv

theorem step_get {s s' : State} {memBuf : ℤ} {o : Observed} (hs : step c s (.get memBuf) = some (s', o))
    (ho : o ≠ .aborted) : ∃ p, o = .got p ∧ s'.out = if p = 0 then s.out else p :: s.out := by
  by_cases hm : NeedsSegment c s.alloc ∧ memBuf ≠ 0 ∧ ¬ Fresh c s memBuf
  · rw [step, if_pos hm] at hs
    cases hs
  rw [step, if_neg hm] at hs
  split at hs
  next =>
    cases hs
    exact absurd rfl ho
  next a m p hget =>
    cases hs
    exact ⟨p, rfl, rfl⟩

theorem step_put {s s' : State} {memory : ℤ} {o : Observed} (hs : step c s (.put memory) = some (s', o))
    (ho : o ≠ .aborted) : s'.out = s.out.erase memory := by
  rw [step] at hs
  split_ifs at hs
  split at hs
  next =>
    cases hs
    exact absurd rfl ho
  next =>
    cases hs
    rfl

theorem step_get_content {s s' : State} {memBuf q p : ℤ} (hs : step c s (.get memBuf) = some (s', .got q))
    (hp : p ≠ q) :
    s'.content p = s.content p := by
  by_cases hm : NeedsSegment c s.alloc ∧ memBuf ≠ 0 ∧ ¬ Fresh c s memBuf
  · rw [step, if_pos hm] at hs
    cases hs
  rw [step, if_neg hm] at hs
  split at hs
  next => cases hs
  next a m q' hget =>
    cases hs
    exact Function.update_of_ne hp _ _

theorem step_put_content {s s' : State} {memory : ℤ} {o : Observed} (hs : step c s (.put memory) = some (s', o)) :
    s'.content = s.content := by
  rw [step] at hs
  split_ifs at hs
  split at hs
  next =>
    cases hs
    rfl
  next =>
    cases hs
    rfl

/-- A block that its user did not write holds the same bytes. -/
theorem Inv.load_eq {s s' : State} {free free' : List ℤ} (h : Inv c s free) (h' : Inv c s' free') {p : ℤ}
    (hp : p ∈ s.out) (hp' : p ∈ s'.out) (hcontent : s'.content p = s.content p) :
    load s'.mem p c.size = load s.mem p c.size := by
  rw [h'.words.content p hp', hcontent, h.words.content p hp]

theorem Inv.load_get {s s' : State} {free : List ℤ} (h : Inv c s free) {memBuf q p : ℤ}
    (hs : MemAllocator.step c s (.get memBuf) = some (s', .got q)) (hp : p ∈ s.out) :
    load s'.mem p c.size = load s.mem p c.size := by
  rcases h.step hs with ⟨hne, free', h'⟩
  rcases step_get hs hne with ⟨_, ⟨⟩, hout⟩
  have hpos := h.out_gt hp
  have hnodup := h'.nodup
  split_ifs at hout with hq <;> rw [hout] at hnodup
  · exact h.load_eq h' hp (hout ▸ hp) (step_get_content hs (by omega))
  · have hpq : p ≠ q := by
      rintro rfl
      exact (List.nodup_cons.mp hnodup).1 hp
    exact h.load_eq h' hp (hout ▸ List.mem_cons_of_mem q hp) (step_get_content hs hpq)

theorem Inv.load_put {s s' : State} {free : List ℤ} (h : Inv c s free) {memory p : ℤ} {o : Observed}
    (hs : MemAllocator.step c s (.put memory) = some (s', o)) (hp : p ∈ s.out) (hp' : p ∈ s'.out) :
    load s'.mem p c.size = load s.mem p c.size := by
  rcases h.step hs with ⟨-, free', h'⟩
  exact h.load_eq h' hp hp' (congrFun (step_put_content hs) p)

theorem Inv.put_some {s : State} {free : List ℤ} (h : Inv c s free) {p : ℤ} (hp : p ∈ s.out) :
    MemAllocator.step c s (.put p) ≠ none := by
  rcases h.put hp with ⟨htag, -⟩
  rw [MemAllocator.step, if_pos hp, putMem, if_pos htag]
  exact Option.some_ne_none _

/-- A get returns also where `new` finds no memory. -/
theorem get_some (s : State) : step c s (.get 0) ≠ none := by
  rw [step, if_neg fun hc => hc.2.1 rfl]
  split <;> exact Option.some_ne_none _

/-- What users can rely on. -/
structure Kept (c : Config) (os : List Observed) (s : State) : Prop where
  not_aborted : Observed.aborted ∉ os
  disjoint : s.out.Pairwise fun p q : ℤ => p + c.size ≤ q ∨ q + c.size ≤ p
  inside : ∀ p ∈ s.out, ∃ g ∈ s.segments, g ≤ p ∧ p + c.size ≤ g + c.segmentSize
  content : ∀ p ∈ s.out, load s.mem p c.size = s.content p
  count : s.alloc.blockCountUse = s.out.length
  bound : s.out.length ≤ c.blockCountMax
  bound_segments : s.segments.length * c.blockNumPs < c.blockCountMax + c.blockNumPs
  served : ∀ memBuf, s.out.length < c.blockCountMax → Fresh c s memBuf →
    ∃ s' p, step c s (.get memBuf) = some (s', .got p) ∧ p ≠ 0

theorem Inv.kept {s : State} {free : List ℤ} (h : Inv c s free) {os : List Observed} (hos : Observed.aborted ∉ os) :
    Kept c os s := by
  have hsize : c.blockSize = c.size + 20 := rfl
  constructor
  · exact hos
  · refine (List.pairwise_map.mp (List.pairwise_append.mp h.layout.apart).2.1).imp fun hpq => ?_
    rcases hpq with hpq | hpq
    · left
      omega
    · right
      omega
  · intro p hp
    rcases h.layout.inside _ (List.mem_append_right free (List.mem_map_of_mem hp)) with ⟨g, hg, h₁, h₂⟩
    exact ⟨g, hg, by omega, by omega⟩
  · exact h.words.content
  · exact h.count
  · exact h.bound
  · exact h.bound_segments
  · intro memBuf hlt hfresh
    have h₀ : memBuf ≠ 0 := by
      have := hfresh.1
      omega
    rcases h.get fun _ _ => hfresh with ⟨a, m, p, hget, -, hp⟩
    have hstep : ∃ s', MemAllocator.step c s (.get memBuf) = some (s', .got p) := by
      rw [MemAllocator.step, if_neg fun hn => hn.2.2 hfresh, hget]
      exact ⟨_, rfl⟩
    exact hstep.imp fun s' hs' => ⟨p, hs', hp hlt h₀⟩

/-- No assertion fails, no two users share a byte, each block holds what its user wrote,
and there are no more segments than the limit on the blocks needs, however the calls and
the users' writes come and wherever `new` puts the segments. -/
theorem blocks_kept (c : Config) (m : Mem) (es : List Event) : Always (step c) (Kept c) (State.init m) es := by
  refine always_of_invariant (I := fun os s => Observed.aborted ∉ os ∧ ∃ free, Inv c s free) (K := fun _ => True)
    ?_ ?_ (fun _ _ => trivial) ⟨List.not_mem_nil, [], Inv.init m⟩
  · rintro os s ⟨hos, free, h⟩
    exact h.kept hos
  · rintro os s e s' o ⟨hos, free, h⟩ - hs
    rcases h.step hs with ⟨ho, hinv⟩
    refine ⟨?_, hinv⟩
    rw [List.mem_append, List.mem_singleton]
    rintro (hmem | rfl)
    · exact hos hmem
    · exact ho rfl

end PrimaryElection.Util.MemAllocator
