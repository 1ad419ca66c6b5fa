import InodeFs.Rounds
import InodeFs.Shares

/-!
# `write_file` on its share

While other calls allocate and free, the blocks that `alloc_block` provides are any that the bitmap
marks free, in no order.  `cur p` is pointer `p` of the file that is being written, as far as it is
set: the pointers `live` name the blocks that the call owns.
-/

namespace InodeFs

open BlockLayer InodeLayer Prog Disk

/-! ## The blocks that the call owns -/

/-- The share `U` of file `i` is its block of the table and the blocks `cur p` for `p` in `live`. -/
structure Names (i : Nat) (cur : Nat → Nat) (live U : Finset Nat) : Prop where
  mem : ∀ r, r ∈ U ↔ r = tableBlock i ∨ ∃ p ∈ live, cur p = r
  lt : ∀ p ∈ live, p < 137
  region : ∀ p ∈ live, 123 ≤ cur p ∧ cur p < 32768
  distinct : ∀ p ∈ live, ∀ q ∈ live, cur p = cur q → p = q

namespace Names

variable {i p id : Nat} {cur : Nat → Nat} {live U : Finset Nat} (h : Names i cur live U)

include h

theorem table_mem : tableBlock i ∈ U := (h.mem _).mpr (.inl rfl)

theorem cur_mem (hp : p ∈ live) : cur p ∈ U := (h.mem _).mpr (.inr ⟨p, hp, rfl⟩)

-- There is room for one more block while a pointer is not set.
theorem room (hi : i < 1024) (hp : p < 137) (hnew : p ∉ live) : (dataRows U).card < 137 := by
  have hsub : dataRows U ⊆ live.image cur := by
    intro r hr
    obtain ⟨hmem, hlow⟩ := Finset.mem_filter.mp hr
    have hb := tableBlock_bounds hi
    rcases (h.mem r).mp hmem with rfl | ⟨q, hq, rfl⟩
    · omega
    · exact Finset.mem_image_of_mem cur hq
  have hlive : live ⊆ (Finset.range 137).erase p := by
    intro q hq
    refine Finset.mem_erase.mpr ⟨?_, Finset.mem_range.mpr (h.lt q hq)⟩
    rintro rfl
    exact hnew hq
  have hle := (Finset.card_le_card hsub).trans Finset.card_image_le
  have hcard := Finset.card_le_card hlive
  rw [Finset.card_erase_of_mem (Finset.mem_range.mpr hp), Finset.card_range] at hcard
  omega

-- A block that the call is given, as pointer `p`.
theorem insert (hp : p < 137) (hnew : p ∉ live) (hlow : 123 ≤ id) (hlt : id < 32768)
    (hid : id ∉ U) : Names i (Function.update cur p id) (insert p live) (insert id U) := by
  have hcur : ∀ q ∈ live, Function.update cur p id q = cur q := by
    intro q hq
    refine Function.update_of_ne ?_ _ _
    rintro rfl
    exact hnew hq
  have hself : Function.update cur p id p = id := Function.update_self ..
  have hne : ∀ q ∈ live, cur q ≠ id := by
    rintro q hq rfl
    exact hid (h.cur_mem hq)
  constructor
  · intro r
    rw [Finset.mem_insert, h.mem]
    constructor
    · rintro (rfl | rfl | ⟨q, hq, rfl⟩)
      · exact .inr ⟨p, Finset.mem_insert_self .., hself⟩
      · exact .inl rfl
      · exact .inr ⟨q, Finset.mem_insert_of_mem hq, hcur q hq⟩
    · rintro (rfl | ⟨q, hq, rfl⟩)
      · exact .inr (.inl rfl)
      · rcases Finset.mem_insert.mp hq with rfl | hq
        · exact .inl hself
        · exact .inr (.inr ⟨q, hq, (hcur q hq).symm⟩)
  · intro q hq
    rcases Finset.mem_insert.mp hq with rfl | hq
    · exact hp
    · exact h.lt q hq
  · intro q hq
    rcases Finset.mem_insert.mp hq with rfl | hq
    · rw [hself]
      exact ⟨hlow, hlt⟩
    · rw [hcur q hq]
      exact h.region q hq
  · intro q hq q' hq' he
    rcases Finset.mem_insert.mp hq with rfl | hmem <;>
      rcases Finset.mem_insert.mp hq' with rfl | hmem'
    · rfl
    · rw [hself, hcur q' hmem'] at he
      exact absurd he.symm (hne q' hmem')
    · rw [hself, hcur q hmem] at he
      exact absurd he (hne q hmem)
    · rw [hcur q hmem, hcur q' hmem'] at he
      exact h.distinct q hmem q' hmem' he

-- A block that the call gives up.
theorem erase (hi : i < 1024) (hp : p ∈ live) : Names i cur (live.erase p) (U.erase (cur p)) := by
  have hb := tableBlock_bounds hi
  have hreg := h.region p hp
  constructor
  · intro r
    rw [Finset.mem_erase, h.mem]
    constructor
    · rintro ⟨hne, rfl | ⟨q, hq, rfl⟩⟩
      · exact .inl rfl
      · refine .inr ⟨q, Finset.mem_erase.mpr ⟨?_, hq⟩, rfl⟩
        rintro rfl
        exact hne rfl
    · rintro (rfl | ⟨q, hq, rfl⟩)
      · exact ⟨by omega, .inl rfl⟩
      · obtain ⟨hne, hq⟩ := Finset.mem_erase.mp hq
        exact ⟨fun he => hne (h.distinct q hq p hp he), .inr ⟨q, hq, rfl⟩⟩
  · exact fun q hq => h.lt q (Finset.mem_of_mem_erase hq)
  · exact fun q hq => h.region q (Finset.mem_of_mem_erase hq)
  · intro q hq q' hq'
    exact h.distinct q (Finset.mem_of_mem_erase hq) q' (Finset.mem_of_mem_erase hq')

end Names

/-! ## What they hold -/

/-- The first `k` chunks of `s` bytes from `buf` are written.  The old indirect block of record
`ino` stays as it was on disk `d`, and so do the blocks that its entries name. -/
structure Drafts (d : Disk) (ino : Inode) (i : Nat) (buf : Mem) (s k : Nat) (cur : Nat → Nat)
    (live U : Finset Nat) (e : Disk) : Prop extends Names i cur live U where
  table : e.row (tableBlock i) = d.row (tableBlock i)
  kept : ∀ p, Kept ino p → p ∈ live ∧ cur p = d.ptrOf ino p
  indirect : 8 < chunks ino.size.toNat → e.row (ino.block 8).toNat = d.row (ino.block 8).toNat
  chunk : ∀ c < k, chunkPtr c ∈ live
  data : ∀ c < k, ∀ j < 512, 512 * c + j < s →
    (e.row (cur (chunkPtr c))).byte j = buf (512 * c + j)

namespace Drafts

variable {d e : Disk} {ino : Inode} {i s k p id : Nat} {buf : Mem} {cur : Nat → Nat}
variable {live U : Finset Nat} {b : Block}

theorem kept_eight (hn : 8 < chunks ino.size.toNat) : Kept ino 8 := ⟨le_rfl, hn, hn.le⟩

theorem cur_eight (h : Drafts d ino i buf s k cur live U e) (hn : 8 < chunks ino.size.toNat) :
    8 ∈ live ∧ cur 8 = (ino.block 8).toNat := by
  obtain ⟨hlive, hcur⟩ := h.kept 8 (kept_eight hn)
  rw [ptrOf_direct le_rfl] at hcur
  exact ⟨hlive, hcur⟩

-- One more block, whatever it holds.
theorem alloc (h : Drafts d ino i buf s k cur live U e) (hp : p < 137) (hnew : p ∉ live)
    (hlow : 123 ≤ id) (hlt : id < 32768) (hid : id ∉ U) :
    Drafts d ino i buf s k (Function.update cur p id) (insert p live) (insert id U)
      (e.setRow id b) := by
  have hcur : ∀ q ∈ live, Function.update cur p id q = cur q := by
    intro q hq
    refine Function.update_of_ne ?_ _ _
    rintro rfl
    exact hnew hq
  have hrow : ∀ r ∈ U, (e.setRow id b).row r = e.row r := by
    intro r hr
    refine row_setRow_ne e b ?_
    rintro rfl
    exact hid hr
  refine ⟨h.insert hp hnew hlow hlt hid, ?_, fun q hq => ?_, fun hn => ?_, fun c hc => ?_,
    fun c hc => ?_⟩
  · rw [hrow _ h.table_mem]
    exact h.table
  · obtain ⟨hlive, heq⟩ := h.kept q hq
    exact ⟨Finset.mem_insert_of_mem hlive, (hcur q hlive).trans heq⟩
  · obtain ⟨hlive, heq⟩ := h.cur_eight hn
    rw [hrow _ (heq ▸ h.cur_mem hlive)]
    exact h.indirect hn
  · exact Finset.mem_insert_of_mem (h.chunk c hc)
  · rw [hcur _ (h.chunk c hc), hrow _ (h.cur_mem (h.chunk c hc))]
    exact h.data c hc

-- The next chunk, in the block of its pointer.
theorem write (h : Drafts d ino i buf s k cur live U e) (hi : i < 1024) (hp : chunkPtr k ∈ live)
    (hb : ∀ j < 512, 512 * k + j < s → b.byte j = buf (512 * k + j)) :
    Drafts d ino i buf s (k + 1) cur live U (e.setRow (cur (chunkPtr k)) b) := by
  have hbounds := tableBlock_bounds hi
  have hreg := h.region _ hp
  have hrow : ∀ q ∈ live, q ≠ chunkPtr k →
      (e.setRow (cur (chunkPtr k)) b).row (cur q) = e.row (cur q) := fun q hq hne =>
    row_setRow_ne e b fun he => hne (h.distinct q hq _ hp he)
  refine ⟨h.toNames, ?_, h.kept, fun hn => ?_, fun c hc => ?_, fun c hc j hj hjs => ?_⟩
  · rw [row_setRow_ne _ _ (by omega)]
    exact h.table
  · obtain ⟨hlive, heq⟩ := h.cur_eight hn
    rw [← heq, hrow 8 hlive (Ne.symm (chunkPtr_ne_eight k)), heq]
    exact h.indirect hn
  · rcases Nat.lt_succ_iff_lt_or_eq.mp hc with hlt | rfl
    · exact h.chunk c hlt
    · exact hp
  · rcases Nat.lt_succ_iff_lt_or_eq.mp hc with hlt | rfl
    · have hne : chunkPtr c ≠ chunkPtr k := fun he => by
        have := chunkPtr_inj he
        omega
      rw [hrow _ (h.chunk c hlt) hne]
      exact h.data c hlt j hj hjs
    · rw [row_setRow_self _ _ _ hreg.2]
      exact hb j hj hjs

end Drafts

theorem le_ptrCount (k : Nat) : k ≤ ptrCount k := by
  unfold ptrCount
  split <;> omega

theorem ptrCount_mono {j k : Nat} (h : j ≤ k) : ptrCount j ≤ ptrCount k := by
  unfold ptrCount
  split <;> split <;> omega

/-- The pointers that name a block while the loop has set those of `k` chunks. -/
def AliveAt (ino : Inode) (k : Nat) (live : Finset Nat) : Prop :=
  ∀ p, p ∈ live ↔ p < 137 ∧ (p < ptrCount k ∨ Kept ino p)

-- The pointers of some more chunks.
theorem AliveAt.grow {ino : Inode} {j j' : Nat} {live live' : Finset Nat} (h : AliveAt ino j live)
    (hle : ptrCount j ≤ ptrCount j') (hold : ∀ p ∈ live, p ∈ live')
    (hnew : ∀ p ∈ live', p ∈ live ∨ (p < 137 ∧ p < ptrCount j'))
    (hall : ∀ p < 137, ptrCount j ≤ p → p < ptrCount j' → p ∈ live') : AliveAt ino j' live' := by
  intro p
  constructor
  · intro hp
    rcases hnew p hp with hp | ⟨hlt, hp⟩
    · obtain ⟨hlt, hp | hk⟩ := (h p).mp hp
      · exact ⟨hlt, .inl (by omega)⟩
      · exact ⟨hlt, .inr hk⟩
    · exact ⟨hlt, .inl hp⟩
  · rintro ⟨hlt, hp | hk⟩
    · by_cases hj : p < ptrCount j
      · exact hold p ((h p).mpr ⟨hlt, .inl hj⟩)
      · exact hall p hlt (by omega) hp
    · exact hold p ((h p).mpr ⟨hlt, .inr hk⟩)

/-- The variables of the loop then. -/
structure Rewriting (ino : Inode) (k : Nat) (cur : Nat → Nat) (w : WriteState) : Prop where
  need : w.needToOverwriteIndirect = decide (8 < k)
  already : w.alreadyAllocatedIndirect = decide (chunks ino.size.toNat ≤ 8 ∧ 8 < k)
  indirectIndex : w.indirectIndex = k - 8
  record : ∃ blocks, w.ino = { ino with blocks := blocks }
  slots : ∀ p < 9, w.ino.block p = if p < ptrCount k then UInt32.ofNat (cur p) else ino.block p
  entries : ∀ j < k - 8, w.finalIndirectBlock.word j = UInt32.ofNat (cur (9 + j))

namespace Rewriting

variable {ino : Inode} {k : Nat} {cur : Nat → Nat} {w : WriteState} {final : Block}

-- From the first chunk behind the indirect block on, every slot is set.
theorem block_eq (h : Rewriting ino k cur w) (h8 : 8 ≤ k)
    (hblock : w.ino.block 8 = UInt32.ofNat (cur 8)) {p : Nat} (hp : p < 9) :
    w.ino.block p = UInt32.ofNat (cur p) := by
  rcases Nat.lt_succ_iff_lt_or_eq.mp hp with hlt | rfl
  · have hcount := le_ptrCount k
    rw [h.slots p hp, if_pos (by omega)]
  · exact hblock

theorem succ (h8 : 8 ≤ k)
    (halready : w.alreadyAllocatedIndirect = decide (chunks ino.size.toNat ≤ 8 ∧ 8 < k + 1))
    (hind : w.indirectIndex = k - 8) (hrecord : ∃ blocks, w.ino = { ino with blocks := blocks })
    (hslots : ∀ p < 9, w.ino.block p = UInt32.ofNat (cur p))
    (hentries : ∀ j < k + 1 - 8, final.word j = UInt32.ofNat (cur (9 + j))) :
    Rewriting ino (k + 1) cur { w with
      needToOverwriteIndirect := true
      finalIndirectBlock := final
      indirectIndex := w.indirectIndex + 1 } := by
  refine ⟨?_, halready, ?_, hrecord, fun p hp => ?_, hentries⟩
  · rw [eq_comm, decide_eq_true_eq]
    omega
  · change w.indirectIndex + 1 = _
    omega
  · have hcount := ptrCount_of_lt (show 8 < k + 1 by omega)
    rw [if_pos (by omega)]
    exact hslots p hp

end Rewriting

/-- The loop has set the pointers of `k` chunks. -/
def Rewritten (d : Disk) (ino : Inode) (i : Nat) (buf : Mem) (s k : Nat) (w : WriteState)
    (x : Heap Nat Block × Bool) : Prop :=
  ∃ cur live U e, x = (e.share U, false) ∧ Drafts d ino i buf s k cur live U e ∧
    AliveAt ino k live ∧ Rewriting ino k cur w

/-! ## The sections of the loop -/

section Sections

variable {d₀ d e : Disk} {I : Finset Nat} {h : Shared d₀ I} {k : UInt32} {f : Option File}
variable {ino : Inode} {i s : Nat} {buf : Mem} {cur : Nat → Nat} {live U : Finset Nat}
variable {w : WriteState} {pooled : Bool}

-- `alloc_block`, for pointer `p`.
theorem sharing_allocFor {p : Nat} {Q : UInt32 → Heap Nat Block × Bool → Prop} {j : Nat}
    (hk : k.toNat ∈ I) (hi : i < 1024) (hd : Drafts d ino i buf s j cur live U e) (hp : p < 137)
    (hnew : p ∉ live)
    (hQ : ∀ id e' U', id < 32768 →
      Drafts d ino i buf s j (Function.update cur p id) (insert p live) U' e' →
      Q (UInt32.ofNat id) (e'.share U', false)) :
    Follows (sharing h k f) allocBlock Q (e.share U, false) :=
  sharing_allocBlock hk (hd.room hi hp hnew) fun id _ hlow hlt hid =>
    hQ id _ _ hlt (hd.alloc hp hnew hlow hlt hid)

theorem sharing_chunkBuffer {Q : Block → Heap Nat Block × Bool → Prop}
    (hrem : w.remainingBytesToWrite = (s - 512 * w.index : Nat))
    (hQ : ∀ b : Block, (∀ j < 512, 512 * w.index + j < s → b.byte j = buf (512 * w.index + j)) →
      Q b (e.share U, pooled)) :
    Follows (sharing h k f) (chunkBuffer buf w) Q (e.share U, pooled) := by
  refine Follows.bind (sharing_freshBlock fun b => hQ _ fun j hj hjs => ?_)
  rw [Block.byte_copyFrom _ _ _ _ hj, if_pos (by rw [hrem]; simp only [blockSize]; omega)]
  simp only [blockSize, Nat.mul_comm]

-- The store of a chunk in the block of its pointer.
theorem sharing_writeChunk {b : Block} {id : UInt32} {j : Nat}
    {Q : Unit → Heap Nat Block × Bool → Prop} (hi : i < 1024)
    (hd : Drafts d ino i buf s j cur live U e) (hp : chunkPtr j ∈ live)
    (hid : id.toNat = cur (chunkPtr j))
    (hb : ∀ r < 512, 512 * j + r < s → b.byte r = buf (512 * j + r))
    (hQ : ∀ e', Drafts d ino i buf s (j + 1) cur live U e' → Q () (e'.share U, pooled)) :
    Follows (sharing h k f) (writeBlock .writeFile id b) Q (e.share U, pooled) := by
  have hlt := (hd.region _ hp).2
  refine sharing_writeDisk (by omega) (hid ▸ hd.cur_mem hp) ?_
  rw [hid]
  exact hQ _ (hd.write hi hp hb)

theorem sharing_writeDirect {x : Heap Nat Block × Bool} (hk : k.toNat ∈ I) (hi : i < 1024)
    (hx : Rewritten d ino i buf s w.index w x)
    (hrem : w.remainingBytesToWrite = (s - 512 * w.index : Nat)) (h8 : w.index < 8) :
    Follows (sharing h k f) (writeDirect buf w)
      (fun w' y => Rewritten d ino i buf s (w.index + 1) w' y ∧ SameCounters w w') x := by
  obtain ⟨cur, live, U, e, rfl, hd, halive, hrec⟩ := hx
  have hptr : chunkPtr w.index = w.index := if_pos h8
  have hcount : ptrCount w.index = w.index := ptrCount_of_le h8.le
  have hcount' : ptrCount (w.index + 1) = w.index + 1 := ptrCount_of_le h8
  have hnew : w.index ∉ live := by
    rw [halive, hcount]
    rintro ⟨-, hlt | hkept⟩
    · omega
    · have := hkept.1
      omega
  refine Follows.bind (sharing_chunkBuffer hrem fun b hb => ?_)
  refine Follows.bind (sharing_allocFor hk hi hd (by omega) hnew fun id e' U' hid hd' => ?_)
  simp only [storeSlot, if_pos (show w.index < 9 by omega), pure_eq, ret_bind]
  refine Follows.bind (sharing_writeChunk hi hd' ?_ ?_ hb fun e'' hd'' => ?_)
  · rw [hptr]
    exact Finset.mem_insert_self ..
  · rw [hptr, Function.update_self, toNat_ofNat (by omega)]
  · refine ⟨⟨_, _, _, _, rfl, hd'', ?_, ?_⟩, rfl, rfl, rfl⟩
    · refine halive.grow (by omega) (fun p => Finset.mem_insert_of_mem) (fun p hp => ?_)
        fun p _ hlow hlt => ?_
      · refine (Finset.mem_insert.mp hp).symm.imp_right fun hp => ?_
        omega
      · rw [show p = w.index by omega]
        exact Finset.mem_insert_self ..
    · refine ⟨?_, ?_, ?_, ?_, fun p hp => ?_, fun j hj => by omega⟩
      · rw [hrec.need, decide_eq_decide]
        omega
      · rw [hrec.already, decide_eq_decide]
        omega
      · rw [hrec.indirectIndex]
        omega
      · obtain ⟨blocks, hblocks⟩ := hrec.record
        rw [hblocks]
        exact ⟨_, rfl⟩
      · rw [Inode.block_setBlock, hrec.slots p hp, hcount, hcount']
        by_cases hpk : p = w.index
        · rw [if_pos ⟨hpk, hp⟩, if_pos (by omega), hpk, Function.update_self]
        · rw [if_neg fun hc => hpk hc.1, Function.update_of_ne hpk]
          by_cases hlt : p < w.index
          · rw [if_pos hlt, if_pos (by omega)]
          · rw [if_neg hlt, if_neg (by omega)]

-- The chunk behind a new entry.
theorem sharing_writeAllocated {Q : WriteState → Heap Nat Block × Bool → Prop} {n : Nat}
    (hk : k.toNat ∈ I) (hi : i < 1024) (hd : Drafts d ino i buf s n cur live U e)
    (hn : w.index = n) (hrem : w.remainingBytesToWrite = (s - 512 * n : Nat)) (h8 : 8 ≤ n)
    (hlt : n < 136) (hind : w.indirectIndex = n - 8) (hnew : n + 1 ∉ live)
    (hQ : ∀ id U' e', Drafts d ino i buf s (n + 1) (Function.update cur (n + 1) id)
      (insert (n + 1) live) U' e' →
      Q { w with
        finalIndirectBlock := w.finalIndirectBlock.setWord w.indirectIndex (UInt32.ofNat id) }
        (e'.share U', false)) :
    Follows (sharing h k f) (writeAllocated buf w) Q (e.share U, false) := by
  subst hn
  have hptr : chunkPtr w.index = w.index + 1 := if_neg (by omega)
  refine Follows.bind (sharing_chunkBuffer hrem fun b hb => ?_)
  refine Follows.bind (sharing_allocFor hk hi hd (by omega) hnew fun id e' U' hid hd' => ?_)
  refine Follows.bind (sharing_writeChunk hi hd' ?_ ?_ hb fun e'' hd'' => ?_)
  · rw [hptr]
    exact Finset.mem_insert_self ..
  · rw [hptr, Function.update_self, toNat_ofNat (by omega)]
  · simp only [storeEntry, if_pos (show w.indirectIndex < 128 by omega), pure_eq, ret_bind]
    exact hQ id _ _ hd''

-- The entries of the new indirect block, with one more.
theorem entries_setWord {j id : Nat} {final : Block} (h8 : 8 ≤ j) (hj : j < 136)
    (hfinal : ∀ n < j - 8, final.word n = UInt32.ofNat (cur (9 + n))) :
    ∀ n < j + 1 - 8, (final.setWord (j - 8) (UInt32.ofNat id)).word n =
      UInt32.ofNat (Function.update cur (j + 1) id (9 + n)) := by
  intro n hn
  by_cases hnj : n = j - 8
  · rw [hnj, Block.word_setWord_self _ _ _ (by omega), show 9 + (j - 8) = j + 1 by omega,
      Function.update_self]
  · rw [Block.word_setWord_ne _ _ _ _ (by omega) hnj, Function.update_of_ne (by omega),
      hfinal n (by omega)]

-- The chunk behind an entry of the old indirect block.
theorem sharing_writeReused {Q : WriteState → Heap Nat Block × Bool → Prop} {n : Nat}
    (hi : i < 1024) (hd : Drafts d ino i buf s n cur live U e) (hn : w.index = n)
    (hrem : w.remainingBytesToWrite = (s - 512 * n : Nat)) (h8 : 8 ≤ n) (hlt : n < 136)
    (hkept : Kept ino (n + 1)) (hind : w.indirectIndex = n - 8)
    (hblock : w.ino.block 8 = ino.block 8)
    (hQ : ∀ e', Drafts d ino i buf s (n + 1) cur live U e' →
      Q { w with
        finalIndirectBlock := w.finalIndirectBlock.setWord w.indirectIndex
          (UInt32.ofNat (cur (n + 1))) } (e'.share U, false)) :
    Follows (sharing h k f) (writeReused buf w) Q (e.share U, false) := by
  subst hn
  have hn := hkept.2.1
  have hptr : chunkPtr w.index = w.index + 1 := if_neg (by omega)
  obtain ⟨h8live, h8cur⟩ := hd.cur_eight hn
  have h8reg := hd.region 8 h8live
  obtain ⟨hlive, hcur⟩ := hd.kept _ hkept
  have hentry : (e.row (ino.block 8).toNat).word w.indirectIndex =
      UInt32.ofNat (cur (w.index + 1)) := by
    rw [hd.indirect hn, hcur, ptrOf_entry (by omega), UInt32.ofNat_toNat, hind]
    rfl
  refine Follows.bind (sharing_freshBlock fun _ => Follows.bind ?_)
  rw [hblock]
  refine sharing_readDisk (by omega) (h8cur ▸ hd.cur_mem h8live) ?_
  refine Follows.bind (sharing_chunkBuffer hrem fun b hb => ?_)
  refine Follows.bind (sharing_entry (by omega) ?_)
  rw [hentry]
  have hreg := hd.region _ hlive
  refine Follows.bind (sharing_writeChunk hi hd ?_ ?_ hb fun e' hd' => ?_)
  · rw [hptr]
    exact hlive
  · rw [hptr, toNat_ofNat (by omega)]
  · simp only [storeEntry, if_pos (show w.indirectIndex < 128 by omega), pure_eq, ret_bind]
    exact hQ _ hd'

-- One more entry, with a block allocated for it, when `blocks[8]` is set.
theorem sharing_newEntry (hk : k.toNat ∈ I) (hi : i < 1024)
    (hd : Drafts d ino i buf s w.index cur live U e) (halive : AliveAt ino w.index live)
    (hrec : Rewriting ino w.index cur w)
    (hrem : w.remainingBytesToWrite = (s - 512 * w.index : Nat)) (h8 : 8 ≤ w.index)
    (h136 : w.index < 136) (hnew : w.index + 1 ∉ live) (h8live : 8 ∈ live)
    (hblock : w.ino.block 8 = UInt32.ofNat (cur 8))
    (halready : w.alreadyAllocatedIndirect =
      decide (chunks ino.size.toNat ≤ 8 ∧ 8 < w.index + 1)) :
    Follows (sharing h k f) (writeAllocated buf { w with needToOverwriteIndirect := true } >>=
        fun w => ret { w with indirectIndex := w.indirectIndex + 1 })
      (fun w' y => Rewritten d ino i buf s (w.index + 1) w' y ∧ SameCounters w w')
      (e.share U, false) := by
  have hind := hrec.indirectIndex
  have hcount : ptrCount (w.index + 1) = w.index + 2 := ptrCount_of_lt (by omega)
  have hcount' : w.index ≤ ptrCount w.index := le_ptrCount _
  refine Follows.bind ?_
  refine sharing_writeAllocated hk hi hd rfl hrem h8 h136 hind hnew fun id U' e' hd' => ?_
  refine ⟨⟨_, _, _, _, rfl, hd', ?_, ?_⟩, rfl, rfl, rfl⟩
  · refine halive.grow (ptrCount_mono (Nat.le_succ _)) (fun p => Finset.mem_insert_of_mem)
      (fun p hp => ?_) fun p _ hlow hlt => ?_
    · rcases Finset.mem_insert.mp hp with hp | hp
      · omega
      · exact .inl hp
    · rw [Finset.mem_insert]
      rcases Nat.eq_or_lt_of_le (show 8 ≤ p by omega) with rfl | hgt
      · exact .inr h8live
      · refine .inl ?_
        unfold ptrCount at hlow
        split at hlow <;> omega
  · refine Rewriting.succ h8 halready hind hrec.record (fun p hp => ?_) ?_
    · rw [Function.update_of_ne (by omega)]
      exact hrec.block_eq h8 hblock hp
    · change ∀ j < w.index + 1 - 8, (w.finalIndirectBlock.setWord w.indirectIndex _).word j = _
      rw [hind]
      exact entries_setWord h8 h136 hrec.entries

-- One more entry, with the block that the old indirect block names.
theorem sharing_oldEntry (hi : i < 1024) (hd : Drafts d ino i buf s w.index cur live U e)
    (halive : AliveAt ino w.index live) (hrec : Rewriting ino w.index cur w)
    (hrem : w.remainingBytesToWrite = (s - 512 * w.index : Nat)) (h8 : 8 ≤ w.index)
    (h136 : w.index < 136) (hkept : Kept ino (w.index + 1)) (h8live : 8 ∈ live)
    (h8cur : cur 8 = (ino.block 8).toNat)
    (halready : w.alreadyAllocatedIndirect =
      decide (chunks ino.size.toNat ≤ 8 ∧ 8 < w.index + 1)) :
    Follows (sharing h k f) (writeReused buf { w with needToOverwriteIndirect := true } >>=
        fun w => ret { w with indirectIndex := w.indirectIndex + 1 })
      (fun w' y => Rewritten d ino i buf s (w.index + 1) w' y ∧ SameCounters w w')
      (e.share U, false) := by
  have hind := hrec.indirectIndex
  have hold : ino.block 8 = UInt32.ofNat (cur 8) := by rw [h8cur, UInt32.ofNat_toNat]
  have hblock : w.ino.block 8 = UInt32.ofNat (cur 8) := by
    rw [hrec.slots 8 (by omega), hold, ite_self]
  refine Follows.bind ?_
  refine sharing_writeReused hi hd rfl hrem h8 h136 hkept hind (hblock.trans hold.symm)
    fun e' hd' => ?_
  have hp := (hd.kept _ hkept).1
  refine ⟨⟨_, _, _, _, rfl, hd', ?_, ?_⟩, rfl, rfl, rfl⟩
  · refine halive.grow ?_ (fun p hp => hp) (fun p => .inl) fun p _ hlow hlt => ?_
    · exact ptrCount_mono (Nat.le_succ _)
    · rcases Nat.lt_or_ge p (w.index + 1) with hlt' | hge
      · have hcount : w.index ≤ ptrCount w.index := le_ptrCount _
        rwa [show p = 8 by unfold ptrCount at hlow; split at hlow <;> omega]
      · have hcount := ptrCount_of_lt (show 8 < w.index + 1 by omega)
        rwa [show p = w.index + 1 by omega]
  · refine Rewriting.succ h8 halready hind hrec.record (fun p => hrec.block_eq h8 hblock) ?_
    change ∀ j < w.index + 1 - 8, (w.finalIndirectBlock.setWord w.indirectIndex _).word j = _
    rw [hind]
    intro j hj
    rw [entries_setWord h8 h136 hrec.entries j hj, Function.update_eq_self]

-- The first entry, in a file that had no indirect block: that block is allocated before the chunk's.
theorem sharing_firstEntry (hk : k.toNat ∈ I) (hi : i < 1024)
    (hd : Drafts d ino i buf s w.index cur live U e) (halive : AliveAt ino w.index live)
    (hrec : Rewriting ino w.index cur w)
    (hrem : w.remainingBytesToWrite = (s - 512 * w.index : Nat)) (heq : w.index = 8)
    (hlive : ∀ p, p ∈ live ↔ p < 137 ∧ p < ptrCount w.index)
    (halready : true = decide (chunks ino.size.toNat ≤ 8 ∧ 8 < w.index + 1)) :
    Follows (sharing h k f) (allocIndirect { w with needToOverwriteIndirect := true } >>= fun w =>
        writeAllocated buf w >>= fun w => ret { w with indirectIndex := w.indirectIndex + 1 })
      (fun w' y => Rewritten d ino i buf s (w.index + 1) w' y ∧ SameCounters w w')
      (e.share U, false) := by
  have hind := hrec.indirectIndex
  have hcount8 : ptrCount w.index = 8 := by rw [heq, ptrCount_of_le le_rfl]
  have hcount : ptrCount (w.index + 1) = w.index + 2 := ptrCount_of_lt (by omega)
  have hfalse : w.alreadyAllocatedIndirect = false := by
    rw [hrec.already, decide_eq_false_iff_not]
    omega
  have hnew8 : 8 ∉ live := by
    rw [hlive]
    omega
  rw [allocIndirect, if_pos hfalse]
  refine Follows.bind (Follows.bind (Follows.bind ?_))
  refine sharing_allocFor hk hi hd (by omega) hnew8 fun id e' U' hid hd' => ?_
  rw [pure_eq, Follows.ret_iff]
  refine Follows.bind ?_
  have h8 : 8 ≤ w.index := heq.ge
  have h136 : w.index < 136 := by omega
  refine sharing_writeAllocated hk hi hd' rfl hrem h8 h136 hind ?_ fun id' U'' e'' hd'' => ?_
  · rw [Finset.mem_insert, hlive]
    omega
  · refine ⟨⟨_, _, _, _, rfl, hd'', ?_, ?_⟩, rfl, rfl, rfl⟩
    · refine halive.grow (by omega) (fun p hp => ?_) (fun p hp => ?_) fun p _ hlow hlt => ?_
      · exact Finset.mem_insert_of_mem (Finset.mem_insert_of_mem hp)
      · rw [Finset.mem_insert, Finset.mem_insert] at hp
        rcases hp with hp | hp | hp
        · omega
        · omega
        · exact .inl hp
      · rw [Finset.mem_insert, Finset.mem_insert]
        omega
    · refine Rewriting.succ (w := { w with
        ino := w.ino.setBlock 8 (UInt32.ofNat id)
        alreadyAllocatedIndirect := true }) h8 halready hind ?_ (fun p hp => ?_) ?_
      · obtain ⟨blocks, hblocks⟩ := hrec.record
        change ∃ _, w.ino.setBlock 8 _ = _
        rw [hblocks]
        exact ⟨_, rfl⟩
      · change (w.ino.setBlock 8 _).block p = _
        rw [Inode.block_setBlock, Function.update_of_ne (by omega)]
        by_cases hp8 : p = 8
        · rw [if_pos ⟨hp8, hp⟩, hp8, Function.update_self]
        · rw [if_neg fun hc => hp8 hc.1, Function.update_of_ne hp8, hrec.slots p hp,
            if_pos (by omega)]
      · change ∀ j < w.index + 1 - 8, (w.finalIndirectBlock.setWord w.indirectIndex _).word j = _
        rw [hind]
        exact entries_setWord h8 h136 fun j hj => by omega

-- A chunk of the indirect part, where the file had no indirect block.
theorem sharing_writeIndirect_new {x : Heap Nat Block × Bool} (hk : k.toNat ∈ I) (hi : i < 1024)
    (hx : Rewritten d ino i buf s w.index w x)
    (hrem : w.remainingBytesToWrite = (s - 512 * w.index : Nat)) (h8 : 8 ≤ w.index)
    (h136 : w.index < 136) (hs : 512 * w.index < s) (hold : chunks ino.size.toNat ≤ 8) :
    Follows (sharing h k f) (writeIndirect buf s ino.size.toNat w)
      (fun w' y => Rewritten d ino i buf s (w.index + 1) w' y ∧ SameCounters w w') x := by
  obtain ⟨cur, live, U, e, rfl, hd, halive, hrec⟩ := hx
  have hsize : ino.size.toNat ≤ 4096 := by simpa only using chunks_le_iff.mp hold
  have halready : true = decide (chunks ino.size.toNat ≤ 8 ∧ 8 < w.index + 1) := by
    rw [eq_comm, decide_eq_true_eq]
    omega
  -- no pointer is there from before, so the live ones are those that the loop has set
  have hlive : ∀ p, p ∈ live ↔ p < 137 ∧ p < ptrCount w.index := by
    intro p
    rw [halive p, or_iff_left fun hc => absurd hc.2.1 (by omega)]
  simp only [writeIndirect, pure_eq]
  rw [if_pos (by omega), if_pos (by simp only [blockSize]; omega)]
  rcases Nat.eq_or_lt_of_le h8 with heq | hgt
  · exact sharing_firstEntry hk hi hd halive hrec hrem heq.symm hlive halready
  · have htrue : ¬ w.alreadyAllocatedIndirect = false := by
      rw [hrec.already, Bool.not_eq_false, decide_eq_true_eq]
      omega
    have hcount : ptrCount w.index = w.index + 1 := ptrCount_of_lt hgt
    rw [allocIndirect, if_neg htrue]
    refine Follows.bind (Follows.bind ?_)
    rw [← Follows.bind_iff]
    refine sharing_newEntry hk hi hd halive hrec hrem h8 h136 ?_ ?_ ?_ ?_
    · rw [hlive]
      omega
    · rw [hlive]
      omega
    · rw [hrec.slots 8 (by omega), if_pos (by omega)]
    · rw [hrec.already, decide_eq_decide]
      omega

-- A chunk of the indirect part, where the file had an indirect block, which stays.
theorem sharing_writeIndirect_kept {x : Heap Nat Block × Bool} (hk : k.toNat ∈ I) (hi : i < 1024)
    (hx : Rewritten d ino i buf s w.index w x)
    (hrem : w.remainingBytesToWrite = (s - 512 * w.index : Nat)) (h8 : 8 ≤ w.index)
    (h136 : w.index < 136) (hs : w.index < chunks s) (hn : 8 < chunks ino.size.toNat)
    (hnum : w.numBytesAlreadyWritten < (ino.size.toNat : Int) ↔ Kept ino (w.index + 1)) :
    Follows (sharing h k f) (writeIndirect buf s ino.size.toNat w)
      (fun w' y => Rewritten d ino i buf s (w.index + 1) w' y ∧ SameCounters w w') x := by
  obtain ⟨cur, live, U, e, rfl, hd, halive, hrec⟩ := hx
  have hsize : 4096 < ino.size.toNat := by
    have := lt_chunks_iff.mp hn
    omega
  obtain ⟨h8live, h8cur⟩ := hd.cur_eight hn
  have hold : ino.block 8 = UInt32.ofNat (cur 8) := by rw [h8cur, UInt32.ofNat_toNat]
  have hblock : w.ino.block 8 = UInt32.ofNat (cur 8) := by
    rw [hrec.slots 8 (by omega), hold, ite_self]
  have halready : w.alreadyAllocatedIndirect =
      decide (chunks ino.size.toNat ≤ 8 ∧ 8 < w.index + 1) := by
    rw [hrec.already, decide_eq_decide]
    omega
  simp only [writeIndirect, pure_eq]
  by_cases hle : ino.size.toNat ≤ s
  · rw [if_pos (by omega), if_neg (by simp only [blockSize]; omega)]
    by_cases hkept : Kept ino (w.index + 1)
    · rw [if_neg (by have := hnum.mpr hkept; omega)]
      exact sharing_oldEntry hi hd halive hrec hrem h8 h136 hkept h8live h8cur halready
    · rw [if_pos (by have := mt hnum.mp hkept; omega)]
      refine sharing_newEntry hk hi hd halive hrec hrem h8 h136 ?_ h8live hblock halready
      have hge : chunks ino.size.toNat ≤ w.index := by
        unfold Kept at hkept
        omega
      rw [halive, ptrCount_of_lt (by omega)]
      rintro ⟨-, hlt | hc⟩
      · omega
      · exact hkept hc
  · have hcs : chunks s ≤ chunks ino.size.toNat := by unfold chunks; omega
    have hkept : Kept ino (w.index + 1) := ⟨by omega, hn, by omega⟩
    rw [if_neg (by omega)]
    exact sharing_oldEntry hi hd halive hrec hrem h8 h136 hkept h8live h8cur halready

theorem sharing_writeIndirect {x : Heap Nat Block × Bool} (hk : k.toNat ∈ I) (hi : i < 1024)
    (hx : Rewritten d ino i buf s w.index w x)
    (hrem : w.remainingBytesToWrite = (s - 512 * w.index : Nat)) (h8 : 8 ≤ w.index)
    (h136 : w.index < 136) (hs : w.index < chunks s)
    (hnum : 8 < chunks ino.size.toNat →
      (w.numBytesAlreadyWritten < (ino.size.toNat : Int) ↔ Kept ino (w.index + 1))) :
    Follows (sharing h k f) (writeIndirect buf s ino.size.toNat w)
      (fun w' y => Rewritten d ino i buf s (w.index + 1) w' y ∧ SameCounters w w') x := by
  rcases Nat.lt_or_ge 8 (chunks ino.size.toNat) with hn | hold
  · exact sharing_writeIndirect_kept hk hi hx hrem h8 h136 hs hn (hnum hn)
  · exact sharing_writeIndirect_new hk hi hx hrem h8 h136 (lt_chunks_iff.mp hs) hold

/-! ## The loop -/

theorem Rewritten.endRound {w' : WriteState} {x : Heap Nat Block × Bool} {n : Nat}
    (h : Rewritten d ino i buf s n w' x) : Rewritten d ino i buf s n (endRound w') x := by
  obtain ⟨cur, live, U, e, hx, hd, halive, hneed, halready, hind, hrecord, hslots, hentries⟩ := h
  exact ⟨cur, live, U, e, hx, hd, halive, hneed, halready, hind, hrecord, hslots, hentries⟩

theorem sharing_writeStep {x : Heap Nat Block × Bool} (hk : k.toNat ∈ I) (hi : i < 1024)
    (hover : Overwrites ino.size.toNat s) (hc : Counted s w) (hpos : w.remainingBytesToWrite > 0)
    (hx : Rewritten d ino i buf s w.index w x) :
    Follows (sharing h k f) (writeStep buf s ino.size.toNat w)
      (fun w' y => (Counted s w' ∧ Rewritten d ino i buf s w'.index w' y) ∧
        w'.index = w.index + 1) x := by
  have hrem := hc.remaining
  have hn : w.index < chunks s := lt_chunks_iff.mpr (by omega)
  have h136 := hover.sizeOk.chunks_le
  have hnext : ∀ w' y, Rewritten d ino i buf s (w.index + 1) w' y ∧ SameCounters w w' →
      (Counted s (endRound w') ∧ Rewritten d ino i buf s (endRound w').index (endRound w') y) ∧
        (endRound w').index = w.index + 1 := by
    rintro w' y ⟨hw', hsame⟩
    have hindex : (endRound w').index = w.index + 1 := congrArg (· + 1) hsame.index
    exact ⟨⟨hc.next hsame hn, hindex ▸ hw'.endRound⟩, hindex⟩
  rw [writeStep]
  by_cases h8 : w.index < 8
  · rw [if_pos ((hc.direct_iff hover.sizeOk hn).mpr h8)]
    exact Follows.bind ((sharing_writeDirect hk hi hx hrem h8).mono hnext)
  · rw [if_neg (mt (hc.direct_iff hover.sizeOk hn).mp h8)]
    refine Follows.bind (Follows.mono ?_ hnext)
    exact sharing_writeIndirect hk hi hx hrem (by omega) (by omega) hn
      fun hold => hc.num_lt_iff hn (by omega) hover.grow hold

theorem sharing_writeWhile {x : Heap Nat Block × Bool} {w₀ : WriteState} (hk : k.toNat ∈ I)
    (hi : i < 1024) (hover : Overwrites ino.size.toNat s) (hc : Counted s w₀) (h₀ : w₀.index = 0)
    (hx : Rewritten d ino i buf s 0 w₀ x) :
    Follows (sharing h k f) (whileLoop (fun w => decide (w.remainingBytesToWrite > 0))
      (writeStep buf s ino.size.toNat) s w₀) (Rewritten d ino i buf s (chunks s)) x := by
  refine Follows.whileLoop_done
    (I := fun w y => Counted s w ∧ Rewritten d ino i buf s w.index w y)
    (fun w => w.remainingBytesToWrite.toNat) ⟨hc, h₀ ▸ hx⟩ ?_ ?_ ?_ ?_
  · rw [hc.remaining, h₀]
    simp only [Int.toNat_natCast, Nat.mul_zero, Nat.sub_zero, le_refl]
  · intro w hpos
    rw [decide_eq_true_eq] at hpos
    omega
  · rintro w y ⟨hw, hy⟩ hpos
    rw [decide_eq_true_eq] at hpos
    refine (sharing_writeStep hk hi hover hw hpos hy).mono fun w' z hw' => ⟨hw'.1, ?_⟩
    have hrem := hw.remaining
    rw [hw'.1.1.remaining, hw'.2]
    omega
  · rintro w y ⟨hw, hy⟩ hdone
    rw [decide_eq_false_iff_not] at hdone
    exact hw.index_eq hdone ▸ hy

/-! ## Up to the loop -/

theorem Stores.names {g : Option File} (hst : Stores d₀ i g d U) (hin : d.InUse i) :
    Names i (d.ptr i) (Finset.range (pointers (d.size i))) U := by
  have hlen := pointers_le (hst.sizeOk hin).chunks_le
  constructor
  · intro r
    simp only [hst.mem, Disk.Holds, hin, true_and, Finset.mem_range]
  · intro p hp
    rw [Finset.mem_range] at hp
    omega
  · exact fun p hp => hst.region hin p (Finset.mem_range.mp hp)
  · exact fun p hp q hq => hst.distinct hin p (Finset.mem_range.mp hp) q (Finset.mem_range.mp hq)

-- The direct blocks go back to the bitmap; a slot past the end of the file is 0.
theorem sharing_freeSlots {g : Option File} {Q : Unit → Heap Nat Block × Bool → Prop}
    (hst : Stores d₀ i g d U) (hin : d.InUse i)
    (hQ : ∀ live U', Names i (d.ptr i) live U' →
      (∀ p, p ∈ live ↔ p < pointers (d.size i) ∧ 8 ≤ p) → Q () (d.share U', false)) :
    Follows (sharing h k f) (forLoop (fun x => freeBlock ((d.inode i).block x)) 0 8) Q
      (d.share U, false) := by
  refine Follows.forLoop_done (I := fun j y => ∃ live U', y = (d.share U', false) ∧
    Names i (d.ptr i) live U' ∧ ∀ p, p ∈ live ↔ p < pointers (d.size i) ∧ j ≤ p) ?_ ?_ ?_
  · refine ⟨_, U, rfl, hst.names hin, fun p => ?_⟩
    rw [Finset.mem_range]
    omega
  · rintro j y - hj ⟨live, U', rfl, hnames, hlive⟩
    have hptr : d.ptr i j = ((d.inode i).block j).toNat := ptr_direct (by omega)
    by_cases hp : j < pointers (d.size i)
    · have hmem : j ∈ live := (hlive j).mpr ⟨hp, le_rfl⟩
      have hreg := hnames.region j hmem
      rw [hptr] at hreg
      refine sharing_freeBlock hreg.1 hreg.2 (hptr ▸ hnames.cur_mem hmem) ?_
      refine ⟨live.erase j, _, rfl, hptr ▸ hnames.erase hin.1 hmem, fun p => ?_⟩
      rw [Finset.mem_erase, hlive]
      omega
    · refine sharing_freeBlock_zero (hst.trim hin j (by omega) (Nat.not_lt.mp hp)) ?_
      refine ⟨live, U', rfl, hnames, fun p => ?_⟩
      rw [hlive]
      omega
  · rintro y ⟨live, U', rfl, hnames, hlive⟩
    exact hQ live U' hnames hlive

theorem sharing_writeLoop {g : Option File} (hk : k.toNat ∈ I) (hst : Stores d₀ i g d U)
    (hin : d.InUse i) (hover : Overwrites (d.size i) s) :
    Follows (sharing h k f) (writeLoop (d.inode i) buf s)
      (Rewritten d (d.inode i) i buf s (chunks s)) (d.share U, false) := by
  have hold := hst.sizeOk hin
  have hle : (d.inode i).size.toNat ≤ 69632 := hold.le
  have h136 : chunks (d.inode i).size.toNat ≤ 136 := hold.chunks_le
  refine Follows.bind (sharing_freeSlots hst hin fun live U' hnames hlive => ?_)
  refine Follows.bind (sharing_freshBlock fun final => ?_)
  rw [asInt_of_lt (by omega)]
  refine sharing_writeWhile hk hin.1 hover (Counted.start final) rfl ?_
  have hkept : ∀ p, p ∈ live ↔ Kept (d.inode i) p := by
    intro p
    rw [hlive]
    unfold Kept Disk.size pointers ptrCount
    split <;> omega
  refine ⟨_, live, U', d, rfl, ⟨hnames, rfl, fun p hp => ⟨(hkept p).mpr hp, rfl⟩, fun _ => rfl,
    fun c hc => absurd hc (Nat.not_lt_zero c), fun c hc => absurd hc (Nat.not_lt_zero c)⟩,
    fun p => ?_, ?_⟩
  · rw [hkept]
    constructor
    · exact fun hp => ⟨by have := hp.2.2; omega, .inr hp⟩
    · rintro ⟨-, hp | hp⟩
      · exact absurd hp (Nat.not_lt_zero p)
      · exact hp
  · refine ⟨?_, ?_, rfl, ⟨_, rfl⟩, fun p hp => ?_, fun j hj => absurd hj (by omega)⟩
    · exact (decide_eq_false (Nat.not_lt_zero 8)).symm
    · exact (decide_eq_false fun hc => Nat.not_lt_zero 8 hc.2).symm
    · rw [if_neg (show ¬ p < ptrCount 0 from Nat.not_lt_zero p)]
      rfl

/-! ## After the loop -/

/-- The disk and the record when `write_file` is about to store the record. -/
structure Finished (d : Disk) (ino : Inode) (i : Nat) (buf : Mem) (s : Nat) (cur : Nat → Nat)
    (U : Finset Nat) (e : Disk) (ino' : Inode) : Prop where
  names : Names i cur (Finset.range (pointers s)) U
  table : e.row (tableBlock i) = d.row (tableBlock i)
  data : ∀ c < chunks s, ∀ j < 512, 512 * c + j < s →
    (e.row (cur (chunkPtr c))).byte j = buf (512 * c + j)
  entries : ∀ p, 8 < p → p < pointers s → ((e.row (cur 8)).word (p - 9)).toNat = cur p
  record : ∃ blocks, ino' = { ino with blocks := blocks, size := UInt32.ofNat s }
  slots : ∀ p < 9, ino'.block p = if p < pointers s then UInt32.ofNat (cur p) else ino.block p

-- The loop that frees old indirect blocks, from pointer `q` on.
theorem sharing_shrinkLoop {b : Block} {m n q : Nat} {Q : Nat × Int → Heap Nat Block × Bool → Prop}
    (hi : i < 1024) (hnames : Names i cur live U) (hm : m + chunks n ≤ 128)
    (hentry : ∀ j < chunks n, q + j ∈ live ∧ (b.word (m + j)).toNat = cur (q + j))
    (hQ : ∀ v live' U', Names i cur live' U' →
      (∀ p, p ∈ live' ↔ p ∈ live ∧ ¬ (q ≤ p ∧ p < q + chunks n)) → Q v (e.share U', false)) :
    Follows (sharing h k f) (shrinkLoop b m n) Q (e.share U, false) := by
  refine Follows.whileLoop_done
    (I := fun v y => ∃ t ≤ chunks n, v = (m + t, (n : Int) - 512 * t) ∧ ∃ live' U',
      y = (e.share U', false) ∧ Names i cur live' U' ∧
      ∀ p, p ∈ live' ↔ p ∈ live ∧ ¬ (q ≤ p ∧ p < q + t))
    (fun v => v.2.toNat) ⟨0, Nat.zero_le _, ?_, live, U, rfl, hnames, fun p => ?_⟩ ?_ ?_ ?_ ?_
  · simp only [Nat.add_zero, Nat.cast_zero, mul_zero, sub_zero]
  · rw [Nat.add_zero, and_iff_left (by omega)]
  · exact le_rfl
  · intro v hpos
    rw [decide_eq_true_eq] at hpos
    omega
  · rintro v y ⟨t, ht, rfl, live', U', rfl, hnames', hlive⟩ hpos
    rw [decide_eq_true_eq] at hpos
    have htn : t < chunks n := lt_chunks_iff.mpr (by omega)
    obtain ⟨hmem, hword⟩ := hentry t htn
    have hmem' : q + t ∈ live' := (hlive _).mpr ⟨hmem, by omega⟩
    have hreg := hnames'.region _ hmem'
    rw [← hword] at hreg
    refine Follows.bind (sharing_entry (by omega) (Follows.bind ?_))
    refine sharing_freeBlock hreg.1 hreg.2 (hword ▸ hnames'.cur_mem hmem') ?_
    refine ⟨⟨t + 1, htn, ?_, live'.erase (q + t), _, rfl, hword ▸ hnames'.erase hi hmem',
      fun p => ?_⟩, ?_⟩
    · simp only [Prod.mk.injEq, blockSize]
      omega
    · rw [Finset.mem_erase, hlive]
      constructor
      · rintro ⟨hne, hp, hout⟩
        exact ⟨hp, by omega⟩
      · rintro ⟨hp, hout⟩
        exact ⟨by omega, hp, by omega⟩
    · simp only [blockSize]
      omega
  · rintro v y ⟨t, ht, rfl, live', U', rfl, hnames', hlive⟩ hdone
    rw [decide_eq_false_iff_not] at hdone
    have htn : t = chunks n := le_antisymm ht (chunks_le_iff.mpr (by omega))
    exact hQ _ live' U' hnames' (htn ▸ hlive)

-- The last store of a file with an indirect block, when its surplus blocks have been freed.
theorem sharing_storeIndirect {V : Finset Nat} {Q : Inode → Heap Nat Block × Bool → Prop}
    (hi : i < 1024) (hn : 8 < chunks s)
    (hd : Drafts d ino i buf s (chunks s) cur live U e) (hrec : Rewriting ino (chunks s) cur w)
    (hnames : Names i cur (Finset.range (pointers s)) V)
    (hQ : ∀ e' ino', Finished d ino i buf s cur V e' ino' → Q ino' (e'.share V, false)) :
    Follows (sharing h k f) (writeBlock .writeFile (w.ino.block 8) w.finalIndirectBlock >>= fun _ =>
      ret (w.ino.setSize (UInt32.ofNat s))) Q (e.share V, false) := by
  have hpc : pointers s = chunks s + 1 := pointers_eq_of_lt hn
  have h8 : 8 ∈ Finset.range (pointers s) := Finset.mem_range.mpr (by omega)
  have hreg := hnames.region 8 h8
  have hb := tableBlock_bounds hi
  have hid : (w.ino.block 8).toNat = cur 8 := by
    have hcount := le_ptrCount (chunks s)
    rw [hrec.slots 8 (by omega), if_pos (by omega), toNat_ofNat (by omega)]
  refine Follows.bind (sharing_writeDisk (by omega) (hid ▸ hnames.cur_mem h8) ?_)
  rw [hid]
  refine hQ _ _ ⟨hnames, ?_, fun c hc j hj hjs => ?_, fun p hp8 hp => ?_, ?_, fun p hp => ?_⟩
  · rw [row_setRow_ne _ _ (by omega)]
    exact hd.table
  · have hmem : chunkPtr c ∈ Finset.range (pointers s) := Finset.mem_range.mpr (chunkPtr_lt hc)
    have hne : cur (chunkPtr c) ≠ cur 8 := fun he =>
      chunkPtr_ne_eight c (hnames.distinct _ hmem 8 h8 he)
    rw [row_setRow_ne _ _ hne]
    exact hd.data c hc j hj hjs
  · have hlt := (hnames.region p (Finset.mem_range.mpr hp)).2
    rw [row_setRow_self _ _ _ hreg.2, hrec.entries _ (by omega), show 9 + (p - 9) = p by omega,
      toNat_ofNat (by omega)]
  · obtain ⟨blocks, hblocks⟩ := hrec.record
    rw [hblocks]
    exact ⟨_, rfl⟩
  · exact hrec.slots p hp

-- Whether the shrink loop is entered.
theorem Rewriting.shrinks_iff (hrec : Rewriting ino (chunks s) cur w) (hold : SizeOk ino.size.toNat) :
    Shrinks ino s w ↔ 8 < chunks s ∧ s < ino.size.toNat := by
  have hsize : asInt ino.size = ino.size.toNat := asInt_of_lt (by have := hold.le; omega)
  rw [Shrinks, hrec.need, hsize, Bool.and_eq_true, decide_eq_true_eq, decide_eq_true_eq,
    Int.ofNat_lt]

section End
variable {Q : Inode → Heap Nat Block × Bool → Prop}
variable (hd : Drafts d ino i buf s (chunks s) cur live U e)
variable (halive : AliveAt ino (chunks s) live) (hrec : Rewriting ino (chunks s) cur w)
variable (hQ : ∀ cur U e ino', Finished d ino i buf s cur U e ino' → Q ino' (e.share U, false))

include hd halive hrec hQ

-- The shrink loop frees the entries past the end of the new file.
theorem sharing_writeEnd_shrinks (hi : i < 1024) (hold : SizeOk ino.size.toNat)
    (hover : Overwrites ino.size.toNat s) (hn : 8 < chunks s) (hlt : s < ino.size.toNat) :
    Follows (sharing h k f) (writeEnd ino s w) Q (e.share U, false) := by
  have hs : 4096 < s := lt_chunks_iff.mp hn
  have hle := pointers_le hover.sizeOk.chunks_le
  have hsize : asInt ino.size = ino.size.toNat := asInt_of_lt (by have := hold.le; omega)
  have hpc : pointers s = chunks s + 1 := pointers_eq_of_lt hn
  have hcount : ptrCount (chunks s) = chunks s + 1 := hpc
  have hneed : w.needToOverwriteIndirect = true := by
    rw [hrec.need, decide_eq_true_eq]
    exact hn
  have hs8 : ¬ (s : Int) ≤ 8 * blockSize := by
    simp only [blockSize]
    omega
  have hshrink := hover.shrink hs hlt
  have h136 := hold.chunks_le
  have hn' : 8 < chunks ino.size.toNat := by omega
  obtain ⟨h8live, h8cur⟩ := hd.cur_eight hn'
  have h8reg := hd.region 8 h8live
  have hind : w.indirectIndex = chunks s - 8 := hrec.indirectIndex
  have hblock : w.ino.block 8 = ino.block 8 := by
    rw [hrec.slots 8 (by omega), if_pos (by omega), h8cur, UInt32.ofNat_toNat]
  have hsub : (ino.size.toNat : Int) - s = (ino.size.toNat - s : Nat) := by omega
  rw [writeEnd, if_pos ((hrec.shrinks_iff hold).mpr ⟨hn, hlt⟩), hsize, hsub]
  refine Follows.bind (Follows.bind (sharing_freshBlock fun _ => ?_))
  rw [hblock]
  refine sharing_readDisk (by omega) (h8cur ▸ hd.cur_mem h8live) (Follows.bind ?_)
  rw [hd.indirect hn', hind]
  refine sharing_shrinkLoop (q := chunks s + 1) hi hd.toNames (by omega) (fun j hj => ?_)
    fun v live' V hnames hlive' => ?_
  · have hkept : Kept ino (chunks s + 1 + j) := ⟨by omega, hn', by omega⟩
    obtain ⟨hmem, hcur⟩ := hd.kept _ hkept
    rw [hcur, ptrOf_entry (by omega), show chunks s + 1 + j - 9 = chunks s - 8 + j by omega]
    exact ⟨hmem, rfl⟩
  · rw [if_pos hneed, if_neg hs8, ← hblock]
    obtain rfl : live' = Finset.range (pointers s) := by
      ext p
      rw [hlive', halive, Finset.mem_range]
      unfold Kept
      omega
    exact sharing_storeIndirect hi hn hd hrec hnames fun e' ino' => hQ _ _ _ _

-- The file has an indirect block, and nothing to free.
theorem sharing_writeEnd_indirect (hi : i < 1024) (hold : SizeOk ino.size.toNat) (hsize : SizeOk s)
    (hn : 8 < chunks s) (hle : ino.size.toNat ≤ s) :
    Follows (sharing h k f) (writeEnd ino s w) Q (e.share U, false) := by
  have hs : 4096 < s := lt_chunks_iff.mp hn
  have hmax := pointers_le hsize.chunks_le
  have hpc : pointers s = chunks s + 1 := pointers_eq_of_lt hn
  have hcount : ptrCount (chunks s) = chunks s + 1 := hpc
  have hneed : w.needToOverwriteIndirect = true := by
    rw [hrec.need, decide_eq_true_eq]
    exact hn
  have hs8 : ¬ (s : Int) ≤ 8 * blockSize := by
    simp only [blockSize]
    omega
  have hno : ¬ Shrinks ino s w := fun hs => by
    have := ((hrec.shrinks_iff hold).mp hs).2
    omega
  have hcs : chunks ino.size.toNat ≤ chunks s := by
    unfold chunks
    omega
  rw [writeEnd, if_neg hno, if_pos hneed, if_neg hs8]
  obtain rfl : live = Finset.range (pointers s) := by
    ext p
    rw [halive, Finset.mem_range]
    unfold Kept
    omega
  exact sharing_storeIndirect hi hn hd hrec hd.toNames fun e' ino' => hQ _ _ _ _

-- The file has direct blocks only: what is freed is the block that slot 8 names, and it names none.
theorem sharing_writeEnd_direct (hold : SizeOk ino.size.toNat) (htrim : ino.Trim)
    (hover : Overwrites ino.size.toNat s) (hn : chunks s ≤ 8) :
    Follows (sharing h k f) (writeEnd ino s w) Q (e.share U, false) := by
  have hpc : pointers s = chunks s := pointers_eq_of_le hn
  have hneed : ¬ w.needToOverwriteIndirect = true := by
    rw [hrec.need, decide_eq_true_eq]
    omega
  have hno : ¬ Shrinks ino s w := fun hs => by
    have := ((hrec.shrinks_iff hold).mp hs).1
    omega
  have hs8 : (s : Int) ≤ 8 * blockSize := by
    have := chunks_le_iff.mp hn
    simp only [blockSize]
    omega
  have hslots := hover.slots
  have hold8 : chunks ino.size.toNat ≤ 8 := by
    unfold pointers ptrCount at hslots
    split at hslots <;> omega
  have hzero : (w.ino.block 8).toNat = 0 := by
    rw [hrec.slots 8 (by omega), ptrCount_of_le hn, if_neg (by omega)]
    exact htrim 8 (by omega) (by omega)
  obtain rfl : live = Finset.range (pointers s) := by
    ext p
    rw [halive, Finset.mem_range, ptrCount_of_le hn]
    unfold Kept
    omega
  rw [writeEnd, if_neg hno, if_neg hneed, if_pos hs8]
  refine Follows.bind (sharing_freeBlock_zero hzero ?_)
  refine hQ _ _ _ _ ⟨hd.toNames, hd.table, hd.data, fun p hp8 hp => by omega, ?_, fun p hp => ?_⟩
  · obtain ⟨blocks, hblocks⟩ := hrec.record
    rw [hblocks]
    exact ⟨_, rfl⟩
  · exact hrec.slots p hp

end End

theorem sharing_writeEnd {x : Heap Nat Block × Bool} {Q : Inode → Heap Nat Block × Bool → Prop}
    (hi : i < 1024) (hold : SizeOk ino.size.toNat) (htrim : ino.Trim)
    (hover : Overwrites ino.size.toNat s) (hx : Rewritten d ino i buf s (chunks s) w x)
    (hQ : ∀ cur U e ino', Finished d ino i buf s cur U e ino' → Q ino' (e.share U, false)) :
    Follows (sharing h k f) (writeEnd ino s w) Q x := by
  obtain ⟨cur, live, U, e, rfl, hd, halive, hrec⟩ := hx
  rcases Nat.lt_or_ge 8 (chunks s) with hn | hn
  · rcases Nat.lt_or_ge s ino.size.toNat with hlt | hle
    · exact sharing_writeEnd_shrinks hd halive hrec hQ hi hold hover hn hlt
    · exact sharing_writeEnd_indirect hd halive hrec hQ hi hold hover.sizeOk hn hle
  · exact sharing_writeEnd_direct hd halive hrec hQ hold htrim hover hn

/-! ## The new file -/

namespace Finished

variable {ino' : Inode} (hfin : Finished d (d.inode i) i buf s cur U e ino') (hin : d.InUse i)

include hfin hin

theorem inUse : (e.setInode i ino').InUse i := by
  obtain ⟨blocks, hblocks⟩ := hfin.record
  refine ⟨hin.1, ?_⟩
  rw [inode_setInode_self _ _ hin.1, hblocks]
  exact hin.2

theorem size_eq (hs : SizeOk s) : (e.setInode i ino').size i = s := by
  obtain ⟨blocks, hblocks⟩ := hfin.record
  have hle := hs.le
  rw [Disk.size, inode_setInode_self _ _ hin.1, hblocks]
  exact Nat.mod_eq_of_lt (by omega)

theorem ptr_eq {p : Nat} (hp : p < pointers s) :
    (e.setInode i ino').ptr i p = cur p := by
  have hreg : ∀ q < pointers s, 123 ≤ cur q ∧ cur q < 32768 := fun q hq =>
    hfin.names.region q (Finset.mem_range.mpr hq)
  have hblock : ∀ q < 9, q < pointers s → (ino'.block q).toNat = cur q := by
    intro q hq hqs
    have hq' := hreg q hqs
    rw [hfin.slots q hq, if_pos hqs, toNat_ofNat (by omega)]
  rw [Disk.ptr, inode_setInode_self _ _ hin.1]
  rcases Nat.lt_or_ge 8 p with hgt | hle
  · have h8 : 8 < pointers s := by omega
    rw [ptrOf_entry hgt, hblock 8 (by omega) h8, row_setInode_data _ _ hin.1 (hreg 8 h8).1]
    exact hfin.entries p hgt hp
  · rw [ptrOf_direct hle]
    exact hblock p (by omega) hp

theorem contents_eq (hs : SizeOk s) : (e.setInode i ino').contents i = (List.range s).map buf := by
  rw [contents, hfin.size_eq hin hs]
  apply List.map_congr_left
  intro j hj
  rw [List.mem_range] at hj
  have hc : j / 512 < chunks s := lt_chunks_iff.mpr (by omega)
  have hp := chunkPtr_lt hc
  have hreg := hfin.names.region _ (Finset.mem_range.mpr hp)
  rw [fileByte, hfin.ptr_eq hin hp, row_setInode_data _ _ hin.1 hreg.1,
    hfin.data _ hc _ (Nat.mod_lt _ (by omega)) (by omega), Nat.div_add_mod]

/-- The rows that the call owns are those of the new file. -/
theorem stores {g : File} {V : Finset Nat} (hst : Stores d₀ i (some g) d V)
    (hover : Overwrites (d.size i) s) :
    Stores d₀ i (some { g with bytes := (List.range s).map buf }) (e.setInode i ino') U := by
  have hs := hover.sizeOk
  have hin' := hfin.inUse hin
  have hsize := hfin.size_eq hin hs
  have hptr : ∀ p < pointers s, (e.setInode i ino').ptr i p = cur p := fun p hp =>
    hfin.ptr_eq hin hp
  have hg : g = d.file i hin := Option.some.inj (hst.files.symm.trans (files_of_inUse hin))
  constructor
  · obtain ⟨blocks, hblocks⟩ := hfin.record
    rw [files_of_inUse hin', hg]
    refine congrArg some (File.ext ?_ ?_ ?_ ?_ (hfin.contents_eq hin hs)) <;>
      simp only [Disk.file, inode_setInode_self _ _ hin.1, hblocks]
  · intro j hj ht
    rw [inode_setInode_ne _ _ hj, ← hst.others j hj ht]
    exact inode_congr (ht ▸ hfin.table)
  · intro r
    rw [hfin.names.mem, Disk.Holds, hsize]
    simp only [hin', true_and, Finset.mem_range]
    refine or_congr Iff.rfl (exists_congr fun p => and_congr_right fun hp => ?_)
    rw [hptr p hp]
  · intro _ p hp
    rw [hsize] at hp
    rw [hptr p hp]
    exact hfin.names.region p (Finset.mem_range.mpr hp)
  · intro _ p hp q hq
    rw [hsize] at hp hq
    rw [hptr p hp, hptr q hq]
    exact hfin.names.distinct p (Finset.mem_range.mpr hp) q (Finset.mem_range.mpr hq)
  · intro _
    rw [hsize]
    exact hs
  · intro _ p hp hps
    have hps' : pointers s ≤ p := hsize ▸ hps
    have hslots := hover.slots
    rw [inode_setInode_self _ _ hin.1, hfin.slots p hp, if_neg (by omega)]
    exact hst.trim hin p hp (by unfold Disk.size at hslots; omega)

end Finished

/-- `write_file` between the load of the record and the unlock. -/
theorem sharing_writeBlocks {inum : UInt32} {g : File} {V : Finset Nat} (hk : k.toNat ∈ I)
    {Q : Unit → Heap Nat Block × Bool → Prop} (hst : Stores d₀ inum.toNat (some g) d V)
    (hin : d.InUse inum.toNat) (hover : Overwrites (d.size inum.toNat) s)
    (hQ : ∀ e U, Stores d₀ inum.toNat (some { g with bytes := (List.range s).map buf }) e U →
      Q () (e.share U, false)) :
    Follows (sharing h k f) (writeBlocks (d.inode inum.toNat) buf s >>= putInode inum) Q
      (d.share V, false) := by
  rw [writeBlocks_eq]
  refine Follows.bind (Follows.bind ?_)
  refine (sharing_writeLoop hk hst hin hover).mono fun w x hx => ?_
  refine sharing_writeEnd hin.1 (hst.sizeOk hin) (hst.trim hin) hover hx
    fun cur U e ino' hfin => ?_
  exact sharing_putInode hin.1 hfin.names.table_mem (hQ _ _ (hfin.stores hin hst hover))

end Sections

end InodeFs
