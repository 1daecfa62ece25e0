import MailServer.Utils.Leb128

/-! # Full-text postings (`store::fts::postings`)

`Postings::serialize` writes the fields of a term, one byte each, then `0xFF`, then, when
there are positions, their count in LEB128 and the positions: blocks of 256, 128 or 32,
each its `num_bits` byte and the block compressed by the `bitpacking` crate against the last
position before it, and the last fewer than 32 one by one in LEB128. `SerializedPostings`
reads them back: `has_field` scans the fields up to the first `0xFF`, and the
`PostingsIterator` of `into_iter` decompresses a block whenever its chunk is used up and the
items left call for one.

The crate's packers are parameters (`BitPacker`). A packer is lawful when a strictly sorted
block compresses to `num_bits * BLOCK_LEN / 8` bytes from which it decompresses back
(`BitPacker.Lawful`). Under that law the iterator yields the positions written
(`yields_serializeBlocks`), `has_field` finds exactly the fields (`hasField_fields`), and
`matches_positions` is a merge of two sorted lists (`matchesFrom_iff`).
-/

set_option linter.dupNamespace false

namespace MailServer.Store.Postings

open MailServer.Utils.Leb128 MailServer.Lib.Iter

/-- `Postings`: the fields, in the order the `AHashSet` gives them, and the positions. -/
structure Postings where
  fields : List UInt8
  postings : List UInt32
  nodup : fields.Nodup

/-- `fields.insert(field)` keeps the fields a set. -/
def insertField (fields : List UInt8) (field : UInt8) : List UInt8 :=
  if field ∈ fields then fields else fields ++ [field]

theorem nodup_insertField {fields : List UInt8} (h : fields.Nodup) (field : UInt8) :
    (insertField fields field).Nodup := by
  unfold insertField
  split_ifs with hmem
  · exact h
  · exact h.append (List.nodup_singleton field) (by simpa using hmem)

/-- `Postings::insert`. -/
def Postings.insert (p : Postings) (field : UInt8) (posting : UInt32) : Postings where
  fields := insertField p.fields field
  postings := p.postings ++ [posting]
  nodup := nodup_insertField p.nodup field

/-- `Postings::insert_keyword`. -/
def Postings.insertKeyword (p : Postings) (field : UInt8) : Postings where
  fields := insertField p.fields field
  postings := p.postings
  nodup := nodup_insertField p.nodup field

/-- One packer of the `bitpacking` crate (`BitPacker1x`, `4x` or `8x`), through the three
calls `TermIndexPacker` makes: the bit width of a strictly sorted block after `initial`, the
bytes the block compresses to, and the block decompressed from bytes. -/
structure BitPacker where
  numBitsStrictlySorted : Option UInt32 → List UInt32 → UInt8
  compressStrictlySorted : Option UInt32 → List UInt32 → UInt8 → List UInt8
  decompressStrictlySorted : Option UInt32 → List UInt8 → UInt8 → List UInt32

/-- `TermIndexPacker`: the three packers, one per block length. -/
structure TermIndexPacker where
  bitpacker1 : BitPacker
  bitpacker4 : BitPacker
  bitpacker8 : BitPacker

/-- The `match self.block_len` of every call of `TermIndexPacker`. -/
def TermIndexPacker.select (tp : TermIndexPacker) (blockLen : ℕ) : BitPacker :=
  if blockLen = 256 then tp.bitpacker8 else if blockLen = 128 then tp.bitpacker4 else tp.bitpacker1

/-- The `match` of the writer on `len - pos` and of the iterator on `items_left`, from 32
items left on: the `BLOCK_LEN` of `BitPacker1x`, `4x` or `8x`. -/
def blockLen (itemsLeft : ℕ) : ℕ :=
  if itemsLeft ≤ 127 then 32 else if itemsLeft ≤ 255 then 128 else 256

/-- Strictly increasing, and above `initial`. -/
def SortedAfter (initial : Option UInt32) (block : List UInt32) : Prop :=
  (initial.toList ++ block).Pairwise (· < ·)

/-- The crate's contract for a packer of blocks of `n`: a strictly sorted block compresses to
`num_bits * n / 8` bytes, from which it decompresses back with the same `initial` and
`num_bits`. -/
def BitPacker.Lawful (pk : BitPacker) (n : ℕ) : Prop :=
  ∀ initial block, block.length = n → SortedAfter initial block →
    (pk.compressStrictlySorted initial block (pk.numBitsStrictlySorted initial block)).length =
        (pk.numBitsStrictlySorted initial block).toNat * n / 8 ∧
      pk.decompressStrictlySorted initial
          (pk.compressStrictlySorted initial block (pk.numBitsStrictlySorted initial block))
          (pk.numBitsStrictlySorted initial block) = block

def TermIndexPacker.Lawful (tp : TermIndexPacker) : Prop :=
  tp.bitpacker1.Lawful 32 ∧ tp.bitpacker4.Lawful 128 ∧ tp.bitpacker8.Lawful 256

theorem blockLen_le {itemsLeft : ℕ} (h : 32 ≤ itemsLeft) : blockLen itemsLeft ≤ itemsLeft := by
  unfold blockLen
  split_ifs <;> omega

/-! ## Writing -/

/-- The `while pos < len` loop of `serialize` over the positions left, after the block whose
last position is `initial`. -/
def serializeBlocks (tp : TermIndexPacker) (initial : Option UInt32) (rest : List UInt32) :
    List UInt8 :=
  if rest.length ≤ 31 then rest.flatMap fun val => toLeb128BytesNat val.toNat
  else
    let n := blockLen rest.length
    let chunk := rest.take n
    let bitpacker := tp.select n
    let numBits := bitpacker.numBitsStrictlySorted initial chunk
    numBits :: bitpacker.compressStrictlySorted initial chunk numBits ++
      serializeBlocks tp chunk.getLast? (rest.drop n)
termination_by rest.length
decreasing_by
  have := @blockLen_le rest.length (by omega)
  unfold blockLen at this ⊢
  rw [List.length_drop]
  split_ifs <;> omega

/-- `Postings::serialize`. -/
def Postings.serialize (tp : TermIndexPacker) (p : Postings) : List UInt8 :=
  p.fields ++ [0xFF] ++
    if p.postings.isEmpty then []
    else toLeb128BytesNat p.postings.length ++ serializeBlocks tp none p.postings

/-! ## Reading -/

/-- `SerializedPostings::has_field`. -/
def hasField (bytes : List UInt8) (field : UInt8) : Bool :=
  match bytes with
  | [] => false
  | byte :: bytes => if byte = 0xFF then false else if byte = field then true else hasField bytes field

structure PostingsIterator where
  bytes : List UInt8
  bytesOffset : ℕ
  chunk : List UInt32
  chunkOffset : ℕ
  itemsLeft : ℕ

/-- `PostingsIterator::default()`. -/
def PostingsIterator.empty : PostingsIterator := ⟨[], 0, [], 0, 0⟩

/-- `(&SerializedPostings).into_iter()`: the item count after the first `0xFF`. -/
def intoIter (bytes : List UInt8) : PostingsIterator :=
  match bytes.findIdx? (· == 0xFF) with
  | none => .empty
  | some offset =>
    match Unsigned.usize.fromLeb128BytesPos (bytes.drop (offset + 1)) with
    | some (itemsLeft, bytesRead) =>
      { bytes := bytes
        bytesOffset := offset + bytesRead + 1
        chunk := []
        chunkOffset := 0
        itemsLeft := itemsLeft }
    | none => .empty

/-- `bytes.get(start..stop)`. -/
def getRange (bytes : List UInt8) (start stop : ℕ) : Option (List UInt8) :=
  if start ≤ stop ∧ stop ≤ bytes.length then some ((bytes.drop start).take (stop - start)) else none

/-- `PostingsIterator::next`. -/
def PostingsIterator.next (tp : TermIndexPacker) (it : PostingsIterator) :
    Option UInt32 × PostingsIterator :=
  match it.chunk[it.chunkOffset]? with
  | some item => (some item, { it with chunkOffset := it.chunkOffset + 1 })
  | none =>
    if it.itemsLeft = 0 then (none, it)
    else if it.itemsLeft ≤ 31 then
      let it := { it with itemsLeft := it.itemsLeft - 1 }
      match Unsigned.u32.fromLeb128BytesPos (it.bytes.drop it.bytesOffset) with
      | some (item, bytesRead) =>
        (some (UInt32.ofNat item), { it with bytesOffset := it.bytesOffset + bytesRead })
      | none => (none, it)
    else
      let blockLen := blockLen it.itemsLeft
      let bitpacker := tp.select blockLen
      match it.bytes[it.bytesOffset]? with
      | none => (none, it)
      | some numBits =>
        let bytesRead := numBits.toNat * blockLen / 8 + 1
        let initialValue := it.chunk.getLast?
        -- the chunk is replaced before the compressed bytes are sliced
        let it := { it with chunk := List.replicate blockLen 0, chunkOffset := 1 }
        match getRange it.bytes (it.bytesOffset + 1) (it.bytesOffset + bytesRead) with
        | none => (none, it)
        | some compressed =>
          let chunk := bitpacker.decompressStrictlySorted initialValue compressed numBits
          (chunk.head?,
            { it with
              chunk := chunk
              bytesOffset := it.bytesOffset + bytesRead
              itemsLeft := it.itemsLeft - blockLen })

namespace PostingsIterator

variable {tp : TermIndexPacker} {it it' : PostingsIterator} {item : UInt32}

/-- What each call that returns an item leaves to read: fewer items, or as many and fewer of
the chunk. -/
def Remaining (it : PostingsIterator) : ℕ × ℕ := (it.itemsLeft, it.chunk.length - it.chunkOffset)

theorem remaining_next (h : it.next tp = (some item, it')) :
    Prod.Lex (· < ·) (· < ·) it'.Remaining it.Remaining := by
  unfold next at h
  split at h
  · -- an item of the chunk
    rename_i hchunk
    cases h
    have hlt := (List.getElem?_eq_some_iff.mp hchunk).1
    exact .right _ (by dsimp only; omega)
  · split_ifs at h with hzero hsmall
    · cases h
    · -- one LEB128 position
      dsimp only at h
      split at h
      · cases h
        exact .left _ _ (by dsimp only; omega)
      · cases h
    · -- a block
      dsimp only at h
      split at h
      · cases h
      · split at h
        · cases h
        · obtain ⟨-, rfl⟩ := Prod.mk.inj h
          have hle := @blockLen_le it.itemsLeft (by omega)
          have hpos : 0 < blockLen it.itemsLeft := by unfold blockLen; split_ifs <;> omega
          exact .left _ _ (by dsimp only; omega)

set_option linter.unusedVariables false in
/-- `collect()`: the items up to the first `None`. -/
def collect (tp : TermIndexPacker) (it : PostingsIterator) : List UInt32 :=
  match h : it.next tp with
  | (some item, it') => item :: collect tp it'
  | (none, _) => []
termination_by it.Remaining
decreasing_by exact remaining_next h

end PostingsIterator

/-- `SerializedPostings::positions`. -/
def positions (tp : TermIndexPacker) (bytes : List UInt8) : List UInt32 :=
  (intoIter bytes).collect tp

/-- The `Less` arm of the inner loop of `matches_positions`: the items below `expect` are
passed. -/
def skipBelow (expect : UInt32) : List UInt32 → List UInt32
  | [] => []
  | pos :: rest => if pos < expect then skipBelow expect rest else pos :: rest

/-- The outer loop of `matches_positions` over the expected positions, with the items of the
peekable iterator not yet passed: `Equal` returns `true`; `Greater`, or the end of the items,
goes on with the next expected position. -/
def matchesFrom : List UInt32 → List UInt32 → Bool
  | _, [] => false
  | items, expect :: expects =>
    match skipBelow expect items with
    | pos :: rest => if pos = expect then true else matchesFrom (pos :: rest) expects
    | [] => matchesFrom [] expects

/-- `SerializedPostings::matches_positions`. The peekable iterator is read as the items it
yields up to its first `None`, which `Peekable` then keeps returning. -/
def matchesPositions (tp : TermIndexPacker) (bytes : List UInt8) (positions : List UInt32)
    (offset : UInt32) : Bool :=
  matchesFrom ((intoIter bytes).collect tp) (positions.map (· + offset))

/-! ## The iterator reads what was written -/

section Read

variable {tp : TermIndexPacker} {it it' : PostingsIterator}

theorem hasField_fields (fields rest : List UInt8) (hfields : 0xFF ∉ fields) (field : UInt8) :
    hasField (fields ++ 0xFF :: rest) field = decide (field ∈ fields) := by
  induction fields with
  | nil => simp [hasField]
  | cons byte fields ih =>
    have hbyte : byte ≠ 0xFF := fun h => hfields (h ▸ List.mem_cons_self)
    rw [List.cons_append, hasField, if_neg hbyte, ih (fun h => hfields (List.mem_cons_of_mem _ h))]
    by_cases heq : byte = field
    · simp [heq]
    · simp [heq, Ne.symm heq]

namespace PostingsIterator

theorem next_of_chunk {item : UInt32} (h : it.chunk[it.chunkOffset]? = some item) :
    it.next tp = (some item, { it with chunkOffset := it.chunkOffset + 1 }) := by
  simp only [next, h]

theorem next_of_done (hc : it.chunk.length ≤ it.chunkOffset) (hz : it.itemsLeft = 0) :
    it.next tp = (none, it) := by
  simp only [next, List.getElem?_eq_none hc, hz, if_true]

theorem next_leb {v : ℕ} {post : List UInt8} (hc : it.chunk.length ≤ it.chunkOffset)
    (hpos : 0 < it.itemsLeft) (hsmall : it.itemsLeft ≤ 31) (hv : v < 2 ^ 32)
    (hbytes : it.bytes.drop it.bytesOffset = toLeb128BytesNat v ++ post) :
    it.next tp = (some (UInt32.ofNat v),
      { it with
        itemsLeft := it.itemsLeft - 1
        bytesOffset := it.bytesOffset + (toLeb128BytesNat v).length }) := by
  have hread : Unsigned.u32.fromLeb128BytesPos (toLeb128BytesNat v ++ post) =
      some (v, (toLeb128BytesNat v).length) := by
    rw [Unsigned.fromLeb128BytesPos, Unsigned.leb128Loop_encoded .u32 hv]
    rfl
  simp only [next, List.getElem?_eq_none hc, if_neg (Nat.pos_iff_ne_zero.mp hpos), if_pos hsmall,
    hbytes, hread]

theorem next_block {numBits : UInt8} {compressed post : List UInt8}
    (hc : it.chunk.length ≤ it.chunkOffset) (hbig : 32 ≤ it.itemsLeft)
    (hbytes : it.bytes.drop it.bytesOffset = numBits :: (compressed ++ post))
    (hlen : compressed.length = numBits.toNat * blockLen it.itemsLeft / 8) :
    it.next tp =
      (((tp.select (blockLen it.itemsLeft)).decompressStrictlySorted it.chunk.getLast? compressed
          numBits).head?,
        { bytes := it.bytes
          bytesOffset := it.bytesOffset + (compressed.length + 1)
          chunk := (tp.select (blockLen it.itemsLeft)).decompressStrictlySorted it.chunk.getLast?
            compressed numBits
          chunkOffset := 1
          itemsLeft := it.itemsLeft - blockLen it.itemsLeft }) := by
  have hnum : it.bytes[it.bytesOffset]? = some numBits := by
    rw [← Nat.add_zero it.bytesOffset, ← List.getElem?_drop, hbytes]
    rfl
  have hsize : it.bytes.length = it.bytesOffset + (1 + compressed.length + post.length) := by
    have h := congrArg List.length hbytes
    simp only [List.length_drop, List.length_cons, List.length_append] at h
    have hlt : it.bytesOffset < it.bytes.length := (List.getElem?_eq_some_iff.mp hnum).1
    omega
  have hrange : getRange it.bytes (it.bytesOffset + 1) (it.bytesOffset + (compressed.length + 1)) =
      some compressed := by
    rw [getRange, if_pos (by omega), ← List.drop_drop, hbytes, List.drop_one, List.tail_cons,
      show it.bytesOffset + (compressed.length + 1) - (it.bytesOffset + 1) = compressed.length by omega,
      List.take_left' rfl]
  simp only [next, List.getElem?_eq_none hc, if_neg (show ¬it.itemsLeft = 0 by omega),
    if_neg (show ¬it.itemsLeft ≤ 31 by omega), hnum, ← hlen, hrange]

theorem yields_chunk (hle : it.chunkOffset ≤ it.chunk.length) :
    Yields (next tp) it (it.chunk.drop it.chunkOffset) { it with chunkOffset := it.chunk.length } := by
  induction hn : it.chunk.length - it.chunkOffset generalizing it with
  | zero =>
    have hoff : it.chunkOffset = it.chunk.length := by omega
    rw [List.drop_eq_nil_of_le (by omega), ← hoff]
    exact .nil _
  | succ n ih =>
    have hlt : it.chunkOffset < it.chunk.length := by omega
    rw [List.drop_eq_getElem_cons hlt]
    exact .cons (next_of_chunk (List.getElem?_eq_getElem hlt))
      (@ih { it with chunkOffset := it.chunkOffset + 1 } (by dsimp only; omega)
        (by dsimp only; omega))

theorem yields_leb (post : List UInt8) (xs : List UInt32) :
    ∀ it : PostingsIterator, it.chunk.length ≤ it.chunkOffset → it.itemsLeft = xs.length →
      xs.length ≤ 31 →
      it.bytes.drop it.bytesOffset = xs.flatMap (fun val => toLeb128BytesNat val.toNat) ++ post →
      ∃ it', Yields (next tp) it xs it' ∧ it'.chunk.length ≤ it'.chunkOffset ∧ it'.itemsLeft = 0 := by
  induction xs with
  | nil => exact fun it hc hitems _ _ => ⟨it, .nil it, hc, hitems⟩
  | cons x xs ih =>
    intro it hc hitems hsmall hbytes
    rw [List.flatMap_cons, List.append_assoc] at hbytes
    have hstep := @next_leb tp _ _ _ hc (by simp [hitems]) (by omega) (UInt32.toNat_lt x) hbytes
    rw [UInt32.ofNat_toNat] at hstep
    obtain ⟨it', hy, hc', hz⟩ := ih { it with
        itemsLeft := it.itemsLeft - 1
        bytesOffset := it.bytesOffset + (toLeb128BytesNat x.toNat).length } hc
      (by dsimp only; simp [hitems]) (by simp at hsmall; omega)
      (by dsimp only; rw [← List.drop_drop, hbytes, List.drop_left])
    exact ⟨it', .cons hstep hy, hc', hz⟩

end PostingsIterator

theorem getLast?_toList_sublist (l : List UInt32) : l.getLast?.toList.Sublist l := by
  cases l with
  | nil => exact List.Sublist.slnil
  | cons a l =>
    rw [List.getLast?_eq_some_getLast (List.cons_ne_nil a l), Option.toList_some,
      List.singleton_sublist]
    exact List.getLast_mem _

theorem SortedAfter.take {initial : Option UInt32} {rest : List UInt32}
    (h : SortedAfter initial rest) (n : ℕ) : SortedAfter initial (rest.take n) :=
  h.sublist ((List.take_sublist n rest).append_left _)

theorem SortedAfter.drop {initial : Option UInt32} {rest : List UInt32}
    (h : SortedAfter initial rest) (n : ℕ) : SortedAfter (rest.take n).getLast? (rest.drop n) := by
  have hsub : ((rest.take n).getLast?.toList ++ rest.drop n).Sublist (initial.toList ++ rest) := by
    have := (getLast?_toList_sublist (rest.take n)).append (List.Sublist.refl (rest.drop n))
    rw [List.take_append_drop] at this
    exact this.trans (List.sublist_append_right _ _)
  exact h.sublist hsub

theorem TermIndexPacker.lawful_select {tp : TermIndexPacker} (htp : tp.Lawful) (itemsLeft : ℕ) :
    (tp.select (blockLen itemsLeft)).Lawful (blockLen itemsLeft) := by
  obtain ⟨h1, h4, h8⟩ := htp
  unfold blockLen TermIndexPacker.select
  split_ifs <;> first | assumption | omega

namespace PostingsIterator

/-- Every block and then the LEB128 positions, read back in order from where the writer put
them: the chunk used up holds the block before, the items left are the positions left. -/
theorem yields_serializeBlocks (htp : tp.Lawful) (post : List UInt8) (initial : Option UInt32)
    (rest : List UInt32) (hsorted : SortedAfter initial rest) :
    ∀ it : PostingsIterator, it.chunk.length ≤ it.chunkOffset → it.chunk.getLast? = initial →
      it.itemsLeft = rest.length → it.bytes.drop it.bytesOffset = serializeBlocks tp initial rest ++ post →
      ∃ it', Yields (next tp) it rest it' ∧ it'.chunk.length ≤ it'.chunkOffset ∧ it'.itemsLeft = 0 := by
  induction initial, rest using serializeBlocks.induct tp with
  | case1 initial rest hsmall =>
    intro it hc _ hitems hbytes
    rw [serializeBlocks, if_pos hsmall] at hbytes
    exact yields_leb post rest it hc hitems hsmall hbytes
  | case2 initial rest hbig n chunk ih =>
    intro it hc hlast hitems hbytes
    have hle : blockLen rest.length ≤ rest.length := blockLen_le (by omega)
    have hlen : (rest.take (blockLen rest.length)).length = blockLen rest.length :=
      List.length_take_of_le hle
    obtain ⟨hsize, hback⟩ := TermIndexPacker.lawful_select htp rest.length initial _ hlen
      (hsorted.take _)
    rw [serializeBlocks, if_neg hbig] at hbytes
    dsimp only at hbytes
    simp only [List.cons_append, List.append_assoc] at hbytes
    have hstep := @next_block tp _ _ _ _ hc (by omega) hbytes (by rw [hsize, hitems])
    rw [hlast, hitems, hback] at hstep
    set compressed := (tp.select (blockLen rest.length)).compressStrictlySorted initial
      (rest.take (blockLen rest.length)) ((tp.select (blockLen rest.length)).numBitsStrictlySorted
        initial (rest.take (blockLen rest.length)))
    obtain ⟨a, tl, hcons⟩ : ∃ a tl, rest.take (blockLen rest.length) = a :: tl := by
      refine List.exists_cons_of_ne_nil fun h => ?_
      rw [h, List.length_nil] at hlen
      unfold blockLen at hlen
      split_ifs at hlen
    have hrest : rest = a :: (tl ++ rest.drop (blockLen rest.length)) := by
      rw [← List.cons_append, ← hcons, List.take_append_drop]
    rw [hcons] at hstep
    obtain ⟨it', hy', hc', hz'⟩ := ih (hsorted.drop _)
      { bytes := it.bytes
        bytesOffset := it.bytesOffset + (compressed.length + 1)
        chunk := a :: tl
        chunkOffset := (a :: tl).length
        itemsLeft := rest.length - blockLen rest.length }
      (Nat.le_refl _) (by dsimp only; rw [← hcons]) (by dsimp only; rw [List.length_drop])
      (by dsimp only; rw [← List.drop_drop, hbytes, List.drop_succ_cons, List.drop_left])
    refine ⟨it', ?_, hc', hz'⟩
    rw [hrest]
    exact .cons hstep ((yields_chunk (by simp)).append hy')


theorem collect_of_next_some {item : UInt32} (h : it.next tp = (some item, it')) :
    it.collect tp = item :: it'.collect tp := by
  rw [collect]
  split <;> simp_all

theorem collect_of_next_none (h : (it.next tp).1 = none) : it.collect tp = [] := by
  rw [collect]
  split <;> simp_all

theorem collect_of_yields {xs : List UInt32} (h : Yields (next tp) it xs it')
    (hend : (it'.next tp).1 = none) : it.collect tp = xs := by
  induction h with
  | nil => exact collect_of_next_none hend
  | cons hs _ ih => rw [collect_of_next_some hs, ih hend]

end PostingsIterator

/-- A strictly increasing list of `u32` has at most `2 ^ 32` items, so its length is a
`usize`. -/
theorem length_le_of_pairwise_lt {l : List UInt32} (h : l.Pairwise (· < ·)) : l.length ≤ 2 ^ 32 := by
  have hnd : (l.map UInt32.toNat).Nodup :=
    List.Nodup.map (fun a b hab => UInt32.toNat_inj.mp hab)
      (h.imp fun {a b} (hab : a < b) heq => by subst heq; exact UInt32.lt_irrefl a hab)
  have hsub : (l.map UInt32.toNat).toFinset ⊆ Finset.range (2 ^ 32) := by
    intro n hn
    simp only [List.mem_toFinset, List.mem_map] at hn
    obtain ⟨a, -, rfl⟩ := hn
    exact Finset.mem_range.mpr (UInt32.toNat_lt a)
  calc l.length = (l.map UInt32.toNat).toFinset.card := by
        rw [List.toFinset_card_of_nodup hnd, List.length_map]
    _ ≤ (Finset.range (2 ^ 32)).card := Finset.card_le_card hsub
    _ = 2 ^ 32 := Finset.card_range _

theorem findIdx?_separator (fields rest : List UInt8) (hfields : 0xFF ∉ fields) :
    (fields ++ 0xFF :: rest).findIdx? (· == 0xFF) = some fields.length := by
  have hnone : fields.findIdx? (· == 0xFF) = none :=
    List.findIdx?_eq_none_iff.mpr fun x hx => by
      simpa using fun h : x = 0xFF => hfields (h ▸ hx)
  rw [List.findIdx?_append, hnone]
  simp [List.findIdx?_cons]

theorem serialize_of_ne_nil (p : Postings) (hne : p.postings ≠ []) :
    p.serialize tp = p.fields ++ 0xFF :: (toLeb128BytesNat p.postings.length ++
      serializeBlocks tp none p.postings) := by
  simp [Postings.serialize, List.isEmpty_iff, hne]

theorem intoIter_serialize (p : Postings) (hfields : 0xFF ∉ p.fields) (hne : p.postings ≠ [])
    (hlen : p.postings.length < 2 ^ 64) :
    intoIter (p.serialize tp) =
      { bytes := p.serialize tp
        bytesOffset := p.fields.length + (toLeb128BytesNat p.postings.length).length + 1
        chunk := []
        chunkOffset := 0
        itemsLeft := p.postings.length } := by
  have hbytes := @serialize_of_ne_nil tp p hne
  have hread : Unsigned.usize.fromLeb128BytesPos
      (toLeb128BytesNat p.postings.length ++ serializeBlocks tp none p.postings) =
      some (p.postings.length, (toLeb128BytesNat p.postings.length).length) := by
    rw [Unsigned.fromLeb128BytesPos, Unsigned.leb128Loop_encoded .usize hlen]
    rfl
  have hdrop : (p.fields ++ 0xFF :: (toLeb128BytesNat p.postings.length ++
      serializeBlocks tp none p.postings)).drop (p.fields.length + 1) =
      toLeb128BytesNat p.postings.length ++ serializeBlocks tp none p.postings := by
    rw [← List.drop_drop, List.drop_left]
    rfl
  unfold intoIter
  rw [hbytes, findIdx?_separator _ _ hfields]
  dsimp only
  rw [hdrop, hread]

theorem positions_serialize (htp : tp.Lawful) (p : Postings) (hfields : 0xFF ∉ p.fields)
    (hsorted : p.postings.Pairwise (· < ·)) : positions tp (p.serialize tp) = p.postings := by
  by_cases hne : p.postings = []
  · -- nothing follows the separator, so `into_iter` reads no count
    have hiter : intoIter (p.serialize tp) = .empty := by
      unfold intoIter
      rw [show p.serialize tp = p.fields ++ [0xFF] by simp [Postings.serialize, hne],
        findIdx?_separator _ _ hfields]
      dsimp only
      rw [← List.drop_drop, List.drop_left]
      rfl
    rw [positions, hiter, hne]
    exact PostingsIterator.collect_of_next_none rfl
  · have hlen := length_le_of_pairwise_lt hsorted
    have hstart := @intoIter_serialize tp p hfields hne (by omega)
    obtain ⟨it', hy, hc', hz'⟩ := PostingsIterator.yields_serializeBlocks htp [] none p.postings
      (by simpa [SortedAfter] using hsorted) (intoIter (p.serialize tp))
      (by rw [hstart]; exact Nat.le_refl _) (by rw [hstart]; rfl) (by rw [hstart])
      (by
        rw [hstart, List.append_nil]
        dsimp only
        rw [serialize_of_ne_nil p hne, Nat.add_right_comm, ← List.drop_drop, ← List.drop_drop,
          List.drop_left, List.drop_one, List.tail_cons, List.drop_left])
    exact PostingsIterator.collect_of_yields hy (by rw [PostingsIterator.next_of_done hc' hz'])

end Read

/-! ## `matches_positions` is a merge -/

section Merge

variable {expect : UInt32} {items : List UInt32}

theorem mem_skipBelow {y : UInt32} (hy : expect ≤ y) : y ∈ skipBelow expect items ↔ y ∈ items := by
  induction items with
  | nil => rfl
  | cons pos rest ih =>
    unfold skipBelow
    split_ifs with hpos
    · -- `pos` is below `expect`, so it is not `y`
      have hne : y ≠ pos := by
        rintro rfl
        rw [UInt32.lt_iff_toNat_lt] at hpos
        rw [UInt32.le_iff_toNat_le] at hy
        omega
      rw [ih, List.mem_cons, or_iff_right hne]
    · rfl

theorem skipBelow_suffix : skipBelow expect items <:+ items := by
  induction items with
  | nil => exact List.suffix_refl _
  | cons pos rest ih =>
    unfold skipBelow
    split_ifs
    · exact ih.trans (List.suffix_cons _ _)
    · exact List.suffix_refl _

theorem not_lt_of_skipBelow {pos : UInt32} {rest : List UInt32}
    (h : skipBelow expect items = pos :: rest) : ¬pos < expect := by
  induction items with
  | nil => cases h
  | cons a as ih =>
    unfold skipBelow at h
    split_ifs at h with ha
    · exact ih h
    · cases h
      exact ha

/-- Over strictly increasing items and sorted expected positions, the merge answers whether
some expected position is among the items. -/
theorem matchesFrom_iff (expects : List UInt32) :
    ∀ items : List UInt32, items.Pairwise (· < ·) → expects.Pairwise (· ≤ ·) →
      (matchesFrom items expects = true ↔ ∃ e ∈ expects, e ∈ items) := by
  induction expects with
  | nil => intro items _ _; simp [matchesFrom]
  | cons e es ih =>
    intro items hitems hexp
    have hle : ∀ e' ∈ e :: es, e ≤ e' := by
      intro e' he'
      rcases List.mem_cons.mp he' with rfl | he'
      · exact UInt32.le_refl _
      · exact List.rel_of_pairwise_cons hexp he'
    -- every expected position still to come is above `e`, so what `skipBelow` passed is lost
    -- to none of them
    have hkept : ∀ e' ∈ e :: es, (e' ∈ skipBelow e items ↔ e' ∈ items) :=
      fun e' he' => mem_skipBelow (hle e' he')
    have hsorted : (skipBelow e items).Pairwise (· < ·) := hitems.sublist skipBelow_suffix.sublist
    have hrest := ih (skipBelow e items) hsorted hexp.of_cons
    simp only [matchesFrom]
    cases hs : skipBelow e items with
    | nil =>
      rw [hs] at hkept hrest
      dsimp only
      rw [hrest]
      constructor
      · rintro ⟨e', -, hmem⟩
        exact absurd hmem List.not_mem_nil
      · rintro ⟨e', he', hmem⟩
        exact absurd ((hkept e' he').mpr hmem) List.not_mem_nil
    | cons pos rest =>
      rw [hs] at hkept hrest hsorted
      dsimp only
      split_ifs with heq
      · subst heq
        exact iff_of_true rfl
          ⟨pos, List.mem_cons_self, (hkept pos List.mem_cons_self).mp List.mem_cons_self⟩
      · -- `e` is not an item: the first kept is above it, and the others above that
        have hnot : e ∉ items := by
          rw [← hkept e List.mem_cons_self, List.mem_cons]
          rintro (rfl | hmem)
          · exact heq rfl
          · exact not_lt_of_skipBelow hs (List.rel_of_pairwise_cons hsorted hmem)
        rw [hrest]
        constructor
        · rintro ⟨e', he', hmem⟩
          exact ⟨e', List.mem_cons_of_mem _ he', (hkept e' (List.mem_cons_of_mem _ he')).mp hmem⟩
        · rintro ⟨e', he', hmem⟩
          rcases List.mem_cons.mp he' with rfl | he'
          · exact absurd hmem hnot
          · exact ⟨e', he', (hkept e' (List.mem_cons_of_mem _ he')).mpr hmem⟩

end Merge

theorem pairwise_add_offset {Q : List UInt32} {k : UInt32} (hQ : Q.Pairwise (· ≤ ·))
    (hk : ∀ q ∈ Q, q.toNat + k.toNat < 2 ^ 32) : (Q.map (· + k)).Pairwise (· ≤ ·) := by
  rw [List.pairwise_map]
  refine hQ.imp_of_mem fun {a b} ha hb hab => ?_
  rw [UInt32.le_iff_toNat_le, UInt32.toNat_add, UInt32.toNat_add, Nat.mod_eq_of_lt (hk a ha),
    Nat.mod_eq_of_lt (hk b hb)]
  rw [UInt32.le_iff_toNat_le] at hab
  omega

theorem hasField_serialize {tp : TermIndexPacker} (p : Postings) (hfields : 0xFF ∉ p.fields)
    (field : UInt8) : hasField (p.serialize tp) field = decide (field ∈ p.fields) := by
  rw [Postings.serialize, List.append_assoc, List.singleton_append, hasField_fields _ _ hfields]

/-- `matches_positions` on serialized postings finds an expected position, shifted by the
offset, exactly when it is a position. -/
theorem matchesPositions_serialize {tp : TermIndexPacker} (htp : tp.Lawful) (p : Postings)
    (hfields : 0xFF ∉ p.fields) (hsorted : p.postings.Pairwise (· < ·)) (Q : List UInt32) (k : UInt32)
    (hQ : Q.Pairwise (· ≤ ·)) (hk : ∀ q ∈ Q, q.toNat + k.toNat < 2 ^ 32) :
    matchesPositions tp (p.serialize tp) Q k = true ↔ ∃ q ∈ Q, q + k ∈ p.postings := by
  change matchesFrom (positions tp (p.serialize tp)) _ = true ↔ _
  rw [positions_serialize htp p hfields hsorted, matchesFrom_iff _ _ hsorted (pairwise_add_offset hQ hk)]
  simp

/-- Postings round trip: the positions read back are those written, `has_field` finds exactly
the fields, and `matches_positions` finds an expected position shifted by the offset exactly
when it is a position. -/
theorem postings_roundtrip (tp : TermIndexPacker) (htp : tp.Lawful) (p : Postings)
    (hfields : 0xFF ∉ p.fields) (hsorted : p.postings.Pairwise (· < ·)) (field : UInt8)
    (Q : List UInt32) (k : UInt32) (hQ : Q.Pairwise (· ≤ ·))
    (hk : ∀ q ∈ Q, q.toNat + k.toNat < 2 ^ 32) :
    positions tp (p.serialize tp) = p.postings ∧
      (hasField (p.serialize tp) field = true ↔ field ∈ p.fields) ∧
      (matchesPositions tp (p.serialize tp) Q k = true ↔ ∃ q ∈ Q, q + k ∈ p.postings) := by
  refine ⟨positions_serialize htp p hfields hsorted, ?_,
    matchesPositions_serialize htp p hfields hsorted Q k hQ hk⟩
  rw [hasField_serialize p hfields, decide_eq_true_iff]

/-! ## A lawful packer -/

/-- The base-256 digits of a `u32`, lowest first. -/
def wordBytes (v : UInt32) : List UInt8 :=
  [UInt8.ofNat v.toNat, UInt8.ofNat (v.toNat / 2 ^ 8), UInt8.ofNat (v.toNat / 2 ^ 16),
    UInt8.ofNat (v.toNat / 2 ^ 24)]

/-- Four bytes at a time, lowest first. -/
def wordsOfBytes : List UInt8 → List UInt32
  | b₀ :: b₁ :: b₂ :: b₃ :: rest =>
    UInt32.ofNat (b₀.toNat + 2 ^ 8 * b₁.toNat + 2 ^ 16 * b₂.toNat + 2 ^ 24 * b₃.toNat) ::
      wordsOfBytes rest
  | _ => []

/-- A packer that keeps every value in 32 bits: lawful, though not the crate's. -/
def BitPacker.wide : BitPacker where
  numBitsStrictlySorted _ _ := 32
  compressStrictlySorted _ block _ := block.flatMap wordBytes
  decompressStrictlySorted _ bytes _ := wordsOfBytes bytes

theorem wordsOfBytes_flatMap (l : List UInt32) : wordsOfBytes (l.flatMap wordBytes) = l := by
  induction l with
  | nil => rfl
  | cons v l ih =>
    rw [List.flatMap_cons]
    simp only [wordBytes, List.cons_append, List.nil_append, wordsOfBytes, ih, UInt8.toNat_ofNat']
    congr 1
    apply UInt32.toNat_inj.mp
    have hv := UInt32.toNat_lt v
    rw [UInt32.toNat_ofNat']
    omega

theorem length_flatMap_wordBytes (l : List UInt32) : (l.flatMap wordBytes).length = 4 * l.length := by
  induction l with
  | nil => rfl
  | cons v l ih =>
    rw [List.flatMap_cons, List.length_append, ih, List.length_cons]
    simp only [wordBytes, List.length_cons, List.length_nil]
    omega

theorem BitPacker.wide_lawful (n : ℕ) : BitPacker.wide.Lawful n := by
  intro initial block hlen _
  refine ⟨?_, wordsOfBytes_flatMap block⟩
  simp only [BitPacker.wide, length_flatMap_wordBytes, hlen]
  change 4 * n = 32 * n / 8
  omega

/-- Thirty-three positions: a block of 32, written by the packer, then one more in LEB128. -/
def blockPositions : List UInt32 := (List.range 33).map fun n => UInt32.ofNat (3 * n)

theorem postings_roundtrip_wide :
    TermIndexPacker.Lawful ⟨.wide, .wide, .wide⟩ ∧ (0xFF : UInt8) ∉ [1, 2] ∧
      blockPositions.Pairwise (· < ·) ∧ [(1 : UInt32), 5].Pairwise (· ≤ ·) ∧
      (∀ q ∈ [(1 : UInt32), 5], q.toNat + (2 : UInt32).toNat < 2 ^ 32) ∧
      (positions ⟨.wide, .wide, .wide⟩ (Postings.serialize ⟨.wide, .wide, .wide⟩
          ⟨[1, 2], blockPositions, by decide⟩) = blockPositions ∧
        (hasField (Postings.serialize ⟨.wide, .wide, .wide⟩ ⟨[1, 2], blockPositions, by decide⟩) 2 = true ↔
          (2 : UInt8) ∈ [1, 2]) ∧
        (matchesPositions ⟨.wide, .wide, .wide⟩
            (Postings.serialize ⟨.wide, .wide, .wide⟩ ⟨[1, 2], blockPositions, by decide⟩) [1, 5] 2 = true ↔
          ∃ q ∈ [(1 : UInt32), 5], q + 2 ∈ blockPositions)) := by
  have htp : TermIndexPacker.Lawful ⟨.wide, .wide, .wide⟩ :=
    ⟨BitPacker.wide_lawful 32, BitPacker.wide_lawful 128, BitPacker.wide_lawful 256⟩
  have hsorted : blockPositions.Pairwise (· < ·) := by decide
  have hQ : [(1 : UInt32), 5].Pairwise (· ≤ ·) := by simp
  have hk : ∀ q ∈ [(1 : UInt32), 5], q.toNat + (2 : UInt32).toNat < 2 ^ 32 := by simp
  exact ⟨htp, by decide, hsorted, hQ, hk,
    postings_roundtrip ⟨.wide, .wide, .wide⟩ htp ⟨[1, 2], blockPositions, by decide⟩ (by decide)
      hsorted 2 [1, 5] 2 hQ hk⟩

/-- The positions above take the block branch of the writer. -/
example : (serializeBlocks ⟨.wide, .wide, .wide⟩ none blockPositions).head? = some 32 := by
  rw [serializeBlocks, if_neg (by decide)]
  rfl

end MailServer.Store.Postings
