import MailServer.Lib.ShiftedErase

/-! # Untagged EXPUNGE, VANISHED and EXISTS responses

`expunge::Response::serialize_to` writes one `* n EXPUNGE` line for each deleted
sequence number in the order given, lowering each by the number of lines written
before it, or, with QRESYNC, one `* VANISHED` line whose sequence set
`serialize_sequence` writes with runs of consecutive uids as ranges. For sorted
sequence numbers, a client that erases the `n`-th message for each line erases
exactly the deleted messages; for sorted uids, the ranges cover exactly the uids.
-/

namespace MailServer.ImapProto.Expunge

/-- `u32::saturating_sub`. -/
def saturatingSub (a b : UInt32) : UInt32 := if b ≤ a then a - b else 0

/-- The untagged lines of `expunge::Response`, `Vanished` and `Exists`. -/
inductive Line
  | expunge (seqnum : UInt32)
  | vanished (earlier : Bool) (ranges : List (UInt32 × UInt32))
  | existsCount (totalMessages : ℕ)
  deriving DecidableEq, Repr

/-- The ranges `serialize_sequence` writes, from the current range `start..rangeId`: the next
uid extends the range when it is `rangeId + 1`. -/
def sequenceRangesFrom (start rangeId : UInt32) : List UInt32 → List (UInt32 × UInt32)
  | [] => [(start, rangeId)]
  | next :: rest =>
    if next = rangeId + 1 then sequenceRangesFrom start next rest
    else (start, rangeId) :: sequenceRangesFrom next next rest

def sequenceRanges : List UInt32 → List (UInt32 × UInt32)
  | [] => []
  | id :: rest => sequenceRangesFrom id id rest

/-- `serialize_sequence`: `a` or `a:b` for each range, separated by commas. -/
def serializeSequence (list : List UInt32) : String :=
  ",".intercalate ((sequenceRanges list).map fun r =>
    toString r.1 ++ if r.2 ≠ r.1 then ":" ++ toString r.2 else "")

def Line.serialize : Line → String
  | .expunge seqnum => "* " ++ toString seqnum ++ " EXPUNGE\r\n"
  | .vanished earlier ranges =>
    (if earlier then "* VANISHED (EARLIER) " else "* VANISHED ") ++
      ",".intercalate (ranges.map fun r =>
        toString r.1 ++ if r.2 ≠ r.1 then ":" ++ toString r.2 else "") ++ "\r\n"
  | .existsCount totalMessages => "* " ++ toString totalMessages ++ " EXISTS\r\n"

/-- `expunge::Response::serialize_to`. -/
def expungeResponse (isQresync : Bool) (ids : List UInt32) : List Line :=
  if !isQresync then ids.zipIdx.map fun p => .expunge (saturatingSub p.1 (UInt32.ofNat p.2))
  else [.vanished false (sequenceRanges ids)]

example : (expungeResponse false [3, 4, 7, 9, 11]).map Line.serialize =
    ["* 3 EXPUNGE\r\n", "* 3 EXPUNGE\r\n", "* 5 EXPUNGE\r\n", "* 6 EXPUNGE\r\n", "* 7 EXPUNGE\r\n"] := by
  decide

example : (expungeResponse true [3, 4, 5]).map Line.serialize = ["* VANISHED 3:5\r\n"] := by
  decide

/-! ## What a client reads from the lines -/

/-- A client applying a line to its list of uids in sequence-number order. -/
def applyLine (view : List UInt32) : Line → List UInt32
  | .expunge seqnum => view.eraseIdx (seqnum.toNat - 1)
  | _ => view

/-- Whether a line reports the uid as vanished. -/
def Line.vanishes (uid : UInt32) : Line → Bool
  | .vanished _ ranges => ranges.any fun r => r.1 ≤ uid && uid ≤ r.2
  | _ => false

theorem toNat_saturatingSub (a b : UInt32) : (saturatingSub a b).toNat = a.toNat - b.toNat := by
  unfold saturatingSub
  split_ifs with h
  · rw [UInt32.toNat_sub_of_le _ _ h]
  · rw [UInt32.le_iff_toNat_le] at h
    simp only [UInt32.toNat_zero]
    omega

theorem saturatingSub_pos_iff (a b : UInt32) : saturatingSub a b > 0 ↔ b < a := by
  rw [gt_iff_lt, UInt32.lt_iff_toNat_lt, UInt32.lt_iff_toNat_lt, toNat_saturatingSub, UInt32.toNat_zero]
  omega

theorem foldl_applyLine_expungeResponse {ids : List UInt32} (hlen : ids.length ≤ 2 ^ 32)
    (view : List UInt32) :
    (expungeResponse false ids).foldl applyLine view =
      List.eraseEach (List.shiftDown (ids.map UInt32.toNat)) view := by
  have hnum : ∀ p ∈ ids.zipIdx, (saturatingSub p.1 (UInt32.ofNat p.2)).toNat = p.1.toNat - p.2 := by
    intro p hp
    have hp2 : p.2 < UInt32.size := by
      have := List.snd_lt_of_mem_zipIdx hp
      simp only [UInt32.size]
      omega
    rw [toNat_saturatingSub, UInt32.toNat_ofNat_of_lt' hp2]
  rw [expungeResponse, Bool.not_false, if_pos rfl, List.foldl_map, List.eraseEach, List.shiftDown, List.zipIdx_map,
    List.map_map, List.foldl_map]
  apply List.foldl_ext
  intro v p hp
  simp only [applyLine, Function.comp_apply, Prod.map_fst, Prod.map_snd, id_eq, hnum p hp]

theorem point_iff {a u : UInt32} : (a ≤ u ∧ u ≤ a) ↔ u = a := by
  simp only [UInt32.le_iff_toNat_le, ← UInt32.toNat_inj]
  omega

/-- The ranges from `start..rangeId` on cover that range and the uids still to come, when these
are increasing and past it. -/
theorem any_sequenceRangesFrom {start rangeId : UInt32} {rest : List UInt32} (hle : start ≤ rangeId)
    (hgt : ∀ x ∈ rest, rangeId < x) (hrest : rest.Pairwise (· < ·)) (u : UInt32) :
    (sequenceRangesFrom start rangeId rest).any (fun r => r.1 ≤ u && u ≤ r.2) = true ↔
      (start ≤ u ∧ u ≤ rangeId) ∨ u ∈ rest := by
  induction rest generalizing start rangeId with
  | nil => simp [sequenceRangesFrom]
  | cons next rest ih =>
    have hnext : rangeId < next := hgt next List.mem_cons_self
    obtain ⟨hnr, hrest'⟩ := List.pairwise_cons.mp hrest
    rw [sequenceRangesFrom]
    split_ifs with h
    · -- `next` extends the range: no wrap, as `rangeId < next`
      rw [ih (UInt32.le_trans hle (UInt32.le_of_lt hnext)) hnr hrest']
      have hsucc : next.toNat = rangeId.toNat + 1 := by
        rw [h, UInt32.lt_iff_toNat_lt] at hnext
        rw [h, UInt32.toNat_add, UInt32.toNat_one]
        rw [UInt32.toNat_add, UInt32.toNat_one] at hnext
        have := rangeId.toNat_lt
        omega
      have hrange : (start ≤ u ∧ u ≤ next) ↔ (start ≤ u ∧ u ≤ rangeId) ∨ u = next := by
        simp only [UInt32.le_iff_toNat_le, ← UInt32.toNat_inj] at hle ⊢
        omega
      rw [hrange, List.mem_cons, or_assoc]
    · rw [List.any_cons, Bool.or_eq_true, ih (UInt32.le_refl _) hnr hrest', List.mem_cons,
        point_iff]
      simp only [Bool.and_eq_true, decide_eq_true_eq]

theorem any_vanishes_expungeResponse {ids : List UInt32} (hids : ids.Pairwise (· < ·)) (u : UInt32) :
    (expungeResponse true ids).any (Line.vanishes u) = true ↔ u ∈ ids := by
  cases ids with
  | nil => simp [expungeResponse, sequenceRanges, Line.vanishes]
  | cons id rest =>
    obtain ⟨hid, hrest⟩ := List.pairwise_cons.mp hids
    simp only [expungeResponse, Bool.not_true, Bool.false_eq_true, if_false, List.any_cons,
      List.any_nil, Bool.or_false, Line.vanishes, sequenceRanges]
    rw [any_sequenceRangesFrom (UInt32.le_refl _) hid hrest, List.mem_cons, point_iff]

end MailServer.ImapProto.Expunge
