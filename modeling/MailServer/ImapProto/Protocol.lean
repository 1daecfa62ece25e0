import MailServer.ImapProto.Expunge

/-! # What a sequence set denotes

A `Sequence` is a number, a range whose missing ends stand for the largest uid or
sequence number (`*`), the saved search `$`, or a list of these. `Sequence::contains`
tests one value and `Sequence::expand` lists the values; the two agree on the
sequences `parse_sequence_set` builds from what `serialize_sequence` writes: a
number, or a range from its smaller to its larger end, for each run of consecutive
uids (`containsAny_map_ofRange`, `mem_expand_list_ofRange`).
-/

namespace MailServer.ImapProto.Protocol

open MailServer.ImapProto.Expunge

/-- `Sequence`. -/
inductive Sequence where
  | number (value : UInt32)
  | range (start «end» : Option UInt32)
  | savedSearch
  | list (items : List Sequence)
  deriving Repr

mutual

/-- `Sequence::contains`. -/
def Sequence.contains : Sequence → UInt32 → UInt32 → Bool
  | .number num, value, _ => num == value
  | .range (some start) (some «end»), value, _ =>
    (start ≤ value && value ≤ «end») || («end» ≤ value && value ≤ start)
  | .range (some bound) none, value, maxValue | .range none (some bound), value, maxValue =>
    (bound ≤ value && value ≤ maxValue) || (maxValue ≤ value && value ≤ bound)
  | .range none none, value, maxValue => value == maxValue
  | .list items, value, maxValue => Sequence.containsAny items value maxValue
  | .savedSearch, _, _ => false

/-- The loop of `Sequence::contains` over the items of a list. -/
def Sequence.containsAny : List Sequence → UInt32 → UInt32 → Bool
  | [], _, _ => false
  | item :: items, value, maxValue => item.contains value maxValue || Sequence.containsAny items value maxValue

end

/-- `start..=end` over `u32`. -/
def interval (start «end» : UInt32) : Finset UInt32 :=
  (Finset.Icc start.toNat «end».toNat).image UInt32.ofNat

/-- What `Sequence::expand` adds for a range, its missing ends read as `max_value`. -/
def rangeSet (start «end» : Option UInt32) (maxValue : UInt32) : Finset UInt32 :=
  let start := start.getD maxValue
  let «end» := «end».getD maxValue
  match compare start «end» with
  | .eq => {start}
  | .lt => interval start «end»
  | .gt => interval «end» start

/-- `Sequence::expand`: the items of a list are read one level deep, numbers and ranges only. -/
def Sequence.expand (self : Sequence) (maxValue : UInt32) : Finset UInt32 :=
  match self with
  | .number value => {value}
  | .list items =>
    items.foldl (fun result item =>
      match item with
      | .number value => insert value result
      | .range start «end» => result ∪ rangeSet start «end» maxValue
      | _ => result) ∅
  | .range start «end» => rangeSet start «end» maxValue
  | .savedSearch => ∅

/-! ## The sequence of one run -/

/-- The sequence a range written by `serialize_sequence` reads back as: `a:b`, or `a` when
the run has one uid. -/
def ofRange (r : UInt32 × UInt32) : Sequence :=
  if r.2 ≠ r.1 then .range (some r.1) (some r.2) else .number r.1

theorem mem_interval {start «end» value : UInt32} :
    value ∈ interval start «end» ↔ start ≤ value ∧ value ≤ «end» := by
  simp only [interval, Finset.mem_image, Finset.mem_Icc, UInt32.le_iff_toNat_le]
  constructor
  · rintro ⟨n, ⟨hs, he⟩, rfl⟩
    have hn : n < 2 ^ 32 := Nat.lt_of_le_of_lt he «end».toNat_lt
    rw [UInt32.toNat_ofNat_of_lt' hn]
    exact ⟨hs, he⟩
  · rintro ⟨hs, he⟩
    exact ⟨value.toNat, ⟨hs, he⟩, UInt32.ofNat_toNat⟩

theorem compare_of_le {start «end» : UInt32} (hle : start ≤ «end») :
    compare start «end» = if start = «end» then .eq else .lt := by
  simp only [compare, compareOfLessAndEq]
  split_ifs with hlt heq heq
  · exact absurd heq (UInt32.ne_of_lt hlt)
  · rfl
  · rfl
  · exact absurd (UInt32.lt_of_le_of_ne hle heq) hlt

theorem mem_rangeSet_some {start «end» value maxValue : UInt32} (hle : start ≤ «end») :
    value ∈ rangeSet (some start) (some «end») maxValue ↔ start ≤ value ∧ value ≤ «end» := by
  simp only [rangeSet, Option.getD_some, compare_of_le hle]
  split_ifs with heq
  · subst heq
    rw [Finset.mem_singleton, point_iff]
  · exact mem_interval

theorem contains_ofRange {r : UInt32 × UInt32} (hr : r.1 ≤ r.2) (value maxValue : UInt32) :
    (ofRange r).contains value maxValue = (r.1 ≤ value && value ≤ r.2) := by
  unfold ofRange
  rw [UInt32.le_iff_toNat_le] at hr
  split_ifs with h
  · -- the second disjunct only adds the point `r.1 = r.2`, which the first has
    rw [Sequence.contains, Bool.eq_iff_iff]
    simp only [Bool.or_eq_true, Bool.and_eq_true, decide_eq_true_eq, UInt32.le_iff_toNat_le]
    omega
  · rw [Sequence.contains, Bool.eq_iff_iff]
    simp only [beq_iff_eq, Bool.and_eq_true, decide_eq_true_eq, UInt32.le_iff_toNat_le, ← UInt32.toNat_inj]
    rw [not_not, ← UInt32.toNat_inj] at h
    omega

theorem mem_expand_ofRange {r : UInt32 × UInt32} (hr : r.1 ≤ r.2) (value maxValue : UInt32) :
    value ∈ (ofRange r).expand maxValue ↔ r.1 ≤ value ∧ value ≤ r.2 := by
  unfold ofRange
  split_ifs with h
  · exact mem_rangeSet_some hr
  · have heq : r.2 = r.1 := not_not.mp h
    rw [Sequence.expand, Finset.mem_singleton, heq, point_iff]

/-! ## The sequence of a list of runs -/

theorem containsAny_map_ofRange {rs : List (UInt32 × UInt32)} (hrs : ∀ r ∈ rs, r.1 ≤ r.2)
    (value maxValue : UInt32) :
    Sequence.containsAny (rs.map ofRange) value maxValue = rs.any (fun r => r.1 ≤ value && value ≤ r.2) := by
  induction rs with
  | nil => rfl
  | cons r rs ih =>
    rw [List.map_cons, Sequence.containsAny, contains_ofRange (hrs r List.mem_cons_self),
      ih (fun r' hr' => hrs r' (List.mem_cons_of_mem _ hr')), List.any_cons]

theorem mem_foldl_expand_ofRange {rs : List (UInt32 × UInt32)} (hrs : ∀ r ∈ rs, r.1 ≤ r.2)
    (result : Finset UInt32) (value maxValue : UInt32) :
    value ∈ (rs.map ofRange).foldl (fun result item =>
        match item with
        | .number value => insert value result
        | .range start «end» => result ∪ rangeSet start «end» maxValue
        | _ => result) result ↔
      value ∈ result ∨ ∃ r ∈ rs, r.1 ≤ value ∧ value ≤ r.2 := by
  induction rs generalizing result with
  | nil => simp
  | cons r rs ih =>
    have hr := hrs r List.mem_cons_self
    rw [List.map_cons, List.foldl_cons, ih (fun r' hr' => hrs r' (List.mem_cons_of_mem _ hr'))]
    have hstep : value ∈ (match ofRange r with
        | .number value => insert value result
        | .range start «end» => result ∪ rangeSet start «end» maxValue
        | _ => result) ↔ value ∈ result ∨ (r.1 ≤ value ∧ value ≤ r.2) := by
      unfold ofRange
      split_ifs with h
      · rw [Finset.mem_union, mem_rangeSet_some hr]
      · have heq : r.2 = r.1 := not_not.mp h
        rw [Finset.mem_insert, heq, point_iff, or_comm]
    rw [hstep, List.exists_mem_cons_iff, or_assoc]

theorem mem_expand_list_ofRange {rs : List (UInt32 × UInt32)} (hrs : ∀ r ∈ rs, r.1 ≤ r.2)
    (value maxValue : UInt32) :
    value ∈ (Sequence.list (rs.map ofRange)).expand maxValue ↔ ∃ r ∈ rs, r.1 ≤ value ∧ value ≤ r.2 := by
  rw [Sequence.expand, mem_foldl_expand_ofRange hrs]
  simp

/-! ## The runs of sorted uids -/

theorem le_of_mem_sequenceRangesFrom {start rangeId : UInt32} {rest : List UInt32}
    (hle : start ≤ rangeId) (hgt : ∀ x ∈ rest, rangeId < x) (hrest : rest.Pairwise (· < ·))
    {r : UInt32 × UInt32} (hr : r ∈ sequenceRangesFrom start rangeId rest) : r.1 ≤ r.2 := by
  induction rest generalizing start rangeId with
  | nil =>
    simp only [sequenceRangesFrom, List.mem_singleton] at hr
    rw [hr]
    exact hle
  | cons next rest ih =>
    have hnext : rangeId < next := hgt next List.mem_cons_self
    obtain ⟨hnr, hrest'⟩ := List.pairwise_cons.mp hrest
    rw [sequenceRangesFrom] at hr
    split_ifs at hr
    · exact ih (UInt32.le_trans hle (UInt32.le_of_lt hnext)) hnr hrest' hr
    · rcases List.mem_cons.mp hr with rfl | hr
      · exact hle
      · exact ih (UInt32.le_refl _) hnr hrest' hr

theorem le_of_mem_sequenceRanges {ids : List UInt32} (hids : ids.Pairwise (· < ·))
    {r : UInt32 × UInt32} (hr : r ∈ sequenceRanges ids) : r.1 ≤ r.2 := by
  cases ids with
  | nil => simp [sequenceRanges] at hr
  | cons id rest =>
    obtain ⟨hid, hrest⟩ := List.pairwise_cons.mp hids
    exact le_of_mem_sequenceRangesFrom (UInt32.le_refl _) hid hrest hr

theorem any_sequenceRanges {ids : List UInt32} (hids : ids.Pairwise (· < ·)) (value : UInt32) :
    (sequenceRanges ids).any (fun r => r.1 ≤ value && value ≤ r.2) = true ↔ value ∈ ids := by
  cases ids with
  | nil => simp [sequenceRanges]
  | cons id rest =>
    obtain ⟨hid, hrest⟩ := List.pairwise_cons.mp hids
    rw [sequenceRanges, any_sequenceRangesFrom (UInt32.le_refl _) hid hrest, List.mem_cons, point_iff]

end MailServer.ImapProto.Protocol
