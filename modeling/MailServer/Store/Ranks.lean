import MailServer.Store.Sort
import MailServer.Lib.AssocList
import MailServer.Lib.Lex

/-! # The sort by several comparators

`Store::sort` ranks the results for each comparator, one after the other, in a map from a
document to its four ranks, and sorts the map's entries by their ranks and then by document
id. Each comparator only sets ranks at its own position, for results (`Extends`), and the first
one ranks every result, so the sorted map holds every result exactly once
(`rankComparators_perm`). A field comparator whose values are all distinct ends the ranking:
the ranks at the later positions could never change the order, so the early end gives the order
of ranking by every comparator (`rankComparators_order`). The map is a `HashMap`, which the model
keeps in insertion order; its entries are sorted by a key that holds the whole entry, so that
order is not read.
-/

namespace MailServer.Store.Ranks

open MailServer.Lib.Consume MailServer.Lib.AssocList MailServer.Lib.Lex MailServer.Store.Pagination
  MailServer.Store.Pagination.Pagination MailServer.Store.Sort

variable {κ : Type}

/-! ## The ranks of a document -/

/-- The ranks of a document: those in the map, and `[0u32; 4]` before it is given any. -/
def ranksOf (sortedIds : List (UInt32 × List ℕ)) (d : UInt32) : List ℕ :=
  (sortedIds.lookup d).getD noRanks

theorem keys_setRank_of_mem {m : List (UInt32 × List ℕ)} {d : UInt32} (hd : d ∈ keys m) (pos idx : ℕ) :
    keys (setRank m d pos idx) = keys m := by
  rw [setRank, if_pos (show d ∈ m.map Prod.fst from hd)]
  exact keys_map_modify m d fun r => r.set pos idx

theorem mem_keys_setRank {m : List (UInt32 × List ℕ)} {d k : UInt32} {pos idx : ℕ} :
    k ∈ keys (setRank m d pos idx) ↔ k ∈ keys m ∨ k = d := by
  by_cases hd : d ∈ keys m
  · rw [keys_setRank_of_mem hd]
    constructor
    · exact Or.inl
    · rintro (hk | rfl)
      · exact hk
      · exact hd
  · rw [setRank, if_neg (show d ∉ m.map Prod.fst from hd), keys_append_new]
    simp

theorem nodup_keys_setRank {m : List (UInt32 × List ℕ)} (hnd : (keys m).Nodup) (d : UInt32) (pos idx : ℕ) :
    (keys (setRank m d pos idx)).Nodup := by
  by_cases hd : d ∈ keys m
  · rwa [keys_setRank_of_mem hd]
  · rw [setRank, if_neg (show d ∉ m.map Prod.fst from hd), keys_append_new]
    exact hnd.append (List.nodup_singleton d) (by simpa using hd)

theorem ranksOf_setRank (m : List (UInt32 × List ℕ)) (d : UInt32) (pos idx : ℕ) (k : UInt32) :
    ranksOf (setRank m d pos idx) k = if k = d then (ranksOf m d).set pos idx else ranksOf m k := by
  by_cases hd : d ∈ keys m
  · obtain ⟨v, hv⟩ := lookup_of_mem hd
    have hmod : (m.map fun e => if e.1 = d then (e.1, e.2.set pos idx) else e).lookup k =
        if k = d then (m.lookup d).map (·.set pos idx) else m.lookup k :=
      lookup_map_modify m d (fun r => r.set pos idx) k
    rw [ranksOf, setRank, if_pos (show d ∈ m.map Prod.fst from hd), hmod]
    by_cases hk : k = d
    · simp [ranksOf, hk, hv]
    · simp [ranksOf, hk]
  · rw [ranksOf, setRank, if_neg (show d ∉ m.map Prod.fst from hd), lookup_append_new hd]
    by_cases hk : k = d
    · simp [ranksOf, hk, lookup_eq_none_of_not_mem hd]
    · simp [ranksOf, hk]

theorem rank_setRank {m : List (UInt32 × List ℕ)} {d : UInt32} {pos : ℕ}
    (hlen : pos < (ranksOf m d).length) (idx : ℕ) (k : UInt32) :
    (ranksOf (setRank m d pos idx) k)[pos]? = if k = d then some idx else (ranksOf m k)[pos]? := by
  rw [ranksOf_setRank]
  by_cases hk : k = d
  · simp [hk, List.getElem?_set_self hlen]
  · simp [hk]

theorem setRanks_cons (m : List (UInt32 × List ℕ)) (d : UInt32) (docs : List UInt32) (pos idx : ℕ) :
    setRanks m (d :: docs) pos idx = setRanks (setRank m d pos idx) docs pos idx := rfl

theorem mem_keys_setRanks {m : List (UInt32 × List ℕ)} {docs : List UInt32} {pos idx : ℕ} {k : UInt32} :
    k ∈ keys (setRanks m docs pos idx) ↔ k ∈ keys m ∨ k ∈ docs := by
  induction docs generalizing m with
  | nil => simp [setRanks]
  | cons d docs ih =>
    rw [setRanks_cons, ih, mem_keys_setRank, List.mem_cons]
    tauto

/-! ## Maps of ranks -/

/-- A map of ranks of the results `R`: each of them at most once, with four ranks. -/
structure Ranking (R : List UInt32) (m : List (UInt32 × List ℕ)) : Prop where
  nodup : (keys m).Nodup
  subset : ∀ d ∈ keys m, d ∈ R
  length : ∀ k, (ranksOf m k).length = 4

theorem ranking_nil (R : List UInt32) : Ranking R [] :=
  ⟨List.nodup_nil, by simp, fun _ => rfl⟩

theorem ranking_setRank {R : List UInt32} {m : List (UInt32 × List ℕ)} (h : Ranking R m)
    {d : UInt32} (hd : d ∈ R) (pos idx : ℕ) : Ranking R (setRank m d pos idx) where
  nodup := nodup_keys_setRank h.nodup d pos idx
  subset k hk := by
    rcases mem_keys_setRank.mp hk with hk | rfl
    · exact h.subset k hk
    · exact hd
  length k := by
    rw [ranksOf_setRank]
    split_ifs
    · rw [List.length_set]
      exact h.length d
    · exact h.length k

/-- `m'` is `m` with more ranks set, at positions from `q` on and for results `R` only. -/
structure Extends (R : List UInt32) (q : ℕ) (m m' : List (UInt32 × List ℕ)) : Prop where
  ranking : Ranking R m → Ranking R m'
  keys_mem : ∀ d ∈ keys m, d ∈ keys m'
  keys_eq : (∀ d ∈ R, d ∈ keys m) → keys m' = keys m
  take_eq : ∀ k, (ranksOf m' k).take q = (ranksOf m k).take q

section Extends

variable {R : List UInt32} {q : ℕ}

theorem Extends.refl (m : List (UInt32 × List ℕ)) : Extends R q m m :=
  ⟨id, fun _ h => h, fun _ => rfl, fun _ => rfl⟩

theorem Extends.trans {m₁ m₂ m₃ : List (UInt32 × List ℕ)} (h₁ : Extends R q m₁ m₂)
    (h₂ : Extends R q m₂ m₃) : Extends R q m₁ m₃ where
  ranking := h₂.ranking ∘ h₁.ranking
  keys_mem d hd := h₂.keys_mem d (h₁.keys_mem d hd)
  keys_eq hcov := by
    have h12 := h₁.keys_eq hcov
    rw [h₂.keys_eq fun d hd => h12 ▸ hcov d hd, h12]
  take_eq k := (h₂.take_eq k).trans (h₁.take_eq k)

theorem extends_setRank (m : List (UInt32 × List ℕ)) {d : UInt32} (hd : d ∈ R) {pos : ℕ}
    (hq : q ≤ pos) (idx : ℕ) : Extends R q m (setRank m d pos idx) where
  ranking h := ranking_setRank h hd pos idx
  keys_mem _ hk := mem_keys_setRank.mpr (Or.inl hk)
  keys_eq hcov := keys_setRank_of_mem (hcov d hd) pos idx
  take_eq k := by
    rw [ranksOf_setRank]
    split_ifs with hk
    · rw [hk, List.take_set_of_le hq]
    · rfl

theorem extends_setRanks (m : List (UInt32 × List ℕ)) {docs : List UInt32}
    (hdocs : ∀ d ∈ docs, d ∈ R) {pos : ℕ} (hq : q ≤ pos) (idx : ℕ) :
    Extends R q m (setRanks m docs pos idx) := by
  induction docs generalizing m with
  | nil => exact Extends.refl m
  | cons d docs ih =>
    rw [setRanks_cons]
    exact (extends_setRank m (hdocs d List.mem_cons_self) hq idx).trans
      (ih _ fun e he => hdocs e (List.mem_cons_of_mem d he))

end Extends

/-! ## Ranking by one comparator -/

/-- `rankStep` in one statement: a result not yet ranked leaves the results and gets the rank
of its value, a new rank when the value differs from the last one. -/
theorem rankStep_fst (pos : ℕ) (w : RankWalk) (key : List UInt8 × UInt32) :
    (rankStep pos w key).1 =
      if key.2 ∈ w.results.ids then
        { results := (w.results.remove key.2).1
          prevData := key.1
          hasGroupedIds := w.hasGroupedIds || decide (key.1 = w.prevData)
          idx := if key.1 = w.prevData then w.idx else w.idx + 1
          sortedIds := setRank w.sortedIds key.2 pos (if key.1 = w.prevData then w.idx else w.idx + 1) }
      else { w with results := (w.results.remove key.2).1 } := by
  by_cases hmem : key.2 ∈ w.results.ids
  · by_cases hdata : key.1 = w.prevData
    · simp [rankStep, hmem, hdata]
    · simp [rankStep, hmem, hdata]
  · simp [rankStep, hmem]

theorem remove_of_not_mem {b : Bitmap} {d : UInt32} (hd : d ∉ b.ids) : (b.remove d).1 = b :=
  Bitmap.ext (by simp [List.erase_of_not_mem hd])

/-- What the walk over a field's index keeps, from the map `m` and the results `R`: the results
left are results, the map only gains ranks from position `q` on, and every result is left or
ranked. -/
structure WalkInv (R : List UInt32) (q : ℕ) (m : List (UInt32 × List ℕ)) (w : RankWalk) : Prop where
  results_sub : ∀ d ∈ w.results.ids, d ∈ R
  ext : Extends R q m w.sortedIds
  covers : ∀ d ∈ R, d ∈ w.results.ids ∨ d ∈ keys w.sortedIds

theorem WalkInv.step {R : List UInt32} {q : ℕ} {m : List (UInt32 × List ℕ)} {w : RankWalk}
    (h : WalkInv R q m w) {pos : ℕ} (hq : q ≤ pos) (key : List UInt8 × UInt32) :
    WalkInv R q m (rankStep pos w key).1 := by
  rw [rankStep_fst]
  by_cases hmem : key.2 ∈ w.results.ids
  · rw [if_pos hmem]
    refine ⟨fun d hd => h.results_sub d (List.mem_of_mem_erase hd),
      h.ext.trans (extends_setRank _ (h.results_sub _ hmem) hq _), fun d hd => ?_⟩
    by_cases hdk : d = key.2
    · exact .inr (mem_keys_setRank.mpr (.inr hdk))
    · rcases h.covers d hd with hleft | hkey
      · exact .inl (by simpa [List.mem_erase_of_ne hdk] using hleft)
      · exact .inr (mem_keys_setRank.mpr (.inl hkey))
  · rw [if_neg hmem, remove_of_not_mem hmem]
    exact h

/-- While no two results shared a value, the results ranked so far have distinct ranks at
`pos`, none above `idx`. -/
structure Distinct (R : List UInt32) (pos : ℕ) (w : RankWalk) : Prop where
  bounded : ∀ d ∈ R, d ∉ w.results.ids → ∃ r ≤ w.idx, (ranksOf w.sortedIds d)[pos]? = some r
  inj : ∀ d₁ ∈ R, ∀ d₂ ∈ R, d₁ ∉ w.results.ids → d₂ ∉ w.results.ids →
    (ranksOf w.sortedIds d₁)[pos]? = (ranksOf w.sortedIds d₂)[pos]? → d₁ = d₂

theorem Distinct.step {R : List UInt32} {pos : ℕ} {w : RankWalk}
    (hlen : ∀ k, pos < (ranksOf w.sortedIds k).length)
    (h : w.hasGroupedIds = false → Distinct R pos w) (key : List UInt8 × UInt32) :
    (rankStep pos w key).1.hasGroupedIds = false → Distinct R pos (rankStep pos w key).1 := by
  rw [rankStep_fst]
  by_cases hmem : key.2 ∈ w.results.ids
  · rw [if_pos hmem]
    intro hg
    simp only [Bool.or_eq_false_iff, decide_eq_false_iff_not] at hg
    obtain ⟨hg, hdata⟩ := hg
    have hd := h hg
    simp only [if_neg hdata]
    have hrank := rank_setRank (hlen key.2) (w.idx + 1)
    have hleft : ∀ d, d ∉ (w.results.remove key.2).1.ids → d ≠ key.2 → d ∉ w.results.ids :=
      fun d hout hne hw => hout (by simpa [List.mem_erase_of_ne hne] using hw)
    constructor <;> dsimp only
    · intro d hdR hout
      rw [hrank]
      by_cases hdk : d = key.2
      · exact ⟨w.idx + 1, le_rfl, by simp [hdk]⟩
      · obtain ⟨r, hr, hrd⟩ := hd.bounded d hdR (hleft d hout hdk)
        exact ⟨r, by omega, by simp [hdk, hrd]⟩
    · intro d₁ h₁ d₂ h₂ hout₁ hout₂ heq
      rw [hrank, hrank] at heq
      by_cases hk₁ : d₁ = key.2 <;> by_cases hk₂ : d₂ = key.2
      · rw [hk₁, hk₂]
      · obtain ⟨r, hr, hrd⟩ := hd.bounded d₂ h₂ (hleft d₂ hout₂ hk₂)
        simp [hk₁, hk₂, hrd] at heq
        omega
      · obtain ⟨r, hr, hrd⟩ := hd.bounded d₁ h₁ (hleft d₁ hout₁ hk₁)
        simp [hk₁, hk₂, hrd] at heq
        omega
      · simp only [hk₁, hk₂, if_false] at heq
        exact hd.inj d₁ h₁ d₂ h₂ (hleft d₁ hout₁ hk₁) (hleft d₂ hout₂ hk₂) heq
  · rw [if_neg hmem, remove_of_not_mem hmem]
    exact h

/-- The walk of a field comparator at `pos` over the field's index. -/
def fieldWalk (store : Store κ) (rs : ResultSet) (pos : ℕ) (field : UInt8) (ascending : Bool)
    (m : List (UInt32 × List ℕ)) : RankWalk :=
  (consume (rankStep pos) ⟨rs.results, [], false, 0, m⟩ (store.iterateIndex rs field ascending)).1

theorem rankField_eq (store : Store κ) (rs : ResultSet) (pos : ℕ) (field : UInt8) (ascending : Bool)
    (m : List (UInt32 × List ℕ)) :
    rankField store rs pos field ascending m =
      let w := fieldWalk store rs pos field ascending m
      if !w.results.isEmpty then (setRanks w.sortedIds w.results.ids pos (w.idx + 1), false)
      else (w.sortedIds, !w.hasGroupedIds) :=
  rfl

section Field

variable (store : Store κ) (rs : ResultSet)

theorem walkInv_fieldWalk {q pos : ℕ} (hq : q ≤ pos) (field : UInt8) (ascending : Bool)
    (m : List (UInt32 × List ℕ)) :
    WalkInv rs.results.ids q m (fieldWalk store rs pos field ascending m) :=
  consume_invariant (fun _ _ _ hw => hw.step hq _) ⟨fun _ h => h, Extends.refl m, fun _ hd => .inl hd⟩

theorem distinct_fieldWalk {pos : ℕ} (hpos : pos < 4) (field : UInt8) (ascending : Bool)
    {m : List (UInt32 × List ℕ)} (hm : Ranking rs.results.ids m) :
    (fieldWalk store rs pos field ascending m).hasGroupedIds = false →
      Distinct rs.results.ids pos (fieldWalk store rs pos field ascending m) := by
  have hinv : WalkInv rs.results.ids pos m (fieldWalk store rs pos field ascending m) ∧
      ((fieldWalk store rs pos field ascending m).hasGroupedIds = false →
        Distinct rs.results.ids pos (fieldWalk store rs pos field ascending m)) :=
    consume_invariant (P := fun w => WalkInv rs.results.ids pos m w ∧
      (w.hasGroupedIds = false → Distinct rs.results.ids pos w))
    (fun w key _ hw => ⟨hw.1.step le_rfl key,
      Distinct.step (fun k => ((hw.1.ext.ranking hm).length k).symm ▸ hpos) hw.2 key⟩)
    ⟨⟨fun _ h => h, Extends.refl m, fun _ hd => .inl hd⟩,
      fun _ => ⟨fun _ hd hout => absurd hd hout, fun _ h₁ _ _ hout => absurd h₁ hout⟩⟩
  exact hinv.2

theorem extends_rankField {q pos : ℕ} (hq : q ≤ pos) (field : UInt8) (ascending : Bool)
    (m : List (UInt32 × List ℕ)) :
    Extends rs.results.ids q m (rankField store rs pos field ascending m).1 := by
  have hw := walkInv_fieldWalk store rs hq field ascending m
  rw [rankField_eq]
  dsimp only
  split_ifs
  · exact hw.ext.trans (extends_setRanks _ hw.results_sub hq _)
  · exact hw.ext

theorem covers_rankField (pos : ℕ) (field : UInt8) (ascending : Bool) (m : List (UInt32 × List ℕ)) :
    ∀ d ∈ rs.results.ids, d ∈ keys (rankField store rs pos field ascending m).1 := by
  have hw := walkInv_fieldWalk store rs (le_refl pos) field ascending m
  intro d hd
  rw [rankField_eq]
  dsimp only
  split_ifs with hleft
  · exact mem_keys_setRanks.mpr (hw.covers d hd).symm
  · rcases hw.covers d hd with hmem | hkey
    · simp [Bitmap.isEmpty] at hleft
      simp [hleft] at hmem
    · exact hkey

theorem distinct_rankField {pos : ℕ} (hpos : pos < 4) (field : UInt8) (ascending : Bool)
    {m : List (UInt32 × List ℕ)} (hm : Ranking rs.results.ids m)
    (hstop : (rankField store rs pos field ascending m).2 = true) :
    ∀ d₁ ∈ keys (rankField store rs pos field ascending m).1,
      ∀ d₂ ∈ keys (rankField store rs pos field ascending m).1,
        (ranksOf (rankField store rs pos field ascending m).1 d₁)[pos]? =
          (ranksOf (rankField store rs pos field ascending m).1 d₂)[pos]? → d₁ = d₂ := by
  have hw := walkInv_fieldWalk store rs (le_refl pos) field ascending m
  have hsub := (hw.ext.ranking hm).subset
  rw [rankField_eq] at hstop ⊢
  dsimp only at hstop ⊢
  split_ifs at hstop ⊢ with hleft
  · simp only [Bool.not_eq_eq_eq_not, Bool.not_true] at hleft
    have hnil : (fieldWalk store rs pos field ascending m).results.ids = [] := by
      simpa [Bitmap.isEmpty, List.isEmpty_iff] using hleft
    have hd := distinct_fieldWalk store rs hpos field ascending hm (by simpa using hstop)
    intro d₁ h₁ d₂ h₂ heq
    exact hd.inj d₁ (hsub d₁ h₁) d₂ (hsub d₂ h₂) (by simp [hnil]) (by simp [hnil]) heq

end Field

/-- The sort by one document set, as `rankSet` ranks it: the documents first in its order get
rank 0, the others 1. -/
theorem rankSet_eq (rs : ResultSet) (pos : ℕ) (set : Bitmap) (ascending : Bool)
    (m : List (UInt32 × List ℕ)) :
    rankSet rs pos set ascending m =
      if ascending then
        setRanks (setRanks m (rs.results.and set).ids pos 0) (rs.results.xor (rs.results.and set)).ids pos 1
      else
        setRanks (setRanks m (rs.results.xor (rs.results.and set)).ids pos 0) (rs.results.and set).ids pos 1 := by
  cases ascending <;> rfl

section Set

variable (rs : ResultSet)

theorem extends_rankSet {q pos : ℕ} (hq : q ≤ pos) (set : Bitmap) (ascending : Bool)
    (m : List (UInt32 × List ℕ)) : Extends rs.results.ids q m (rankSet rs pos set ascending m) := by
  have hin : ∀ d ∈ (rs.results.and set).ids, d ∈ rs.results.ids := fun _ hd => (Bitmap.mem_and.mp hd).1
  have hout : ∀ d ∈ (rs.results.xor (rs.results.and set)).ids, d ∈ rs.results.ids := by
    intro d hd
    rw [Bitmap.xor_and_ids] at hd
    exact (List.mem_filter.mp hd).1
  rw [rankSet_eq]
  split_ifs
  · exact (extends_setRanks _ hin hq 0).trans (extends_setRanks _ hout hq 1)
  · exact (extends_setRanks _ hout hq 0).trans (extends_setRanks _ hin hq 1)

theorem covers_rankSet (pos : ℕ) (set : Bitmap) (ascending : Bool) (m : List (UInt32 × List ℕ)) :
    ∀ d ∈ rs.results.ids, d ∈ keys (rankSet rs pos set ascending m) := by
  intro d hd
  have hparts := List.mem_append.mp ((Bitmap.and_append_xor_perm rs.results set).mem_iff.mpr hd)
  rw [rankSet_eq]
  split_ifs <;> simp only [mem_keys_setRanks] <;> tauto

end Set

/-! ## Ranking by every comparator -/

/-- The loop over the comparators from position `pos` without the early end: every comparator
ranks the results. -/
def rankLoopAll (store : Store κ) (rs : ResultSet) :
    ℕ → List Comparator → List (UInt32 × List ℕ) → List (UInt32 × List ℕ)
  | _, [], sortedIds => sortedIds
  | pos, .field field ascending :: comparators, sortedIds =>
    rankLoopAll store rs (pos + 1) comparators (rankField store rs pos field ascending sortedIds).1
  | pos, .documentSet set ascending :: comparators, sortedIds =>
    rankLoopAll store rs (pos + 1) comparators (rankSet rs pos set ascending sortedIds)

/-- The ranks of every result under each of the first four comparators. -/
def rankAll (store : Store κ) (rs : ResultSet) (comparators : List Comparator) :
    List (UInt32 × List ℕ) :=
  rankLoopAll store rs 0 (comparators.take 4) []

theorem rankLoop_field (store : Store κ) (rs : ResultSet) (pos : ℕ) (field : UInt8) (ascending : Bool)
    (comparators : List Comparator) (m : List (UInt32 × List ℕ)) :
    rankLoop store rs pos (.field field ascending :: comparators) m =
      if (rankField store rs pos field ascending m).2 then (rankField store rs pos field ascending m).1
      else rankLoop store rs (pos + 1) comparators (rankField store rs pos field ascending m).1 :=
  rfl

section Loop

variable (store : Store κ) (rs : ResultSet)

theorem extends_rankLoopAll {q : ℕ} (comparators : List Comparator) :
    ∀ {pos : ℕ} (m : List (UInt32 × List ℕ)), q ≤ pos →
      Extends rs.results.ids q m (rankLoopAll store rs pos comparators m) := by
  induction comparators with
  | nil => exact fun m _ => Extends.refl m
  | cons c comparators ih =>
    intro pos m hq
    cases c with
    | field field ascending =>
      exact (extends_rankField store rs hq field ascending m).trans (ih _ (by omega))
    | documentSet set ascending =>
      exact (extends_rankSet rs hq set ascending m).trans (ih _ (by omega))

theorem extends_rankLoop {q : ℕ} (comparators : List Comparator) :
    ∀ {pos : ℕ} (m : List (UInt32 × List ℕ)), q ≤ pos →
      Extends rs.results.ids q m (rankLoop store rs pos comparators m) := by
  induction comparators with
  | nil => exact fun m _ => Extends.refl m
  | cons c comparators ih =>
    intro pos m hq
    cases c with
    | field field ascending =>
      have hfield := extends_rankField store rs hq field ascending m
      rw [rankLoop_field]
      split_ifs
      · exact hfield
      · exact hfield.trans (ih _ (by omega))
    | documentSet set ascending =>
      exact (extends_rankSet rs hq set ascending m).trans (ih _ (by omega))

theorem covers_rankLoop {comparators : List Comparator} (hne : comparators ≠ []) (pos : ℕ)
    (m : List (UInt32 × List ℕ)) : ∀ d ∈ rs.results.ids, d ∈ keys (rankLoop store rs pos comparators m) := by
  intro d hd
  match comparators, hne with
  | .field field ascending :: comparators, _ =>
    have hcov := covers_rankField store rs pos field ascending m d hd
    rw [rankLoop_field]
    split_ifs
    · exact hcov
    · exact (extends_rankLoop store rs comparators _ (le_refl (pos + 1))).keys_mem d hcov
  | .documentSet set ascending :: comparators, _ =>
    exact (extends_rankLoop store rs comparators _ (le_refl (pos + 1))).keys_mem d
      (covers_rankSet rs pos set ascending m d hd)

end Loop

/-! ## The order of the ranks -/

/-- The key by which `sort_by` orders a document of the map. -/
def rankKey (m : List (UInt32 × List ℕ)) (d : UInt32) : List ℕ ×ₗ ℕ := entryKey (d, ranksOf m d)

theorem ranksOf_of_mem {m : List (UInt32 × List ℕ)} (hnd : (keys m).Nodup) {e : UInt32 × List ℕ}
    (he : e ∈ m) : ranksOf m e.1 = e.2 := by
  rw [ranksOf, (lookup_eq_some_iff_mem hnd).mpr he]
  rfl

theorem map_fst_sortEntries {m : List (UInt32 × List ℕ)} (hnd : (keys m).Nodup) :
    (sortEntries m).map Prod.fst = (keys m).insertionSort fun d₁ d₂ => rankKey m d₁ ≤ rankKey m d₂ := by
  rw [sortEntries, List.map_insertionSort (fun a b : UInt32 × List ℕ => entryKey a ≤ entryKey b)
    (fun d₁ d₂ => rankKey m d₁ ≤ rankKey m d₂) Prod.fst m]
  · rfl
  · intro a ha b hb
    rw [rankKey, rankKey, ranksOf_of_mem hnd ha, ranksOf_of_mem hnd hb]

theorem rankKey_le_iff {m : List (UInt32 × List ℕ)} {d₁ d₂ : UInt32} (hne : ranksOf m d₁ ≠ ranksOf m d₂) :
    rankKey m d₁ ≤ rankKey m d₂ ↔ ranksOf m d₁ < ranksOf m d₂ := by
  rw [rankKey, rankKey, entryKey, entryKey, Prod.Lex.toLex_le_toLex]
  simp [hne]

/-- Two maps of the same documents whose ranks agree up to position `p`, and tell the documents
apart at `p`, sort them the same way. -/
theorem order_eq_of_distinct {m m' : List (UInt32 × List ℕ)} {p : ℕ} (hkeys : keys m' = keys m)
    (hnd : (keys m).Nodup) (htake : ∀ k, (ranksOf m' k).take (p + 1) = (ranksOf m k).take (p + 1))
    (hdist : ∀ d₁ ∈ keys m, ∀ d₂ ∈ keys m, (ranksOf m d₁)[p]? = (ranksOf m d₂)[p]? → d₁ = d₂) :
    (sortEntries m').map Prod.fst = (sortEntries m).map Prod.fst := by
  rw [map_fst_sortEntries (hkeys ▸ hnd), map_fst_sortEntries hnd, hkeys]
  refine insertionSort_congr fun d₁ h₁ d₂ h₂ => ?_
  by_cases heq : d₁ = d₂
  · subst heq
    simp
  have hne : (ranksOf m d₁).take (p + 1) ≠ (ranksOf m d₂).take (p + 1) := by
    intro h
    apply heq (hdist d₁ h₁ d₂ h₂ _)
    simpa [List.getElem?_take] using congrArg (·[p]?) h
  have hne' : (ranksOf m' d₁).take (p + 1) ≠ (ranksOf m' d₂).take (p + 1) := by
    rwa [htake, htake]
  rw [rankKey_le_iff fun h => hne' (by rw [h]), rankKey_le_iff fun h => hne (by rw [h])]
  exact lt_iff_lt_of_take_eq (htake d₁) (htake d₂) hne'

theorem rankLoop_order (store : Store κ) (rs : ResultSet) (comparators : List Comparator) :
    ∀ (pos : ℕ) (m : List (UInt32 × List ℕ)), pos + comparators.length ≤ 4 → Ranking rs.results.ids m →
      (sortEntries (rankLoop store rs pos comparators m)).map Prod.fst =
        (sortEntries (rankLoopAll store rs pos comparators m)).map Prod.fst := by
  induction comparators with
  | nil => exact fun _ _ _ _ => rfl
  | cons c comparators ih =>
    intro pos m hpos hm
    have hlen : pos + 1 + comparators.length ≤ 4 := by
      simp only [List.length_cons] at hpos
      omega
    cases c with
    | field field ascending =>
      have hm' := (extends_rankField store rs (le_refl pos) field ascending m).ranking hm
      rw [rankLoop_field]
      by_cases hstop : (rankField store rs pos field ascending m).2
      · -- the field's ranks tell the results apart: the later comparators cannot reorder them
        rw [if_pos hstop]
        have hext := extends_rankLoopAll store rs comparators
          (rankField store rs pos field ascending m).1 (le_refl (pos + 1))
        exact (order_eq_of_distinct (hext.keys_eq (covers_rankField store rs pos field ascending m))
          hm'.nodup hext.take_eq (distinct_rankField store rs (by omega) field ascending hm hstop)).symm
      · rw [if_neg hstop]
        exact ih (pos + 1) _ hlen hm'
    | documentSet set ascending =>
      exact ih (pos + 1) _ hlen ((extends_rankSet rs (le_refl pos) set ascending m).ranking hm)

/-- Ending the ranking at a field whose values are all distinct orders the results as ranking
them by every comparator does. -/
theorem rankComparators_order (store : Store κ) (rs : ResultSet) (comparators : List Comparator) :
    (sortEntries (rankComparators store rs comparators)).map Prod.fst =
      (sortEntries (rankAll store rs comparators)).map Prod.fst :=
  rankLoop_order store rs (comparators.take 4) 0 [] (by simp) (ranking_nil _)

/-- The sort by several comparators returns what it would return if it ranked the results by
every comparator. -/
theorem sortByRanks_eq_rankAll (store : Store κ) (rs : ResultSet) (comparators : List Comparator)
    (pg : Pagination.Pagination κ) :
    sortByRanks store rs comparators pg =
      (feedPrefixed store pg ((sortEntries (rankAll store rs comparators)).map Prod.fst)).build := by
  rw [sortByRanks, rankComparators_order]

theorem rankComparators_perm (store : Store κ) (rs : ResultSet) {comparators : List Comparator}
    (hne : comparators ≠ []) :
    ((sortEntries (rankComparators store rs comparators)).map Prod.fst).Perm rs.results.ids := by
  have hm : Ranking rs.results.ids (rankComparators store rs comparators) :=
    (extends_rankLoop store rs (comparators.take 4) [] (le_refl 0)).ranking (ranking_nil _)
  have htake : comparators.take 4 ≠ [] := by simpa [List.take_eq_nil_iff] using hne
  have hkeys : (keys (rankComparators store rs comparators)).Perm rs.results.ids := by
    rw [List.perm_ext_iff_of_nodup hm.nodup rs.results.nodup]
    exact fun d => ⟨hm.subset d, covers_rankLoop store rs htake 0 [] d⟩
  exact ((List.perm_insertionSort _ _).map Prod.fst).trans hkeys

/-! ## The full sort -/

theorem sortLimit_self {total : ℕ} (htotal : total ≠ 0) : sortLimit total total = total := by
  simp [sortLimit, htotal]

theorem build_feed_all {limit : ℕ} (hlimit : 0 < limit) {docs : List (UInt32 × UInt32)}
    (hlen : docs.length = limit) :
    (feed (new limit 0 none 0 : Pagination.Pagination κ) docs).1.build.ids = docs.map idOf := by
  rw [build_feed_noAnchor hlimit]
  simp [window, startIndex, ← hlen, List.take_of_length_le]

/-- The sort of IMAP `SORT` and of a thread's emails, with `Pagination::new(len, 0, None, 0)`,
returns every result exactly once, whatever the comparators. -/
theorem sort_full_perm (store : Store κ) (rs : ResultSet) (comparators : List Comparator) :
    (sort store rs comparators (new rs.results.len 0 none 0 : Pagination.Pagination κ)).ids.Perm
      (rs.results.ids.map (packId 0)) := by
  by_cases hempty : rs.results.len = 0
  · have hnil : rs.results.ids = [] := List.length_eq_zero_iff.mp hempty
    simp [sort_of_isEmpty store hempty, hnil]
  set pg : Pagination.Pagination κ := new rs.results.len 0 none 0
  have hpg : ({ pg with limit := sortLimit rs.results.len pg.limit } : Pagination.Pagination κ) = pg := by
    simp only [pg, new, sortLimit_self hempty]
  have hfeed : ∀ docs : List UInt32, docs.Perm rs.results.ids →
      (feed pg (unprefixed docs)).1.build.ids.Perm (rs.results.ids.map (packId 0)) := by
    intro docs hperm
    have hlen : (unprefixed docs).length = rs.results.len := by
      simpa [unprefixed, Bitmap.len] using hperm.length_eq
    rw [build_feed_all (Nat.pos_of_ne_zero hempty) hlen]
    simpa [unprefixed, idOf, Function.comp_def] using hperm.map (packId 0)
  have hroom : Room pg := ⟨.inl ⟨rfl, le_refl 0⟩, by simpa [pg, new] using Nat.pos_of_ne_zero hempty⟩
  rcases comparators with _ | ⟨comparator, _ | ⟨c₂, comparators⟩⟩
  · rw [sort_nil store hempty, hpg, sortPlain, feedPrefixed_of_none store rfl]
    exact hfeed _ (List.Perm.refl _)
  · rw [sort_one_new store hempty, sortLimit_self hempty]
    cases comparator with
    | field field ascending =>
      show (sortByField store rs field ascending pg).build.ids.Perm _
      rw [sortByField_eq_feed store rs field ascending hroom]
      exact hfeed _ (fieldOrder_perm _ _)
    | documentSet set ascending =>
      show (sortBySet rs set ascending pg).build.ids.Perm _
      have hparts := Bitmap.and_append_xor_perm rs.results set
      cases ascending with
      | true => exact hfeed _ (by simpa using hparts)
      | false => exact hfeed _ (by simpa using List.perm_append_comm.trans hparts)
  · rw [sort_many store hempty (by simp), hpg, sortByRanks, feedPrefixed_of_none store rfl]
    exact hfeed _ (rankComparators_perm store rs (List.cons_ne_nil _ _))

end MailServer.Store.Ranks
