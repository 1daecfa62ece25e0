import Mathlib.Data.List.Basic
import Mathlib.Data.List.Nodup

/-! # Association lists

Lists of key-value pairs read with `List.lookup`, which finds the first pair of a key. Where
the keys are distinct, `lookup` finds exactly the pairs of the list
(`lookup_eq_some_iff_mem`). Appending a pair of a new key, rewriting the pairs of a key and
dropping them change the lookup of that key only.
-/

namespace MailServer.Lib.AssocList

variable {κ β : Type}

/-- The keys of the list, in order. -/
def keys (l : List (κ × β)) : List κ := l.map Prod.fst

@[simp] theorem keys_nil : keys ([] : List (κ × β)) = [] := rfl

@[simp] theorem keys_cons (a : κ × β) (l : List (κ × β)) : keys (a :: l) = a.1 :: keys l := rfl

theorem keys_append_new (l : List (κ × β)) (d : κ) (v : β) :
    keys (l ++ [(d, v)]) = keys l ++ [d] := by
  simp [keys]

theorem keys_filter_sublist (l : List (κ × β)) (p : κ × β → Bool) :
    (keys (l.filter p)).Sublist (keys l) :=
  (List.filter_sublist).map Prod.fst

variable [DecidableEq κ]

theorem lookup_cons (k q : κ) (w : β) (l : List (κ × β)) :
    ((q, w) :: l).lookup k = if k = q then some w else l.lookup k := by
  rw [List.lookup_cons]
  by_cases h : k = q
  · subst h
    simp
  · simp [beq_false_of_ne h, h]

theorem lookup_eq_none_of_not_mem {l : List (κ × β)} {k : κ} (h : k ∉ keys l) : l.lookup k = none := by
  induction l with
  | nil => rfl
  | cons a l ih =>
    obtain ⟨q, w⟩ := a
    simp only [keys_cons, List.mem_cons, not_or] at h
    rw [lookup_cons, if_neg h.1, ih h.2]

theorem mem_keys_of_lookup {l : List (κ × β)} {k : κ} {v : β} (h : l.lookup k = some v) :
    k ∈ keys l := by
  by_contra hk
  rw [lookup_eq_none_of_not_mem hk] at h
  cases h

theorem lookup_of_mem {l : List (κ × β)} {k : κ} (h : k ∈ keys l) : ∃ v, l.lookup k = some v := by
  induction l with
  | nil => cases h
  | cons a l ih =>
    obtain ⟨q, w⟩ := a
    rw [lookup_cons]
    by_cases hk : k = q
    · exact ⟨w, if_pos hk⟩
    · rw [if_neg hk]
      exact ih ((List.mem_cons.mp h).resolve_left hk)

theorem mem_of_lookup_eq_some {l : List (κ × β)} {k : κ} {v : β} (h : l.lookup k = some v) :
    (k, v) ∈ l := by
  induction l with
  | nil => cases h
  | cons a l ih =>
    obtain ⟨q, w⟩ := a
    rw [lookup_cons] at h
    by_cases hk : k = q
    · rw [if_pos hk, Option.some.injEq] at h
      subst hk h
      exact List.mem_cons_self
    · rw [if_neg hk] at h
      exact List.mem_cons_of_mem _ (ih h)

theorem lookup_eq_some_iff_mem {l : List (κ × β)} (hnd : (keys l).Nodup) {k : κ} {v : β} :
    l.lookup k = some v ↔ (k, v) ∈ l := by
  induction l with
  | nil => simp
  | cons a l ih =>
    obtain ⟨q, w⟩ := a
    rw [keys_cons, List.nodup_cons] at hnd
    rw [lookup_cons, List.mem_cons]
    by_cases hk : k = q
    · subst hk
      have hk' : k ∉ keys l := hnd.1
      have hnot : (k, v) ∉ l := fun hm => hk' (List.mem_map_of_mem (f := Prod.fst) hm)
      simp [hnot, eq_comm]
    · simp [hk, ih hnd.2]

theorem lookup_append_new {l : List (κ × β)} {d : κ} (hd : d ∉ keys l) (v : β) (k : κ) :
    (l ++ [(d, v)]).lookup k = if k = d then some v else l.lookup k := by
  induction l with
  | nil => simp [lookup_cons]
  | cons a l ih =>
    obtain ⟨q, w⟩ := a
    simp only [keys_cons, List.mem_cons, not_or] at hd
    rw [List.cons_append, lookup_cons, lookup_cons, ih hd.2]
    by_cases hk : k = q
    · subst hk
      simp [Ne.symm hd.1]
    · simp [hk]

/-- Every pair of key `d` rewritten to `(d, v)`. -/
def replace (l : List (κ × β)) (d : κ) (v : β) : List (κ × β) :=
  l.map fun e => if e.1 = d then (d, v) else e

theorem keys_replace (l : List (κ × β)) (d : κ) (v : β) : keys (replace l d v) = keys l := by
  induction l with
  | nil => rfl
  | cons a l ih =>
    by_cases h : a.1 = d
    · simp [replace, keys, h] at ih ⊢
      exact ih
    · simp [replace, keys, h] at ih ⊢
      exact ih

theorem lookup_replace (l : List (κ × β)) (d : κ) (v : β) (k : κ) :
    (replace l d v).lookup k = if k = d then (l.lookup d).map fun _ => v else l.lookup k := by
  induction l with
  | nil => by_cases h : k = d <;> simp [replace, h]
  | cons a l ih =>
    obtain ⟨q, w⟩ := a
    have hcons : replace ((q, w) :: l) d v = (if q = d then (d, v) else (q, w)) :: replace l d v := rfl
    rw [hcons]
    by_cases hq : q = d
    · subst hq
      by_cases hk : k = q <;> simp [lookup_cons, hk, ih]
    · by_cases hk : k = d
      · subst hk
        simp [lookup_cons, Ne.symm hq, hq, ih]
      · simp [lookup_cons, hq, hk, ih]

theorem keys_map_modify (l : List (κ × β)) (d : κ) (g : β → β) :
    keys (l.map fun e => if e.1 = d then (e.1, g e.2) else e) = keys l := by
  induction l with
  | nil => rfl
  | cons a l ih =>
    by_cases h : a.1 = d
    · simpa [keys, h] using ih
    · simpa [keys, h] using ih

theorem lookup_map_modify (l : List (κ × β)) (d : κ) (g : β → β) (k : κ) :
    (l.map fun e => if e.1 = d then (e.1, g e.2) else e).lookup k =
      if k = d then (l.lookup d).map g else l.lookup k := by
  induction l with
  | nil => by_cases h : k = d <;> simp [h]
  | cons a l ih =>
    obtain ⟨q, w⟩ := a
    rw [List.map_cons, lookup_cons]
    by_cases hq : q = d
    · subst hq
      by_cases hk : k = q <;> simp [lookup_cons, hk, ih]
    · by_cases hk : k = d
      · subst hk
        simp [lookup_cons, Ne.symm hq, hq, ih]
      · simp [lookup_cons, hq, hk, ih]

theorem lookup_filter_ne (l : List (κ × β)) (d k : κ) :
    (l.filter fun e => e.1 ≠ d).lookup k = if k = d then none else l.lookup k := by
  induction l with
  | nil => by_cases h : k = d <;> simp [h]
  | cons a l ih =>
    obtain ⟨q, w⟩ := a
    by_cases hq : q = d
    · subst hq
      rw [List.filter_cons_of_neg (by simp), ih, lookup_cons]
      by_cases hk : k = q <;> simp [hk]
    · rw [List.filter_cons_of_pos (by simpa using hq), lookup_cons, lookup_cons, ih]
      by_cases hk : k = d
      · simp [hk, Ne.symm hq]
      · simp [hk]

/-- `HashMap::insert`: the pairs of key `d` rewritten to `(d, v)`, or `(d, v)` appended where
there is none. -/
def insert (l : List (κ × β)) (d : κ) (v : β) : List (κ × β) :=
  if d ∈ keys l then replace l d v else l ++ [(d, v)]

theorem lookup_insert (l : List (κ × β)) (d : κ) (v : β) (k : κ) :
    (insert l d v).lookup k = if k = d then some v else l.lookup k := by
  unfold insert
  split_ifs with hd hk hk
  · obtain ⟨w, hw⟩ := lookup_of_mem hd
    rw [lookup_replace, if_pos hk, hw, Option.map_some]
  · rw [lookup_replace, if_neg hk]
  · rw [lookup_append_new hd, if_pos hk]
  · rw [lookup_append_new hd, if_neg hk]

theorem nodup_keys_insert {l : List (κ × β)} (h : (keys l).Nodup) (d : κ) (v : β) :
    (keys (insert l d v)).Nodup := by
  unfold insert
  split_ifs with hd
  · rwa [keys_replace]
  · rw [keys_append_new]
    exact h.append (List.nodup_singleton d) (by simpa using hd)

/-- The values of an association list of lists hold no item twice when each value holds none
twice and the values of two keys share none. -/
theorem nodup_flatten_values {α : Type} {l : List (κ × List α)} (hkeys : (keys l).Nodup)
    (hvals : ∀ k vs, l.lookup k = some vs → vs.Nodup)
    (hdisj : ∀ k k' vs vs', l.lookup k = some vs → l.lookup k' = some vs' → k ≠ k' → vs.Disjoint vs') :
    (l.map Prod.snd).flatten.Nodup := by
  induction l with
  | nil => exact List.nodup_nil
  | cons e l ih =>
    obtain ⟨k, vs⟩ := e
    rw [keys_cons, List.nodup_cons] at hkeys
    have htail : ∀ {k' vs'}, l.lookup k' = some vs' → ((k, vs) :: l).lookup k' = some vs' ∧ k' ≠ k := by
      intro k' vs' hl
      have hne : k' ≠ k := fun he => hkeys.1 (he ▸ mem_keys_of_lookup hl)
      exact ⟨by rw [lookup_cons, if_neg hne, hl], hne⟩
    have hhead : ((k, vs) :: l).lookup k = some vs := by rw [lookup_cons, if_pos rfl]
    rw [List.map_cons, List.flatten_cons, List.nodup_append]
    refine ⟨hvals k vs hhead, ih hkeys.2 (fun k' vs' hl => hvals k' vs' (htail hl).1) ?_, ?_⟩
    · intro k₁ k₂ vs₁ vs₂ h₁ h₂ hne
      exact hdisj k₁ k₂ vs₁ vs₂ (htail h₁).1 (htail h₂).1 hne
    · intro x hx y hy hxy
      subst hxy
      obtain ⟨vs', hvs', hxvs'⟩ := List.mem_flatten.mp hy
      obtain ⟨⟨k', vs'⟩, hmem, rfl⟩ := List.mem_map.mp hvs'
      have hl : l.lookup k' = some vs' := (lookup_eq_some_iff_mem hkeys.2).mpr hmem
      obtain ⟨hl', hne⟩ := htail hl
      exact hdisj k k' vs vs' hhead hl' (Ne.symm hne) hx hxvs'

end MailServer.Lib.AssocList
