import Mathlib.Logic.Relation
import Mathlib.Order.WellFounded

/-! # Parent pointers that lead to a root

A forest is given by `up : α → Option α`, the parent of each node, and the roots `root`.
`Rooted up root v` says that following `up` from `v` reaches a root; `RootedAvoiding up
root c v` says that it does so without passing `c`. Where every chain is rooted and roots
have no parent, no node is its own ancestor (`Rooted.not_ancestor_self`). A chain that
avoids `c` is untouched by a change at `c` (`RootedAvoiding.frame`), so pointing `c`
somewhere else keeps every chain rooted once the new chain from `c` is rooted
(`Rooted.repoint`).
-/

namespace MailServer.Lib.Forest

variable {α : Type} (up : α → Option α) (root : α → Prop)

/-- Following `up` from the node reaches a root. -/
inductive Rooted : α → Prop
  | root {v : α} : root v → Rooted v
  | up {v w : α} : up v = some w → Rooted w → Rooted v

/-- Following `up` from the node reaches a root without passing `c`. -/
inductive RootedAvoiding (c : α) : α → Prop
  | root {v : α} : v ≠ c → root v → RootedAvoiding c v
  | up {v w : α} : v ≠ c → up v = some w → RootedAvoiding c w → RootedAvoiding c v

/-- `w` is reached from `v` by one or more parent steps. -/
def Ancestor (v w : α) : Prop := Relation.TransGen (fun a b => up a = some b) v w

variable {up root} {up' : α → Option α} {c v : α}

theorem RootedAvoiding.rooted (h : RootedAvoiding up root c v) : Rooted up root v := by
  induction h with
  | root _ hr => exact .root hr
  | up _ hup _ ih => exact .up hup ih

theorem RootedAvoiding.frame (hagree : ∀ v, v ≠ c → up' v = up v)
    (h : RootedAvoiding up root c v) : Rooted up' root v := by
  induction h with
  | root _ hr => exact .root hr
  | up hv hup _ ih => exact .up ((hagree _ hv).trans hup) ih

theorem Rooted.avoiding (hc : up c = none) (hroot : ¬root c) (h : Rooted up root v) :
    RootedAvoiding up root c v := by
  induction h with
  | root hr => exact .root (fun he => hroot (he ▸ hr)) hr
  | up hup _ ih => exact .up (fun he => by rw [he, hc] at hup; cases hup) hup ih

theorem Rooted.avoiding_of_no_child (hchild : ∀ u, up u ≠ some c) (hv : v ≠ c)
    (h : Rooted up root v) : RootedAvoiding up root c v := by
  induction h with
  | root hr => exact .root hv hr
  | @up u w hup hw ih =>
    have hwc : w ≠ c := fun he => hchild u (he ▸ hup)
    exact .up hv hup (ih hwc)

theorem Rooted.repoint (hagree : ∀ v, v ≠ c → up' v = up v) (hc : Rooted up' root c)
    (h : Rooted up root v) : Rooted up' root v := by
  induction h with
  | root hr => exact .root hr
  | @up u w hup _ ih =>
    by_cases hu : u = c
    · exact hu ▸ hc
    · exact .up ((hagree u hu).trans hup) ih

theorem Rooted.acc (hroot : ∀ v, root v → up v = none) (h : Rooted up root v) :
    Acc (fun a b => up b = some a) v := by
  induction h with
  | @root u hr => exact ⟨_, fun a ha => by rw [hroot u hr] at ha; cases ha⟩
  | @up u w hup _ ih =>
    refine ⟨_, fun a ha => ?_⟩
    rw [hup, Option.some.injEq] at ha
    exact ha ▸ ih

theorem not_rel_self_of_acc {r : α → α → Prop} {a : α} (h : Acc r a) : ¬r a a := by
  induction h with
  | intro a _ ih => exact fun haa => ih a haa haa

theorem Rooted.not_ancestor_self (hroot : ∀ v, root v → up v = none) (h : Rooted up root v) :
    ¬Ancestor up v v := fun hanc =>
  not_rel_self_of_acc (acc_transGen_iff.mpr (h.acc hroot)) (Relation.transGen_swap.mp hanc)

end MailServer.Lib.Forest
