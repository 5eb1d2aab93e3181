import Mathlib.Data.List.Basic
/-!
# Framing — a stream cut into items as it arrives

A buffer begins with an item, with the start of one, or with what no more input can repair.  What a buffer begins with does
not change when more arrives behind it, so the items do not depend on how the stream arrives.
-/
namespace Lish

/-- What a buffer begins with. -/
inductive Head (β α : Type) where
  | incomplete
  | broken
  | item (a : α) (rest : List β)

structure Framing (β α : Type) where
  head : List β → Head β α
  shorter : ∀ {b : List β} {a : α} {rest : List β}, head b = .item a rest → rest.length < b.length
  item_append : ∀ {b : List β} {a : α} {rest : List β} (more : List β), head b = .item a rest →
    head (b ++ more) = .item a (rest ++ more)
  broken_append : ∀ {b : List β} (more : List β), head b = .broken → head (b ++ more) = .broken

namespace Framing

variable {β α : Type} (F : Framing β α)

/-- The buffer begins with these items; this is what follows them. -/
inductive Cut : List β → List α → List β → Prop
  | nil (b : List β) : Cut b [] b
  | cons {b b' rest : List β} {a : α} {as : List α} : F.head b = .item a b' → Cut b' as rest → Cut b (a :: as) rest

/-- All the items of a buffer, and whether it breaks after them. -/
def items (b : List β) : List α × Bool :=
  match _h : F.head b with
  | .incomplete => ([], false)
  | .broken => ([], true)
  | .item a rest => (a :: (items rest).1, (items rest).2)
termination_by b.length
decreasing_by all_goals exact F.shorter _h

variable {F}

theorem items_incomplete {b : List β} (h : F.head b = .incomplete) : F.items b = ([], false) := by
  rw [items]
  split
  · rfl
  · rename_i h'
    rw [h] at h'
    cases h'
  · rename_i h'
    rw [h] at h'
    cases h'

theorem items_broken {b : List β} (h : F.head b = .broken) : F.items b = ([], true) := by
  rw [items]
  split
  · rename_i h'
    rw [h] at h'
    cases h'
  · rfl
  · rename_i h'
    rw [h] at h'
    cases h'

theorem items_item {b rest : List β} {a : α} (h : F.head b = .item a rest) :
    F.items b = (a :: (F.items rest).1, (F.items rest).2) := by
  rw [items]
  split
  · rename_i h'
    rw [h] at h'
    cases h'
  · rename_i h'
    rw [h] at h'
    cases h'
  · rename_i h'
    rw [h] at h'
    cases h'
    rfl

namespace Cut

variable {b mid rest : List β} {as as' : List α}

theorem one {a : α} (h : F.head b = .item a rest) : F.Cut b [a] rest := .cons h (.nil rest)

theorem append (h : F.Cut b as rest) (more : List β) : F.Cut (b ++ more) as (rest ++ more) := by
  induction h with
  | nil b => exact .nil _
  | cons hh _ ih => exact .cons (F.item_append more hh) ih

theorem trans (h : F.Cut b as mid) (h' : F.Cut mid as' rest) : F.Cut b (as ++ as') rest := by
  induction h with
  | nil b => exact h'
  | cons hh _ ih => exact .cons hh (ih h')

/-- **The items of a buffer** are those cut off it and those of what follows them. -/
theorem items (h : F.Cut b as mid) : F.items b = (as ++ (F.items mid).1, (F.items mid).2) := by
  induction h with
  | nil b => rfl
  | cons hh _ ih => rw [items_item hh, ih, List.cons_append]

end Cut

end Framing

end Lish
