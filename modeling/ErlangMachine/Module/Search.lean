/-!
# Searching in order

Items that stand in order are searched by halving. A search tells where an item that fits stands, or
else where one would have to be put for the order to stay.
-/

namespace ErlangMachine

/-- What a search has come to. -/
inductive Spot where
  /-- An item fits. -/
  | found (index : Nat)
  /-- No item fits, and one that does belongs before the item at the index. -/
  | vacant (index : Nat)
  deriving DecidableEq, Repr

section Search

variable {α : Type} (order : α → Ordering) (items : Array α)

/-- Halves the `size` items from `base` on until one is left. It is the last that does not come
after what is searched for, or the first if all do. -/
def halve (base size : Nat) : Nat :=
  if size ≤ 1 then base
  else
    let half := size / 2
    if items[base + half]?.any fun x => order x == .gt then halve base (size - half)
    else halve (base + half) (size - half)
termination_by size

/-- Searches for an item, where `order` tells how an item stands to what is searched for. -/
def search : Spot :=
  let index := halve order items 0 items.size
  match items[index]?.map order with
  | some .eq => .found index
  | some .lt => .vacant (index + 1)
  | some .gt | none => .vacant index

end Search

/-- How many items at the front have a property, where those that have it come first. -/
def partitionPoint {α : Type} (holds : α → Bool) (items : Array α) : Nat :=
  match search (fun x => if holds x then .lt else .gt) items with
  | .found index | .vacant index => index

end ErlangMachine
