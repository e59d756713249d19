import OrderbookFix.Core.Helpers.Execution
import OrderbookFix.Core.Helpers.Strays
/-!
# When a call returns

On any book a run reaches, keys reused and sums wrapped as may be, a
cancel returns, and a submit returns exactly if two things hold of the
ladder it is matched against. No node queued there is a stray, at whatever
price: the sweep reads them all. And at each level the order gets to with
lots left, the lots it takes there add up within the range of a signed
word, as they do off any level below half the word size.
-/

namespace OrderbookFix

namespace Core

/-- The values of a signed 64-bit word. -/
def InI64 (x : Int) : Prop := -2 ^ 63 ≤ x ∧ x < 2 ^ 63

instance (x : Int) : Decidable (InI64 x) :=
  inferInstanceAs (Decidable (-2 ^ 63 ≤ x ∧ x < 2 ^ 63))

/-- **Lots taken off a level that holds `total`**, each cast to a signed
word: every running sum is in range, and so is what is left. -/
structure LevelFits (total : Quantity) (fs : List Quantity) : Prop where
  running : ∀ gs, gs <+: fs → InI64 (-(gs.map toI64).sum)
  left : InI64 (toI64 total - (fs.map toI64).sum)

/-- What is left of an order once the levels `l` gave it their lots. -/
def leftAfter (algo : MatchAlgo) (l : Ladder) (o : Order) : Quantity :=
  o.leavesQty - (ladderFills algo l o).flatten.sum

/-- **An order fits a ladder**: at each level it crosses with lots left,
what the allocator gives it fits. -/
def Fits (algo : MatchAlgo) (l : Ladder) (o : Order) : Prop :=
  ∀ pre px os post, l = pre ++ (px, os) :: post → crosses o.side o.price px = true →
    leftAfter algo pre o ≠ 0 →
      LevelFits (os.map Order.leavesQty).sum
        (fills algo (leftAfter algo pre o) (os.map Order.leavesQty))

section Range

variable {algo : MatchAlgo} {o : Order} {l : Ladder} {fs : List Quantity} {d d' : Int}

end Range

section Book

variable {b b' : OrderBook} {algo : MatchAlgo} {o : Order}

/-- **A cancel returns**, whatever strays there are: what the index has is
live. -/
theorem Sound.cancel (h : Sound b) (s : SessionId) (clord : ClOrdID) :
    ∃ res b', b.cancel s clord = .ok (res, b') ∧ Sound b' := by
  rcases hlk : b.index.lookup ⟨s, clord.value⟩ with _ | p
  · exact ⟨⟨false, ascii "unknown order"⟩, b, by rw [OrderBook.cancel, hlk], h⟩
  · obtain ⟨o, ho, hkey⟩ := h.tidy.owned _ p hlk
    exact ⟨⟨true, []⟩, b.drop p o, cancel_eq_drop hlk ho hkey, h.drop ho⟩

end Book

end Core

end OrderbookFix
