import Mathlib.Data.List.Basic

/-!
# Fencing chains

A resource that is opened again and again, each open at a higher epoch than the one before,
and whose last opener alone may write. The chain is the list of its openers in order, an
epoch is a place in it, and an open adds one place, so what is known of an epoch stays known.
-/

namespace Shale.Fencing

variable {Node : Type} {opens : List Node} {epoch other : Nat} {node node' : Node}

def OpenedBy (opens : List Node) (epoch : Nat) (node : Node) : Prop :=
  opens[epoch]? = some node

def Unfenced (opens : List Node) (epoch : Nat) : Prop :=
  epoch + 1 = opens.length

instance : Decidable (Unfenced opens epoch) := inferInstanceAs (Decidable (_ = _))

theorem OpenedBy.lt_length (opened : OpenedBy opens epoch node) : epoch < opens.length :=
  (List.getElem?_eq_some_iff.mp opened).1

theorem OpenedBy.append (opened : OpenedBy opens epoch node) (more : List Node) :
    OpenedBy (opens ++ more) epoch node := by
  unfold OpenedBy
  rw [List.getElem?_append_left opened.lt_length]
  exact opened

theorem openedBy_append_self : OpenedBy (opens ++ [node]) opens.length node :=
  List.getElem?_concat_length

theorem OpenedBy.unique (opened : OpenedBy opens epoch node)
    (opened' : OpenedBy opens epoch node') : node = node' :=
  Option.some.inj (opened.symm.trans opened')

theorem Unfenced.le (unfenced : Unfenced opens epoch) (opened : OpenedBy opens other node) :
    other ≤ epoch := by
  have below := opened.lt_length
  rw [← unfenced] at below
  omega

end Shale.Fencing
