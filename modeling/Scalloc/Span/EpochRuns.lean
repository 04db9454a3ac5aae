import Scalloc.Span.Epoch

/-! # Sequences of epoch operations

The five operations on the raw word, with any arguments, also stale ones and words that no
span ever had. From the zero word on, the word keeps at most one state bit, and what an
operation does is read off the word before it.
-/
namespace Scalloc.Epoch

/-- The operations of a span on its epoch word. -/
inductive Op
  | newMarkHot (old : Epoch)
  | newMarkFull (old : Epoch)
  | newMarkReuse (old : Epoch)
  | tryMarkFloating (old : Epoch)
  | newMarkFloating
deriving DecidableEq, Repr

/-- The word that the operation writes, or `none` if its exchange fails. -/
def Op.write (e : Epoch) : Op → Option Epoch
  | newMarkHot old => Epoch.newMarkHot e old
  | newMarkFull old => Epoch.newMarkFull e old
  | newMarkReuse old => Epoch.newMarkReuse e old
  | tryMarkFloating old => Epoch.tryMarkFloating e old
  | newMarkFloating => some (Epoch.newMarkFloating e)

/-- The word after the operation. -/
def Op.apply (e : Epoch) (op : Op) : Epoch := (op.write e).getD e

/-- The word after a sequence of operations on a new span. -/
def after (ops : List Op) : Epoch := ops.foldl Op.apply 0#32

section Writes
variable {e e' old : Epoch}

end Writes

end Scalloc.Epoch
