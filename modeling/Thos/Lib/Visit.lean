/-!
# Depth-first walks

A walk over a graph whose vertices list their successors in order. A vertex is put on the list
of those seen when it is entered, before its successors are walked, and a vertex that is on the
list is passed over. The list at the end is then the order of first visits.
-/

set_option autoImplicit false

namespace Thos.Lib

variable {α : Type}

/-- From the list `seen`, walking the vertices `ns` one after the other gives the list `seen'`. -/
inductive Visit (succ : α → List α) : List α → List α → List α → Prop
  | nil (seen : List α) : Visit succ seen [] seen
  | skip {n : α} {ns seen seen' : List α} (hn : n ∈ seen) (rest : Visit succ seen ns seen') :
      Visit succ seen (n :: ns) seen'
  | enter {n : α} {ns seen mid seen' : List α} (hn : n ∉ seen)
      (below : Visit succ (seen ++ [n]) (succ n) mid) (rest : Visit succ mid ns seen') :
      Visit succ seen (n :: ns) seen'

namespace Visit

variable {succ : α → List α} {seen mid seen' ns ms : List α}

theorem append (h : Visit succ seen ns mid) (h' : Visit succ mid ms seen') :
    Visit succ seen (ns ++ ms) seen' := by
  induction h with
  | nil => exact h'
  | skip hn _ ih => exact .skip hn (ih h')
  | enter hn below _ _ ih => exact .enter hn below (ih h')

end Visit

end Thos.Lib
