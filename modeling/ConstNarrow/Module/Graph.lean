/-
**Directed graphs** on the numbers below a bound, their strongly connected components and an order
of the components in which each comes after those that it leads to.

A depth-first walk from every node in turn finishes a node after all that it newly reaches. Two
nodes belong to one component if each reaches the other. Of a component, the node that finishes
last was entered first, and when it finishes, everything that it reaches has finished: so the
components, each taken at its last node, come in the wanted order.
-/

set_option autoImplicit false

namespace ConstNarrow

/-- A graph: the number of nodes, and the successors of each in the order in which they are
visited. -/
structure Graph where
  size : Nat
  successors : Nat → List Nat

namespace Graph

/-- How far a walk has come: the nodes it has entered, and those it has finished, in order. -/
structure Walk where
  entered : List Nat
  finished : List Nat
deriving DecidableEq, Repr

namespace Walk

/-- The walk that has not begun. -/
def start : Walk := ⟨[], []⟩

/-- Enters a node. -/
def enter (walk : Walk) (node : Nat) : Walk := { walk with entered := node :: walk.entered }

/-- Finishes a node. -/
def finish (walk : Walk) (node : Nat) : Walk := { walk with finished := walk.finished ++ [node] }

end Walk

/-- Visits a node, and before finishing it all its successors, unless it has been entered. The
first argument bounds the nesting; a walk nests no deeper than there are nodes. -/
def visit (g : Graph) : Nat → Nat → Walk → Walk
  | 0, _, walk => walk
  | n + 1, node, walk =>
    if walk.entered.contains node then walk
    else ((g.successors node).foldl (fun walk next => g.visit n next walk) (walk.enter node)).finish node

/-- The walk from every node in turn. -/
def fullWalk (g : Graph) : Walk :=
  (List.range g.size).foldl (fun walk node => g.visit (g.size + 1) node walk) .start

/-- The nodes that a node reaches, itself among them. -/
def reached (g : Graph) (node : Nat) : List Nat := (g.visit (g.size + 1) node .start).entered

/-- For each node the nodes that it reaches. -/
def reachTable (g : Graph) : Array (List Nat) := ((List.range g.size).map g.reached).toArray

/-- Whether one node reaches another, by the table. -/
def reaches (table : Array (List Nat)) (a b : Nat) : Bool := (table[a]?.getD []).contains b

/-- Whether two nodes reach each other. -/
def connected (table : Array (List Nat)) (a b : Nat) : Bool := reaches table a b && reaches table b a

/-- The nodes of the component of a node, in ascending order. -/
def componentOf (g : Graph) (table : Array (List Nat)) (node : Nat) : List Nat :=
  (List.range g.size).filter (connected table node)

/-- The nodes of a list after which no other of their component comes. -/
def lastOfEach (table : Array (List Nat)) : List Nat → List Nat
  | [] => []
  | node :: later =>
    -- a node of the same component finishes later and stands for it
    if later.any (connected table node) then lastOfEach table later
    else node :: lastOfEach table later

/-- The components in the order in which their last nodes finish. -/
def components (g : Graph) : List (List Nat) :=
  let table := g.reachTable
  (lastOfEach table g.fullWalk.finished).map (g.componentOf table)

end Graph

end ConstNarrow
