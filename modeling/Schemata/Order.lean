/-!
# Order of definitions

Definitions have a name and use other names. `order` puts every definition after those it uses, as
far as that can be done: in rounds, each of which takes all definitions that wait for no other one.
A definition may use itself. What is left when no definition can be taken is caught in cycles or
waits for one; it keeps its order, and `cycles` finds the cycles.
-/

namespace Schemata.Order

variable {α κ : Type} [DecidableEq κ] (name : α → κ) (uses : α → List κ)

/-- Whether a definition waits for no other one: what it uses has been taken, is not defined here or
is itself. -/
def isReady (defined taken : List κ) (item : α) : Bool :=
  (uses item).all fun used => used ∈ taken || used ∉ defined || used = name item

/-- Take definitions in rounds until none is ready. A round takes all that are ready, and what has
the name of a taken one is no longer waited for. The answer is what was taken and what is left. -/
def rounds (defined : List κ) : Nat → List κ → List α → List α × List α
  | 0, _, pending => ([], pending)
  | more + 1, taken, pending =>
    let ready := pending.filter (isReady name uses defined taken)
    if ready.isEmpty then ([], pending)
    else
      let taken := taken ++ ready.map name
      let others := pending.filter fun item => name item ∉ taken
      let (ordered, left) := rounds defined more taken others
      (ready ++ ordered, left)

/-- The names that the last definition of a name waits for, among those that are left. -/
def waitsFor (left : List α) (key : κ) : List κ :=
  match (left.reverse.find? fun item => name item = key) with
  | some item => (uses item).filter fun used => used ∈ left.map name && used ≠ key
  | none => []

/-- Follow the first name that is waited for, until a name comes again or was walked before. The
answer is the names on the way, in order, and the name at which the walk ends. -/
def walk (left : List α) (walked : List κ) : Nat → List κ → κ → List κ × κ
  | 0, chain, key => (chain, key)
  | more + 1, chain, key =>
    if key ∈ walked || key ∈ chain then (chain, key)
    else
      match waitsFor name uses left key with
      | next :: _ => walk left walked more (chain ++ [key]) next
      | [] => (chain ++ [key], key)

/-- The cycles that walks from the given names end in, each with its first name at both ends. -/
def cyclesFrom (left : List α) (walked : List κ) : List κ → List (List κ)
  | [] => []
  | start :: rest =>
    let (chain, last) := walk name uses left walked (left.length + 1) [] start
    let others := cyclesFrom left (walked ++ chain) rest
    if last ∈ chain then (chain.dropWhile (· ≠ last) ++ [last]) :: others else others

/-- The cycles among definitions that all wait for others. -/
def cycles (left : List α) : List (List κ) :=
  cyclesFrom name uses left [] (left.map name).eraseDups

/-- The definitions in order, and the cycles that stand against it. -/
def order (items : List α) : List α × List (List κ) :=
  let (ordered, left) := rounds name uses (items.map name) items.length [] items
  (ordered ++ left, cycles name uses left)

end Schemata.Order
