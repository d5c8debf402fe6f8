import ExactSimplex.Trace.Conversion

/-! Shortest ways through the conversions, found breadth first. Each kind joins the queue at
most once, so the search is bounded by the number of kinds; of equally short ways the one
that begins with the earlier conversion wins. -/

namespace ExactSimplex.Plan

/-- What the search holds: the kinds it has met, and those it has yet to leave, each with
the conversions that led to it, the latest first. -/
structure Frontier where
  met : List StateKind
  queue : List (StateKind × List Conversion)

/-- Meet the target of a conversion that goes on from `path`. -/
def Frontier.meet (path : List Conversion) (f : Frontier) (c : Conversion) : Frontier :=
  if f.met.contains c.target then f
  else ⟨c.target :: f.met, f.queue ++ [(c.target, c :: path)]⟩

/-- Leave kinds in the order of the queue until the goal comes up. -/
def search (goal : StateKind) : Nat → Frontier → Option (List Conversion)
  | 0, _ => none
  | fuel + 1, f =>
    match f.queue with
    | [] => none
    | (kind, path) :: queue =>
      if kind = goal then some path.reverse
      else
        search goal fuel ((Conversion.startingFrom kind).foldl (Frontier.meet path) ⟨f.met, queue⟩)

/-- The shortest sequence of conversions from one kind to another. -/
def shortest? (start goal : StateKind) : Option (List Conversion) :=
  search goal (StateKind.all.length + 1) ⟨[start], [(start, [])]⟩

/-- The kinds that one or more conversions lead to. -/
def reachable (start : StateKind) : List StateKind :=
  StateKind.all.filter fun goal =>
    (Conversion.startingFrom start).any fun c => (shortest? c.target goal).isSome

end ExactSimplex.Plan
