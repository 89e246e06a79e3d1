import ProgramAnalysis.Dataflow.Graph
import ProgramAnalysis.Table
/-!
Worklist solution of data-flow problems. A fact gathers on the side of a node where control (or,
backward, its reverse) comes in and is carried over the node to the other side; when that side
changes, the nodes behind it wait to be visited again. Boundary nodes are not visited at first.
-/
namespace ProgramAnalysis

/-- `meet fact target` takes `fact` into `target`. A gathered fact changes at most `height`
times. -/
structure Analysis (ν ε φ : Type) where
  forward : Bool
  boundary : ν → φ
  initial : φ
  meet : φ → φ → φ
  transfer : ν → φ → φ
  carry : Edge ν ε → φ → φ
  height : Nat

structure Solution (ν φ : Type) where
  ins : Table ν φ
  outs : Table ν φ
  iterations : Nat
  visits : List (ν × Bool)

namespace Dataflow

variable {ν ε φ : Type} [DecidableEq ν] [DecidableEq φ]

/-- `visits` tells for each transfer whether it changed anything, the latest first. -/
structure State (ν φ : Type) where
  gathered : Table ν φ
  carried : Table ν φ
  queue : List ν
  iterations : Nat
  visits : List (ν × Bool)

variable (g : Graph ν ε) (a : Analysis ν ε φ)

def boundaryNodes : List ν := if a.forward then g.ends.map (·.1) else g.ends.map (·.2)

/-- The edges that bring facts to a node, each with the node it brings them from. -/
def feeding (n : ν) : List (Edge ν ε × ν) :=
  if a.forward then (g.edgesInto n).map fun e => (e, e.source)
  else (g.edgesFrom n).map fun e => (e, e.target)

/-- The nodes that a change at `n` concerns. -/
def behind (n : ν) : List ν := if a.forward then g.succs n else g.preds n

/-- A node that waits already does not wait twice. -/
def push (queue : List ν) (n : ν) : List ν := if n ∈ queue then queue else queue ++ [n]

def startFact (n : ν) : φ := if n ∈ boundaryNodes g a then a.boundary n else a.initial

def startFacts : Table ν φ := g.nodes.foldl (fun t n => t.insert n (startFact g a n)) .empty

def startQueue : List ν :=
  ((if a.forward then g.nodes else g.nodes.reverse).filter
    fun n => n ∉ boundaryNodes g a).foldl push []

def start : State ν φ := ⟨startFacts g a, startFacts g a, startQueue g a, 0, []⟩

def gather (s : State ν φ) (n : ν) (fact : φ) : φ :=
  (feeding g a n).foldl (fun acc (e, source) => match s.carried.get? source with
    | some f => a.meet (a.carry e f) acc
    | none => acc) fact

def visit (s : State ν φ) (n : ν) : State ν φ :=
  let s := { s with iterations := s.iterations + 1 }
  match s.gathered.get? n, s.carried.get? n with
  | some fact, some old =>
    let fact := gather g a s n fact
    let new := a.transfer n fact
    let gathered := s.gathered.insert n fact
    if new = old then { s with gathered, visits := (n, false) :: s.visits }
    else { s with
      gathered
      carried := s.carried.insert n new
      queue := (behind g a n).foldl push s.queue
      visits := (n, true) :: s.visits }
  | _, _ => s

def run : Nat → State ν φ → State ν φ
  | 0, s => s
  | fuel + 1, s =>
    match s.queue with
    | [] => s
    | n :: queue => run fuel (visit g a { s with queue } n)

/-- A node is queued at first, and then only when a node before it has changed: once on its first
visit, and once for each change of its gathered fact. -/
def visitBound : Nat := g.nodes.length + g.edges.length * (a.height + 2) + 1

def State.solution (s : State ν φ) (forward : Bool) : Solution ν φ where
  ins := if forward then s.gathered else s.carried
  outs := if forward then s.carried else s.gathered
  iterations := s.iterations
  visits := s.visits.reverse

def solve : Solution ν φ := (run g a (visitBound g a) (start g a)).solution a.forward

end Dataflow
end ProgramAnalysis
