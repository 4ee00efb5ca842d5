import TailFlow.Collection.IdSet
import TailFlow.Outcome
import TailFlow.Program.Access
import TailFlow.Schedule.Cause

/-!
# The catalog of a program

The catalog tells which binders name a subgraph and which subgraphs can be reached from the entry.
Segments and exits are not named by binders. They are reached along with the subgraph that they were
cut from or stand behind.
-/

namespace TailFlow

/-- Who names which subgraph, and which subgraphs are reached. -/
structure Catalog where
  callersOf : IdMap IdSet
  reachable : IdSet
  deriving DecidableEq

namespace Program

def boundBy (program : Program) (id : SubgraphId) : List SubgraphId :=
  match program.subgraphs[id]? with
  | none => []
  | some subgraph => subgraph.nodes.filterMap fun node => program.nodes[node]?.bind Node.callee?

/-- The segments and exits that go along with a subgraph. -/
def attachedTo (program : Program) (id : SubgraphId) : List SubgraphId :=
  program.subgraphIds.filter fun other =>
    (program.subgraphs[other]?.bind fun subgraph => subgraph.kind.attachedTo?) == some id

/-- What a subgraph leads to: what goes along with it and what it binds. -/
def leadsTo (program : Program) (id : SubgraphId) : List SubgraphId :=
  program.attachedTo id ++ program.boundBy id

/-- What a subgraph brings along when it is first reached: what goes along with it, and what it binds
and is not reached already. -/
def brings (program : Program) (reached : IdSet) (id : SubgraphId) : List SubgraphId :=
  program.attachedTo id ++ (program.boundBy id).filter fun body => decide (body ∉ reached)

/-- All that the subgraphs that are not reached can bring along. -/
def ahead (program : Program) (reached : IdSet) : List SubgraphId :=
  (program.subgraphIds.filter fun id => decide (id ∉ reached)).flatMap program.leadsTo

theorem length_brings_le (program : Program) (reached : IdSet) (id : SubgraphId) :
    (program.brings reached id).length ≤ (program.leadsTo id).length := by
  unfold brings leadsTo
  rw [List.length_append, List.length_append]
  exact Nat.add_le_add_left (List.length_filter_le _ _) _

/-- What a subgraph can bring along is not ahead any more once it is reached. -/
theorem length_ahead_insert {program : Program} {reached : IdSet} {id : SubgraphId}
    (new : id ∉ reached) (known : id < program.subgraphs.size) :
    (program.ahead reached).length
      = (program.leadsTo id).length + (program.ahead (reached.insert id)).length := by
  have split : (program.subgraphIds.filter fun other => decide (other ∉ reached)).Perm
      (id :: program.subgraphIds.filter fun other => decide (other ∉ reached.insert id)) := by
    have distinct : program.subgraphIds.Nodup := List.nodup_range
    refine (List.perm_ext_iff_of_nodup (distinct.filter _) ?_).mpr fun other => ?_
    · refine List.nodup_cons.mpr ⟨fun found => ?_, distinct.filter _⟩
      have unreached := of_decide_eq_true (List.mem_filter.mp found).2
      exact unreached (IdSet.mem_insert.mpr (.inl rfl))
    · simp only [List.mem_cons, List.mem_filter, decide_eq_true_eq, IdSet.mem_insert, subgraphIds,
        List.mem_range]
      by_cases same : other = id
      · simp [same, new, known]
      · simp [same]
  calc (program.ahead reached).length
      = (program.leadsTo id ++ program.ahead (reached.insert id)).length :=
        (split.flatMap_right program.leadsTo).length_eq
    _ = _ := List.length_append

/-- Takes the subgraphs of a queue in turn, and puts what a new one brings along behind the others,
until the queue is empty. A subgraph may stand in the queue many times, and it is reached once. -/
def walk (program : Program) (queue : List SubgraphId) (reached : IdSet) :
    Outcome ScheduleError IdSet :=
  match queue with
  | [] => .ok reached
  | id :: rest =>
    if id ∈ reached then program.walk rest reached
    else if id < program.subgraphs.size then
      program.walk (rest ++ program.brings (reached.insert id) id) (reached.insert id)
    else .abort .dangling
termination_by queue.length + (program.ahead reached).length
decreasing_by
  · exact Nat.add_lt_add_right (Nat.lt_succ_self _) _
  · rename_i new known
    have brought := program.length_brings_le (reached.insert id) id
    rw [length_ahead_insert new known, List.length_append, List.length_cons]
    omega

end Program

namespace Catalog

def empty : Catalog := ⟨.empty, .empty⟩

def recordCaller (catalog : Catalog) (subgraph : SubgraphId) (binder : NodeId) : Catalog :=
  { catalog with callersOf := catalog.callersOf.alter subgraph fun known =>
      (known.getD .empty).insert binder }

def recordBinders (program : Program) (catalog : Catalog) (id : SubgraphId) :
    Outcome ScheduleError Catalog := do
  let subgraph ← program.subgraph id
  subgraph.nodes.foldlM (fun catalog binder => do
    let node ← program.node binder
    match node.callee? with
    | none => return catalog
    | some target =>
      Outcome.ensure (target < program.subgraphs.size) (.unknownSubgraph binder target)
      return catalog.recordCaller target binder) catalog

def build (program : Program) : Outcome ScheduleError Catalog := do
  let catalog ← program.subgraphIds.foldlM (recordBinders program) empty
  let reachable ← program.walk [program.entry] .empty
  return { catalog with reachable }

def callers (catalog : Catalog) (subgraph : SubgraphId) : IdSet :=
  (catalog.callersOf.get? subgraph).getD .empty

def callerCount (catalog : Catalog) (subgraph : SubgraphId) : Nat :=
  (catalog.callers subgraph).size

def isReachable (catalog : Catalog) (subgraph : SubgraphId) : Bool := subgraph ∈ catalog.reachable

/-- The reached subgraphs that more than one binder names, ascending. -/
def multiplyCalled (catalog : Catalog) : List SubgraphId :=
  (catalog.callersOf.entries.filter fun entry =>
    1 < entry.2.size && catalog.isReachable entry.1).map Prod.fst

end Catalog

end TailFlow
