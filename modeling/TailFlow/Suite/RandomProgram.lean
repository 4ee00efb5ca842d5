import TailFlow.Suite.Builtin

/-!
# Random programs

A program made from a seed, in which every subgraph calls only subgraphs with greater numbers. Its
choices are drawn from a stream of random numbers, but any source of choices will do.
-/

namespace TailFlow.RandomProgram

variable {σ : Type} [RandomSource σ]

/-- A program in the making, with the source it is drawn from. -/
abbrev Drawing (σ : Type) := StateT σ Building

def below (bound : Nat) : Drawing σ Nat := modifyGet (RandomSource.below bound)

def flip : Drawing σ Bool := modifyGet RandomSource.flip

def between (first last : Nat) : Drawing σ Nat := return first + (← below (last - first + 1))

def pick (live : List TensorId) : Drawing σ TensorId := return live.getD (← below live.length) 0

/-- The shape of all tensors but handles. -/
def shape : List Nat := [4]

/-- The kernel of a drawn number. -/
def kernelOf : Nat → KernelOp
  | 0 => .add
  | 1 => .sub
  | 2 => .mul
  | _ => .neg

/-- Adds a call of a subgraph on drawn arguments. The result is the tensor it writes, after the
nodes it takes. -/
def addCall (stem : String) (callee : SubgraphId) (formals live : List TensorId) :
    Drawing σ (List Node × TensorId) := do
  let arguments ← formals.mapM fun _ => pick live
  let handle ← Building.tensor (stem ++ "_h") []
  let result ← Building.tensor (stem ++ "_r") shape
  return ([.ofBinding (stem ++ "_bind") callee arguments handle,
    .ofCall (stem ++ "_call") handle [result]], result)

def addKernel (stem : String) (live : List TensorId) : Drawing σ (List Node × TensorId) := do
  let op := kernelOf (← below 4)
  let operands ← (List.range (op.arity.getD 1)).mapM fun _ => pick live
  let result ← Building.tensor (stem ++ "_y") shape
  return ([.ofKernel (stem ++ "_" ++ op.name) op operands [result]], result)

/-- Whether a step of a subgraph is a call. Only a subgraph with others after it has a choice. -/
def drawsCall (index count : Nat) : Drawing σ Bool :=
  if index + 1 < count then flip else return false

/-- Adds a step of a subgraph to its nodes and to the tensors that can be read. -/
def addStep (formals : List (List TensorId)) (index : Nat)
    (state : List Node × List TensorId) (step : Nat) : Drawing σ (List Node × List TensorId) := do
  let (nodes, live) := state
  let stem := s!"sg{index}_s{step}"
  let (added, result) ←
    if ← drawsCall index formals.length then do
      let callee ← between (index + 1) (formals.length - 1)
      addCall stem callee (formals.getD callee []) live
    else addKernel stem live
  return (nodes ++ added, live ++ [result])

def addSubgraph (formals : List (List TensorId)) (index : Nat) : Drawing σ Unit := do
  let inputs := formals.getD index []
  let steps ← between 1 4
  let (nodes, live) ← (List.range steps).foldlM (addStep formals index) ([], inputs)
  Building.define index ⟨inputs, nodes, live.getLast?.toList⟩

def addFormals (index : Nat) : Drawing σ (List TensorId) := do
  let slots ← between 1 2
  (List.range slots).mapM fun slot => Building.tensor s!"sg{index}_in{slot}" shape

/-- Makes a program, and tells how many subgraphs it has. -/
def draw : Drawing σ (Program × Nat) := do
  let count ← between 2 5
  (List.range count).forM fun index => do
    let _ ← Building.declare s!"sg{index}"
  let formals ← (List.range count).mapM addFormals
  (List.range count).reverse.forM (addSubgraph formals)
  return (← Building.finish 0, count)

/-- The random program of a source, with inputs made from a seed. -/
def sample (source : σ) (seed : Nat) : Outcome BuildError Sample := do
  let ((program, count), _) ← Building.run (StateT.run draw source)
  return ⟨s!"random-{seed}", s!"random acyclic program ({count} subgraphs)", program,
    ← seededInputs program seed, false⟩

def ofSeed (seed : Nat) : Outcome BuildError Sample := sample (RandomStream.ofSeed seed) seed

end TailFlow.RandomProgram
