import TailFlow.Proofs.Program.Checking
import TailFlow.Proofs.Runs.Machine

/-!
# Runs of plans do not break

A run of the plan of a checked program ends with results, or it is refused for what the program, the
inputs or the limits are. It never looks for anything that is not there, and it is never refused
because the plan itself is broken. Every subgraph that a value names is there, however deep the value
stands among the arguments of others; and the stack holds continuations that are there, and below them
one frame that ends the run.
-/

namespace TailFlow

open Program

/-- Whether an error tells of a broken plan, and not of a program, of inputs or of limits. -/
def EvalError.isInternal : EvalError → Bool
  | .inlineCall _ _ | .notPlanned _ | .nowhereToReturn _ | .unlinkedCall _ => true
  | _ => false

/-- A refusal that does not tell of a broken plan. -/
def IsExternal (stop : Stop EvalError) : Prop :=
  ∃ cause, stop = .refused cause ∧ cause.isInternal = false

theorem isExternal_refused {cause : EvalError} (hexternal : cause.isInternal = false) :
    IsExternal (.refused cause) :=
  ⟨cause, rfl, hexternal⟩

theorem ensure_ends {cause : EvalError} (hexternal : cause.isInternal = false) (condition : Bool) :
    Outcome.Ends (fun _ => True) IsExternal (Outcome.ensure condition cause) := by
  refine (Outcome.ends_ensure condition cause).weaken ?_
  rintro stop rfl
  exact isExternal_refused hexternal

/-- Every subgraph that a value names is there, in the arguments of handles as well. -/
inductive Value.Sound (P : Program) : Value → Prop where
  | array (array : DenseArray) : Sound P (.array array)
  | closure {callee : SubgraphId} {arguments : List Value} (hcallee : callee < P.subgraphs.size)
      (harguments : ∀ argument ∈ arguments, Sound P argument) : Sound P (.closure callee arguments)

/-- Every value that is bound is sound. -/
def Environment.Sound (P : Program) (env : Environment) : Prop :=
  ∀ ⦃id : TensorId⦄ ⦃value : Value⦄, env.get? id = some value → value.Sound P

namespace Environment

variable {P : Program} {env : Environment}

theorem sound_empty (P : Program) : Sound P .empty := nofun

theorem Sound.insert (henv : env.Sound P) {id : TensorId} {value : Value} (hvalue : value.Sound P) :
    Environment.Sound P (env.insert id value) := by
  intro other bound hbound
  rw [IdMap.get?_insert] at hbound
  split at hbound
  · exact Option.some.inj hbound ▸ hvalue
  · exact henv hbound

theorem bindAll_ends (henv : env.Sound P) {ids : List TensorId} {values : List Value}
    (hvalues : ∀ value ∈ values, value.Sound P) :
    Outcome.Ends (Environment.Sound P) IsExternal (env.bindAll ids values) := by
  by_cases hlength : ids.length = values.length
  · obtain ⟨after, hbind⟩ := exists_bindAll env hlength
    rw [hbind]
    intro id value hbound
    rcases bound_of_bindAll hbind hbound with hbefore | ⟨-, hmem⟩
    · exact henv hbefore
    · exact hvalues value hmem
  · rw [bindAll, if_neg hlength]
    exact Outcome.ends_refuse (isExternal_refused rfl)

/-! ### Reading -/

theorem value_ends (henv : env.Sound P) {id : TensorId} (hlt : id < P.tensors.size) :
    Outcome.Ends (Value.Sound P) IsExternal (env.value P id) := by
  unfold Environment.value
  split
  · rename_i value hbound
    exact henv hbound
  · rw [tensor_eq_ok.mpr (Array.getElem?_eq_getElem hlt), Outcome.ok_bind]
    split
    · exact Outcome.ends_refuse (isExternal_refused rfl)
    · split
      · exact .array _
      · exact Outcome.ends_refuse (isExternal_refused rfl)

theorem values_ends (henv : env.Sound P) {ids : List TensorId}
    (hlt : ∀ id ∈ ids, id < P.tensors.size) :
    Outcome.Ends (fun values => ∀ value ∈ values, value.Sound P) IsExternal (env.values P ids) :=
  Outcome.ends_mapM_forall fun id hmem => value_ends henv (hlt id hmem)

theorem array_ends (henv : env.Sound P) {id : TensorId} (hlt : id < P.tensors.size) :
    Outcome.Ends (fun _ => True) IsExternal (env.array P id) := by
  refine (value_ends henv hlt).bind fun value _ _ => ?_
  cases value with
  | array _ => trivial
  | closure _ _ => exact Outcome.ends_refuse (isExternal_refused rfl)

theorem closure_ends (henv : env.Sound P) {id : TensorId} (hlt : id < P.tensors.size) :
    Outcome.Ends (fun handle => handle.1 < P.subgraphs.size ∧ ∀ argument ∈ handle.2, argument.Sound P)
      IsExternal (env.closure P id) := by
  refine (value_ends henv hlt).bind fun value _ hvalue => ?_
  cases hvalue with
  | array _ => exact Outcome.ends_refuse (isExternal_refused rfl)
  | closure hcallee harguments => exact ⟨hcallee, harguments⟩

/-! ### Running a node -/

theorem combine_ends (op : KernelOp) (f : Float32 → Float32 → Float32) (left right : DenseArray) :
    Outcome.Ends (fun _ => True) IsExternal (op.combine f left right) := by
  unfold KernelOp.combine
  split
  · trivial
  · exact Outcome.ends_refuse (isExternal_refused rfl)

theorem apply_ends (op : KernelOp) (operands : List DenseArray) :
    Outcome.Ends (fun _ => True) IsExternal (op.apply operands) := by
  unfold KernelOp.apply
  split
  · trivial
  · trivial
  · exact combine_ends _ _ _ _
  · exact combine_ends _ _ _ _
  · exact combine_ends _ _ _ _
  · exact combine_ends _ _ _ _
  · exact Outcome.ends_refuse (isExternal_refused rfl)

theorem branchIndex_ends (index : DenseArray) (branches : Nat) :
    Outcome.Ends (· < branches) IsExternal (branchIndex index branches) := by
  unfold branchIndex
  split
  · exact Outcome.ends_refuse (isExternal_refused rfl)
  · split
    · exact Outcome.ends_refuse (isExternal_refused rfl)
    · split
      · assumption
      · exact Outcome.ends_refuse (isExternal_refused rfl)

/-- A node that is not a call runs without looking for anything that is not there. -/
theorem runNode_ends (hP : P.WellFormed) (henv : env.Sound P) {listed : ListedNode}
    (hlists : P.Lists listed) (hcall : listed.node.isCall = false) :
    Outcome.Ends (Environment.Sound P) IsExternal (env.runNode P listed.id) := by
  have hinputs {tensor : TensorId} (hmem : tensor ∈ listed.node.inputs) : tensor < P.tensors.size :=
    hP.inputs_lt hlists hmem
  have hfits := hP.fits hlists
  obtain ⟨owner, id, ⟨name, kind, inputs, outputs⟩⟩ := listed
  obtain ⟨-, -, -, hnode⟩ := hlists
  unfold Environment.runNode
  rw [node_eq_ok.mpr hnode, Outcome.ok_bind]
  cases kind with
  | kernel op =>
    refine (Outcome.ends_mapM fun tensor hmem => array_ends henv (hinputs hmem)).bind
      fun operands _ _ => (apply_ends op operands).bind fun results _ _ => bindAll_ends henv ?_
    intro value hmem
    obtain ⟨array, -, rfl⟩ := List.mem_map.mp hmem
    exact .array array
  | bind callee =>
    obtain ⟨target, htarget, -, hone⟩ := hfits
    obtain ⟨handle, rfl⟩ := List.length_eq_one_iff.mp hone
    refine (values_ends henv fun tensor hmem => hinputs hmem).bind fun arguments _ harguments => ?_
    exact henv.insert (.closure (subgraph_lt htarget) harguments)
  | call => exact nomatch hcall
  | switch =>
    obtain ⟨hthree, hone⟩ := hfits
    obtain ⟨condition, left, right, rfl⟩ := List.length_eq_three.mp hthree
    obtain ⟨handle, rfl⟩ := List.length_eq_one_iff.mp hone
    refine (array_ends henv (hinputs (by simp))).bind fun truth _ _ => ?_
    have htaken (taken : TensorId) (hmem : taken ∈ [condition, left, right]) :
        Outcome.Ends (Environment.Sound P) IsExternal (do
          let value ← env.value P taken
          return env.insert handle value) :=
      (value_ends henv (hinputs hmem)).bind fun value _ hvalue => henv.insert hvalue
    cases isTruthy truth with
    | true => exact htaken left (by simp)
    | false => exact htaken right (by simp)
  | switchLayer =>
    obtain ⟨htwo, hone⟩ := hfits
    obtain ⟨handle, rfl⟩ := List.length_eq_one_iff.mp hone
    cases inputs with
    | nil => exact nomatch htwo
    | cons condition branches =>
      refine (array_ends henv (hinputs List.mem_cons_self)).bind fun index _ _ => ?_
      refine (branchIndex_ends index _).bind fun place _ hplace => ?_
      rw [List.getElem?_eq_getElem hplace]
      have hmem : branches[place] ∈ condition :: branches := .tail _ (List.getElem_mem hplace)
      exact (value_ends henv (hinputs hmem)).bind fun value _ hvalue => henv.insert hvalue

end Environment

namespace Machine

/-! ### States -/

/-- A stack of continuations that are there, on one frame that ends the run. -/
inductive Stacked (P : Program) : List Frame → Prop where
  | bottom (destination : List TensorId) : Stacked P [⟨none, destination⟩]
  | push {next : SubgraphId} {frames : List Frame} (hnext : next < P.subgraphs.size)
      (destination : List TensorId) (hrest : Stacked P frames) :
      Stacked P (⟨some next, destination⟩ :: frames)

/-- What is known about every state that a run comes to. -/
structure State.Sound (P : Program) (state : State) : Prop where
  current : state.current < P.subgraphs.size
  env : state.env.Sound P
  frames : Stacked P state.frames

def Progression.Sound (P : Program) : Progression → Prop
  | .goesOn state => state.Sound P
  | .ends env _ => env.Sound P

theorem counters_step_ends (counters : Counters) (limits : RunLimits) :
    Outcome.Ends (fun _ => True) IsExternal (counters.step limits) := by
  unfold Counters.step
  dsimp only
  split
  · trivial
  · exact Outcome.ends_refuse (isExternal_refused rfl)

variable {P : Program} {plan : ExecutionPlan} {limits : RunLimits} {env : Environment}
  {frames : List Frame} {counters : Counters}

theorem runNodes_ends (hP : P.WellFormed) (henv : env.Sound P) {nodes : List NodeId}
    (hnodes : ∀ id ∈ nodes, ∃ owner node, P.Lists ⟨owner, id, node⟩ ∧ node.isCall = false) :
    Outcome.Ends (fun answer => answer.1.Sound P) IsExternal
      (runNodes P limits nodes env counters) := by
  induction nodes generalizing env counters with
  | nil => exact henv
  | cons id rest ih =>
    obtain ⟨⟨owner, node, hlists, hcall⟩, hrest⟩ := List.forall_mem_cons.mp hnodes
    refine (counters_step_ends counters limits).bind fun counters _ _ => ?_
    refine (Environment.runNode_ends hP henv hlists hcall).bind fun env _ henv => ?_
    exact ih henv hrest

theorem enterCallee_ends (hP : P.WellFormed) (henv : env.Sound P) (hframes : Stacked P frames)
    {listed : ListedNode} (hlists : P.Lists listed) (hcall : listed.node.isCall) :
    Outcome.Ends (State.Sound P) IsExternal (enterCallee P listed.id env frames counters) := by
  obtain ⟨-, -, -, hnode⟩ := id hlists
  obtain ⟨handle, hhead⟩ := hP.exists_handle hlists hcall
  have hlt := hP.inputs_lt hlists (List.mem_of_head? hhead)
  rw [List.head?_eq_getElem?] at hhead
  unfold enterCallee
  rw [node_eq_ok.mpr hnode, Outcome.ok_bind, hhead, Outcome.following_some, Outcome.ok_bind]
  refine (Environment.closure_ends henv hlt).bind fun ⟨callee, arguments⟩ _ ⟨hcallee, harguments⟩ => ?_
  dsimp only
  rw [subgraph_eq_ok.mpr (Array.getElem?_eq_getElem hcallee), Outcome.ok_bind]
  refine (Environment.bindAll_ends henv harguments).bind fun env _ henv => ?_
  exact ⟨hcallee, henv, hframes⟩

theorem returnFrom_ends (hP : P.WellFormed) (henv : env.Sound P) (hframes : Stacked P frames)
    {id : SubgraphId} {subgraph : Subgraph} (hsubgraph : P.subgraphs[id]? = some subgraph) :
    Outcome.Ends (Progression.Sound P) IsExternal (returnFrom P id env frames counters) := by
  unfold returnFrom
  rw [subgraph_eq_ok.mpr hsubgraph, Outcome.ok_bind]
  have hlt : ∀ tensor ∈ subgraph.outputs, tensor < P.tensors.size :=
    fun tensor hmem => hP.interface hsubgraph tensor (List.mem_append_right _ hmem)
  refine (Environment.values_ends henv hlt).bind fun results _ hresults => ?_
  cases hframes with
  | bottom destination =>
    exact (Environment.bindAll_ends henv hresults).bind fun env _ henv => henv
  | push hnext destination hrest =>
    exact (Environment.bindAll_ends henv hresults).bind fun env _ henv => ⟨hnext, henv, hrest⟩

theorem pushLink_ends (hframes : Stacked plan.program frames) {call : NodeId} {link : Link}
    (hlink : plan.program.linkFor? call = some link)
    (hnext : link.continuation < plan.program.subgraphs.size) :
    Outcome.Ends (Stacked plan.program) IsExternal
      (pushLink plan limits call link.continuation frames) := by
  unfold pushLink ExecutionPlan.linkFor?
  rw [Outcome.orRefuse_eq_ok.mpr hlink, Outcome.ok_bind]
  exact (ensure_ends rfl _).bind fun _ _ _ => .push hnext link.tensors hframes

/-! ### Steps and runs -/

/-- The nodes that a subgraph runs before it ends are listed, and none is a call. -/
theorem lists_inlineNodes (hP : P.WellFormed) {id : SubgraphId} {subgraph : Subgraph}
    (hsubgraph : P.subgraphs[id]? = some subgraph) {lowered : LoweredSubgraph}
    (hnodes : lowered.nodes = subgraph.nodes)
    (hends : ExecutionPlan.Ends P subgraph lowered.terminator) :
    ∀ inner ∈ inlineNodes lowered,
      ∃ owner node, P.Lists ⟨owner, inner, node⟩ ∧ node.isCall = false := by
  unfold inlineNodes
  rw [hnodes]
  generalize lowered.terminator = terminator at hends
  cases hends with
  | returns hnone => exact hnone.lists hP hsubgraph (List.Subset.refl _)
  | tailCall hsplit hnone _ _ _ _ | linkedCall hsplit hnone _ _ _ =>
    dsimp only
    rw [hsplit, List.dropLast_concat]
    exact hnone.lists hP hsubgraph (hsplit ▸ List.subset_append_left _ _)

section Steps

variable (hP : P.WellFormed) (hlowers : plan.Lowers P)
  (hlinks : ∀ call link, P.links.get? call = some link → P.LinkFits call link)

include hP hlowers hlinks

/-- A step from a sound state leads to a sound state, ends the run or is refused. -/
theorem step_ends {state : State} (hstate : state.Sound P) :
    Outcome.Ends (Progression.Sound P) IsExternal (step plan limits state) := by
  obtain ⟨current, env, frames, counters⟩ := state
  obtain ⟨hcurrent, henv, hframes⟩ := hstate
  obtain rfl := hlowers.program_eq
  have hsubgraph := Array.getElem?_eq_getElem hcurrent
  obtain ⟨lowered, hlowered, hnodes, hends⟩ := hlowers.lowered hsubgraph
  unfold step
  rw [Outcome.orRefuse_eq_ok.mpr hlowered, Outcome.ok_bind]
  refine (runNodes_ends hP henv (lists_inlineNodes hP hsubgraph hnodes hends)).bind
    fun answer _ henv => ?_
  generalize lowered.terminator = terminator at hends ⊢
  cases hends with
  | returns _ => exact returnFrom_ends hP henv hframes hsubgraph
  | tailCall hsplit _ hnode hcall _ _ =>
    have hlists := ExecutionPlan.lists_last hsubgraph hsplit hnode
    exact (enterCallee_ends hP henv hframes hlists hcall).bind fun state _ hstate => hstate
  | linkedCall hsplit _ hnode hcall hlink =>
    have hlists := ExecutionPlan.lists_last hsubgraph hsplit hnode
    obtain ⟨continuation, hcontinuation, -⟩ := (hlinks _ _ hlink).resumes
    refine (pushLink_ends hframes hlink (subgraph_lt hcontinuation)).bind fun frames _ hframes => ?_
    exact (enterCallee_ends hP henv hframes hlists hcall).bind fun state _ hstate => hstate

/-- However many subgraphs a run from a sound state enters, it is not refused because of the plan. -/
theorem runFor_ends (subgraphs : Nat) {state : State} (hstate : state.Sound P) :
    Outcome.Ends (fun answer => answer.1.Sound P)
      (fun stop => IsExternal stop ∨ stop = .abort .endless)
      (runFor plan limits subgraphs state) := by
  induction subgraphs generalizing state with
  | zero => exact .inr rfl
  | succ subgraphs ih =>
    refine ((step_ends hP hlowers hlinks hstate).weaken fun _ => .inl).bind
      fun progression _ hprogression => ?_
    cases progression with
    | goesOn state => exact ih hprogression
    | ends env counters => exact hprogression

end Steps

/-! ### Whole runs -/

theorem entryArgument_ends {formal : TensorId} (hlt : formal < P.tensors.size) (input : DenseArray) :
    Outcome.Ends (Value.Sound P) IsExternal (entryArgument P formal input) := by
  unfold entryArgument
  rw [tensor_eq_ok.mpr (Array.getElem?_eq_getElem hlt), Outcome.ok_bind]
  exact (ensure_ends rfl _).bind fun _ _ _ => .array input

theorem start_ends (hP : P.WellFormed) (inputs : List DenseArray) :
    Outcome.Ends (State.Sound P) IsExternal (start P inputs) := by
  have hentry := Array.getElem?_eq_getElem hP.entry
  have harguments : Outcome.Ends (fun arguments => ∀ value ∈ arguments, value.Sound P) IsExternal
      (entryArguments P inputs) := by
    unfold entryArguments entryInputs
    rw [subgraph_eq_ok.mpr hentry, Outcome.ok_bind]
    refine (ensure_ends rfl _).bind fun _ _ _ => Outcome.ends_mapM_forall fun pair hmem => ?_
    refine entryArgument_ends (hP.interface hentry pair.1 ?_) pair.2
    exact List.mem_append_left _ (List.of_mem_zip hmem).1
  unfold start entryInputs
  rw [subgraph_eq_ok.mpr hentry, Outcome.ok_bind]
  refine harguments.bind fun arguments _ harguments => ?_
  refine (Environment.bindAll_ends (Environment.sound_empty P) harguments).bind fun env _ henv => ?_
  exact ⟨hP.entry, henv, .bottom P.outputs⟩

theorem run_ends (hP : P.WellFormed) (hprogram : plan.program = P)
    (houtputs : ∀ tensor ∈ P.outputs, tensor < P.tensors.size) {inputs : List DenseArray}
    {allowed : Stop EvalError → Prop} (hexternal : ∀ stop, IsExternal stop → allowed stop)
    (hsubgraphs : ∀ state, start P inputs = .ok state → Outcome.Ends (fun answer => answer.1.Sound P)
      allowed (runFor plan limits (entryAllowance limits) state)) :
    Outcome.Ends (fun _ => True) allowed (run plan limits inputs) := by
  subst hprogram
  refine ((start_ends hP inputs).weaken hexternal).bind fun state hstart _ => ?_
  refine (hsubgraphs state hstart).bind fun answer _ henv => ?_
  refine ((Outcome.ends_mapM fun tensor hmem =>
    Environment.array_ends henv (houtputs tensor hmem)).weaken hexternal).bind fun _ _ _ => ?_
  trivial

/-- The ways in which an evaluation may end if nothing is looked for that is not there. -/
theorem cases_of_ends {α : Type} {kept : α → Prop} {evaluation : Evaluation α}
    (hends : Outcome.Ends kept (fun stop => IsExternal stop ∨ stop = .abort .endless) evaluation) :
    (∃ answer, evaluation = .ok answer)
      ∨ (∃ cause, evaluation = .error (.refused cause) ∧ cause.isInternal = false)
      ∨ evaluation = .error (.abort .endless) := by
  rcases hends.cases with ⟨answer, hok, -⟩ | ⟨stop, hstop, ⟨cause, rfl, hexternal⟩ | rfl⟩
  · exact .inl ⟨answer, hok⟩
  · exact .inr (.inl ⟨cause, hstop, hexternal⟩)
  · exact .inr (.inr hstop)

/-- A run of the plan of a checked program has results, or it is refused for a cause that tells of no
broken plan, or it has entered as many subgraphs as it may; and it comes to no other end however many
subgraphs it may enter. -/
theorem run_unbroken (hvalid : P.validate = .ok ()) (hplan : ExecutionPlan.lower P = .ok plan)
    (limits : RunLimits) (inputs : List DenseArray) :
    ((∃ execution, run plan limits inputs = .ok execution)
        ∨ (∃ cause, run plan limits inputs = .error (.refused cause) ∧ cause.isInternal = false)
        ∨ run plan limits inputs = .error (.abort .endless))
      ∧ ∀ state, start plan.program inputs = .ok state → ∀ subgraphs,
        (∃ answer, runFor plan limits subgraphs state = .ok answer)
          ∨ (∃ cause, runFor plan limits subgraphs state = .error (.refused cause)
            ∧ cause.isInternal = false)
          ∨ runFor plan limits subgraphs state = .error (.abort .endless) := by
  obtain ⟨hP, houtputs, -, hlinks⟩ := validate_eq_ok.mp hvalid
  have hlowers := ExecutionPlan.lowers_of_lower hP hplan
  have hends (subgraphs : Nat) (state : State) (hstart : start P inputs = .ok state) :
      Outcome.Ends (fun answer => answer.1.Sound P)
        (fun stop => IsExternal stop ∨ stop = .abort .endless)
        (runFor plan limits subgraphs state) :=
    runFor_ends hP hlowers hlinks subgraphs ((start_ends hP inputs).of_eq_ok hstart)
  constructor
  · exact cases_of_ends (run_ends hP hlowers.program_eq houtputs (fun _ => .inl) (hends _))
  · intro state hstart subgraphs
    rw [hlowers.program_eq] at hstart
    exact cases_of_ends (hends subgraphs state hstart)

end Machine

/-- A body is called by a handle that it is given, and a link leads on from the call that gives it. -/
def carried : Program where
  tensors := #["x", "inner", "outer", "y", "z", "given", "result", "argument", "value"].map
    fun name => ⟨name, [], .f32, none⟩
  nodes := #[⟨"bind_inner", .bind 2, [0], [1]⟩, ⟨"bind_outer", .bind 1, [1], [2]⟩,
    ⟨"call_outer", .call, [2], [3]⟩, ⟨"finish", .kernel .copy, [3], [4]⟩,
    ⟨"call_given", .call, [5], [6]⟩, ⟨"pass", .kernel .copy, [7], [8]⟩]
  subgraphs := #[⟨"main", .body, [0], [4], [0, 1, 2]⟩, ⟨"outer", .body, [5], [6], [4]⟩,
    ⟨"inner", .body, [7], [8], [5]⟩, ⟨"rest", .segment 0, [3], [4], [3]⟩]
  order := [0, 1, 2, 3]
  entry := 0
  outputs := [4]
  links := IdMap.empty.insert 2 ⟨2, 3, 3, [3]⟩

/-- The plan runs, and it does not break whatever it is given. -/
theorem carried_unbroken : ∃ plan, ExecutionPlan.lower carried = .ok plan
    ∧ Machine.run plan ⟨2, 4⟩ [⟨[], [0], rfl⟩] = .ok ⟨[⟨[], [0], rfl⟩], countAll .empty [0, 1, 2], 4⟩
    ∧ ∀ limits inputs, Machine.run plan limits inputs ≠ .error (.abort .dangling)
      ∧ ∀ id, Machine.run plan limits inputs ≠ .error (.refused (.nowhereToReturn id)) := by
  obtain ⟨plan, hplan, hrun⟩ : ∃ plan, ExecutionPlan.lower carried = .ok plan
      ∧ Machine.run plan ⟨2, 4⟩ [⟨[], [0], rfl⟩]
        = .ok ⟨[⟨[], [0], rfl⟩], countAll .empty [0, 1, 2], 4⟩ :=
    Outcome.exists_of_holds _ (by decide +kernel)
  refine ⟨plan, hplan, hrun, fun limits inputs => ?_⟩
  rcases (Machine.run_unbroken (by decide +kernel) hplan limits inputs).1 with
    ⟨execution, hok⟩ | ⟨cause, hrefused, hexternal⟩ | hendless
  · rw [hok]
    exact ⟨nofun, nofun⟩
  · rw [hrefused]
    refine ⟨nofun, fun id hsame => ?_⟩
    cases hsame
    exact nomatch hexternal
  · rw [hendless]
    exact ⟨nofun, nofun⟩

end TailFlow
