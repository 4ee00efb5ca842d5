import TailFlow.Program.Builder
import TailFlow.Suite.Sample

/-!
# The built-in samples

Small programs that between them show every way in which a program is changed by scheduling, one
that must be left as it is, and one that must be refused.
-/

namespace TailFlow

/-- A program in the making. -/
abbrev Building := StateT ProgramBuilder (Outcome BuildError)

namespace Building

def tensor (name : String) (shape : List Nat) : Building TensorId :=
  modifyGet fun builder => builder.tensor name shape

def constant (name : String) (shape : List Nat) (values : List Float32) : Building TensorId :=
  modifyGet fun builder => builder.constant name shape values

def declare (name : String) : Building SubgraphId :=
  modifyGet fun builder => builder.declare name

def define (id : SubgraphId) (body : SubgraphBody) : Building Unit := do
  set (← liftM (m := Outcome BuildError) ((← get).define id body))

def finish (entry : SubgraphId) : Building Program := do
  match (← get).build entry with
  | .ok program => return program
  | .error cause => liftM (m := Outcome BuildError) (.refuse cause)

def run {α : Type} (building : Building α) : Outcome BuildError α :=
  return (← StateT.run building .empty).1

end Building

namespace Sample

open Building
open Node (ofKernel ofBinding ofCall ofSwitch ofSwitchLayer)

/-- A call in the middle of the entry. -/
def split : Building Program := do
  let x ← tensor "x" [4]
  let fx ← tensor "f_x" [4]
  let fy ← tensor "f_y" [4]
  let h ← tensor "h" []
  let r ← tensor "r" [4]
  let out ← tensor "out" [4]
  let main ← declare "main"
  let f ← declare "f"
  define f { inputs := [fx], nodes := [ofKernel "square" .mul [fx, fx] [fy]], outputs := [fy] }
  define main {
    inputs := [x]
    nodes := [ofBinding "bind_f" f [x] h, ofCall "call_f" h [r],
      ofKernel "add" .add [r, x] [out]]
    outputs := [out] }
  finish main

/-- One body with two callers. -/
def twoCallers : Building Program := do
  let x ← tensor "x" [4]
  let y ← tensor "y" [4]
  let sx ← tensor "s_x" [4]
  let sy ← tensor "s_y" [4]
  let sum ← tensor "s_sum" [4]
  let h1 ← tensor "h1" []
  let h2 ← tensor "h2" []
  let r1 ← tensor "r1" [4]
  let r2 ← tensor "r2" [4]
  let out ← tensor "out" [4]
  let main ← declare "main"
  let shared ← declare "shared"
  define shared {
    inputs := [sx, sy], nodes := [ofKernel "sum" .add [sx, sy] [sum]], outputs := [sum] }
  define main {
    inputs := [x, y]
    nodes := [ofBinding "bind_first" shared [x, y] h1, ofCall "first" h1 [r1],
      ofBinding "bind_second" shared [r1, x] h2, ofCall "second" h2 [r2],
      ofKernel "diff" .sub [r2, y] [out]]
    outputs := [out] }
  finish main

/-- Kernels only. -/
def straightLine : Building Program := do
  let a ← tensor "a" [2, 2]
  let c ← constant "c" [2, 2] [1.0, 0.5, -0.5, 2.0]
  let t ← tensor "t" [2, 2]
  let out ← tensor "out" [2, 2]
  let main ← declare "main"
  define main {
    inputs := [a]
    nodes := [ofKernel "scale" .mul [a, c] [t], ofKernel "negate" .neg [t] [out]]
    outputs := [out] }
  finish main

/-- A call in the middle of a body that is itself called twice. -/
def nested : Building Program := do
  let x ← tensor "x" [3]
  let gx ← tensor "g_x" [3]
  let gy ← tensor "g_y" [3]
  let fx ← tensor "f_x" [3]
  let fh ← tensor "f_h" []
  let fr ← tensor "f_r" [3]
  let fy ← tensor "f_y" [3]
  let h1 ← tensor "h1" []
  let h2 ← tensor "h2" []
  let r1 ← tensor "r1" [3]
  let r2 ← tensor "r2" [3]
  let out ← tensor "out" [3]
  let main ← declare "main"
  let f ← declare "f"
  let g ← declare "g"
  define g { inputs := [gx], nodes := [ofKernel "negate" .neg [gx] [gy]], outputs := [gy] }
  define f {
    inputs := [fx]
    nodes := [ofBinding "bind_g" g [fx] fh, ofCall "call_g" fh [fr],
      ofKernel "twice" .add [fr, fr] [fy]]
    outputs := [fy] }
  define main {
    inputs := [x]
    nodes := [ofBinding "bind_f1" f [x] h1, ofCall "call_f1" h1 [r1],
      ofBinding "bind_f2" f [r1] h2, ofCall "call_f2" h2 [r2],
      ofKernel "mix" .mul [r2, x] [out]]
    outputs := [out] }
  finish main

/-- A call that a switch picks one of two bodies for. -/
def branches : Building Program := do
  let x ← tensor "x" [1]
  let nought ← constant "zero" [1] [0.0]
  let cond ← tensor "cond" [1]
  let px ← tensor "p_x" [1]
  let nx ← tensor "n_x" [1]
  let ny ← tensor "n_y" [1]
  let hPos ← tensor "h_pos" []
  let hNeg ← tensor "h_neg" []
  let h ← tensor "h" []
  let r ← tensor "r" [1]
  let out ← tensor "out" [1]
  let main ← declare "main"
  let positive ← declare "positive"
  let negative ← declare "negative"
  define positive { inputs := [px], outputs := [px] }
  define negative { inputs := [nx], nodes := [ofKernel "flip" .neg [nx] [ny]], outputs := [ny] }
  define main {
    inputs := [x]
    nodes := [ofKernel "is_neg" .less [x, nought] [cond], ofBinding "bind_pos" positive [x] hPos,
      ofBinding "bind_neg" negative [x] hNeg, ofSwitch "abs" cond hNeg hPos h,
      ofCall "call_abs" h [r], ofKernel "double" .add [r, r] [out]]
    outputs := [out] }
  finish main

/-- A call that an index picks one of three handles for, two of them of one body. -/
def select : Building Program := do
  let index ← constant "index" [1] [2.0]
  let x ← tensor "x" [2]
  let ax ← tensor "a_x" [2]
  let ay ← tensor "a_y" [2]
  let cx ← tensor "c_x" [2]
  let h0 ← tensor "h0" []
  let h1 ← tensor "h1" []
  let h2 ← tensor "h2" []
  let h ← tensor "h" []
  let hc ← tensor "hc" []
  let r ← tensor "r" [2]
  let r2 ← tensor "r2" [2]
  let out ← tensor "out" [2]
  let main ← declare "main"
  let double ← declare "double"
  let copy ← declare "copy"
  define double { inputs := [ax], nodes := [ofKernel "double" .add [ax, ax] [ay]], outputs := [ay] }
  define copy { inputs := [cx], outputs := [cx] }
  define main {
    inputs := [x]
    nodes := [ofBinding "bind_0" copy [x] h0, ofBinding "bind_1" double [x] h1,
      ofBinding "bind_2" double [x] h2, ofSwitchLayer "pick" index [h0, h1, h2] h,
      ofCall "call_pick" h [r], ofBinding "bind_again" double [r] hc,
      ofCall "call_again" hc [r2], ofKernel "sub" .sub [r2, x] [out]]
    outputs := [out] }
  finish main

/-- Sums the numbers from its input down to one, in a loop of tail calls. -/
def countdown : Building Program := do
  let n ← tensor "n" [1]
  let nought ← constant "zero" [1] [0.0]
  let one ← constant "one" [1] [1.0]
  let hMain ← tensor "h_main" []
  let total ← tensor "total" [1]
  let out ← tensor "out" [1]
  let ln ← tensor "l_n" [1]
  let lAcc ← tensor "l_acc" [1]
  let more ← tensor "more" [1]
  let n1 ← tensor "n1" [1]
  let acc1 ← tensor "acc1" [1]
  let again ← tensor "h_again" []
  let stop ← tensor "h_stop" []
  let h ← tensor "h" []
  let lr ← tensor "l_r" [1]
  let dAcc ← tensor "d_acc" [1]
  let main ← declare "main"
  let loop ← declare "loop"
  let done ← declare "done"
  define done { inputs := [dAcc], outputs := [dAcc] }
  define loop {
    inputs := [ln, lAcc]
    nodes := [ofKernel "more" .less [nought, ln] [more], ofKernel "dec" .sub [ln, one] [n1],
      ofKernel "acc" .add [lAcc, ln] [acc1], ofBinding "again" loop [n1, acc1] again,
      ofBinding "stop" done [lAcc] stop, ofSwitch "pick" more again stop h,
      ofCall "next" h [lr]]
    outputs := [lr] }
  define main {
    inputs := [n]
    nodes := [ofBinding "start" loop [n, nought] hMain, ofCall "run" hMain [total],
      ofKernel "negate" .neg [total] [out]]
    outputs := [out] }
  finish main

/-- A subgraph that calls itself and goes on afterwards. -/
def selfRecursion : Building Program := do
  let x ← tensor "x" [1]
  let h ← tensor "h" []
  let r ← tensor "r" [1]
  let out ← tensor "out" [1]
  let main ← declare "main"
  define main {
    inputs := [x]
    nodes := [ofBinding "bind_self" main [x] h, ofCall "recurse" h [r],
      ofKernel "negate" .neg [r] [out]]
    outputs := [out] }
  finish main

def seeded (name description : String) (building : Building Program) (seed : Nat)
    (expectRejection : Bool) : Outcome BuildError Sample := do
  let program ← building.run
  return ⟨name, description, program, ← seededInputs program seed, expectRejection⟩

def builtin : Outcome BuildError (List Sample) := do
  let first ← [
    seeded "split" "one non-tail call followed by an add" split 1 false,
    seeded "two-callers" "one body called from two sites with different destinations" twoCallers 2
      false,
    seeded "straight-line" "kernels only; scheduling must leave it untouched" straightLine 3 false,
    seeded "nested" "a helper called non-tail from a body that is itself called twice" nested 4
      false,
    seeded "branches" "switch between two bodies whose result is used afterwards" branches 5 false,
    seeded "select" "switch_layer over three bodies, one of them shared" select 6 false].mapM id
  let loop ← countdown.run
  let recursive ← seeded "self-recursion" "direct non-tail self call" selfRecursion 7 true
  return first ++
    [⟨"countdown", "tail-recursive loop called non-tail from the entry", loop,
      [DenseArray.single 5], false⟩, recursive]

def builtin? (name : String) : Outcome BuildError (Option Sample) := do
  return (← builtin).find? fun sample => sample.name == name

end Sample

end TailFlow
